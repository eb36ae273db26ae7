import Preproc.Text.Bytes

set_option autoImplicit false

/-! # Condition expressions

The integer expressions of `#if` and `#elif`: constants, names and the operators of C, without
assignment and comma. A tree says how the operators group; parentheses stay in it, so that a tree
has exactly one way of being written. -/

namespace Preproc.Condition

/-- The operators and parentheses of expressions, as they are written. -/
inductive Symbol where
  | orOr
  | andAnd
  | equal
  | notEqual
  | lessEqual
  | greaterEqual
  | shiftLeft
  | shiftRight
  | minus
  | plus
  | star
  | slash
  | percent
  | amp
  | bar
  | caret
  | bang
  | tilde
  | less
  | greater
  | question
  | colon
  | leftParen
  | rightParen
  deriving DecidableEq

/-- The parts of a written expression. Constants keep their text; they are decoded when they are
    evaluated. -/
inductive Lexeme where
  | number (text : Bytes)
  | character (text : Bytes)
  | name (text : Bytes)
  | symbol (s : Symbol)
  deriving DecidableEq

/-- The operators on one operand. -/
inductive UnaryOp where
  | neg
  | pos
  | not
  | complement
  deriving DecidableEq

/-- The operators on two operands. -/
inductive BinaryOp where
  | logicalOr
  | logicalAnd
  | bitOr
  | bitXor
  | bitAnd
  | equal
  | notEqual
  | lessEqual
  | greaterEqual
  | less
  | greater
  | shiftLeft
  | shiftRight
  | add
  | sub
  | mul
  | div
  | mod
  deriving DecidableEq

/-- How loosely an operator binds, from 1 for multiplication to 10 for `||`. -/
def BinaryOp.rank : BinaryOp → Nat
  | mul | div | mod => 1
  | add | sub => 2
  | shiftLeft | shiftRight => 3
  | lessEqual | greaterEqual | less | greater => 4
  | equal | notEqual => 5
  | bitAnd => 6
  | bitXor => 7
  | bitOr => 8
  | logicalAnd => 9
  | logicalOr => 10

/-- The largest rank of a binary operator. -/
def looseRank : Nat := 10

/-- The operator on two operands that a symbol stands for. -/
def Symbol.binary? : Symbol → Option BinaryOp
  | orOr => some .logicalOr
  | andAnd => some .logicalAnd
  | bar => some .bitOr
  | caret => some .bitXor
  | amp => some .bitAnd
  | equal => some .equal
  | notEqual => some .notEqual
  | lessEqual => some .lessEqual
  | greaterEqual => some .greaterEqual
  | less => some .less
  | greater => some .greater
  | shiftLeft => some .shiftLeft
  | shiftRight => some .shiftRight
  | plus => some .add
  | minus => some .sub
  | star => some .mul
  | slash => some .div
  | percent => some .mod
  | bang | tilde | question | colon | leftParen | rightParen => none

/-- The operator on one operand that a symbol stands for. -/
def Symbol.unary? : Symbol → Option UnaryOp
  | minus => some .neg
  | plus => some .pos
  | bang => some .not
  | tilde => some .complement
  | _ => none

/-- An expression. -/
inductive Expr where
  | number (text : Bytes)
  | character (text : Bytes)
  | name (text : Bytes)
  | group (inner : Expr)
  | unary (op : UnaryOp) (operand : Expr)
  | binary (op : BinaryOp) (left right : Expr)
  | choice (test yes no : Expr)
  deriving DecidableEq

end Preproc.Condition
