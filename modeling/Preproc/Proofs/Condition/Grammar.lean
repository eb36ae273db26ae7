import Preproc.Condition.Expr

set_option autoImplicit false

/-! # The grammar of conditions

A condition is a sentence of a grammar with one level for each rank of operators: a level is a
first operand of the level below it and then any number of operators of its rank, each with its
right operand. A tree of the grammar shows all of this in its type, so that every tree is a
sentence.

A tree is written by its leaves and operators in order (`Sentence.lexemes`). It stands for an
expression in which the operators of each level group to the left (`Sentence.expr`), and no two
trees stand for the same expression (`Sentence.expr_injective`). -/

namespace Preproc.Condition

/-! ## Trees -/

mutual

/-- A whole condition. -/
inductive Sentence where
  | plain (test : Level looseRank)
  | choice (test : Level looseRank) (yes no : Sentence)

/-- An expression whose binary operators, outside parentheses, have at most the given rank. -/
inductive Level : Nat → Type where
  | number (text : Bytes) : Level 0
  | character (text : Bytes) : Level 0
  | name (text : Bytes) : Level 0
  | group (inner : Sentence) : Level 0
  | unary (op : UnaryOp) (operand : Level 0) : Level 0
  | chain {rank : Nat} (first : Level rank) (more : Tail rank) : Level (rank + 1)

/-- What follows the first operand of a level: operators of the rank above `rank`, each with its
    right operand. -/
inductive Tail : Nat → Type where
  | nil {rank : Nat} : Tail rank
  | cons {rank : Nat} (op : BinaryOp) (fits : op.rank = rank + 1) (operand : Level rank)
      (more : Tail rank) : Tail rank

end

/-! ## Written form -/

/-- How an operator on one operand is written. -/
def UnaryOp.symbol : UnaryOp → Symbol
  | neg => .minus
  | pos => .plus
  | not => .bang
  | complement => .tilde

/-- How an operator on two operands is written. -/
def BinaryOp.symbol : BinaryOp → Symbol
  | logicalOr => .orOr
  | logicalAnd => .andAnd
  | bitOr => .bar
  | bitXor => .caret
  | bitAnd => .amp
  | equal => .equal
  | notEqual => .notEqual
  | lessEqual => .lessEqual
  | greaterEqual => .greaterEqual
  | less => .less
  | greater => .greater
  | shiftLeft => .shiftLeft
  | shiftRight => .shiftRight
  | add => .plus
  | sub => .minus
  | mul => .star
  | div => .slash
  | mod => .percent

theorem Symbol.unary?_eq_some {s : Symbol} {op : UnaryOp} :
    s.unary? = some op ↔ s = op.symbol := by
  cases s <;> cases op <;> decide

theorem Symbol.binary?_eq_some {s : Symbol} {op : BinaryOp} :
    s.binary? = some op ↔ s = op.symbol := by
  cases s <;> cases op <;> decide

mutual

/-- The leaves and operators of a condition, in order. -/
def Sentence.lexemes : Sentence → List Lexeme
  | .plain test => test.lexemes
  | .choice test yes no =>
    test.lexemes ++ .symbol .question :: (yes.lexemes ++ .symbol .colon :: no.lexemes)

/-- The leaves and operators of a level, in order. -/
def Level.lexemes : {rank : Nat} → Level rank → List Lexeme
  | _, .number text => [.number text]
  | _, .character text => [.character text]
  | _, .name text => [.name text]
  | _, .group inner => .symbol .leftParen :: (inner.lexemes ++ [.symbol .rightParen])
  | _, .unary op operand => .symbol op.symbol :: operand.lexemes
  | _, .chain first more => first.lexemes ++ more.lexemes

/-- The operators and operands that follow the first, in order. -/
def Tail.lexemes : {rank : Nat} → Tail rank → List Lexeme
  | _, .nil => []
  | _, .cons op _ operand more => .symbol op.symbol :: (operand.lexemes ++ more.lexemes)

end

/-! ## Expressions -/

mutual

/-- The expression that a condition stands for. -/
def Sentence.expr : Sentence → Expr
  | .plain test => test.expr
  | .choice test yes no => .choice test.expr yes.expr no.expr

/-- The expression that a level stands for. -/
def Level.expr : {rank : Nat} → Level rank → Expr
  | _, .number text => .number text
  | _, .character text => .character text
  | _, .name text => .name text
  | _, .group inner => .group inner.expr
  | _, .unary op operand => .unary op operand.expr
  | _, .chain first more => more.onto first.expr

/-- The operators of a level applied to what stands before them, from left to right. -/
def Tail.onto : {rank : Nat} → Tail rank → Expr → Expr
  | _, .nil, left => left
  | _, .cons op _ operand more, left => more.onto (.binary op left operand.expr)

end

/-! ## One tree for each expression -/

/-- How many operators of a tail there are. -/
def Tail.length : {rank : Nat} → Tail rank → Nat
  | _, .nil => 0
  | _, .cons _ _ _ more => more.length + 1

/-- How often one can go to the left operand from the top of an expression before the operator is
    not one of the rank above `rank`. -/
def Expr.spine (rank : Nat) : Expr → Nat
  | .binary op left _ => if op.rank = rank + 1 then left.spine rank + 1 else 0
  | _ => 0

theorem Tail.spine_onto {rank : Nat} : ∀ (t : Tail rank) (left : Expr),
    (t.onto left).spine rank = t.length + left.spine rank
  | .nil, left => by simp [onto, length]
  | .cons op fits operand more, left => by
    rw [onto, spine_onto more, Expr.spine, if_pos fits, length]
    omega

theorem Tail.spine_onto_of_ne {rank other : Nat} (hne : rank ≠ other) :
    ∀ (t : Tail rank) {left : Expr}, left.spine other = 0 → (t.onto left).spine other = 0
  | .nil, _, hleft => hleft
  | .cons op fits operand more, left, _ => by
    refine spine_onto_of_ne hne more ?_
    rw [Expr.spine, if_neg (by omega)]

theorem Level.spine_eq_zero : ∀ {rank : Nat} (l : Level rank) {other : Nat}, rank ≤ other →
    l.expr.spine other = 0
  | _, .number _, _, _ | _, .character _, _, _ | _, .name _, _, _ | _, .group _, _, _
  | _, .unary .., _, _ => rfl
  | _, .chain first more, _, hle =>
    more.spine_onto_of_ne (by omega) (first.spine_eq_zero (Nat.le_of_succ_le hle))

theorem Tail.onto_eq_choice {rank : Nat} {test yes no : Expr} : ∀ {t : Tail rank} {left : Expr},
    t.onto left = .choice test yes no → left = .choice test yes no
  | .nil, _, h => h
  | .cons op fits operand more, left, h => by
    have hbinary := onto_eq_choice (t := more) h
    exact absurd hbinary (by simp)

theorem Level.expr_ne_choice {test yes no : Expr} : ∀ {rank : Nat} (l : Level rank),
    l.expr ≠ .choice test yes no
  | _, .number _ | _, .character _ | _, .name _ | _, .group _ | _, .unary .. => by simp [expr]
  | _, .chain first more => fun h => first.expr_ne_choice (more.onto_eq_choice h)

mutual

/-- No two conditions stand for the same expression. -/
theorem Sentence.expr_injective : ∀ {a b : Sentence}, a.expr = b.expr → a = b
  | .plain test, .plain test', h => congrArg Sentence.plain (Level.expr_injective h)
  | .choice test yes no, .choice test' yes' no', h => by
    simp only [Sentence.expr, Expr.choice.injEq] at h
    rw [Level.expr_injective h.1, Sentence.expr_injective h.2.1, Sentence.expr_injective h.2.2]
  | .plain test, .choice .., h => absurd h test.expr_ne_choice
  | .choice .., .plain test, h => absurd h.symm test.expr_ne_choice

theorem Level.expr_injective : ∀ {rank : Nat} {a b : Level rank}, a.expr = b.expr → a = b
  | _, .number _, b, h | _, .character _, b, h | _, .name _, b, h => by
    cases b <;> simp_all [Level.expr]
  | _, .group inner, b, h => by
    cases b with
    | group inner' => rw [Sentence.expr_injective (Expr.group.inj h)]
    | _ => exact absurd h (by simp [Level.expr])
  | _, .unary op operand, b, h => by
    cases b with
    | unary op' operand' =>
      obtain ⟨rfl, hoperand⟩ := Expr.unary.inj h
      rw [Level.expr_injective hoperand]
    | _ => exact absurd h (by simp [Level.expr])
  | _, @Level.chain rank first more, .chain first' more', h => by
    -- the number of operators of this level can be counted in the expression
    have hlength : more.length = more'.length := by
      have hspine := congrArg (Expr.spine rank) h
      simpa [Level.expr, Tail.spine_onto, Level.spine_eq_zero] using hspine
    obtain ⟨hfirst, rfl⟩ := Tail.onto_injective hlength h
    rw [Level.expr_injective hfirst]

theorem Tail.onto_injective : ∀ {rank : Nat} {t t' : Tail rank} {left left' : Expr},
    t.length = t'.length → t.onto left = t'.onto left' → left = left' ∧ t = t'
  | _, .nil, .nil, _, _, _, h => ⟨h, rfl⟩
  | _, .cons op fits operand more, .cons op' fits' operand' more', _, _, hlength, h => by
    obtain ⟨hbinary, rfl⟩ := Tail.onto_injective (Nat.succ.inj hlength) h
    obtain ⟨rfl, hleft, hoperand⟩ := Expr.binary.inj hbinary
    exact ⟨hleft, by rw [Level.expr_injective hoperand]⟩

end

end Preproc.Condition
