import Preproc.Condition.Lexer

set_option autoImplicit false

/-! # Grouping the operators of a condition

Binary operators of one rank group to the left, operators of a smaller rank bind tighter, unary
operators bind tightest, and `? :` binds loosest and groups to the right. Each reader returns what
it read and the lexemes after it; it goes on only when something was consumed, which is always so
and bounds the recursion. -/

namespace Preproc.Condition

mutual

/-- A whole expression: operators of every rank, then perhaps `? :`. -/
def readChoice (input : List Lexeme) : Option (Expr × List Lexeme) :=
  match readRank looseRank input with
  | some (test, .symbol .question :: rest) =>
    if rest.length < input.length then
      match readChoice rest with
      | some (yes, .symbol .colon :: rest) =>
        if rest.length < input.length then
          match readChoice rest with
          | some (no, rest) => some (.choice test yes no, rest)
          | none => none
        else none
      | _ => none
    else none
  | result => result
termination_by (input.length, looseRank + 1)

/-- An expression whose binary operators have at most the given rank; rank 0 has none. -/
def readRank (rank : Nat) (input : List Lexeme) : Option (Expr × List Lexeme) :=
  match rank, input with
  | 0, .number text :: rest => some (.number text, rest)
  | 0, .character text :: rest => some (.character text, rest)
  | 0, .name text :: rest => some (.name text, rest)
  | 0, .symbol .leftParen :: rest =>
    match readChoice rest with
    | some (inner, .symbol .rightParen :: rest) => some (.group inner, rest)
    | _ => none
  | 0, .symbol s :: rest =>
    match s.unary? with
    | some op =>
      match readRank 0 rest with
      | some (operand, rest) => some (.unary op operand, rest)
      | none => none
    | none => none
  | 0, [] => none
  | rank + 1, input =>
    match readRank rank input with
    | some (left, rest) =>
      if rest.length < input.length then readChain rank left rest else none
    | none => none
termination_by (input.length, rank)

/-- What follows `left`: operators of the rank above `rank`, each with its right operand. -/
def readChain (rank : Nat) (left : Expr) (input : List Lexeme) : Option (Expr × List Lexeme) :=
  match input with
  | .symbol s :: more =>
    match s.binary? with
    | some op =>
      if op.rank = rank + 1 then
        match readRank rank more with
        | some (right, rest) =>
          if rest.length < more.length then readChain rank (.binary op left right) rest else none
        | none => none
      else some (left, input)
    | none => some (left, input)
  | _ => some (left, input)
termination_by (input.length, rank)

end

/-- The expression that is written by exactly these lexemes. -/
def Expr.ofLexemes? (input : List Lexeme) : Option Expr :=
  match readChoice input with
  | some (e, []) => some e
  | _ => none

end Preproc.Condition
