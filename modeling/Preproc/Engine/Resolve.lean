import Preproc.Engine.State

set_option autoImplicit false

/-! # Resolving conditions

Before a condition is evaluated, each `defined NAME` becomes 0 or 1 and each name of a macro without
parameters becomes the macro's body, in which names are replaced in turn. A macro is not replaced
inside its own body, and bodies nest to a fixed depth only. -/

namespace Preproc.Engine

/-- How many replacements may be nested in one another. -/
def maxReplacementDepth : Nat := 64

/-- The name after `defined`, with or without parentheses, and what follows it. When nothing
    follows, the error is at `last`. -/
def definedOperand (last : Position) (toks : List Token) :
    Except (Located Complaint) (Bytes × List Token) :=
  match toks.dropWhile Token.isSpace with
  | [] => .error ⟨last, .definedNeedsName⟩
  | t :: rest =>
    if t.isIdent then .ok (t.text, rest)
    else if t.is .leftParen then
      match rest.dropWhile Token.isSpace with
      | [] => .error ⟨t.pos, .definedNeedsName⟩
      | name :: rest =>
        if name.isIdent then
          match rest.dropWhile Token.isSpace with
          | [] => .error ⟨name.pos, .unclosedDefined⟩
          | close :: rest =>
            if close.is .rightParen then .ok (name.text, rest)
            else .error ⟨name.pos, .unclosedDefined⟩
        else .error ⟨t.pos, .definedNeedsName⟩
    else .error ⟨t.pos, .definedNeedsName⟩

/-- The operand of `defined` leaves fewer tokens than there were. -/
theorem definedOperand_length {last : Position} {toks rest : List Token} {name : Bytes}
    (h : definedOperand last toks = .ok (name, rest)) : rest.length < toks.length := by
  have drop (toks : List Token) : (toks.dropWhile Token.isSpace).length ≤ toks.length :=
    (List.dropWhile_sublist _).length_le
  unfold definedOperand at h
  split at h
  · cases h
  · next t after first =>
    have h0 := drop toks
    rw [first] at h0
    simp only [List.length_cons] at h0
    split at h
    · cases h
      omega
    · split at h
      · split at h
        · cases h
        · next name' after' second =>
          have h1 := drop after
          rw [second] at h1
          simp only [List.length_cons] at h1
          split at h
          · split at h
            · cases h
            · next close after'' third =>
              have h2 := drop after'
              rw [third] at h2
              simp only [List.length_cons] at h2
              split at h
              · cases h
                omega
              · cases h
          · cases h
      · cases h

/-- The tokens of the body of a macro without parameters, all placed where the macro is used. -/
def bodyTokens (d : Macro.Definition) (pos : Position) : List Token :=
  (Cursor.ofText pos (Macro.Replacement.source [] d.body)).remaining.map ({ · with pos })

/-- Resolve tokens from left to right. Macros named in `active` stay; `expand` gives what stands
    for any other macro without parameters. -/
def resolveTokens (table : Macro.Table) (active : List Bytes)
    (expand : Macro.Definition → Position → Except (Located Complaint) (List Token)) :
    List Token → Except (Located Complaint) (List Token)
  | [] => .ok []
  | t :: rest =>
    if !t.isIdent then (resolveTokens table active expand rest).map (t :: ·)
    else if t.text = ascii "defined" then
      match _found : definedOperand (rest.getLastD t).pos rest with
      | .error e => .error e
      | .ok (name, after) =>
        let value := ascii (if table.defined name then "1" else "0")
        (resolveTokens table active expand after).map (⟨.number, value, t.pos⟩ :: ·)
    else match table.lookup t.text with
      | none => (resolveTokens table active expand rest).map (t :: ·)
      | some d =>
        if active.contains t.text then (resolveTokens table active expand rest).map (t :: ·)
        else if d.functionLike then .error ⟨t.pos, .functionLikeInCondition t.text⟩
        else match expand d t.pos with
          | .error e => .error e
          | .ok body => (resolveTokens table active expand rest).map (body ++ ·)
termination_by toks => toks.length
decreasing_by
  all_goals try simp
  have := definedOperand_length _found
  omega

/-- Resolve tokens with replacements nested at most `depth - 1` deep. A body that is not empty gets
    a blank at each end, so that it does not run into its neighbours. -/
def resolve (table : Macro.Table) :
    (depth : Nat) → (active : List Bytes) → List Token → Except (Located Complaint) (List Token)
  | 0, _, toks => .error ⟨(toks.head?.map Token.pos).getD {}, .nestedReplacement⟩
  | depth + 1, active, toks =>
    resolveTokens table active (fun d pos =>
      match bodyTokens d pos with
      | [] => .ok []
      | body =>
        let blank : Token := ⟨.space, ascii " ", pos⟩
        (resolve table depth (d.name :: active) body).map fun inner => blank :: inner ++ [blank]) toks

/-- The tokens of a condition as they are evaluated. -/
def resolveCondition (table : Macro.Table) (toks : List Token) :
    Except (Located Complaint) (List Token) :=
  resolve table (maxReplacementDepth + 1) [] toks

/-- Evaluate the condition of `#if` or `#elif`. A broken condition is reported and counts as
    false. -/
def State.test (s : State) (pos : Position) (directive : Keyword) (toks : List Token) :
    State × Bool :=
  if toks.isEmpty then (s.complain pos (.noExpression directive), false)
  else match resolveCondition s.table toks with
    | .error e => (s.complain e.pos e.cause, false)
    | .ok resolved =>
      let text := Token.textOf resolved
      let result := Condition.evaluate text
      let s := { s with evaluations := s.evaluations ++ [⟨text, result⟩] }
      match result with
      | .error e => (s.complain pos (.badCondition directive e), false)
      | .ok value => (s, value != 0)

end Preproc.Engine
