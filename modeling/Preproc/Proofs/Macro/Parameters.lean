import Preproc.Proofs.Macro.Tidy

set_option autoImplicit false

/-! # Parameter lists

What a parameter list is read as does not depend on its whitespace. `Lists` says how the other
lexemes of a list are read; it is what the reader does (`readParams_lists`, `Lists.readParams`). The
text of these lexemes is the list as it is written out (`Lists.written`), and it is cut into them
again (`Lists.stood`). -/

namespace Preproc.Macro

open Lexer

/-- The lexemes of a parameter list up to its end, without whitespace: read with some names known
    already, and giving the names of the whole list and whether it has an ellipsis. -/
inductive Lists (limits : Limits) :
    ParamState → List Bytes → List (TokenKind × Bytes) → List Bytes → Bool → Prop where
  | closed (names : List Bytes) : Lists limits .closing names [signLexeme .rightParen] names true
  | ended (name : Bytes) (names : List Bytes) :
    Lists limits (.separator name) names [signLexeme .rightParen] names false
  | empty (names : List Bytes) : Lists limits .first names [signLexeme .rightParen] names false
  | named {name : Bytes} {names all : List Bytes} {variadic : Bool}
      {rest : List (TokenKind × Bytes)} (hstrict : limits.strict = false)
      (h : Lists limits .closing names rest all variadic) :
    Lists limits (.separator name) names (signLexeme .ellipsis :: rest) all variadic
  | comma {name : Bytes} {names all : List Bytes} {variadic : Bool}
      {rest : List (TokenKind × Bytes)} (h : Lists limits .next names rest all variadic) :
    Lists limits (.separator name) names (signLexeme .comma :: rest) all variadic
  | anonymous {state : ParamState} {names all : List Bytes} {variadic : Bool}
      {rest : List (TokenKind × Bytes)} (hstate : state = .first ∨ state = .next)
      (h : Lists limits .closing (names ++ [variadicName]) rest all variadic) :
    Lists limits state names (signLexeme .ellipsis :: rest) all variadic
  | param {state : ParamState} {text : Bytes} {names all : List Bytes} {variadic : Bool}
      {rest : List (TokenKind × Bytes)} (hstate : state = .first ∨ state = .next)
      (hname : text ≠ variadicName) (hnew : names.contains text = false)
      (hlimit : ¬ limits.paramLimit ≤ names.length)
      (h : Lists limits (.separator text) (names ++ [text]) rest all variadic) :
    Lists limits state names ((.ident, text) :: rest) all variadic

/-! ## The reader -/

theorem is_of_sign {t : Token} {op : Operator} (h : tokenShape t = signLexeme op)
    (hop : operatorText op ≠ []) (op' : Operator) : t.is op' = decide (op = op') := by
  obtain ⟨hkind, htext⟩ := Prod.mk.inj h
  have hown : Operator.ofText (operatorText op) = op := (ofText_eq_iff hop _).2 rfl
  simp [Token.is, hkind, htext, hown]

/-- An accepted list can be read without its whitespace. -/
theorem readParams_lists {limits : Limits} {name : Bytes} {eol : Token} {state : ParamState}
    {names : List Bytes} {toks : List Token} {ps : Params}
    (h : readParams limits name eol state names toks = .ok ps) :
    ∃ kept, Lists limits state names kept ps.names ps.variadic ∧ ps.rest <:+ toks ∧
      kept ⊆ toks.map tokenShape := by
  fun_induction readParams limits name eol state names toks with
  | case3 state names t rest hspace ih =>
    obtain ⟨kept, hlists, hsuffix, hsub⟩ := ih h
    exact ⟨kept, hlists, hsuffix.trans (List.suffix_cons t rest),
      fun l hl => List.mem_cons_of_mem _ (hsub hl)⟩
  -- the three ways in which a list ends
  | case4 names t rest hspace hsign =>
    obtain rfl : ⟨names, true, rest⟩ = ps := by simpa using h
    refine ⟨_, .closed names, List.suffix_cons t rest, ?_⟩
    simp [(is_iff .rightParen (by decide) t).1 hsign]
  | case9 names t rest hspace name hellipsis hcomma hsign =>
    obtain rfl : ⟨names, false, rest⟩ = ps := by simpa using h
    refine ⟨_, .ended name names, List.suffix_cons t rest, ?_⟩
    simp [(is_iff .rightParen (by decide) t).1 hsign]
  | case11 names t rest hspace hsign =>
    rw [if_pos hsign] at h
    obtain rfl : ⟨names, false, rest⟩ = ps := by simpa using h
    refine ⟨_, .empty names, List.suffix_cons t rest, ?_⟩
    simp [(is_iff .rightParen (by decide) t).1 (by simpa using hsign)]
  -- the ways in which it goes on
  | case7 names t rest hspace name hsign hstrict ih =>
    obtain ⟨kept, hlists, hsuffix, hsub⟩ := ih h
    refine ⟨_, .named (by simpa using hstrict) hlists, hsuffix.trans (List.suffix_cons t rest), ?_⟩
    rw [List.map_cons, (is_iff .ellipsis (by decide) t).1 hsign]
    exact List.cons_subset_cons _ hsub
  | case8 names t rest hspace name hellipsis hsign ih =>
    obtain ⟨kept, hlists, hsuffix, hsub⟩ := ih h
    refine ⟨_, .comma hlists, hsuffix.trans (List.suffix_cons t rest), ?_⟩
    rw [List.map_cons, (is_iff .comma (by decide) t).1 hsign]
    exact List.cons_subset_cons _ hsub
  | case12 names t rest hspace hsign hend ih | case19 names t rest hspace hsign hend ih =>
    rw [if_neg hend, if_pos hsign] at h
    obtain ⟨kept, hlists, hsuffix, hsub⟩ := ih h
    refine ⟨_, .anonymous (by simp) hlists, hsuffix.trans (List.suffix_cons t rest), ?_⟩
    rw [List.map_cons, (is_iff .ellipsis (by decide) t).1 hsign]
    exact List.cons_subset_cons _ hsub
  | case17 names t rest hspace hellipsis hident hname hnew hlimit hend ih
  | case24 names t rest hspace hellipsis hident hname hnew hlimit hend ih =>
    rw [if_neg hend, if_neg hellipsis, if_neg hident, if_neg hname, if_neg hnew, if_neg hlimit] at h
    obtain ⟨kept, hlists, hsuffix, hsub⟩ := ih h
    have hshape := shape_of_ident (t := t) (by simpa using hident)
    refine ⟨_, .param (by simp) hname (by simpa using hnew) hlimit hlists,
      hsuffix.trans (List.suffix_cons t rest), ?_⟩
    rw [List.map_cons, hshape]
    exact List.cons_subset_cons _ hsub
  -- everything else is refused
  | _ => simp_all

/-- What can be read is accepted, whatever follows it. -/
theorem Lists.readParams {limits : Limits} {state : ParamState} {names all : List Bytes}
    {kept : List (TokenKind × Bytes)} {variadic : Bool}
    (h : Lists limits state names kept all variadic)
    (name : Bytes) (eol : Token) {toks : List Token} {more : List (TokenKind × Bytes)}
    (hshapes : toks.map tokenShape = kept ++ more) :
    ∃ rest, Macro.readParams limits name eol state names toks = .ok ⟨all, variadic, rest⟩ ∧
      rest.map tokenShape = more := by
  have hsign : ∀ {t : Token} {op : Operator}, tokenShape t = signLexeme op → t.isSpace = false := by
    intro t op h
    simp [Token.isSpace, (Prod.mk.inj h).1]
  induction h generalizing toks with
  | closed | ended | empty =>
    obtain ⟨t, rest, rfl, ht, hrest⟩ := List.map_eq_cons_iff.1 hshapes
    refine ⟨rest, ?_, by simpa using hrest⟩
    simp [Macro.readParams, hsign ht, is_of_sign ht (by decide)]
  | named hstrict _ ih =>
    obtain ⟨t, rest, rfl, ht, hrest⟩ := List.map_eq_cons_iff.1 hshapes
    obtain ⟨rest', hread, hmore⟩ := ih hrest
    refine ⟨rest', ?_, hmore⟩
    simp [Macro.readParams, hsign ht, is_of_sign ht (by decide), hstrict, hread]
  | comma _ ih =>
    obtain ⟨t, rest, rfl, ht, hrest⟩ := List.map_eq_cons_iff.1 hshapes
    obtain ⟨rest', hread, hmore⟩ := ih hrest
    refine ⟨rest', ?_, hmore⟩
    simp [Macro.readParams, hsign ht, is_of_sign ht (by decide), hread]
  | anonymous hstate _ ih =>
    obtain ⟨t, rest, rfl, ht, hrest⟩ := List.map_eq_cons_iff.1 hshapes
    obtain ⟨rest', hread, hmore⟩ := ih hrest
    refine ⟨rest', ?_, hmore⟩
    rcases hstate with rfl | rfl <;>
      simp [Macro.readParams, hsign ht, is_of_sign ht (by decide), hread]
  | param hstate hname hnew hlimit _ ih =>
    obtain ⟨t, rest, rfl, ht, hrest⟩ := List.map_eq_cons_iff.1 hshapes
    obtain ⟨rest', hread, hmore⟩ := ih hrest
    obtain ⟨hkind, rfl⟩ := Prod.mk.inj ht
    refine ⟨rest', ?_, hmore⟩
    rcases hstate with rfl | rfl <;>
      simp_all [Macro.readParams, Token.isSpace, Token.isIdent, Token.is]

/-! ## The written list -/

theorem joinWith_concat (sep : Bytes) {ts : List Bytes} (h : ts ≠ []) (t : Bytes) :
    joinWith sep (ts ++ [t]) = joinWith sep ts ++ sep ++ t := by
  induction ts with
  | nil => exact absurd rfl h
  | cons first ts ih =>
    cases ts with
    | nil => rfl
    | cons second ts =>
      have hrest := ih (by simp)
      simp only [List.cons_append, joinWith] at hrest ⊢
      rw [hrest]
      simp

/-- What is written after the last piece belongs to it. -/
theorem joinWith_concat_append (sep : Bytes) (ts : List Bytes) (t t' : Bytes) :
    joinWith sep (ts ++ [t ++ t']) = joinWith sep (ts ++ [t]) ++ t' := by
  by_cases h : ts = []
  · subst h
    rfl
  · rw [joinWith_concat sep h, joinWith_concat sep h, List.append_assoc]
    simp

theorem writtenParams_concat (variadic : Bool) (init : List Bytes) (last : Bytes) :
    Definition.writtenParams variadic (init ++ [last]) =
      init ++ Definition.writtenParams variadic [last] := by
  induction init with
  | nil => rfl
  | cons p init ih =>
    have hne : init ++ [last] ≠ [] := by simp
    obtain ⟨q, rest, hrest⟩ := List.exists_cons_of_ne_nil hne
    rw [List.cons_append, List.cons_append, ← ih, hrest]
    rfl

theorem writtenParams_plain (names : List Bytes) :
    Definition.writtenParams false names = names := by
  rcases List.eq_nil_or_concat names with rfl | ⟨init, last, rfl⟩
  · rfl
  · rw [List.concat_eq_append, writtenParams_concat]
    rfl

namespace ParamState

/-- What is written of a parameter list when its reader is in a state. -/
def written (names : List Bytes) : ParamState → Bytes
  | .first => []
  | .next => joinWith (ascii ",") names ++ ascii ","
  | .separator _ => joinWith (ascii ",") names
  | .closing => joinWith (ascii ",") (Definition.writtenParams true names)

/-- The names that can be known in a state. -/
def Knows (names : List Bytes) : ParamState → Prop
  | .first => names = []
  | .next => names ≠ []
  | .separator name => name ≠ variadicName ∧ ∃ init, names = init ++ [name]
  | .closing => True

theorem written_param {state : ParamState} {names : List Bytes}
    (hstate : state = .first ∨ state = .next) (hknows : state.Knows names) (t : Bytes) :
    state.written names ++ t = joinWith (ascii ",") (names ++ [t]) := by
  rcases hstate with rfl | rfl
  · obtain rfl : names = [] := hknows
    rfl
  · exact (joinWith_concat _ hknows t).symm

end ParamState

section Lists

variable {limits : Limits} {state : ParamState} {names all : List Bytes}
  {kept : List (TokenKind × Bytes)} {variadic : Bool}

/-- The text of the lexemes is the list as it is written out. -/
theorem Lists.written (h : Lists limits state names kept all variadic)
    (hknows : state.Knows names) :
    state.written names ++ textOf kept =
      joinWith (ascii ",") (Definition.writtenParams variadic all) ++ ascii ")" := by
  induction h with
  | closed names => rfl
  | ended name names => rw [writtenParams_plain]; rfl
  | empty names =>
    obtain rfl : names = [] := hknows
    rfl
  | @named name names all variadic rest _ _ ih =>
    obtain ⟨hname, init, rfl⟩ := hknows
    have hlast : Definition.writtenParams true [name] = [name ++ ascii "..."] := by
      simp [Definition.writtenParams, hname]
    rw [← ih trivial, signLexeme, textOf_cons, ← List.append_assoc]
    congr 1
    simp only [ParamState.written]
    rw [writtenParams_concat, hlast, joinWith_concat_append]
    rfl
  | comma _ ih =>
    obtain ⟨-, init, rfl⟩ := hknows
    rw [← ih (by simp [ParamState.Knows]), signLexeme, textOf_cons, ← List.append_assoc]
    rfl
  | @anonymous state names all variadic rest hstate _ ih =>
    rw [← ih trivial, signLexeme, textOf_cons, ← List.append_assoc,
      ParamState.written_param hstate hknows]
    simp only [ParamState.written]
    rw [writtenParams_concat]
    rfl
  | @param state text names all variadic rest hstate hname _ _ _ ih =>
    rw [← ih ⟨hname, names, rfl⟩, textOf_cons, ← List.append_assoc,
      ParamState.written_param hstate hknows]
    rfl

theorem Lists.not_space (h : Lists limits state names kept all variadic) :
    ∀ l ∈ kept, l.1 ≠ .space := by
  induction h with
  | closed | ended | empty => simp [signLexeme]
  | named _ _ ih | comma _ ih | anonymous _ _ ih => simpa [signLexeme] using ih
  | param _ _ _ _ _ ih => simpa using ih

/-- After a parameter there is no byte that would go on with its name. -/
theorem Lists.stops {name : Bytes} (h : Lists limits (.separator name) names kept all variadic)
    (more : List (TokenKind × Bytes)) : StopsAt isIdentPart (textOf (kept ++ more)) := by
  cases h with
  | ended | named | comma => exact stops_cons (by decide) _
  | anonymous hstate => simp at hstate
  | param hstate => simp at hstate

/-- The lexemes are cut out of their text again, whatever follows. -/
theorem Lists.stood (h : Lists limits state names kept all variadic)
    (hident : ∀ t, (.ident, t) ∈ kept → isIdent t = true) {more : List (TokenKind × Bytes)}
    (hmore : Stood more) : Stood (kept ++ more) := by
  induction h with
  | closed | ended | empty => exact ⟨stands_mark (by decide) _, hmore⟩
  | named _ _ ih | anonymous _ _ ih =>
    exact ⟨stands_ellipsis _, ih fun t ht => hident t (List.mem_cons_of_mem _ ht)⟩
  | comma _ ih =>
    exact ⟨stands_mark (by decide) _, ih fun t ht => hident t (List.mem_cons_of_mem _ ht)⟩
  | param _ _ _ _ h ih =>
    exact ⟨stands_ident (hident _ (by simp)) (h.stops more),
      ih fun t ht => hident t (List.mem_cons_of_mem _ ht)⟩

end Lists

end Preproc.Macro
