import Preproc.Proofs.Macro.Redefinition

set_option autoImplicit false

/-! # How many parameters a macro has

A parameter with a name, also one before an ellipsis, is read only while fewer are known than the
limit allows. An ellipsis without a name is read at any time, and counts as a parameter afterwards.
So a macro has at most as many parameters as the limit allows, and one more exactly if it ends with
such an ellipsis after as many names as are allowed (`parse_params_limit`). -/

namespace Preproc.Macro

open Lexer

theorem Limits.paramLimit_pos (limits : Limits) : 0 < limits.paramLimit := by
  unfold Limits.paramLimit
  split <;> omega

/-! ## Accepted lists -/

/-- One ellipsis without a name after as many names as are allowed. -/
def Limits.Overshoots (limits : Limits) (params : List Bytes) : Prop :=
  ∃ names, params = names ++ [variadicName] ∧ (names.length : Int) = limits.paramLimit

/-- The names that can be known in a state: as many as are allowed, and one more only where the list
    has to end. -/
def ParamState.Allows (limits : Limits) (names : List Bytes) (state : ParamState) : Prop :=
  (names.length : Int) ≤ limits.paramLimit ∨ state = .closing ∧ limits.Overshoots names

theorem ParamState.Allows.length_le {limits : Limits} {names : List Bytes} {state : ParamState}
    (h : state.Allows limits names) (hstate : state ≠ .closing) :
    (names.length : Int) ≤ limits.paramLimit :=
  h.resolve_right fun hclosing => hstate hclosing.1

/-- **An accepted list** keeps to the limit, but for an ellipsis without a name. -/
theorem Lists.within {limits : Limits} {state : ParamState} {names all : List Bytes}
    {kept : List (TokenKind × Bytes)} {variadic : Bool}
    (h : Lists limits state names kept all variadic) (hallows : state.Allows limits names) :
    (all.length : Int) ≤ limits.paramLimit ∨ limits.Overshoots all := by
  induction h with
  | closed names => exact hallows.imp_right And.right
  | ended | empty => exact Or.inl (hallows.length_le (by simp))
  | named _ _ ih => exact ih (Or.inl (hallows.length_le (by simp)))
  | comma _ ih => exact ih (Or.inl (hallows.length_le (by simp)))
  | @anonymous state names all variadic rest hstate _ ih =>
    have hlength := hallows.length_le (by rcases hstate with rfl | rfl <;> simp)
    refine ih ?_
    rcases Int.lt_or_eq_of_le hlength with hless | hequal
    · refine Or.inl ?_
      rw [List.length_append, List.length_singleton]
      omega
    · exact Or.inr ⟨rfl, names, rfl, hequal⟩
  | @param state text names all variadic rest _ _ _ hlimit _ ih =>
    refine ih (Or.inl ?_)
    rw [List.length_append, List.length_singleton]
    omega

theorem Heads.within {limits : Limits} {d : Definition} {head : List (TokenKind × Bytes)}
    (h : Heads limits d head) :
    (d.params.length : Int) ≤ limits.paramLimit ∨ limits.Overshoots d.params := by
  have hpos := limits.paramLimit_pos
  have hnone : (([] : List Bytes).length : Int) ≤ limits.paramLimit := by
    rw [List.length_nil]
    omega
  cases h with
  | object _ _ _ hparams =>
    rw [hparams]
    exact Or.inl hnone
  | function _ _ hlists => exact hlists.within (Or.inl hnone)

/-- The names among accepted parameters keep to the limit. -/
theorem named_le_of_within {limits : Limits} {params : List Bytes}
    (h : (params.length : Int) ≤ limits.paramLimit ∨ limits.Overshoots params) :
    ((params.filter (· ≠ variadicName)).length : Int) ≤ limits.paramLimit := by
  rcases h with hlength | ⟨names, rfl, hlength⟩
  · have hfilter := List.length_filter_le (· ≠ variadicName) params
    omega
  · have hfilter := List.length_filter_le (· ≠ variadicName) names
    rw [List.filter_append, List.filter_cons_of_neg (by simp), List.filter_nil, List.append_nil]
    omega

/-! ## Lists at the limit -/

/-- Distinct names within the limit are accepted with an ellipsis after them. -/
theorem lists_ellipsis (limits : Limits) {names : List Bytes} (before : List Bytes)
    {state : ParamState} (hstate : state = .first ∨ state = .next)
    (hdistinct : (before ++ names).Nodup) (hnames : ∀ name ∈ names, name ≠ variadicName)
    (hlength : ((before ++ names).length : Int) ≤ limits.paramLimit) :
    ∃ kept, Lists limits state before kept (before ++ names ++ [variadicName]) true ∧
      ∀ t, (.ident, t) ∈ kept → t ∈ names := by
  induction names generalizing before state with
  | nil =>
    rw [List.append_nil]
    refine ⟨_, .anonymous hstate (.closed _), ?_⟩
    intro t ht
    simp [signLexeme] at ht
  | cons name names ih =>
    obtain ⟨hname, hmore⟩ := List.forall_mem_cons.1 hnames
    have hsplit : before ++ name :: names = before ++ [name] ++ names := by simp
    rw [hsplit] at hdistinct hlength ⊢
    obtain ⟨kept, hlists, hidents⟩ := ih (before ++ [name]) (Or.inr rfl) hdistinct hmore hlength
    have hnew : before.contains name = false := by
      have hbefore := List.disjoint_of_nodup_append (List.nodup_append.1 hdistinct).1
      simpa using fun hmem => hbefore hmem (by simp)
    have hroom : ¬ limits.paramLimit ≤ before.length := by
      simp only [List.length_append, List.length_singleton] at hlength
      omega
    refine ⟨_, .param hstate hname hnew hroom (.comma hlists), ?_⟩
    intro t ht
    simp only [List.mem_cons, signLexeme, Prod.mk.injEq, reduceCtorEq, false_and, false_or,
      true_and] at ht
    exact List.mem_cons.2 (ht.imp_right (hidents t))

/-- A macro without a replacement list that has some names and an ellipsis. -/
def withEllipsis (names : List Bytes) : Definition where
  name := ascii "F"
  functionLike := true
  variadic := true
  params := names ++ [variadicName]

theorem parse_withEllipsis {limits : Limits} {names : List Bytes} (hdistinct : names.Nodup)
    (hnames : ∀ name ∈ names, isIdent name = true ∧ name ≠ variadicName)
    (hlength : (names.length : Int) ≤ limits.paramLimit) (pos : Position) :
    ∃ p, parse limits (Cursor.ofText pos (withEllipsis names).source) = .ok p ∧
      p.definition.params = names ++ [variadicName] := by
  obtain ⟨kept, hlists, hidents⟩ := lists_ellipsis limits [] (Or.inl rfl) hdistinct
    (fun name hname => (hnames name hname).2) hlength
  have hname : CanName (ascii "F") := ⟨by decide, by decide⟩
  have hheads : Heads limits (withEllipsis names) _ := .function hname rfl hlists
  have hreads : Reads (withEllipsis names) .start [] [] [] := .done (by simp) (by simp)
  have hident : ∀ t, (.ident, t) ∈ (.ident, ascii "F") :: signLexeme .leftParen :: kept →
      isIdent t = true := by
    intro t ht
    simp only [List.mem_cons, signLexeme, Prod.mk.injEq, reduceCtorEq, false_and, false_or,
      true_and] at ht
    rcases ht with rfl | ht
    · decide
    · exact (hnames t (hidents t ht)).1
  have hwritten : Written limits (withEllipsis names) _ :=
    ⟨⟨withEllipsis names, [], _, [], rfl, hheads, hreads, rfl⟩,
      hheads.stood hident (spaced_spaced []) trivial, hheads.definition hreads trivial⟩
  obtain ⟨at', notice, hparse⟩ := hwritten.parse
    (c := Cursor.ofText pos (withEllipsis names).source) ((shapes_ofText _ _).trans hwritten.lexemes)
  exact ⟨_, hparse, rfl⟩

/-! ## Definitions -/

/-- **The limit holds for the names.** Of the parameters of a definition that is accepted, at most as
    many as the limit allows have a name. All of them together are more than that exactly if the
    last one is an ellipsis without a name after as many names as are allowed; and any such list of
    distinct names is accepted. -/
theorem parse_params_limit (limits : Limits) :
    (∀ pos text p, parse limits (Cursor.ofText pos text) = .ok p →
      ((p.definition.params.filter (· ≠ variadicName)).length : Int) ≤ limits.paramLimit ∧
      (limits.paramLimit < p.definition.params.length ↔
        ∃ names, p.definition.params = names ++ [variadicName] ∧
          (names.length : Int) = limits.paramLimit)) ∧
    ∀ names : List Bytes, names.Nodup →
      (∀ name ∈ names, isIdent name = true ∧ name ≠ variadicName) →
      (names.length : Int) = limits.paramLimit →
      ∃ text p, parse limits (Cursor.ofText {} text) = .ok p ∧
        p.definition.params = names ++ [variadicName] := by
  constructor
  · intro pos text p hparse
    obtain ⟨d, toks, head, body, out, -, hheads, -, -, -, hp⟩ := parse_parts rfl hparse
    have hparams : p.definition.params = d.params := by rw [hp]
    rw [hparams]
    refine ⟨named_le_of_within hheads.within, ?_⟩
    constructor
    · intro hmore
      exact hheads.within.resolve_left (by omega)
    · rintro ⟨names, hnames, hlength⟩
      rw [hnames, List.length_append, List.length_singleton]
      omega
  · intro names hdistinct hnames hlength
    exact ⟨_, parse_withEllipsis hdistinct hnames (by omega) {}⟩

/-- A macro with two names and an ellipsis. -/
def threeParams : Definition where
  name := ascii "F"
  functionLike := true
  variadic := true
  params := [ascii "a", ascii "b", variadicName]
  body := [.literal (ascii "0")]
  definedAt := { column := 1 }

/-- Two parameters are allowed, and three are accepted. -/
theorem parse_params_limit_three :
    (∃ p, parse ⟨false, 2⟩ (Cursor.ofText {} (ascii "F(a,b,...) 0")) = .ok p ∧
      p.definition = threeParams ∧ (⟨false, 2⟩ : Limits).paramLimit < p.definition.params.length) ∧
    ∃ text p, parse ⟨false, 2⟩ (Cursor.ofText {} text) = .ok p ∧
      p.definition.params = [ascii "a", ascii "b", variadicName] := by
  obtain ⟨p, hparse, hp⟩ := exists_parsed (d := threeParams)
    (r := parse ⟨false, 2⟩ (Cursor.ofText {} (ascii "F(a,b,...) 0"))) (by decide +kernel)
  obtain ⟨hlimit, hreached⟩ := parse_params_limit ⟨false, 2⟩
  obtain ⟨-, hmore⟩ := hlimit {} _ p hparse
  refine ⟨⟨p, hparse, hp, hmore.2 ⟨[ascii "a", ascii "b"], ?_, rfl⟩⟩, ?_⟩
  · rw [hp]
    rfl
  · exact hreached [ascii "a", ascii "b"] (by decide) (by decide) rfl

end Preproc.Macro
