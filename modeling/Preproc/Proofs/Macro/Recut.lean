import Preproc.Proofs.Macro.Tidy
import Preproc.Proofs.Token.Unclosed

set_option autoImplicit false

/-! # Cutting a tidied replacement list again

The text of a tidied list is cut into the lexemes of that list (`Reads.stood`). A lexeme that is
kept may be followed by another text than before. The two texts agree up to a boundary
(`Reads.agree`), and a search that finds nothing in the one finds nothing in the other
(`Reads.misses`), so the lexeme still stands. -/

namespace Preproc.Macro

open Lexer

variable {d : Definition} {mode mode' : Mode} {kind : TokenKind} {t : Bytes}
  {first items : List Item} {ls tidied out : List (TokenKind × Bytes)}

/-! ## Line ends and blanks -/

theorem Mode.dueLexemes_lines (mode : Mode) : newline ∉ textOf mode.dueLexemes := by
  cases mode with
  | item pending => cases pending <;> decide
  | _ => decide

theorem Advances.lines (h : Advances d mode (kind, t) mode' first tidied)
    (ht : kind ≠ .space → newline ∉ t) : newline ∉ textOf tidied := by
  cases h with
  | space => simp
  | operand => simpa using ht
  | paste => decide
  | hash => simpa [mode.dueLexemes_lines, signLexeme] using ht
  | item _ hspace => simpa [mode.dueLexemes_lines] using ht hspace

/-- No line ends in a tidied list: only whitespace has line ends, and it is written as blanks. -/
theorem Reads.lines (h : Reads d mode ls items out) (hcut : WellCut ls) : newline ∉ textOf out := by
  induction h with
  | done => simp
  | @step mode mode' l first tidied rest items out h hrest ih =>
    obtain ⟨kind, t⟩ := l
    rw [textOf_append, List.mem_append, not_or]
    exact ⟨h.lines fun hkind => (hcut.stands hkind).unbroken hkind, ih hcut.2⟩

/-- All whitespace of a tidied list is single blanks. -/
theorem Reads.blanks (h : Reads d mode ls items out) :
    ∀ t, (.space, t) ∈ out → t = ascii " " := by
  have hdue : ∀ (mode : Mode) t, (.space, t) ∈ mode.dueLexemes → t = ascii " " := by
    intro mode t ht
    cases mode with
    | item pending => cases pending <;> simp_all [Mode.dueLexemes, blankLexeme]
    | _ => simp [Mode.dueLexemes] at ht
  induction h with
  | done => simp
  | @step mode mode' l first tidied rest items out h hrest ih =>
    intro t ht
    rcases List.mem_append.1 ht with ht | ht
    · cases h with
      | space | operand => simp at ht
      | paste => simpa [blankLexeme, signLexeme] using ht
      | hash =>
        rcases List.mem_append.1 ht with ht | ht
        · exact hdue mode t ht
        · simp [signLexeme] at ht
      | item _ hspace =>
        rcases List.mem_append.1 ht with ht | ht
        · exact hdue mode t ht
        · exact absurd (Prod.mk.inj (List.mem_singleton.1 ht)).1.symm hspace
    · exact ih t ht

/-! ## First bytes -/

/-- After whitespace the tidied list begins with a blank, or there is none. -/
theorem Reads.due (h : Reads d (.item true) ls items out) :
    out = [] ∨ ∃ rest, out = blankLexeme :: rest := by
  generalize hmode : Mode.item true = mode at h
  induction h with
  | done => exact Or.inl rfl
  | step h hrest ih =>
    subst hmode
    cases h with
    | space => exact ih rfl
    | paste | hash | item => exact Or.inr ⟨_, rfl⟩

/-- Where no item stands before it, a tidied list does not begin with a blank. -/
theorem Reads.stops (h : Reads d mode ls items out) (hcut : WellCut ls)
    (hmode : ∀ pending, mode ≠ .item pending) : StopsAt isSeparator (textOf out) := by
  induction h with
  | done => simp [StopsAt]
  | @step mode mode' l first tidied rest items out h hrest ih =>
    have hdue : mode.dueLexemes = [] := by
      cases mode with
      | item pending => exact absurd rfl (hmode pending)
      | _ => rfl
    cases h with
    | space =>
      refine ih hcut.2 fun pending => ?_
      cases mode with
      | item pending => exact absurd rfl (hmode pending)
      | _ => simp [Mode.afterSpace]
    | operand => exact (hcut.stands (by decide)).stops (by decide) _
    | paste pending => exact absurd rfl (hmode pending)
    | hash =>
      rw [hdue]
      exact (hcut.stands (by decide)).stops (by decide) _
    | item _ hspace =>
      rw [hdue]
      exact (hcut.stands hspace).stops hspace _

/-- After `#` a tidied list begins with an identifier. -/
theorem Reads.operand (h : Reads d .hash ls items out) (hcut : WellCut ls) :
    StopsAt (· == byte '#') (textOf out) := by
  generalize hmode : Mode.hash = mode at h
  induction h with
  | done => simp [StopsAt]
  | step h hrest ih =>
    subst hmode
    cases h with
    | space => exact ih hcut.2 rfl
    | operand =>
      rw [List.singleton_append, textOf_cons]
      exact stops_ident (fun b hb => (isIdentStart_excludes b hb).2.2)
        (hcut.stands (by decide)).isIdent
    | hash hmode => exact absurd rfl hmode
    | item hmode => exact absurd rfl hmode

/-! ## Searches -/

/-- How the state of a search in a list and that of the same search in the tidied list are related:
    where whitespace is still due, the second one is of no importance. -/
def Matched (find : Finder) : Mode → find.State → find.State → Prop
  | .item false, st, st' => st = st'
  | .item true, st, _ => st = find.quiet
  | _, st, st' => st = find.quiet ∧ st' = find.quiet

section Search

variable {find : Finder} {st st' next : find.State}

theorem fold_blank (st : find.State) : (ascii " ").foldlM find.step st = some find.quiet := by
  show [(32 : UInt8)].foldlM find.step st = _
  simp [find.blank]

theorem fold_hash (st : find.State) :
    (operatorText .hash).foldlM find.step st = some find.quiet := by
  show [byte '#'].foldlM find.step st = _
  simp [find.sign]

theorem fold_paste (st : find.State) :
    (operatorText .paste).foldlM find.step st = some find.quiet := by
  show [byte '#', byte '#'].foldlM find.step st = _
  simp [find.sign]

theorem Matched.due (h : Matched find mode st st') :
    (textOf mode.dueLexemes).foldlM find.step st' = some st := by
  cases mode with
  | item pending =>
    cases pending with
    | false =>
      obtain rfl : st = st' := h
      rfl
    | true =>
      obtain rfl : st = find.quiet := h
      simp [Mode.dueLexemes, blankLexeme, fold_blank]
  | start | paste | hash =>
    obtain ⟨rfl, rfl⟩ := h
    rfl

/-- What a lexeme does to a search, if the search does not find anything in it. -/
theorem Advances.matched (h : Advances d mode (kind, t) mode' first tidied)
    (hmatched : Matched find mode st st') (hfold : t.foldlM find.step st = some next)
    (hgap : kind = .space → next = find.quiet) :
    ∃ next', (textOf tidied).foldlM find.step st' = some next' ∧
      Matched find mode' next next' := by
  cases h with
  | space =>
    refine ⟨st', rfl, ?_⟩
    cases mode with
    | item pending => exact hgap rfl
    | start | paste | hash => exact ⟨hgap rfl, hmatched.2⟩
  | operand =>
    obtain ⟨rfl, rfl⟩ := hmatched
    exact ⟨next, by simpa using hfold, rfl⟩
  | paste =>
    obtain rfl : find.quiet = next := by simpa [fold_paste] using hfold
    refine ⟨find.quiet, ?_, rfl, rfl⟩
    simp [blankLexeme, signLexeme, List.foldlM_append, fold_blank, fold_paste]
  | hash =>
    obtain rfl : find.quiet = next := by simpa [fold_hash] using hfold
    refine ⟨find.quiet, ?_, rfl, rfl⟩
    simp [signLexeme, List.foldlM_append, hmatched.due, fold_hash]
  | item =>
    refine ⟨next, ?_, rfl⟩
    simp [List.foldlM_append, hmatched.due, hfold]

/-- A search that finds nothing in a list finds nothing in the tidied list. -/
theorem Reads.misses (h : Reads d mode ls items out) (hcut : WellCut ls)
    (hmatched : Matched find mode st st') (hmisses : find.Misses st (textOf ls)) :
    find.Misses st' (textOf out) := by
  induction h generalizing st st' with
  | done => rfl
  | @step mode mode' l first tidied rest items out h hrest ih =>
    obtain ⟨kind, t⟩ := l
    rw [textOf_cons, find.misses_append] at hmisses
    obtain ⟨next, hfold, hmisses⟩ := hmisses
    by_cases hlast : kind = .space ∧ textOf rest = []
    · -- whitespace at the end is dropped
      obtain ⟨rfl, hempty⟩ := hlast
      obtain rfl := hcut.2.eq_nil hempty
      cases h with
      | space =>
        cases hrest with
        | done => rfl
      | item _ hspace => exact absurd rfl hspace
    · have hgap : kind = .space → next = find.quiet := by
        rintro rfl
        have hfirst : Gap t (textOf rest) := by simpa using hcut.1
        exact find.gap hfirst (fun hempty => hlast ⟨rfl, hempty⟩) hfold
      obtain ⟨next', hfold', hmatched'⟩ := h.matched hmatched hfold hgap
      rw [textOf_append, find.misses_append]
      exact ⟨next', hfold', ih hcut.2 hmatched' hmisses⟩

end Search

/-! ## Standing again -/

/-- After an item, a list and its tidied list are the same up to the next boundary. -/
theorem Reads.agree (h : Reads d (.item false) ls items out) (hcut : WellCut ls) :
    Agree (textOf ls) (textOf out) := by
  generalize hmode : Mode.item false = mode at h
  induction h with
  | done => exact .of_blank (by simp [Boundary, StopsAt]) (by simp)
  | @step mode mode' l first tidied rest items out h hrest ih =>
    subst hmode
    cases h with
    | space _ text =>
      have hgap : Gap text (textOf rest) := by simpa using hcut.1
      refine .of_blank (hgap.boundary _) fun b hb => ?_
      rcases hrest.due with rfl | ⟨more, rfl⟩
      · exact absurd hb (by simp)
      · exact (Option.some.inj hb).symm
    | paste =>
      -- the operator gets a blank before it
      refine .of_blank (fun b hb => ?_) fun b hb => (Option.some.inj hb).symm
      rw [← Option.some.inj hb]
      decide
    | hash => exact .of_sign _ _
    | item => exact (ih hcut.2 rfl).append _

/-- A blank that is due stands before a lexeme. -/
theorem Mode.stood_due (mode : Mode) (h : Stood ls) (hstops : StopsAt isSeparator (textOf ls)) :
    Stood (mode.dueLexemes ++ ls) := by
  cases mode with
  | item pending =>
    cases pending with
    | false => exact h
    | true => exact ⟨stands_blank hstops, h⟩
  | _ => exact h

/-- The text of a tidied list is cut into the lexemes of that list. -/
theorem Reads.stood (h : Reads d mode ls items out) (hcut : WellCut ls) (hsealed : Sealed ls) :
    Stood out := by
  induction h with
  | done => trivial
  | @step mode mode' l first tidied rest items out h hrest ih =>
    obtain ⟨kind, t⟩ := l
    have hout := ih hcut.2 hsealed.2
    -- an item is kept, but what follows it was tidied
    have hkept : mode' = .item false → kind ≠ .space → Stands kind t (textOf out) := by
      rintro rfl hkind
      refine (hcut.stands hkind).transfer hkind (hrest.agree hcut.2) (hsealed.1 hkind)
        (hrest.lines hcut.2) fun find st hmisses => ?_
      exact hrest.misses hcut.2 rfl hmisses
    cases h with
    | space => exact hout
    | operand => exact ⟨hkept rfl (by decide), hout⟩
    | paste =>
      have hstops := hrest.stops hcut.2 (by simp)
      refine ⟨stands_blank ?_, stands_paste _,
        stands_blank hstops, hout⟩
      exact (hcut.stands (by decide)).stops (by decide) _
    | hash =>
      rw [List.append_assoc]
      exact mode.stood_due ⟨stands_hash (hrest.operand hcut.2), hout⟩
        ((hcut.stands (by decide)).stops (by decide) _)
    | item _ hspace =>
      rw [List.append_assoc]
      exact mode.stood_due ⟨hkept rfl hspace, hout⟩ ((hcut.stands hspace).stops hspace _)

end Preproc.Macro
