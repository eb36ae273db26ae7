import Mathlib.Data.List.Infix
import Preproc.Proofs.Token.Unclosed

set_option autoImplicit false

/-! # Comments that are left open

The line reader follows comments byte by byte, and the cutter by its rules. On one line they agree:
unless a quote is left open, a comment is open at the end exactly if a slash and a star stand next
to each other among the tokens (`comments_tracked_alike`). -/

namespace Preproc.Lexer

open Source (Region endsInComment)

/-! ## The opening of a comment -/

/-- The star as a lexeme. -/
def starLexeme : TokenKind × Bytes := (.punctuator, ascii "*")

/-- The lexemes of a comment's opening when the comment is not closed. -/
def opening : List (TokenKind × Bytes) :=
  [slashLexeme, starLexeme]

/-- An opening is at the head of a list or in the rest of it. -/
theorem opening_cons (l : TokenKind × Bytes) (rest : List (TokenKind × Bytes)) :
    opening <:+: l :: rest ↔
      l = slashLexeme ∧ rest.head? = some starLexeme ∨ opening <:+: rest := by
  have hhead : [starLexeme] <+: rest ↔ rest.head? = some starLexeme := by
    rw [List.head?_eq_some_iff]
    exact exists_congr fun more => eq_comm
  rw [List.infix_cons_iff]
  refine or_congr_left ?_
  rw [opening, List.cons_prefix_cons, hhead, eq_comm (a := slashLexeme)]

theorem opening_space (t : Bytes) (rest : List (TokenKind × Bytes)) :
    opening <:+: (.space, t) :: rest ↔ opening <:+: rest := by
  rw [opening_cons]
  simp [slashLexeme]

/-- Merging whitespace keeps a first lexeme that is none. -/
theorem head?_mergeSpaces {l : TokenKind × Bytes} (hl : l.1 ≠ .space)
    (ls : List (TokenKind × Bytes)) :
    (mergeSpaces ls).head? = some l ↔ ls.head? = some l := by
  cases ls with
  | nil => simp [mergeSpaces]
  | cons first rest =>
    rcases mergeSpaces_cons_cases first rest with hsame | ⟨t, more, hspace, -, hmerged⟩
    · rw [hsame, List.head?_cons, List.head?_cons]
    · have hfirst : first ≠ l := by
        rintro rfl
        exact hl hspace
      have hjoined : (.space, first.2 ++ t) ≠ l := by
        rintro rfl
        exact hl rfl
      rw [hmerged, List.head?_cons, List.head?_cons]
      simp [hfirst, hjoined]

/-- Merging whitespace neither makes nor breaks an opening. -/
theorem opening_mergeSpaces (ls : List (TokenKind × Bytes)) :
    opening <:+: mergeSpaces ls ↔ opening <:+: ls := by
  induction ls with
  | nil => rfl
  | cons l rest ih =>
    rcases mergeSpaces_cons_cases l rest with hsame | ⟨t, more, hspace, hrest, hmerged⟩
    · rw [hsame, opening_cons, opening_cons, head?_mergeSpaces (by simp [starLexeme]), ih]
    · obtain ⟨kind, t'⟩ := l
      obtain rfl : kind = .space := hspace
      rw [hmerged, opening_space, opening_space, ← ih, hrest, opening_space]

/-! ## Lexemes on one line -/

theorem stands_star (following : Bytes) : Stands .punctuator (ascii "*") following :=
  stands_punctuator (b := byte '*') (t := []) (by decide) (by decide) (by decide)
    (number_eq_zero (by decide) (by decide) _) (by decide) (by decide)
    ((punctuator_of_head (by decide) following).trans (by decide))

/-- A star at the head of a text is a lexeme of its own. -/
theorem Stood.star_iff {ls : List (TokenKind × Bytes)} (h : Stood ls) :
    ls.head? = some starLexeme ↔ (textOf ls).head? = some (byte '*') := by
  constructor
  · intro hstar
    obtain ⟨rest, rfl⟩ := List.head?_eq_some_iff.1 hstar
    rw [starLexeme, textOf_cons]
    rfl
  · intro hstar
    obtain ⟨following, hfollowing⟩ := List.head?_eq_some_iff.1 hstar
    have hcut : ls = starLexeme :: lexemes following := by
      rw [← lexemes_textOf h, hfollowing]
      exact lexemes_of_stands (stands_star following)
    rw [hcut]
    rfl

/-- A comment to the end of the line has nothing after it on the line. -/
theorem Stands.to_lineEnd {kind : TokenKind} {t following : Bytes} (h : Stands kind t following)
    (hline : ascii "//" <+: t) (hlines : newline ∉ following) : kind = .space ∧ following = [] := by
  obtain ⟨t, rfl⟩ := hline
  have hkind : kind = .space := by
    by_contra hkind
    have hcomment := (h.rules hkind).1
    simp [comment, ascii, byte] at hcomment
  subst hkind
  refine ⟨rfl, ?_⟩
  rcases h.space_forms with ⟨rest, -, -, hends⟩ | ⟨rest, heq, -⟩ | hblanks
  · refine hends.resolve_right ?_
    intro hhead
    exact hlines (List.mem_of_mem_head? hhead)
  · simp [ascii] at heq
  · exact absurd (hblanks (byte '/') (by simp [ascii, byte])) (by decide)

/-- **Where the lexemes of a line lead.** Followed byte by byte, their text ends inside a quotation,
    or it ends inside a block comment exactly if an opening is among them. -/
theorem Stood.after_code {ls : List (TokenKind × Bytes)} (h : Stood ls)
    (hlines : newline ∉ textOf ls) :
    (∃ quote, Region.code.after (textOf ls) = .quotation quote) ∨
      (Region.code.after (textOf ls) = .blockComment ↔ opening <:+: ls) := by
  induction ls with
  | nil => exact Or.inr (by simp [Region.after, opening])
  | cons l rest ih =>
    obtain ⟨kind, t⟩ := l
    obtain ⟨hstands, hstood⟩ := h
    rw [textOf_cons] at hlines ⊢
    rw [List.mem_append, not_or] at hlines
    by_cases hquote : LoneQuote t
    · -- the quote hides everything after it
      obtain ⟨quote, hq, rfl, hnone⟩ := hstands.lone_quote hquote
      refine Or.inl ⟨quote, ?_⟩
      rw [List.singleton_append, Region.after_quote hq, after_quoteEnd_none hlines.2 hnone]
    by_cases hline : ascii "//" <+: t
    · -- the comment is the last lexeme
      obtain ⟨rfl, hempty⟩ := hstands.to_lineEnd hline hlines.2
      have hrest : rest = [] := by
        rw [← lexemes_textOf hstood, hempty]
        simp [lexemes]
      obtain ⟨t, rfl⟩ := hline
      rw [hrest, opening_space, List.append_assoc, after_lineComment]
      exact Or.inr (by simp [opening])
    by_cases hopen : t = ascii "/" ∧ (textOf rest).head? = some (byte '*')
    · -- a comment that is opened here is not closed
      obtain ⟨rfl, hstar⟩ := hopen
      refine Or.inr (iff_of_true ?_ ?_)
      · obtain ⟨following, hfollowing⟩ := List.head?_eq_some_iff.1 hstar
        rw [hfollowing] at hstands ⊢
        exact (after_opening following).trans (after_commentEnd_none hstands.not_closed)
      · obtain rfl := hstands.slash_kind
        exact (opening_cons _ _).2 (Or.inl ⟨rfl, hstood.star_iff.2 hstar⟩)
    · -- every other lexeme leads from code to code
      rw [hstands.after_code (fun _ => hquote) hline (fun ht hstar => hopen ⟨ht, hstar⟩)
        (List.prefix_refl _)]
      have hhead : ¬ ((kind, t) = slashLexeme ∧ rest.head? = some starLexeme) := by
        rintro ⟨hslash, hstar⟩
        exact hopen ⟨(Prod.mk.inj hslash).2, hstood.star_iff.1 hstar⟩
      rw [opening_cons, or_iff_right hhead]
      exact ih hstood hlines.2

/-! ## Tokens -/

/-- Tokens among which a slash stands directly before a star. -/
def OpensComment (toks : List Token) : Prop :=
  [(.punctuator, ascii "/"), (.punctuator, ascii "*")] <:+: toks.map fun t => (t.kind, t.text)

instance (toks : List Token) : Decidable (OpensComment toks) :=
  inferInstanceAs (Decidable (_ <:+: _))

/-- **Comments are tracked alike.** On one line, either a quote is left open, or a comment is left
    open exactly if the tokens of the line have its opening. A text that starts inside a comment is
    followed as if it began with the opening of one. -/
theorem comments_tracked_alike (start : Position) (text : Bytes) :
    (newline ∉ text →
      (∃ quote, Region.code.after text = .quotation quote) ∨
        (endsInComment false text = true ↔ OpensComment (tokens start text))) ∧
      endsInComment true text = endsInComment false (ascii "/*" ++ text) := by
  constructor
  · intro hlines
    obtain ⟨hstood, htext⟩ := stood_lexemes text
    have hafter := hstood.after_code (by rwa [htext])
    rw [htext, ← opening_mergeSpaces] at hafter
    have hopens : OpensComment (tokens start text) ↔ opening <:+: mergeSpaces (lexemes text) := by
      rw [OpensComment, tokens, map_place]
      exact Iff.rfl
    have hends : endsInComment false text = true ↔ Region.code.after text = .blockComment := by
      simp [endsInComment]
    rw [hopens, hends]
    exact hafter
  · simp [endsInComment, after_opening]

/-- Closed comments and quotations that look like openings, and a comment that is not closed. -/
def starryLine : Bytes :=
  ascii "a /**/ \"\\\"/*\" '/*' /* // **/ 1.e+/2 /*/ 'b"

theorem comments_tracked_alike_starry :
    newline ∉ starryLine ∧ (∀ quote, Region.code.after starryLine ≠ .quotation quote) ∧
      OpensComment (tokens {} starryLine) ∧ endsInComment false starryLine = true ∧
      endsInComment true starryLine = true := by
  have hlines : newline ∉ starryLine := by decide +kernel
  have hcomment : Region.code.after starryLine = .blockComment := by decide +kernel
  obtain ⟨hline, hinside⟩ := comments_tracked_alike {} starryLine
  have hopens : OpensComment (tokens {} starryLine) := by
    rcases hline hlines with ⟨quote, hquote⟩ | hiff
    · exact absurd (hcomment.symm.trans hquote) (by simp)
    · exact hiff.1 (by simp [endsInComment, hcomment])
  refine ⟨hlines, by simp [hcomment], hopens, by simp [endsInComment, hcomment], ?_⟩
  rw [hinside]
  decide +kernel

end Preproc.Lexer
