import Preproc.Proofs.Source.Joined
import Preproc.Proofs.Token.Positions
import Preproc.Proofs.Token.Unclosed

set_option autoImplicit false

/-! # Places on a line

Every token of a directive stands on one of the physical lines of the directive. The end of the
directive does so too, unless the source ends inside a block comment that the directive opens; then
the slash of the opening is a token (`within_line`). A cursor keeps this as it reads the directive
token by token. -/

namespace Preproc

/-! ## Line breaks of a line -/

namespace Source

/-- A line that goes on may have taken in as many line breaks as physical lines. -/
theorem Pending.extend_breaks {p : Pending} (hp : countNewlines p.text ≤ p.count)
    {physical : PhysicalLine} (hphysical : newline ∉ physical.text) :
    countNewlines (p.extend physical).1.text < (p.extend physical).1.count ∨
      (p.extend physical).2 = true ∧ ∃ t, (p.extend physical).1.text = t ++ [newline] ∧
        countNewlines t < (p.extend physical).1.count := by
  have hdrop : newline ∉ dropCarriageReturn physical.text := fun hmem =>
    hphysical ((dropCarriageReturn_initial _).mem hmem)
  have hcount : ∀ t : Bytes, newline ∉ t → countNewlines (p.text ++ t) < p.count + 1 := by
    intro t ht
    rw [countNewlines, List.count_append, List.count_eq_zero.2 ht]
    exact Nat.lt_succ_of_le hp
  unfold Pending.extend
  dsimp only
  split
  · exact .inl (hcount _ fun hmem => hdrop (List.dropLast_subset _ hmem))
  · split
    · exact .inr ⟨rfl, _, rfl, hcount _ hdrop⟩
    · exact .inl (hcount _ hdrop)

/-- A line end does not close a block comment. -/
theorem Region.after_newline {r : Region} {text : Bytes} (h : r.after text = .blockComment) :
    r.after (text ++ [newline]) = .blockComment := by
  have hslash : newline ≠ byte '/' := by decide
  fun_induction Region.after r text <;> grind [Region.after]

/-- A line has fewer line breaks in its text than physical lines, or its last physical line leaves
    one behind. -/
def FewBreaks (l : LogicalLine) : Prop :=
  countNewlines l.text < l.count ∨ ∃ t, l.text = t ++ [newline] ∧ countNewlines t < l.count

theorem carries_fewBreaks :
    Carries (fun _ last => countNewlines last.1.text < last.1.count ∨ last.2 = true ∧ ∃ t,
      last.1.text = t ++ [newline] ∧ countNewlines t < last.1.count) (fun _ => FewBreaks) where
  first start l hl := Pending.extend_breaks (p := start.pending l) (Nat.le_refl 0) hl
  next start p l hl hbefore := by
    refine Pending.extend_breaks ?_ hl
    rcases hbefore with hfew | ⟨-, t, htext, hfew⟩
    · exact Nat.le_of_lt hfew
    · dsimp only at htext hfew ⊢
      rw [htext, countNewlines, List.count_append]
      exact hfew
  close _ _ _ _ hlast := hlast.imp id And.right
  cutOff _ _ hlast := hlast.imp id And.right

theorem logicalLines_fewBreaks (source : Bytes) : ∀ l ∈ logicalLines source, FewBreaks l :=
  (logicalLines_each carries_fewBreaks source).forall_mem

end Source

/-! ## Tokens that open no comment -/

/-- A token that can stand on a line without a block comment being open after it. -/
def Token.Plain (t : Token) : Prop :=
  t.kind ≠ .stray ∧ (t.kind = .punctuator → t.text ≠ ascii "/")

theorem Token.plain_of_kind {t : Token} (hstray : t.kind ≠ .stray) (h : t.kind ≠ .punctuator) :
    t.Plain :=
  ⟨hstray, fun hkind => absurd hkind h⟩

namespace Lexer

open Source (Region)

/-- A lone quote is a stray byte. -/
theorem Stands.quote_kind {kind : TokenKind} {t following : Bytes} (h : Stands kind t following)
    (hkind : kind ≠ .space) (hlone : LoneQuote t) : kind = .stray := by
  obtain ⟨quote, hquote, rfl, hnone⟩ := h.lone_quote hlone
  obtain ⟨hcomment, hblanks⟩ := h.rules hkind
  have hlexeme := h.lexeme
  rw [List.singleton_append] at hcomment hblanks hlexeme
  have hopen : quotation quote (quote :: following) = 0 := by simp [quotation, hnone]
  have hpunctuator : punctuator (quote :: following) = 0 := by
    rcases hquote with rfl | rfl
    · exact (punctuator_of_head (by decide) following).trans (by decide)
    · exact (punctuator_of_head (by decide) following).trans (by decide)
  rw [lexeme_eq, hcomment, hblanks, hpunctuator] at hlexeme
  rcases hquote with rfl | rfl
  · rw [identifier_eq_zero (by decide), number_eq_zero (by decide) (by decide), hopen,
      quotation_eq_zero (by decide)] at hlexeme
    exact (Prod.mk.inj hlexeme).1.symm
  · rw [identifier_eq_zero (by decide), number_eq_zero (by decide) (by decide), hopen,
      quotation_eq_zero (by decide)] at hlexeme
    exact (Prod.mk.inj hlexeme).1.symm

/-- Lexemes of which none is the slash or a stray code point lead from code to code, or to a line
    comment. -/
theorem Stood.after_plain {ls : List (TokenKind × Bytes)} (h : Stood ls)
    (hplain : ∀ l ∈ ls, l.1 ≠ .space → l.1 ≠ .stray ∧ l ≠ slashLexeme) :
    Region.code.after (textOf ls) ≠ .blockComment := by
  induction ls with
  | nil => simp [Region.after]
  | cons l rest ih =>
    obtain ⟨kind, t⟩ := l
    obtain ⟨hstands, hstood⟩ := h
    obtain ⟨hfirst, hrest⟩ := List.forall_mem_cons.1 hplain
    rw [textOf_cons]
    by_cases hline : ascii "//" <+: t
    · obtain ⟨t, rfl⟩ := hline
      rw [List.append_assoc, after_lineComment]
      simp
    · have hquote : kind ≠ .space → ¬ LoneQuote t := fun hkind hlone =>
        (hfirst hkind).1 (hstands.quote_kind hkind hlone)
      have hslash : t = ascii "/" → (textOf rest).head? ≠ some (byte '*') := by
        rintro rfl
        obtain rfl := hstands.slash_kind
        exact absurd rfl (hfirst (by simp)).2
      rw [hstands.after_code hquote hline hslash (List.prefix_refl _)]
      exact ih hstood hrest

/-- A text with plain tokens only does not end inside a block comment. -/
theorem after_of_plain {start : Position} {text : Bytes}
    (hplain : ∀ t ∈ tokens start text, t.Plain) : Region.code.after text ≠ .blockComment := by
  obtain ⟨hstood, htext⟩ := stood_lexemes text
  rw [← htext]
  refine hstood.after_plain fun l hl hspace => ?_
  have hmem := mem_mergeSpaces_of_mem hspace hl
  rw [← map_place { start with column := if 0 < start.column then start.column else 1 }
    (mergeSpaces (lexemes text))] at hmem
  obtain ⟨t, ht, rfl⟩ := List.mem_map.1 hmem
  obtain ⟨hstray, hslash⟩ := hplain t ht
  refine ⟨hstray, fun heq => ?_⟩
  obtain ⟨hkind, htext⟩ := Prod.mk.inj heq
  exact hslash hkind htext

end Lexer

/-! ## Cursors -/

/-- What is said of places holds where a cursor may come to: at each token and, if no token opens a
    comment, at the end of the line. -/
structure Cursor.Within (Q : Position → Prop) (c : Cursor) : Prop where
  ended : c.eol.kind = .endOfLine
  token : ∀ t ∈ c.after, Q t.pos
  eol : (∀ t ∈ c.after, t.Plain) → Q c.eol.pos

namespace Cursor.Within

variable {Q : Position → Prop} {c : Cursor}

/-- The token that is read next is at such a place. -/
theorem next_pos (h : c.Within Q) : Q c.nextNonSpace.1.pos := by
  unfold Cursor.nextNonSpace Cursor.next Cursor.skipSpace
  dsimp only
  cases hdrop : c.after.dropWhile Token.isSpace with
  | nil =>
    refine h.eol fun t ht => ?_
    have hspace : t.kind = .space := by
      simpa [Token.isSpace] using List.dropWhile_eq_nil_iff.1 hdrop t ht
    exact Token.plain_of_kind (by simp [hspace]) (by simp [hspace])
  | cons t rest =>
    have hmem : t ∈ c.after.dropWhile Token.isSpace := by simp [hdrop]
    exact h.token t (List.dropWhile_subset _ hmem)

/-- A cursor that has read a plain token stands at such a place. -/
theorem next (h : c.Within Q) (ht : c.nextNonSpace.1.Plain) : c.nextNonSpace.2.Within Q := by
  have hpos := h.next_pos
  have hafter := List.takeWhile_append_dropWhile (p := Token.isSpace) (l := c.after)
  unfold Cursor.nextNonSpace Cursor.next Cursor.skipSpace at ht hpos ⊢
  dsimp only at ht hpos ⊢
  cases hdrop : c.after.dropWhile Token.isSpace with
  | nil =>
    rw [hdrop] at hpos
    exact ⟨h.ended, by simp, fun _ => hpos⟩
  | cons t rest =>
    rw [hdrop] at ht hafter
    have hmore : ∀ t' ∈ rest, t' ∈ c.after.dropWhile Token.isSpace :=
      fun t' ht' => hdrop ▸ List.mem_cons_of_mem t ht'
    refine ⟨h.ended, fun t' ht' => h.token t' (List.dropWhile_subset _ (hmore t' ht')),
      fun hrest => h.eol ?_⟩
    rw [← hafter]
    refine List.forall_mem_append.2 ⟨fun b hb => ?_, List.forall_mem_cons.2 ⟨ht, hrest⟩⟩
    have hspace : b.kind = .space := by simpa [Token.isSpace] using List.mem_takeWhile_imp hb
    exact Token.plain_of_kind (by simp [hspace]) (by simp [hspace])

end Cursor.Within

/-! ## Lines -/

/-- A place on one of the lines of a file that begin at a given one. -/
structure Position.Inside (file : Bytes) (first : Int) (count : Nat) (p : Position) : Prop where
  same_file : p.file = file
  first_le : first ≤ p.line
  lt_last : p.line < first + count

theorem Position.Inside.of_breaks {file : Bytes} {first : Int} {count n : Nat} {p : Position}
    (hfile : p.file = file) (hline : p.line = first + n) (hn : n < count) :
    p.Inside file first count :=
  ⟨hfile, by omega, by omega⟩

/-- What stands before a byte of a line has fewer line breaks than the line has lines. -/
theorem Source.FewBreaks.before {l : LogicalLine} (h : FewBreaks l) {before after : Bytes}
    (hsplit : before ++ after = l.text) (hafter : after ≠ []) : countNewlines before < l.count := by
  have hle : ∀ u v : Bytes, countNewlines u ≤ countNewlines (u ++ v) := fun u v => by
    rw [countNewlines, countNewlines, List.count_append]
    exact Nat.le_add_right _ _
  rcases h with hfew | ⟨t, htext, hfew⟩
  · rw [← hsplit] at hfew
    exact Nat.lt_of_le_of_lt (hle before after) hfew
  · rw [htext] at hsplit
    rcases List.append_eq_append_iff.1 hsplit with ⟨more, rfl, -⟩ | ⟨more, rfl, hmore⟩
    · exact Nat.lt_of_le_of_lt (hle before more) hfew
    · -- only the last line break is left
      cases more with
      | nil => rwa [List.append_nil]
      | cons b more =>
        have hnil : more ++ after = [] := (List.cons.inj hmore).2.symm
        exact absurd (List.append_eq_nil_iff.1 hnil).2 hafter

/-- **A directive is read on its own lines.** -/
theorem within_line {source : Bytes} {l : Source.LogicalLine}
    (hmem : l ∈ Source.logicalLines source) (hl : l.directive = true) (pos : Position) :
    (Cursor.ofText pos l.text).Within (Position.Inside pos.file pos.line l.count) := by
  obtain ⟨hstood, htext⟩ := Lexer.stood_lexemes l.text
  obtain ⟨hcut, -⟩ := Lexer.eachCutOff_mergeSpaces hstood
  have hfew := Source.logicalLines_fewBreaks source l hmem
  refine ⟨rfl, fun t ht => ?_, fun hplain => ?_⟩
  · obtain ⟨before, after, hsplit⟩ := List.append_of_mem ht
    obtain ⟨hpos, hoff⟩ := Lexer.place_over hcut _ hsplit
    have hall : before.flatMap Token.text ++ (t.text ++ after.flatMap Token.text) = l.text := by
      rw [← htext, ← Lexer.textOf_mergeSpaces, ← Lexer.flatMap_text_place,
        show Lexer.place _ (Lexer.mergeSpaces (Lexer.lexemes l.text)) = _ from hsplit]
      simp
    have hline := hfew.before hall (by simp [hoff.nonempty])
    exact .of_breaks (by rw [hpos]; rfl) (by rw [hpos]; rfl) hline
  · have hends : countNewlines l.text < l.count := by
      refine hfew.resolve_right fun ⟨t, htext, _⟩ => ?_
      have hopen := Source.logicalLines_joined source l hmem hl t [] htext
      have hstays := Source.Region.after_newline hopen
      rw [← htext] at hstays
      exact Lexer.after_of_plain hplain hstays
    exact .of_breaks rfl rfl hends

end Preproc
