import Mathlib.Data.List.Chain
import Preproc.Proofs.Text.Runes
import Preproc.Proofs.Token.DirectiveLine
import Preproc.Proofs.Token.Kinds

set_option autoImplicit false

/-! # What the tokens of a text are and where they stand

Nothing of a text is lost when it is cut into tokens, and each token stands at the place that is
reached over the bytes before it (`tokens_cover_text`). Columns count code points, so the places can
be added up only because no token ends inside a code point (`CutOff.apart`): most end with an ASCII
byte, a line comment ends before a line end, and a stray token is a code point. -/

namespace Preproc

/-! ## Places -/

/-- The column after a text that starts at `column`: each code point moves it by one, and a line end
    moves it to one. -/
def columnAfter (column : Int) (text : Bytes) : Int :=
  (runes text).foldl (fun column r => if r.bytes = [newline] then 1 else column + 1) column

/-- The place that is reached over a text. -/
def Position.over (start : Position) (text : Bytes) : Position where
  file := start.file
  offset := start.offset + text.length
  line := start.line + countNewlines text
  column := columnAfter start.column text

theorem Position.over_nil (start : Position) : start.over [] = start := by
  simp [Position.over, columnAfter, runes, countNewlines]

theorem Position.over_append (start : Position) {a f : Bytes}
    (h : runes (a ++ f) = runes a ++ runes f) : start.over (a ++ f) = (start.over a).over f := by
  simp [Position.over, columnAfter, h, countNewlines, Int.add_assoc]

theorem columnAfter_unbroken (column : Int) {text : Bytes} (h : newline ∉ text) :
    columnAfter column text = column + runeCount text := by
  unfold columnAfter runeCount
  induction text using runes_induction generalizing column with
  | nil => simp [runes]
  | sequence t f code ht ih =>
    rw [List.mem_append, not_or] at h
    have hbytes : t ≠ [newline] := by
      rintro rfl
      exact h.1 (by simp)
    rw [runes_sequence ht, List.foldl_cons, Rune.bytes, if_neg hbytes, ih _ h.2, List.length_cons]
    push_cast
    omega
  | stray b f hb hdecode ih =>
    rw [List.mem_cons, not_or] at h
    have hbytes : [b] ≠ [newline] := by simpa using Ne.symm h.1
    rw [runes_stray hdecode, List.foldl_cons, Rune.bytes, if_neg hbytes, ih _ h.2, List.length_cons]
    push_cast
    omega

theorem columnAfter_line (column : Int) (a : Bytes) {last : Bytes} (h : newline ∉ last) :
    columnAfter column (a ++ newline :: last) = runeCount last + 1 := by
  have hstops : Lexer.StopsAt isContinuation (newline :: last) := by
    intro b hb
    obtain rfl : newline = b := by simpa using hb
    decide
  have hone := columnAfter_unbroken 1 h
  unfold columnAfter at hone ⊢
  rw [runes_append_of_stops a hstops, runes_ascii (by decide), List.foldl_append, List.foldl_cons,
    Rune.bytes, if_pos rfl, hone, Int.add_comm]

/-- The last line of a text that has more than one. -/
theorem exists_last_line {text : Bytes} (h : newline ∈ text) :
    ∃ a last, text = a ++ newline :: last ∧ newline ∉ last ∧
      text.reverse.takeWhile (· != newline) = last.reverse := by
  obtain ⟨last, a, htext, hlast⟩ := List.eq_append_cons_of_mem (List.mem_reverse.2 h)
  refine ⟨a.reverse, last.reverse, ?_, by simpa using hlast, ?_⟩
  · rw [← List.reverse_reverse text, htext]
    simp
  · rw [htext, List.reverse_reverse]
    refine Lexer.takeWhile_of_stops (fun b hb => ?_) (by simp [Lexer.StopsAt])
    simp only [bne_iff_ne]
    rintro rfl
    exact hlast hb

namespace Lexer

theorem advance_eq_over (pos : Position) (text : Bytes) : advance pos text = pos.over text := by
  have hcolumn : (advance pos text).column = columnAfter pos.column text := by
    unfold advance
    by_cases hline : newline ∈ text
    · obtain ⟨a, last, htext, hlast, htake⟩ := exists_last_line hline
      rw [htake, htext, columnAfter_line _ _ hlast]
      simp
    · rw [columnAfter_unbroken _ hline]
      simp [hline]
  exact congrArg (fun column => { pos.over text with column }) hcolumn

/-- The end of a text has the place that is reached over the text, but for its column, which counts
    bytes. -/
theorem endPosition_eq_over (start : Position) (text : Bytes) :
    { endPosition start text with column := (start.over text).column } = start.over text ∧
      (0 < start.column → (∀ b ∈ text, b < 0x80) →
        (endPosition start text).column = (start.over text).column) := by
  refine ⟨rfl, fun hstart hascii => ?_⟩
  have hplain : ∀ {a : Bytes}, a ⊆ text → newline ∉ a → ∀ b ∈ a, isPlain b = true := by
    intro a ha hline b hb
    have hne : b ≠ newline := by
      rintro rfl
      exact hline hb
    simp [isPlain, hascii b (ha hb), hne]
  show (endPosition start text).column = columnAfter start.column text
  unfold endPosition
  by_cases hline : newline ∈ text
  · obtain ⟨a, last, htext, hlast, htake⟩ := exists_last_line hline
    have hcount := runeCount_plain (hplain (a := last) (by simp [htext]) hlast)
    rw [htake, htext, columnAfter_line _ _ hlast, hcount]
    simp
  · rw [columnAfter_unbroken _ hline, runeCount_plain (hplain (List.Subset.refl _) hline)]
    simp [hline, hstart]

/-! ## Ends of tokens -/

/-- The bytes of words, numbers and punctuators, and the blanks, are ASCII. -/
theorem ascii_bytes : ∀ b : UInt8,
    isNumberByte b = true ∨ isSeparator b = true ∨ b ∈ shortPunctuators → b < 0x80 :=
  forall_byte (by decide +kernel)

/-- No code point goes across the end of `t`, however much of what follows is there. -/
def Apart (t following : Bytes) : Prop :=
  ∀ f, f <+: following → runes (t ++ f) = runes t ++ runes f

theorem apart_of_last {t following : Bytes} {b : UInt8} (ht : t.getLast? = some b) (hb : b < 0x80) :
    Apart t following :=
  fun f _ => runes_append_of_ascii ht hb f

theorem apart_of_bytes {t following : Bytes} (hne : t ≠ []) (h : ∀ b ∈ t, b < 0x80) :
    Apart t following :=
  apart_of_last (List.getLast?_eq_some_getLast hne) (h _ (List.getLast_mem hne))

/-- A line comment goes up to the end of the line. -/
theorem apart_of_line {t following : Bytes}
    (h : following = [] ∨ following.head? = some newline) : Apart t following := by
  intro f hf
  refine runes_append_of_stops t fun b hb => ?_
  obtain ⟨f, rfl⟩ := List.head?_eq_some_iff.1 hb
  obtain ⟨rest, rfl⟩ := hf
  rcases h with hnil | hline
  · exact absurd hnil (by simp)
  · obtain rfl : b = newline := by simpa using hline
    decide

theorem Stands.apart {kind : TokenKind} {t following : Bytes} (h : Stands kind t following) :
    Apart t following := by
  cases kind with
  | endOfLine => exact absurd h.rule id
  | ident =>
    have hbytes := isNumberByte_of_isIdent h.isIdent
    exact apart_of_bytes h.nonempty fun b hb => ascii_bytes b (Or.inl (hbytes b hb))
  | number =>
    exact apart_of_bytes h.nonempty fun b hb => ascii_bytes b (Or.inl (h.number_bytes.2 b hb))
  | string => exact apart_of_last (quotation_last h.nonempty h.rule) (by decide)
  | character => exact apart_of_last (quotation_last h.nonempty h.rule) (by decide)
  | punctuator =>
    refine apart_of_bytes h.nonempty fun b hb => ascii_bytes b (Or.inr (Or.inr ?_))
    rcases h.punctuator_spelling with hlong | ⟨c, hc, rfl⟩
    · exact (longPunctuators_bytes t hlong).2 b hb
    · obtain rfl : b = c := by simpa using hb
      exact hc
  | space =>
    rcases h.space_forms with ⟨rest, -, -, hends⟩ | ⟨rest, rfl, hend⟩ | hblanks
    · exact apart_of_line hends
    · have hclosed := commentEnd?_ends _ _ hend
      rw [List.take_left] at hclosed
      obtain ⟨comment, hcomment⟩ := hclosed
      refine apart_of_last (b := byte '/') ?_ (by decide)
      rw [← hcomment, ← List.append_assoc, List.getLast?_append]
      rfl
    · exact apart_of_bytes h.nonempty fun b hb => ascii_bytes b (Or.inr (Or.inl (hblanks b hb)))
  | stray =>
    obtain ⟨-, -, -, -, hwidth⟩ := h.rule
    exact fun f hf => runes_append_of_width h.nonempty hwidth hf

/-! ## Tokens -/

/-- What the rules, tried in their order, cut off at the head of a text: a lexeme, or several pieces
    of whitespace one after the other. -/
inductive CutOff : TokenKind → Bytes → Bytes → Prop where
  | lexeme {kind : TokenKind} {t following : Bytes} (h : Stands kind t following) :
    CutOff kind t following
  | spaces {t t' following : Bytes} (h : Stands .space t (t' ++ following))
      (h' : CutOff .space t' following) : CutOff .space (t ++ t') following

section CutOff

variable {kind : TokenKind} {t following : Bytes}

theorem CutOff.nonempty (h : CutOff kind t following) : t ≠ [] := by
  cases h with
  | lexeme h => exact h.nonempty
  | spaces h => simp [h.nonempty]

theorem CutOff.unbroken (h : CutOff kind t following) (hkind : kind ≠ .space) : newline ∉ t := by
  cases h with
  | lexeme h => exact h.unbroken hkind
  | spaces => exact absurd rfl hkind

theorem CutOff.apart (h : CutOff kind t following) : Apart t following := by
  induction h with
  | lexeme h => exact h.apart
  | @spaces t t' following h _ ih =>
    intro f hf
    have hboth := h.apart t' ( List.prefix_append _ _)
    rw [List.append_assoc, h.apart _ ((List.prefix_append_right_inj t').2 hf), ih f hf, hboth,
      List.append_assoc]

end CutOff

/-- Each piece of a list is cut off at the head of what follows it. -/
def EachCutOff : List (TokenKind × Bytes) → Prop
  | [] => True
  | (kind, t) :: rest => CutOff kind t (textOf rest) ∧ EachCutOff rest

/-- Neighbours are not both whitespace. -/
def NotBothSpace (l l' : TokenKind × Bytes) : Prop :=
  ¬ (l.1 = .space ∧ l'.1 = .space)

theorem eachCutOff_mergeSpaces {ls : List (TokenKind × Bytes)} (h : Stood ls) :
    EachCutOff (mergeSpaces ls) ∧ (mergeSpaces ls).IsChain NotBothSpace := by
  induction ls with
  | nil => exact ⟨trivial, .nil⟩
  | cons l rest ih =>
    obtain ⟨kind, t⟩ := l
    obtain ⟨hstands, hstood⟩ := h
    obtain ⟨hcut, hchain⟩ := ih hstood
    rw [← textOf_mergeSpaces] at hstands
    rw [mergeSpaces]
    cases hmerged : mergeSpaces rest with
    | nil =>
      rw [hmerged] at hstands
      exact ⟨⟨.lexeme hstands, trivial⟩, .singleton _⟩
    | cons l' more =>
      obtain ⟨kind', t'⟩ := l'
      rw [hmerged] at hstands hcut hchain
      dsimp only
      split
      · next hspaces =>
        obtain ⟨rfl, rfl⟩ := hspaces
        rw [textOf_cons] at hstands
        refine ⟨⟨.spaces hstands hcut.1, hcut.2⟩, ?_⟩
        exact hchain.tail.cons fun l hl => hchain.rel_head? hl
      · next hspaces =>
        refine ⟨⟨.lexeme hstands, hcut⟩, hchain.cons fun l hl => ?_⟩
        obtain rfl : (kind', t') = l := by simpa using hl
        exact hspaces

theorem flatMap_text_place (pos : Position) (ls : List (TokenKind × Bytes)) :
    (place pos ls).flatMap Token.text = textOf ls := by
  induction ls generalizing pos with
  | nil => rfl
  | cons l rest ih => rw [place, List.flatMap_cons, ih, textOf_cons]

theorem place_over {ls : List (TokenKind × Bytes)} (h : EachCutOff ls) (pos : Position)
    {before after : List Token} {t : Token} (hplace : place pos ls = before ++ t :: after) :
    t.pos = pos.over (before.flatMap Token.text) ∧
      CutOff t.kind t.text (after.flatMap Token.text) := by
  induction ls generalizing pos before with
  | nil => simp [place] at hplace
  | cons l rest ih =>
    obtain ⟨kind, text⟩ := l
    obtain ⟨hcut, hrest⟩ := h
    rw [place] at hplace
    cases before with
    | nil =>
      obtain ⟨rfl, rfl⟩ := List.cons.inj hplace
      rw [flatMap_text_place]
      exact ⟨(pos.over_nil).symm, hcut⟩
    | cons first before =>
      rw [List.cons_append] at hplace
      obtain ⟨rfl, hmore⟩ := List.cons.inj hplace
      have hinitial : before.flatMap Token.text <+: textOf rest := by
        rw [← flatMap_text_place, hmore, List.flatMap_append]
        exact List.prefix_append _ _
      obtain ⟨hpos, hoff⟩ := ih hrest _ hmore
      refine ⟨?_, hoff⟩
      rw [hpos, advance_eq_over, List.flatMap_cons, pos.over_append (hcut.apart _ hinitial)]

/-- **Cutting a text into tokens loses nothing and places each token exactly.** The texts of the
    tokens are the text. None is empty, and each is what the rules cut off at its place. Neighbours
    are not both whitespace, and only whitespace has line ends in it. A token stands where the bytes
    before it lead, with columns in code points. The end of the line stands where the whole text
    leads; its column counts bytes, which are the code points of an ASCII text. -/
theorem tokens_cover_text (start : Position) (hcolumn : 1 ≤ start.column) (text : Bytes) :
    let c := Cursor.ofText start text
    c.after.flatMap Token.text = text ∧
      (∀ t ∈ c.after, t.text ≠ []) ∧
      (∀ t ∈ c.after, newline ∈ t.text → t.kind = .space) ∧
      c.after.IsChain (fun a b => ¬ (a.kind = .space ∧ b.kind = .space)) ∧
      (∀ before t after, c.after = before ++ t :: after →
        t.pos = start.over (before.flatMap Token.text) ∧
          CutOff t.kind t.text (after.flatMap Token.text)) ∧
      c.eol.pos.file = (start.over text).file ∧ c.eol.pos.offset = (start.over text).offset ∧
      c.eol.pos.line = (start.over text).line ∧
      ((∀ b ∈ text, b < 0x80) → c.eol.pos.column = (start.over text).column) := by
  intro c
  obtain ⟨hstood, htext⟩ := stood_lexemes text
  obtain ⟨hcut, hchain⟩ := eachCutOff_mergeSpaces hstood
  have hplaced : c.after = place start (mergeSpaces (lexemes text)) := by
    show tokens start text = _
    rw [tokens, if_pos (by omega)]
  have hexact : ∀ before t after, c.after = before ++ t :: after →
      t.pos = start.over (before.flatMap Token.text) ∧
        CutOff t.kind t.text (after.flatMap Token.text) := by
    intro before t after hsplit
    exact place_over hcut start (hplaced.symm.trans hsplit)
  have hmem : ∀ t ∈ c.after, ∃ following, CutOff t.kind t.text following := by
    intro t ht
    obtain ⟨before, after, hsplit⟩ := List.append_of_mem ht
    exact ⟨_, (hexact before t after hsplit).2⟩
  refine ⟨?_, ?_, ?_, ?_, hexact, rfl, rfl, rfl, (endPosition_eq_over start text).2 (by omega)⟩
  · rw [hplaced, flatMap_text_place, textOf_mergeSpaces, htext]
  · intro t ht
    obtain ⟨following, hoff⟩ := hmem t ht
    exact hoff.nonempty
  · intro t ht hline
    obtain ⟨following, hoff⟩ := hmem t ht
    by_contra hkind
    exact hoff.unbroken hkind hline
  · rw [hplaced]
    rw [← map_place start (mergeSpaces (lexemes text)), List.isChain_map] at hchain
    exact hchain

/-- A code point of two bytes, a comment with a line end and a code point of three bytes in it, a
    blank, a name, a byte that belongs to no code point, and a quote that is not closed. -/
def accentedText : Bytes :=
  [0xC3, 0xA9] ++ ascii "/*\n" ++ [0xE2, 0x82, 0xAC] ++ ascii "*/ x" ++ [0xFF] ++ ascii "\""

theorem tokens_cover_text_accented :
    let start : Position := { file := ascii "t.c", offset := 7, line := 3, column := 5 }
    let c := Cursor.ofText start accentedText
    1 ≤ start.column ∧ c.after.flatMap Token.text = accentedText ∧
      (∀ before t after, c.after = before ++ t :: after →
        t.pos = start.over (before.flatMap Token.text)) ∧
      c.after.map (fun t => (t.kind, t.pos.offset, t.pos.line, t.pos.column)) =
        [(.stray, 7, 3, 5), (.space, 9, 3, 6), (.ident, 18, 4, 5), (.stray, 19, 4, 6),
          (.stray, 20, 4, 7)] ∧
      c.eol.pos.offset = 21 ∧ c.eol.pos.line = 4 := by
  intro start c
  have hcolumn : 1 ≤ start.column := by decide
  obtain ⟨htext, -, -, -, hexact, -, hoffset, hline, -⟩ :=
    tokens_cover_text start hcolumn accentedText
  refine ⟨hcolumn, htext, fun before t after h => (hexact before t after h).1, by decide +kernel,
    hoffset.trans (by decide +kernel), hline.trans (by decide +kernel)⟩

end Lexer

end Preproc
