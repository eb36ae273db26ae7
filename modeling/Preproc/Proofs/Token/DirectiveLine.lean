import Preproc.Keyword
import Preproc.Proofs.Source.SimpleLines
import Preproc.Proofs.Token.Lexemes

set_option autoImplicit false

/-! # Lines that hold one directive

A directive line has an indent, the sign `#`, a gap, the keyword, and the operands. Reading the sign
and the keyword leaves exactly the tokens of the operands, at the place where the operands stand
(`DirectiveLine.read`). -/

namespace Preproc

/-! ## Places on one line -/

/-- The place `n` bytes to the right on the same line. -/
def Position.right (pos : Position) (n : Nat) : Position :=
  { pos with offset := pos.offset + n, column := pos.column + n }

theorem Position.right_right (pos : Position) (m n : Nat) :
    (pos.right m).right n = pos.right (m + n) := by
  simp [Position.right, Int.add_assoc]

/-- The bytes that move a place by one column. -/
def isPlain (b : UInt8) : Bool :=
  b < 0x80 && b != newline

theorem runeCount_plain {text : Bytes} (h : ∀ b ∈ text, isPlain b = true) :
    runeCount text = text.length := by
  induction text with
  | nil => simp [runeCount, runes]
  | cons b rest ih =>
    have hb : b < 0x80 := by
      have hplain := h b (by simp)
      simp only [isPlain, Bool.and_eq_true, decide_eq_true_eq] at hplain
      exact hplain.1
    have hrest := ih (fun b hb => h b (List.mem_cons_of_mem _ hb))
    rw [runeCount] at hrest ⊢
    rw [runes]
    simp [decodeRune?, hb, hrest]

theorem newline_not_mem_plain {text : Bytes} (h : ∀ b ∈ text, isPlain b = true) :
    newline ∉ text := by
  intro hmem
  exact absurd (h newline hmem) (by decide)

theorem countNewlines_eq_zero {text : Bytes} (h : newline ∉ text) : countNewlines text = 0 := by
  simpa [countNewlines, List.count_eq_zero] using h

theorem Lexer.advance_plain {text : Bytes} (h : ∀ b ∈ text, isPlain b = true) (pos : Position) :
    advance pos text = pos.right text.length := by
  have hnewline := newline_not_mem_plain h
  have hcontains : text.contains newline = false := by simpa using hnewline
  simp only [advance, hcontains, countNewlines_eq_zero hnewline, runeCount_plain h, Position.right]
  simp

/-! ## Merging and placing -/

namespace Lexer

theorem mergeSpaces_cons {kind : TokenKind} (hkind : kind ≠ .space) (text : Bytes)
    (rest : List (TokenKind × Bytes)) :
    mergeSpaces ((kind, text) :: rest) = (kind, text) :: mergeSpaces rest := by
  rw [mergeSpaces]
  cases mergeSpaces rest with
  | nil => rfl
  | cons first more => simp [hkind]

/-- A run of whitespace as a lexeme; an empty run is none. -/
def spaces (text : Bytes) : List (TokenKind × Bytes) :=
  if text.isEmpty then [] else [(.space, text)]

theorem mergeSpaces_spaces {kind : TokenKind} (hkind : kind ≠ .space) (blank text : Bytes)
    (rest : List (TokenKind × Bytes)) :
    mergeSpaces (spaces blank ++ (kind, text) :: rest) =
      spaces blank ++ (kind, text) :: mergeSpaces rest := by
  unfold spaces
  split
  · exact mergeSpaces_cons hkind text rest
  · rw [List.singleton_append, List.singleton_append, mergeSpaces, mergeSpaces_cons hkind]
    simp [hkind]

theorem lexemes_spaces {blank following : Bytes} (hblank : ∀ b ∈ blank, isSeparator b = true)
    (hstop : StopsAt isSeparator following) :
    lexemes (blank ++ following) = spaces blank ++ lexemes following := by
  unfold spaces
  cases blank with
  | nil => rfl
  | cons b blank => exact lexemes_of_stands (stands_blanks (by simp) hblank hstop)

theorem place_spaces {blank : Bytes} (hblank : ∀ b ∈ blank, isPlain b = true) (pos : Position)
    (rest : List (TokenKind × Bytes)) :
    place pos (spaces blank ++ rest) =
      place pos (spaces blank) ++ place (pos.right blank.length) rest := by
  unfold spaces
  cases blank with
  | nil => simp [place, Position.right]
  | cons b blank => simp [place, advance_plain hblank]

theorem isSpace_place_spaces (pos : Position) (blank : Bytes) :
    ∀ t ∈ place pos (spaces blank), t.isSpace = true := by
  intro t ht
  unfold spaces at ht
  split at ht
  · simp [place] at ht
  · simp only [place, List.mem_singleton] at ht
    rw [ht]
    rfl

theorem endPosition_right {pos : Position} (hpos : 0 < pos.column) {head text : Bytes}
    (hhead : newline ∉ head) (htext : newline ∉ text) :
    endPosition pos (head ++ text) = endPosition (pos.right head.length) text := by
  have hboth : newline ∉ head ++ text := by simp [hhead, htext]
  have hcolumn : 0 < pos.column + head.length := by omega
  simp only [endPosition, Position.right, countNewlines_eq_zero hboth, countNewlines_eq_zero htext,
    List.contains_eq_mem, hboth, htext, decide_false, Bool.false_eq_true, if_false, hpos, hcolumn,
    if_true, List.length_append]
  simp only [Position.mk.injEq, true_and]
  omega

end Lexer

/-! ## Reading ahead -/

namespace Cursor

/-- Two cursors from which the same tokens are read. -/
structure SameAhead (c c' : Cursor) : Prop where
  after : c.after = c'.after
  eol : c.eol = c'.eol

theorem SameAhead.remaining {c c' : Cursor} (h : SameAhead c c') : c.remaining = c'.remaining := by
  rw [Cursor.remaining, Cursor.remaining, h.after]

theorem SameAhead.nextNonSpace {c c' : Cursor} (h : SameAhead c c') :
    c.nextNonSpace.1 = c'.nextNonSpace.1 ∧ SameAhead c.nextNonSpace.2 c'.nextNonSpace.2 := by
  unfold Cursor.nextNonSpace Cursor.next Cursor.skipSpace
  dsimp only
  rw [h.after]
  cases c'.after.dropWhile Token.isSpace with
  | nil => exact ⟨h.eol, rfl, h.eol⟩
  | cons t rest => exact ⟨rfl, rfl, h.eol⟩

end Cursor

/-! ## Directive lines -/

/-- A line with the directive `kw`, cut into its parts. -/
structure DirectiveLine (kw : Keyword) where
  indent : Bytes
  gap : Bytes
  operands : Bytes
  indented : ∀ b ∈ indent, Source.isIndent b = true
  spaced : ∀ b ∈ gap, Lexer.isSeparator b = true
  ended : Lexer.StopsAt isIdentPart operands
  simple : Source.SimpleLine (indent ++ byte '#' :: (gap ++ kw.name) ++ operands)

namespace DirectiveLine

variable {kw : Keyword} (line : DirectiveLine kw)

/-- A directive line without blanks around its sign. -/
def ofOperands (kw : Keyword) (operands : Bytes)
    (h : Lexer.StopsAt isIdentPart operands ∧
      Source.SimpleLine (byte '#' :: (kw.name ++ operands))) : DirectiveLine kw where
  indent := []
  gap := []
  operands := operands
  indented := by simp
  spaced := by simp
  ended := h.1
  simple := h.2

/-- What stands before the operands. -/
def head : Bytes :=
  line.indent ++ byte '#' :: (line.gap ++ kw.name)

/-- The line as it stands in the source. -/
def bytes : Bytes :=
  line.head ++ line.operands

/-- The place of the keyword on a line that starts at `pos`. -/
def keywordPos (pos : Position) : Position :=
  pos.right (line.indent.length + 1 + line.gap.length)

/-- The operands of a line that starts at `pos`, at the place where they stand. -/
def cursor (pos : Position) : Cursor :=
  Cursor.ofText (pos.right line.head.length) (Source.dropCarriageReturn line.operands)

theorem startsDirective_bytes : Source.startsDirective line.bytes = true := by
  have hsign : Source.isIndent (byte '#') = false := by decide
  rw [Source.startsDirective, bytes, head, List.append_assoc,
    List.dropWhile_append_of_pos line.indented]
  simp [hsign]

/-! Facts about the bytes of the head. -/

theorem isIndent_separates : ∀ b, Source.isIndent b = true → Lexer.isSeparator b = true := by
  intro b h
  simp only [Source.isIndent, Bool.or_eq_true, beq_iff_eq] at h
  rcases h with ((rfl | rfl) | rfl) | rfl <;> decide

theorem isSeparator_plain : ∀ b, Lexer.isSeparator b = true → b ≠ newline → isPlain b = true := by
  intro b h hb
  simp [Lexer.isSeparator, isPlain, UInt8.le_iff_toNat_le, UInt8.lt_iff_toNat_lt,
    ← UInt8.toNat_inj] at h hb ⊢
  omega

theorem isIdent_name (kw : Keyword) : isIdent kw.name = true := by
  cases kw <;> decide

theorem ofName?_name (kw : Keyword) : Keyword.ofName? kw.name = some kw := by
  cases kw <;> decide

theorem plain_name (kw : Keyword) : ∀ b ∈ kw.name, isPlain b = true := by
  cases kw <;> decide +kernel

theorem newline_not_mem_bytes : newline ∉ line.bytes :=
  line.simple.unbroken

theorem newline_not_mem_operands : newline ∉ Source.dropCarriageReturn line.operands := by
  intro h
  refine line.newline_not_mem_bytes ?_
  exact List.mem_append_right _ ((Source.dropCarriageReturn_initial _).mem h)

theorem plain_indent : ∀ b ∈ line.indent, isPlain b = true := by
  intro b hb
  refine isSeparator_plain b (isIndent_separates b (line.indented b hb)) (fun h => ?_)
  exact line.newline_not_mem_bytes (by simp [bytes, head, ← h, hb])

theorem plain_gap : ∀ b ∈ line.gap, isPlain b = true := by
  intro b hb
  refine isSeparator_plain b (line.spaced b hb) (fun h => ?_)
  exact line.newline_not_mem_bytes (by simp [bytes, head, ← h, hb])

theorem dropCarriageReturn_bytes :
    Source.dropCarriageReturn line.bytes =
      line.head ++ Source.dropCarriageReturn line.operands := by
  have hlast : line.head.getLast? ≠ some 13 := by
    cases kw <;> simp [head, Keyword.name, ascii, List.getLast?_append, List.getLast?_cons]
  unfold Source.dropCarriageReturn bytes
  by_cases hempty : line.operands = []
  · simp [hempty, hlast]
  · have hboth : (line.head ++ line.operands).getLast? = line.operands.getLast? := by
      rw [List.getLast?_append, List.getLast?_eq_some_getLast hempty]
      rfl
    rw [hboth]
    split
    · exact List.dropLast_append_of_ne_nil hempty
    · rfl

theorem stops_operands : Lexer.StopsAt isIdentPart (Source.dropCarriageReturn line.operands) := by
  intro b hb
  obtain ⟨last, hlast⟩ := Source.dropCarriageReturn_initial line.operands
  refine line.ended b ?_
  rw [← hlast, List.head?_append, hb]
  rfl

/-! ## Reading a directive line -/

theorem lexemes_head {following : Bytes} (hstop : Lexer.StopsAt isIdentPart following) :
    Lexer.lexemes (line.head ++ following) =
      Lexer.spaces line.indent ++ (.punctuator, [byte '#']) ::
        (Lexer.spaces line.gap ++ (.ident, kw.name) :: Lexer.lexemes following) := by
  have hname := isIdent_name kw
  have hkeyword := Lexer.lexemes_of_stands (Lexer.stands_ident hname hstop)
  have hgap : Lexer.lexemes (line.gap ++ (kw.name ++ following)) =
      Lexer.spaces line.gap ++ (.ident, kw.name) :: Lexer.lexemes following := by
    rw [Lexer.lexemes_spaces line.spaced, hkeyword]
    exact Lexer.stops_ident (fun b hb => (Lexer.isIdentStart_excludes b hb).2.1) hname
  have hsign : Lexer.StopsAt (· == byte '#') (line.gap ++ (kw.name ++ following)) := by
    refine Lexer.stops_append (fun b hb => ?_) ?_
    · exact beq_false_of_ne (Lexer.isSeparator_excludes b (line.spaced b hb)).2
    · exact Lexer.stops_ident (fun b hb => (Lexer.isIdentStart_excludes b hb).2.2) hname
  have hindent :
      Lexer.StopsAt Lexer.isSeparator (byte '#' :: (line.gap ++ (kw.name ++ following))) :=
    fun b hb => by simp at hb; subst hb; decide
  rw [head, List.append_assoc, List.cons_append, List.append_assoc,
    Lexer.lexemes_spaces (fun b hb => isIndent_separates b (line.indented b hb)) hindent,
    ← hgap, ← Lexer.lexemes_of_stands (Lexer.stands_hash hsign)]
  rfl

/-- The tokens of a directive line, given where it starts. -/
theorem tokens_bytes {pos : Position} (hpos : 0 < pos.column) :
    Lexer.tokens pos (Source.dropCarriageReturn line.bytes) =
      Lexer.place pos (Lexer.spaces line.indent) ++
        ⟨.punctuator, [byte '#'], pos.right line.indent.length⟩ ::
        (Lexer.place (pos.right (line.indent.length + 1)) (Lexer.spaces line.gap) ++
          ⟨.ident, kw.name, line.keywordPos pos⟩ :: (line.cursor pos).after) := by
  have hcolumn : 0 < (pos.right line.head.length).column := by
    simp only [Position.right]
    omega
  have hlength : line.indent.length + 1 + line.gap.length + kw.name.length = line.head.length := by
    simp only [head, List.length_append, List.length_cons]
    omega
  have hsign : Lexer.advance (pos.right line.indent.length) [byte '#'] =
      pos.right (line.indent.length + 1) := by
    rw [Lexer.advance_plain (by decide +kernel), Position.right_right]
    rfl
  rw [dropCarriageReturn_bytes, Lexer.tokens, if_pos hpos, line.lexemes_head line.stops_operands,
    Lexer.mergeSpaces_spaces (by decide), Lexer.mergeSpaces_spaces (by decide),
    Lexer.place_spaces line.plain_indent, Lexer.place, hsign, Lexer.place_spaces line.plain_gap,
    Lexer.place, Position.right_right, Lexer.advance_plain (plain_name kw), Position.right_right,
    hlength, cursor, Cursor.ofText, Lexer.tokens, if_pos hcolumn]
  rfl

/-- Reading a directive line gives its sign and its keyword, and then what its operands give. -/
theorem read {pos : Position} (hpos : 0 < pos.column) :
    let start := Cursor.ofText pos (Source.dropCarriageReturn line.bytes)
    let sign := start.nextNonSpace
    let keyword := sign.2.nextNonSpace
    sign.1.is .hash = true ∧ keyword.1 = ⟨.ident, kw.name, line.keywordPos pos⟩ ∧
      keyword.2.SameAhead (line.cursor pos) := by
  intro start sign keyword
  obtain ⟨hsign, hafter, heol⟩ := Cursor.nextNonSpace_of_after (c := start) (line.tokens_bytes hpos)
    (Lexer.isSpace_place_spaces _ _) rfl
  obtain ⟨hkeyword, hahead, heol'⟩ := Cursor.nextNonSpace_of_after hafter
    (Lexer.isSpace_place_spaces _ _) rfl
  refine ⟨?_, hkeyword, hahead, ?_⟩
  · rw [show sign.1 = _ from hsign]
    rfl
  · rw [show keyword.2.eol = _ from heol'.trans heol]
    have hhead : newline ∉ line.head := fun h =>
      line.newline_not_mem_bytes (List.mem_append_left _ h)
    exact congrArg (Token.mk .endOfLine []) (by
      rw [dropCarriageReturn_bytes,
        Lexer.endPosition_right hpos hhead line.newline_not_mem_operands])

end DirectiveLine

end Preproc
