import Mathlib.Data.List.Chain
import Preproc.Proofs.Condition.Acceptance
import Preproc.Proofs.Condition.Constant
import Preproc.Proofs.Token.Kinds

set_option autoImplicit false

/-! # Where the lexemes of a condition stand

The lexemes of a condition with the offsets at which they begin and end (`spansFrom`). They come in
order, leave out nothing but blanks, and each has the shape of its kind. In a condition that is
read, no operand directly follows another, and an operator is followed by the start of an operand
(`Sentence.operand`). -/

namespace Preproc.Condition

open Lexer (StopsAt)

/-! ## Shapes -/

/-- The bytes `own` are a lexeme before `following`. -/
inductive Shape : Lexeme → (own following : Bytes) → Prop where
  | number {b : UInt8} {own following : Bytes} (first : isDigit b = true)
      (all : ∀ c ∈ b :: own, isIdentPart c = true) :
      Shape (.number (b :: own)) (b :: own) following
  | character {own following : Bytes} (first : own.head? ≠ some singleQuote)
      (closed : constantEnd? (own ++ following) = some own.length) :
      Shape (.character (singleQuote :: own)) (singleQuote :: own) following
  | name {b : UInt8} {own following : Bytes} (first : isIdentStart b = true)
      (all : ∀ c ∈ b :: own, isIdentPart c = true) (stops : StopsAt isIdentPart following) :
      Shape (.name (b :: own)) (b :: own) following
  /-- A symbol; no longer one could be read. -/
  | symbol {own following : Bytes} {s : Symbol} (spelled : (own, s) ∈ symbols)
      (longest : ∀ e ∈ symbols, e.1 <+: own ++ following → e.1.length ≤ own.length) :
      Shape (.symbol s) own following

theorem isIdentPart_of_isSuffix {b : UInt8} (h : isSuffix b = true) : isIdentPart b = true := by
  simp only [isSuffix, Bool.or_eq_true, beq_iff_eq] at h
  rcases h with ((rfl | rfl) | rfl) | rfl <;> decide

theorem isIdentPart_of_isHexDigit {b : UInt8} (h : isHexDigit b = true) :
    isIdentPart b = true := by
  simp [isHexDigit, isIdentPart, isIdentStart, isDigit, byte, UInt8.le_iff_toNat_le] at h ⊢
  omega

theorem isIdentPart_of_isDigit {b : UInt8} (h : isDigit b = true) : isIdentPart b = true := by
  simp [isIdentPart, h]

/-- An integer constant begins with a digit and is one word. -/
theorem IsInteger.word {text : Bytes} (h : IsInteger text) :
    ∃ b rest, text = b :: rest ∧ isDigit b = true ∧ ∀ c ∈ b :: rest, isIdentPart c = true := by
  obtain ⟨digits, suffix, rfl, hdigits, hsuffix⟩ := h
  have hword : ∀ c ∈ suffix, isIdentPart c = true :=
    fun c hc => isIdentPart_of_isSuffix (List.all_eq_true.1 hsuffix c hc)
  rcases hdigits with ⟨hne, hall⟩ | ⟨x, body, rfl, hx, -, hall⟩
  · obtain ⟨b, rest, rfl⟩ := List.exists_cons_of_ne_nil hne
    rw [List.all_eq_true] at hall
    refine ⟨b, rest ++ suffix, rfl, hall b (by simp), fun c hc => ?_⟩
    rw [← List.cons_append] at hc
    rcases List.mem_append.1 hc with hc | hc
    · exact isIdentPart_of_isDigit (hall c hc)
    · exact hword c hc
  · rw [List.all_eq_true] at hall
    refine ⟨byte '0', x :: body ++ suffix, rfl, by decide, fun c hc => ?_⟩
    have hx' : isIdentPart x = true := by rcases hx with rfl | rfl <;> decide
    simp only [List.cons_append, List.mem_cons, List.mem_append] at hc
    rcases hc with rfl | rfl | hc | hc
    · decide
    · exact hx'
    · exact isIdentPart_of_isHexDigit (hall c hc)
    · exact hword c hc

theorem digits_suffix_le (p : UInt8 → Bool) (text : Bytes) :
    (text.takeWhile p).length + suffixWidth (text.drop (text.takeWhile p).length) ≤
      text.length := by
  have htake := congrArg List.length (take_digits_suffix p text)
  rw [List.length_take, List.length_append] at htake
  unfold suffixWidth at htake ⊢
  omega

theorem hexWidth_le (text : Bytes) : hexWidth text ≤ text.length := by
  unfold hexWidth
  split
  · next a x rest =>
    have hle := digits_suffix_le isHexDigit rest
    simp only [List.length_cons]
    split
    · split <;> omega
    · omega
  · omega

theorem digitsWidth_le (text : Bytes) : digitsWidth text ≤ text.length := by
  have hle := digits_suffix_le isDigit text
  unfold digitsWidth
  dsimp only
  split <;> omega

theorem numberWidth_le (text : Bytes) : numberWidth text ≤ text.length := by
  unfold numberWidth
  split
  · exact hexWidth_le text
  · exact digitsWidth_le text

theorem constantEnd?_bounds (text : Bytes) :
    ∀ n, constantEnd? text = some n → 0 < n ∧ n ≤ text.length := by
  fun_induction constantEnd? text with
  | case1 => simp
  | case2 => simp
  | case3 b h => simp
  | case4 => simp
  | case5 => simp
  | case6 c rest h h' ih =>
    intro n hn
    obtain ⟨m, hm, rfl⟩ := Option.map_eq_some_iff.1 hn
    have hbounds := ih m hm
    simp only [List.length_cons]
    omega
  | case7 b c rest h h' ih =>
    intro n hn
    obtain ⟨m, hm, rfl⟩ := Option.map_eq_some_iff.1 hn
    have hbounds := ih m hm
    simp only [List.length_cons] at hbounds ⊢
    omega

/-- The longer symbols are tried first. -/
theorem symbol?_longest {text : Bytes} {own : Bytes} {s : Symbol}
    (h : symbol? text = some (own, s)) :
    (own, s) ∈ symbols ∧ own <+: text ∧ ∀ e ∈ symbols, e.1 <+: text → e.1.length ≤ own.length := by
  have hsorted : symbols.Pairwise (fun e e' => e'.1.length ≤ e.1.length) := by decide
  obtain ⟨hown, before, after, hsymbols, hbefore⟩ := List.find?_eq_some_iff_append.1 h
  refine ⟨by rw [hsymbols]; simp, by simpa using hown, fun e he hinitial => ?_⟩
  rw [hsymbols] at he hsorted
  rcases List.mem_append.1 he with he | he
  · have hnot : e.1.isPrefixOf text = false := by simpa using hbefore e he
    exact absurd (List.isPrefixOf_iff_prefix.2 hinitial) (by simp [hnot])
  · rcases List.mem_cons.1 he with rfl | he
    · exact Nat.le_refl _
    · exact (List.pairwise_cons.1 (List.pairwise_append.1 hsorted).2.1).1 e he

theorem characterWidth_shape {text : Bytes} (h : 0 < characterWidth text) :
    ∃ own following, text = singleQuote :: (own ++ following) ∧ own.head? ≠ some singleQuote ∧
      constantEnd? (own ++ following) = some own.length ∧
      characterWidth text = own.length + 1 := by
  unfold characterWidth at h ⊢
  split at h
  · next q b rest =>
    split at h
    · next hquote =>
      obtain ⟨rfl, hb⟩ := hquote
      cases hend : constantEnd? (b :: rest) with
      | none => simp [hend] at h
      | some n =>
        obtain ⟨hpos, hle⟩ := constantEnd?_bounds _ n hend
        obtain ⟨m, rfl⟩ : ∃ m, n = m + 1 := ⟨n - 1, by omega⟩
        have hlength : ((b :: rest).take (m + 1)).length = m + 1 := by
          rw [List.length_take, Nat.min_eq_left hle]
        refine ⟨(b :: rest).take (m + 1), (b :: rest).drop (m + 1), ?_, ?_, ?_, ?_⟩
        · rw [List.take_append_drop]
        · simpa using hb
        · rw [List.take_append_drop, hlength, hend]
        · rw [hlength]
          simp [hb]
    · exact absurd h (by simp)
  · exact absurd h (by simp)

theorem nameWidth_shape {text : Bytes} (h : 0 < nameWidth text) :
    ∃ b own following, text = b :: (own ++ following) ∧ isIdentStart b = true ∧
      (∀ c ∈ b :: own, isIdentPart c = true) ∧ StopsAt isIdentPart following ∧
      nameWidth text = own.length + 1 := by
  unfold nameWidth at h ⊢
  split at h
  · next b rest =>
    split at h
    · next hb =>
      refine ⟨b, rest.takeWhile isIdentPart, rest.dropWhile isIdentPart, ?_, hb, ?_, ?_, ?_⟩
      · rw [List.takeWhile_append_dropWhile]
      · rw [List.forall_mem_cons]
        exact ⟨by simp [isIdentPart, hb], fun c hc => List.mem_takeWhile_imp hc⟩
      · intro c hc
        have hnot := List.head?_dropWhile_not isIdentPart rest
        rw [hc] at hnot
        simpa using hnot
      · simp [hb]
    · exact absurd h (by simp)
  · exact absurd h (by simp)

/-- What is read at the head of a text has a shape. -/
theorem lexeme?_shape {text : Bytes} {l : Lexeme} {width : Nat}
    (h : lexeme? text = some (l, width)) :
    ∃ own following, text = own ++ following ∧ own.length = width ∧ own ≠ [] ∧
      Shape l own following := by
  unfold lexeme? at h
  split at h
  · next hnumber =>
    obtain ⟨rfl, rfl⟩ : .number (text.take (numberWidth text)) = l ∧ numberWidth text = width := by
      simpa using h
    obtain ⟨b, rest, hword, hb, hall⟩ := (isInteger_of_numberWidth hnumber).word
    refine ⟨_, _, (List.take_append_drop (numberWidth text) text).symm, ?_, ?_, ?_⟩
    · rw [List.length_take, Nat.min_eq_left (numberWidth_le text)]
    · simp [hword]
    · rw [hword]
      exact .number hb hall
  · split at h
    · next hcharacter =>
      obtain ⟨rfl, rfl⟩ : .character (text.take (characterWidth text)) = l ∧
        characterWidth text = width := by simpa using h
      obtain ⟨own, following, rfl, hfirst, hclosed, hwidth⟩ := characterWidth_shape hcharacter
      rw [hwidth, ← List.cons_append, List.take_left' (by simp)]
      exact ⟨singleQuote :: own, following, rfl, by simp, by simp, .character hfirst hclosed⟩
    · split at h
      · next hname =>
        obtain ⟨rfl, rfl⟩ : .name (text.take (nameWidth text)) = l ∧ nameWidth text = width := by
          simpa using h
        obtain ⟨b, own, following, rfl, hb, hall, hstops, hwidth⟩ := nameWidth_shape hname
        rw [hwidth, ← List.cons_append, List.take_left' (by simp)]
        exact ⟨b :: own, following, rfl, by simp, by simp, .name hb hall hstops⟩
      · obtain ⟨⟨own, s⟩, hsymbol, hl⟩ := Option.map_eq_some_iff.1 h
        obtain ⟨rfl, rfl⟩ : .symbol s = l ∧ own.length = width := by simpa using hl
        obtain ⟨hspelled, ⟨following, rfl⟩, hlongest⟩ := symbol?_longest hsymbol
        have hne : ∀ e ∈ symbols, e.1 ≠ [] := by decide
        exact ⟨own, following, rfl, rfl, hne _ hspelled, .symbol hspelled hlongest⟩

/-- Symbols are made of punctuators, and a sign is a symbol by itself. -/
theorem symbols_bytes : ∀ e ∈ symbols, ∀ b ∈ e.1, b ∈ Lexer.shortPunctuators ∧ b ≠ byte '.' ∧
    (Lexer.isSign b = true → e.1 = [b]) := by
  decide +kernel

/-- No word and no constant has a byte of a symbol. -/
theorem symbols_excludes {e : Bytes × Symbol} (he : e ∈ symbols) {b : UInt8} (hb : b ∈ e.1) :
    isIdentPart b = false ∧ Lexer.isSeparator b = false ∧ b ≠ doubleQuote ∧ b ≠ singleQuote :=
  Lexer.shortPunctuators_bytes b (symbols_bytes e he b hb).1

theorem not_isDigit_of_isIdentStart {b : UInt8} (h : isIdentStart b = true) :
    isDigit b = false := by
  simp [isIdentStart, isDigit, byte, UInt8.le_iff_toNat_le, ← UInt8.toNat_inj] at h ⊢
  omega

/-- The first byte of a lexeme decides what it is. -/
theorem Shape.by_first {l : Lexeme} {b : UInt8} {own following : Bytes}
    (h : Shape l (b :: own) following) :
    if isDigit b then l = .number (b :: own) ∧ ∀ c ∈ b :: own, isIdentPart c = true
    else if isIdentStart b then
      l = .name (b :: own) ∧ (∀ c ∈ b :: own, isIdentPart c = true) ∧
        StopsAt isIdentPart following
    else if b = singleQuote then
      l = .character (b :: own) ∧ own.head? ≠ some singleQuote ∧
        constantEnd? (own ++ following) = some own.length
    else
      ∃ s, l = .symbol s ∧ (b :: own, s) ∈ symbols ∧
        ∀ e ∈ symbols, e.1 <+: b :: own ++ following → e.1.length ≤ (b :: own).length := by
  cases h with
  | number first all =>
    rw [if_pos first]
    exact ⟨rfl, all⟩
  | character first closed =>
    rw [if_neg (by decide), if_neg (by decide), if_pos rfl]
    exact ⟨rfl, first, closed⟩
  | name first all stops =>
    rw [if_neg (by simp [not_isDigit_of_isIdentStart first]), if_pos first]
    exact ⟨rfl, all, stops⟩
  | symbol spelled longest =>
    obtain ⟨hpart, -, -, hquote⟩ := symbols_excludes spelled List.mem_cons_self
    rw [isIdentPart, Bool.or_eq_false_iff] at hpart
    rw [if_neg (by simp [hpart.2]), if_neg (by simp [hpart.1]), if_neg hquote]
    exact ⟨_, rfl, spelled, longest⟩

/-- What begins as a name is one. -/
theorem Shape.name_of_first {l : Lexeme} {b : UInt8} {own following : Bytes}
    (h : Shape l (b :: own) following) (hb : isIdentStart b = true) :
    l = .name (b :: own) ∧ (∀ c ∈ b :: own, isIdentPart c = true) ∧
      StopsAt isIdentPart following := by
  have hname := h.by_first
  rwa [if_neg (by simp [not_isDigit_of_isIdentStart hb]), if_pos hb] at hname

/-- What begins neither as a word nor as a character constant is a symbol. -/
theorem Shape.symbol_of_first {l : Lexeme} {b : UInt8} {own following : Bytes}
    (h : Shape l (b :: own) following) (hb : isIdentPart b = false) (hquote : b ≠ singleQuote) :
    ∃ s, l = .symbol s ∧ (b :: own, s) ∈ symbols ∧
      ∀ e ∈ symbols, e.1 <+: b :: own ++ following → e.1.length ≤ (b :: own).length := by
  have hsymbol := h.by_first
  rw [isIdentPart, Bool.or_eq_false_iff] at hb
  rwa [if_neg (by simp [hb.2]), if_neg (by simp [hb.1]), if_neg hquote] at hsymbol

theorem constantEnd?_last (text : Bytes) :
    ∀ n, constantEnd? text = some n → (text.take n).getLast? = some singleQuote := by
  fun_induction constantEnd? text with
  | case1 => simp
  | case2 => simp
  | case3 b h => simp
  | case4 => simp
  | case5 => simp
  | case6 c rest h h' ih =>
    intro n hn
    obtain ⟨m, hm, rfl⟩ := Option.map_eq_some_iff.1 hn
    simp [List.getLast?_cons, ih m hm]
  | case7 b c rest h h' ih =>
    intro n hn
    obtain ⟨m, hm, rfl⟩ := Option.map_eq_some_iff.1 hn
    rw [List.take_succ_cons, List.getLast?_cons, ih m hm]
    rfl

/-- A lexeme that ends with a letter or digit is a word. -/
theorem Shape.word_of_last {l : Lexeme} {own following : Bytes} (h : Shape l own following)
    {x : UInt8} (hx : own.getLast? = some x) (hpart : isIdentPart x = true) :
    l = .number own ∨ l = .name own := by
  cases h with
  | number => exact Or.inl rfl
  | name => exact Or.inr rfl
  | @character own following first closed =>
    have hlast := constantEnd?_last _ _ closed
    rw [List.take_left] at hlast
    rw [List.getLast?_cons, hlast] at hx
    obtain rfl : singleQuote = x := by simpa using hx
    exact absurd hpart (by decide)
  | symbol spelled =>
    have hnot := (symbols_excludes spelled (List.mem_of_getLast? hx)).1
    exact absurd hpart (by simp [hnot])

/-- A lexeme that begins with a letter or digit is a word. -/
theorem Shape.word_of_first {l : Lexeme} {b : UInt8} {own following : Bytes}
    (h : Shape l (b :: own) following) (hpart : isIdentPart b = true) :
    l = .number (b :: own) ∨ l = .name (b :: own) := by
  cases h with
  | number => exact Or.inl rfl
  | name => exact Or.inr rfl
  | character => exact absurd hpart (by decide)
  | symbol spelled =>
    have hnot := (symbols_excludes spelled List.mem_cons_self).1
    exact absurd hpart (by simp [hnot])

/-- A lexeme that holds a sign is that sign or a character constant. -/
theorem Shape.of_sign {l : Lexeme} {own following : Bytes} (h : Shape l own following) {b : UInt8}
    (hb : b ∈ own) (hsign : Lexer.isSign b = true) :
    own = [b] ∨ own.head? = some singleQuote := by
  have hnot : isIdentPart b = false := by
    rw [Lexer.isSign, Bool.or_eq_true, beq_iff_eq, beq_iff_eq] at hsign
    rcases hsign with rfl | rfl <;> decide
  cases h with
  | number first all => exact absurd (all b hb) (by simp [hnot])
  | name first all => exact absurd (all b hb) (by simp [hnot])
  | character => exact Or.inr rfl
  | symbol spelled => exact Or.inl ((symbols_bytes _ spelled b hb).2.2 hsign)

/-! ## Spans -/

/-- A lexeme with the offsets at which it begins and ends. -/
structure Span where
  start : Nat
  stop : Nat
  lexeme : Lexeme

/-- The lexemes of a condition that stands at an offset, each with its own place. -/
def spansFrom (start : Nat) : Bytes → Option (List Span)
  | [] => some []
  | b :: rest =>
    if isGap b then spansFrom (start + 1) rest
    else match lexeme? (b :: rest) with
      | some (lexeme, width) =>
        (spansFrom (start + width) (rest.drop (width - 1))).map
          (⟨start, start + width, lexeme⟩ :: ·)
      | none => none
termination_by text => text.length
decreasing_by
  · simp only [List.length_cons]; omega
  · simp only [List.length_cons, List.length_drop]; omega

/-- Without their places, these are the lexemes that are read. -/
theorem map_spansFrom (start : Nat) (text : Bytes) :
    (spansFrom start text).map (·.map Span.lexeme) = lexemes? text := by
  fun_induction spansFrom start text with
  | case1 => simp [lexemes?]
  | case2 start b rest hgap ih =>
    rw [lexemes?, if_pos hgap]
    exact ih
  | case3 start b rest hgap lexeme width hlexeme ih =>
    rw [lexemes?, if_neg hgap, hlexeme]
    dsimp only
    rw [← ih, Option.map_map, Option.map_map]
    rfl
  | case4 start b rest hgap hlexeme => simp [lexemes?, hgap, hlexeme]

/-- How spans come about: blanks are passed over, and all other text is lexemes. -/
inductive Spanned : Nat → Bytes → List Span → Prop where
  | nil {start : Nat} : Spanned start [] []
  | gap {start : Nat} {b : UInt8} {rest : Bytes} {spans : List Span} (blank : isGap b = true)
      (more : Spanned (start + 1) rest spans) : Spanned start (b :: rest) spans
  | lexeme {start : Nat} {l : Lexeme} {own following : Bytes} {spans : List Span}
      (nonempty : own ≠ []) (solid : StopsAt isGap own) (shape : Shape l own following)
      (more : Spanned (start + own.length) following spans) :
      Spanned start (own ++ following) (⟨start, start + own.length, l⟩ :: spans)

theorem spanned_of_spansFrom {start : Nat} {text : Bytes} {spans : List Span}
    (h : spansFrom start text = some spans) : Spanned start text spans := by
  fun_induction spansFrom start text generalizing spans with
  | case1 start =>
    obtain rfl : [] = spans := by simpa using h
    exact .nil
  | case2 start b rest hgap ih => exact .gap hgap (ih h)
  | case3 start b rest hgap l width hlexeme ih =>
    obtain ⟨more, hmore, rfl⟩ := Option.map_eq_some_iff.1 h
    obtain ⟨own, following, htext, rfl, hne, hshape⟩ := lexeme?_shape hlexeme
    obtain ⟨c, own, rfl⟩ := List.exists_cons_of_ne_nil hne
    rw [List.cons_append] at htext
    obtain ⟨rfl, rfl⟩ := List.cons.inj htext
    have hdrop : (own ++ following).drop ((b :: own).length - 1) = following := by simp
    rw [hdrop] at ih hmore
    have hsolid : StopsAt isGap (b :: own) := by
      intro c hc
      obtain rfl : b = c := by simpa using hc
      simpa using hgap
    exact .lexeme hne hsolid hshape (ih hmore)
  | case4 => exact absurd h (by simp)

namespace Spanned

variable {start : Nat} {text : Bytes} {spans : List Span}

theorem eq_nil (h : Spanned start [] spans) : spans = [] := by
  generalize htext : ([] : Bytes) = text at h
  cases h with
  | nil => rfl
  | gap => cases htext
  | lexeme nonempty => exact absurd (List.append_eq_nil_iff.1 htext.symm).1 nonempty

/-- A text that does not begin with a blank begins with a lexeme. -/
theorem first {b : UInt8} {rest : Bytes} (h : Spanned start (b :: rest) spans)
    (hb : isGap b = false) :
    ∃ l own following more, rest = own ++ following ∧ Shape l (b :: own) following ∧
      Spanned (start + (own.length + 1)) following more ∧
      spans = ⟨start, start + (own.length + 1), l⟩ :: more := by
  generalize htext : b :: rest = text at h
  cases h with
  | nil => cases htext
  | gap blank more =>
    obtain ⟨rfl, -⟩ := List.cons.inj htext
    exact absurd blank (by simp [hb])
  | @lexeme _ l own following more nonempty solid shape hmore =>
    obtain ⟨c, own, rfl⟩ := List.exists_cons_of_ne_nil nonempty
    rw [List.cons_append] at htext
    obtain ⟨rfl, rfl⟩ := List.cons.inj htext
    exact ⟨l, own, following, more, rfl, shape, hmore, rfl⟩

theorem of_gap {b : UInt8} {rest : Bytes} (h : Spanned start (b :: rest) spans)
    (hb : isGap b = true) : Spanned (start + 1) rest spans := by
  generalize htext : b :: rest = text at h
  cases h with
  | nil => cases htext
  | gap blank more =>
    obtain ⟨-, rfl⟩ := List.cons.inj htext
    exact more
  | @lexeme _ l own following more nonempty solid shape hmore =>
    obtain ⟨c, own, rfl⟩ := List.exists_cons_of_ne_nil nonempty
    obtain ⟨rfl, -⟩ := List.cons.inj htext
    exact absurd (solid b rfl) (by simp [hb])

/-- Spans are not empty and come in order, from `start` on. -/
theorem ordered (h : Spanned start text spans) :
    (∀ s ∈ spans, start ≤ s.start ∧ s.start < s.stop) ∧
      spans.Pairwise (fun s s' => s.stop ≤ s'.start) := by
  induction h with
  | nil => simp
  | gap blank more ih =>
    refine ⟨fun s hs => ?_, ih.2⟩
    have hs' := ih.1 s hs
    omega
  | lexeme nonempty solid shape more ih =>
    have hpos := List.length_pos_iff.2 nonempty
    refine ⟨fun s hs => ?_, List.pairwise_cons.2 ⟨fun s hs => (ih.1 s hs).1, ih.2⟩⟩
    rcases List.mem_cons.1 hs with rfl | hs
    · exact ⟨Nat.le_refl _, by dsimp only; omega⟩
    · have hs' := ih.1 s hs
      omega

/-- Each span is a lexeme of the text at its place. -/
theorem shape (h : Spanned start text spans) :
    ∀ s ∈ spans, ∃ before own following, text = before ++ (own ++ following) ∧
      s.start = start + before.length ∧ s.stop = s.start + own.length ∧
      Shape s.lexeme own following := by
  induction h with
  | nil => simp
  | @gap start b rest spans blank more ih =>
    intro s hs
    obtain ⟨before, own, following, rfl, hstart, hstop, hshape⟩ := ih s hs
    exact ⟨b :: before, own, following, rfl, by simp only [List.length_cons]; omega, hstop, hshape⟩
  | @lexeme start l own following spans nonempty solid shape more ih =>
    intro s hs
    rcases List.mem_cons.1 hs with rfl | hs
    · exact ⟨[], own, following, rfl, rfl, rfl, shape⟩
    · obtain ⟨before, own', following', rfl, hstart, hstop, hshape⟩ := ih s hs
      exact ⟨own ++ before, own', following', (List.append_assoc ..).symm,
        by rw [hstart, List.length_append]; omega, hstop, hshape⟩

/-- Only blanks are left out. -/
theorem covers (h : Spanned start text spans) {before after : Bytes} {b : UInt8}
    (htext : text = before ++ b :: after) (hb : isGap b = false) :
    ∃ s ∈ spans, s.start ≤ start + before.length ∧ start + before.length < s.stop := by
  induction h generalizing before with
  | nil => simp at htext
  | @gap start b' rest spans blank more ih =>
    cases before with
    | nil =>
      obtain ⟨rfl, -⟩ := List.cons.inj htext
      exact absurd blank (by simp [hb])
    | cons c before =>
      obtain ⟨s, hs, hstart, hstop⟩ := ih (List.cons.inj htext).2
      exact ⟨s, hs, by simp only [List.length_cons]; omega, by simp only [List.length_cons]; omega⟩
  | @lexeme start l own following spans nonempty solid shape more ih =>
    by_cases hinside : before.length < own.length
    · exact ⟨_, List.mem_cons_self, by simp, by simpa using hinside⟩
    · -- the byte stands after this lexeme
      obtain ⟨before', rfl⟩ : own <+: before :=
        List.prefix_of_prefix_length_le (List.prefix_append own following)
          (htext ▸ List.prefix_append before _) (by omega)
      rw [List.append_assoc, List.append_cancel_left_eq] at htext
      obtain ⟨s, hs, hstart, hstop⟩ := ih htext
      exact ⟨s, List.mem_cons_of_mem _ hs, by rw [List.length_append]; omega,
        by rw [List.length_append]; omega⟩

/-- Where one span ends and another begins, they are neighbours in the list. -/
theorem rel_of_touching (h : Spanned start text spans) {R : Lexeme → Lexeme → Prop}
    (hchain : spans.IsChain (fun s s' => R s.lexeme s'.lexeme)) {s s' : Span} (hs : s ∈ spans)
    (hs' : s' ∈ spans) (htouch : s.stop = s'.start) : R s.lexeme s'.lexeme := by
  obtain ⟨hbounds, hordered⟩ := h.ordered
  clear h
  induction spans with
  | nil => simp at hs
  | cons s₀ more ih =>
    obtain ⟨hfirst, hmore⟩ := List.pairwise_cons.1 hordered
    have hrest := fun s hs => hbounds s (List.mem_cons_of_mem _ hs)
    rcases List.mem_cons.1 hs with rfl | hlater <;> rcases List.mem_cons.1 hs' with rfl | hlater'
    · have hpos := (hbounds s' (by simp)).2
      omega
    · cases more with
      | nil => simp at hlater'
      | cons s₁ more =>
        have hrel := (List.isChain_cons_cons.1 hchain).1
        rcases List.mem_cons.1 hlater' with rfl | hlast
        · exact hrel
        · -- another span would stand between the two
          have hbetween := (List.pairwise_cons.1 hmore).1 s' hlast
          have hpos := (hrest s₁ (by simp)).2
          have hnext := hfirst s₁ (by simp)
          omega
    · have hpos := (hrest s hlater).2
      have hnext := hfirst s hlater
      have hpos' := (hbounds s' (by simp)).2
      omega
    · exact ih hchain.of_cons hlater hlater' hrest hmore

end Spanned

/-! ## Neighbours in a condition that is read -/

/-- Whether an operand can end with a lexeme. -/
def Lexeme.endsOperand : Lexeme → Bool
  | .symbol s => s == .rightParen
  | _ => true

/-- Whether an operand can begin with a lexeme. -/
def Lexeme.startsOperand : Lexeme → Bool
  | .symbol s => s == .leftParen || s.unary?.isSome
  | _ => true

/-- Whether a lexeme can come after an operand. -/
def Lexeme.comesAfter : Lexeme → Bool
  | .symbol s => s.binary?.isSome || s == .question || s == .colon || s == .rightParen
  | _ => false

/-- Whether one lexeme may directly follow another. -/
def mayFollow (a b : Lexeme) : Bool :=
  if a.endsOperand then b.comesAfter else b.startsOperand

/-- Lexemes that begin and end as an operand does, with neighbours that may follow one another. -/
structure Operand (ls : List Lexeme) : Prop where
  nonempty : ls ≠ []
  first : ∀ a ∈ ls.head?, a.startsOperand = true
  last : ∀ z ∈ ls.getLast?, z.endsOperand = true
  chain : ls.IsChain (mayFollow · ·)

theorem Operand.single {l : Lexeme} (hfirst : l.startsOperand = true)
    (hlast : l.endsOperand = true) : Operand [l] :=
  ⟨by simp, by simpa using hfirst, by simpa using hlast, .singleton l⟩

/-- A symbol before an operand. -/
theorem Operand.cons {ls : List Lexeme} (h : Operand ls) {s : Symbol}
    (hopen : (Lexeme.symbol s).endsOperand = false) :
    (.symbol s :: ls).IsChain (mayFollow · ·) ∧ (.symbol s :: ls).getLast? = ls.getLast? := by
  refine ⟨h.chain.cons fun a ha => ?_, ?_⟩
  · simpa [mayFollow, hopen] using h.first a ha
  · rw [← List.singleton_append, List.getLast?_append_of_ne_nil _ h.nonempty]

/-- A symbol after an operand, before what may follow it. -/
theorem Operand.append {ls ls' : List Lexeme} (h : Operand ls) {s : Symbol}
    (hafter : (Lexeme.symbol s).comesAfter = true)
    (hchain : (.symbol s :: ls').IsChain (mayFollow · ·))
    (hlast : ∀ z ∈ (.symbol s :: ls').getLast?, z.endsOperand = true) :
    Operand (ls ++ .symbol s :: ls') where
  nonempty := by simp
  first a ha := h.first a (by rwa [List.head?_append_of_ne_nil _ h.nonempty] at ha)
  last z hz := hlast z (by rwa [List.getLast?_append_of_ne_nil _ (by simp)] at hz)
  chain := by
    refine List.isChain_append.2 ⟨h.chain, hchain, fun z hz b hb => ?_⟩
    obtain rfl : .symbol s = b := by simpa using hb
    simpa [mayFollow, h.last z hz] using hafter

/-- An operator or mark between two operands. -/
theorem Operand.join {ls ls' : List Lexeme} (h : Operand ls) (h' : Operand ls') {s : Symbol}
    (hafter : (Lexeme.symbol s).comesAfter = true)
    (hopen : (Lexeme.symbol s).endsOperand = false) : Operand (ls ++ .symbol s :: ls') :=
  h.append hafter (h'.cons hopen).1 fun z hz => h'.last z ((h'.cons hopen).2 ▸ hz)

theorem Operand.unary {ls : List Lexeme} (h : Operand ls) (op : UnaryOp) :
    Operand (.symbol op.symbol :: ls) := by
  obtain ⟨hchain, hlast⟩ := h.cons (s := op.symbol) (by cases op <;> rfl)
  refine ⟨by simp, ?_, fun z hz => h.last z (hlast ▸ hz), hchain⟩
  cases op <;> simp [UnaryOp.symbol, Lexeme.startsOperand, Symbol.unary?]

theorem Operand.group {ls : List Lexeme} (h : Operand ls) :
    Operand (.symbol .leftParen :: (ls ++ [.symbol .rightParen])) := by
  have hclosed : Operand (ls ++ [.symbol .rightParen]) :=
    h.append rfl (.singleton _) (by simp [Lexeme.endsOperand])
  obtain ⟨hchain, hlast⟩ := hclosed.cons (s := .leftParen) rfl
  exact ⟨by simp, by simp [Lexeme.startsOperand], fun z hz => hclosed.last z (hlast ▸ hz), hchain⟩

mutual

theorem Sentence.operand : ∀ s : Sentence, Operand s.lexemes
  | .plain test => test.operand
  | .choice test yes no =>
    test.operand.join (yes.operand.join no.operand rfl rfl) rfl rfl

theorem Level.operand : ∀ {rank : Nat} (l : Level rank), Operand l.lexemes
  | _, .number _ | _, .character _ | _, .name _ => .single rfl rfl
  | _, .group inner => inner.operand.group
  | _, .unary op operand => operand.operand.unary op
  | _, .chain first more => more.operand first.operand

theorem Tail.operand : ∀ {rank : Nat} (t : Tail rank) {ls : List Lexeme}, Operand ls →
    Operand (ls ++ t.lexemes)
  | _, .nil, ls, h => by simpa [Tail.lexemes] using h
  | _, .cons op fits operand more, ls, h => by
    have hjoined := h.join operand.operand (s := op.symbol) (by cases op <;> rfl)
      (by cases op <;> rfl)
    simpa [Tail.lexemes] using more.operand hjoined

end

/-- The lexemes of a condition that has a value, with their places. -/
theorem spans_of_evaluate {text : Bytes} {value : Int} (h : evaluate text = .ok value) :
    ∃ spans, spansFrom 0 text = some spans ∧
      spans.IsChain (fun s s' => mayFollow s.lexeme s'.lexeme) := by
  unfold evaluate at h
  split at h
  · next e hparse =>
    obtain ⟨input, hinput, he⟩ := parse_eq_ok.1 hparse
    obtain ⟨s, -, rfl⟩ := Expr.ofLexemes?_sound he
    rw [← map_spansFrom 0 text] at hinput
    obtain ⟨spans, hspans, hlexemes⟩ := Option.map_eq_some_iff.1 hinput
    have hchain := s.operand.chain
    rw [← hlexemes, List.isChain_map] at hchain
    exact ⟨spans, hspans, hchain⟩
  · exact absurd h (by simp)

end Preproc.Condition
