import Mathlib.Data.List.Find
import Preproc.Proofs.Text.Runes

set_option autoImplicit false

/-! # What the first lexeme depends on

Most rules look at no more than the bytes up to the next boundary: whitespace, a comment, or `#`.
Only a stray quote and the opening of a comment that is not closed depend on all that follows: they
are what they are because a search does not find something (`Finder`). So a lexeme still stands when
what follows it is changed beyond a boundary and nothing is found there that was not there before
(`Stands.transfer`). -/

namespace Preproc.Lexer

/-! ## Boundaries -/

/-- The bytes that no lexeme goes on with, except that `##` is one lexeme. -/
def isBoundary (b : UInt8) : Bool :=
  isSeparator b || b == byte '/' || b == byte '#'

/-- A text that begins with a boundary, if it is not empty. -/
def Boundary (g : Bytes) : Prop :=
  StopsAt (!isBoundary ·) g

theorem Boundary.stops {g : Bytes} (hg : Boundary g) {p : UInt8 → Bool}
    (hp : ∀ b, isBoundary b = true → p b = false) : StopsAt p g := by
  intro b hb
  exact hp b (by simpa using hg b hb)

theorem takeWhile_local {p : UInt8 → Bool} {g : Bytes} (hg : StopsAt p g) (q : Bytes) :
    (q ++ g).takeWhile p = q.takeWhile p := by
  induction q with
  | nil =>
    cases g with
    | nil => rfl
    | cons b g => simp [hg b rfl]
  | cons b q ih => simp [List.takeWhile_cons, ih]

/-- A boundary goes on with none of the classes that the rules ask for. -/
theorem isBoundary_excludes : ∀ b, isBoundary b = true →
    isIdentStart b = false ∧ isIdentPart b = false ∧ isDigit b = false ∧ b ≠ byte '.' ∧
      isExponent b = false ∧ isSign b = false ∧ isContinuation b = false :=
  forall_byte (by decide +kernel)

theorem Boundary.head {b : UInt8} {g : Bytes} (hg : Boundary (b :: g)) : isBoundary b = true := by
  simpa using hg b rfl

/-! ## Rules up to a boundary -/

/-- The bytes of a number. -/
def isNumberByte (b : UInt8) : Bool :=
  isIdentPart b || b == byte '.' || isSign b

/-- No number goes on with a boundary. -/
theorem Boundary.stops_number {g : Bytes} (hg : Boundary g) : StopsAt isNumberByte g :=
  hg.stops fun b hb => by
    obtain ⟨-, hpart, -, hpoint, -, hsign, -⟩ := isBoundary_excludes b hb
    simp [isNumberByte, hpart, hpoint, hsign]

/-- What goes on with no number is none of the bytes that the rules for words ask for. -/
theorem not_isNumberByte_excludes : ∀ b, isNumberByte b = false →
    isIdentStart b = false ∧ isIdentPart b = false ∧ isDigit b = false ∧ b ≠ byte '.' ∧
      isExponent b = false ∧ isSign b = false :=
  forall_byte (by decide +kernel)

section Words

variable {g : Bytes} (hg : StopsAt isNumberByte g) (q : Bytes)

include hg

theorem identifier_local : identifier (q ++ g) = identifier q := by
  have hpart : StopsAt isIdentPart g := fun b hb => (not_isNumberByte_excludes b (hg b hb)).2.1
  cases q with
  | nil =>
    cases g with
    | nil => rfl
    | cons b g => exact identifier_eq_zero (not_isNumberByte_excludes b (hg b rfl)).1 g
  | cons b q => simp only [List.cons_append, identifier, takeWhile_local hpart]

theorem numberTail_eq_zero : numberTail g = 0 := by
  cases g with
  | nil => rfl
  | cons b g =>
    obtain ⟨-, hpart, -, hpoint, hexponent, -⟩ := not_isNumberByte_excludes b (hg b rfl)
    cases g <;> simp [numberTail, hpart, hpoint, hexponent]

theorem numberTail_local : numberTail (q ++ g) = numberTail q := by
  have htail := numberTail_eq_zero hg
  fun_induction numberTail q with
  | case1 => exact htail
  | case2 b h | case3 b h =>
    cases g with
    | nil => simp [numberTail, h]
    | cons c g =>
      have hsign := (not_isNumberByte_excludes c (hg c rfl)).2.2.2.2.2
      simp [numberTail, h, hsign, htail]
  | case4 b c rest h ih => simp [numberTail, h, ih]
  | case5 b c rest h h' ih =>
    rw [List.cons_append] at ih
    simp [numberTail, h, h', ih]
  | case6 b c rest h h' => simp [numberTail, h, h']

theorem number_local : number (q ++ g) = number q := by
  cases q with
  | nil =>
    cases g with
    | nil => rfl
    | cons b g =>
      obtain ⟨-, -, hdigit, hpoint, -⟩ := not_isNumberByte_excludes b (hg b rfl)
      exact number_eq_zero hdigit hpoint g
  | cons b q =>
    cases q with
    | nil =>
      cases g with
      | nil => rfl
      | cons c g =>
        have hdigit := (not_isNumberByte_excludes c (hg c rfl)).2.2.1
        simp [number, numberTail_eq_zero hg, hdigit, numberTail]
    | cons c q =>
      have htail := numberTail_local hg q
      have htail' := numberTail_local hg (c :: q)
      rw [List.cons_append] at htail'
      simp [number, htail, htail']

end Words

theorem runeWidth_local {g : Bytes} (hg : Boundary g) {q : Bytes} (hq : q ≠ []) :
    runeWidth (q ++ g) = runeWidth q := by
  have hstops : StopsAt isContinuation g :=
    hg.stops fun b hb => (isBoundary_excludes b hb).2.2.2.2.2.2
  rw [runeWidth, runeWidth, decodeRune?_of_stops hq hstops]

/-- What follows has no part in a punctuator when no long punctuator reaches into it. -/
theorem punctuator_append {q g : Bytes} (hq : q ≠ [])
    (hwithin : ∀ p ∈ longPunctuators, p <+: q ++ g → p <+: q) :
    punctuator (q ++ g) = punctuator q := by
  have hsame : ∀ p ∈ longPunctuators, p.isPrefixOf (q ++ g) = p.isPrefixOf q := by
    intro p hp
    rw [Bool.eq_iff_iff, List.isPrefixOf_iff_prefix, List.isPrefixOf_iff_prefix]
    exact ⟨hwithin p hp, fun hinitial => hinitial.trans (List.prefix_append q g)⟩
  have hfind : longPunctuators.find? (·.isPrefixOf (q ++ g)) =
      longPunctuators.find? (·.isPrefixOf q) :=
    List.find?_congr hsame
  obtain ⟨b, q, rfl⟩ := List.exists_cons_of_ne_nil hq
  unfold punctuator
  rw [hfind]
  rfl

/-- No long punctuator but `##` goes on with a boundary. -/
theorem longPunctuators_boundary : ∀ p ∈ longPunctuators, ∀ b ∈ p.tail, isBoundary b = true →
    p = ascii "##" ∧ b = byte '#' := by
  decide +kernel

theorem punctuator_local {g : Bytes} (hg : Boundary g) {q : Bytes} (hq : q ≠ [])
    (hsign : q = [byte '#'] → g.head? ≠ some (byte '#')) :
    punctuator (q ++ g) = punctuator q := by
  refine punctuator_append hq fun p hp hinitial => ?_
  rcases List.prefix_or_prefix_of_prefix hinitial (List.prefix_append q g) with h | ⟨r, rfl⟩
  · exact h
  · cases r with
    | nil => simp
    | cons b r =>
      -- the punctuator reaches into `g`, which only `##` can do
      obtain ⟨g', rfl⟩ := (List.prefix_append_right_inj q).1 hinitial
      obtain ⟨a, q, rfl⟩ := List.exists_cons_of_ne_nil hq
      obtain ⟨hpaste, rfl⟩ := longPunctuators_boundary _ hp b (by simp) hg.head
      have hlength := congrArg List.length hpaste
      cases q with
      | nil =>
        obtain rfl : a = byte '#' := (List.cons.inj hpaste).1
        exact absurd rfl (hsign rfl)
      | cons a' q =>
        simp [ascii] at hlength

theorem quoteEnd?_ne_zero (quote : UInt8) (text : Bytes) : quoteEnd? quote text ≠ some 0 := by
  fun_cases quoteEnd? quote text <;> simp_all

/-! ## Searches -/

/-- A search through a text, byte by byte: a step gives the next state, or nothing when the thing is
    found. Blanks and `#` bring it back to its quiet state, and so does whitespace before more
    text. -/
structure Finder where
  State : Type
  quiet : State
  step : State → UInt8 → Option State
  blank : ∀ st, step st 32 = some quiet
  sign : ∀ st, step st (byte '#') = some quiet
  gap : ∀ {t following : Bytes}, Gap t following → following ≠ [] →
    ∀ {st st'}, t.foldlM step st = some st' → st' = quiet

/-- The search from a state does not find anything in a text. -/
def Finder.Misses (find : Finder) (st : find.State) (text : Bytes) : Prop :=
  (text.foldlM find.step st).isSome

theorem Finder.misses_append (find : Finder) (st : find.State) (t text : Bytes) :
    find.Misses st (t ++ text) ↔
      ∃ st', t.foldlM find.step st = some st' ∧ find.Misses st' text := by
  unfold Finder.Misses
  rw [List.foldlM_append]
  cases t.foldlM find.step st <;> simp

theorem Gap.boundary {t following : Bytes} (h : Gap t following) (text : Bytes) :
    Boundary (t ++ text) := by
  obtain ⟨b, hb, hbegins⟩ := h.begins
  intro c hc
  rw [List.head?_append, hb] at hc
  obtain rfl : b = c := by simpa using hc
  rcases hbegins with hbegins | rfl <;> simp [isBoundary, *]

/-- How the whitespace before more text ends. -/
theorem Gap.last {t following : Bytes} (h : Gap t following) (hmore : following ≠ []) :
    ∃ t' b, t = t' ++ [b] ∧ (isSeparator b = true ∨ b = byte '/' ∧ ascii "*" <:+ t') := by
  rcases h.ends with hempty | ⟨b, hb, hseparator⟩ | ⟨t', ht⟩
  · exact absurd hempty hmore
  · obtain ⟨t', rfl⟩ := List.getLast?_eq_some_iff.1 hb
    exact ⟨t', b, rfl, Or.inl hseparator⟩
  · refine ⟨t' ++ ascii "*", byte '/', ?_, Or.inr ⟨rfl, List.suffix_append _ _⟩⟩
    rw [← ht, List.append_assoc]
    rfl

theorem foldlM_concat {σ : Type} {step : σ → UInt8 → Option σ} {t : Bytes} {b : UInt8} {st st' : σ}
    (h : (t ++ [b]).foldlM step st = some st') :
    ∃ before, t.foldlM step st = some before ∧ step before b = some st' := by
  rw [List.foldlM_append] at h
  cases hbefore : t.foldlM step st with
  | none => simp [hbefore] at h
  | some before => exact ⟨before, rfl, by simpa [hbefore] using h⟩

/-- One step of the search for a closing quote. The state says whether the next byte is escaped. -/
def quoteStep (quote : UInt8) (escaped : Bool) (b : UInt8) : Option Bool :=
  if escaped then some false
  else if b = quote then none
  else some (b = backslash)

theorem quoteStep_gap {quote : UInt8} {t following : Bytes} (hgap : Gap t following)
    (hmore : following ≠ []) {st st' : Bool} (hfold : t.foldlM (quoteStep quote) st = some st') :
    st' = false := by
  obtain ⟨t', b, rfl, hb⟩ := hgap.last hmore
  obtain ⟨before, -, hstep⟩ := foldlM_concat hfold
  have hplain : b ≠ backslash := by
    rcases hb with hb | ⟨rfl, -⟩
    · rintro rfl
      exact absurd hb (by decide)
    · decide
  unfold quoteStep at hstep
  split at hstep
  · simpa using hstep.symm
  · split at hstep
    · exact absurd hstep (by simp)
    · simpa [hplain] using hstep.symm

/-- The search for a closing quote. -/
def quoteFinder (quote : UInt8) (hquote : quote = doubleQuote ∨ quote = singleQuote) : Finder where
  State := Bool
  quiet := false
  step := quoteStep quote
  blank := by rcases hquote with rfl | rfl <;> decide
  sign := by rcases hquote with rfl | rfl <;> decide
  gap := quoteStep_gap

/-- The search does what the rule for quotations asks for. -/
theorem quoteEnd?_eq_none {quote : UInt8} (hquote : quote = doubleQuote ∨ quote = singleQuote)
    {text : Bytes} (hlines : newline ∉ text) :
    quoteEnd? quote text = none ↔ (text.foldlM (quoteStep quote) false).isSome := by
  have hbackslash : backslash ≠ quote := by rcases hquote with rfl | rfl <;> decide
  fun_induction quoteEnd? quote text with
  | case1 => simp
  | case2 => simp [quoteStep]
  | case3 b h => simp [quoteStep, h]
  | case4 => simp [quoteStep]
  | case5 => simp at hlines
  | case6 => simp at hlines
  | case7 c rest h h' h'' ih =>
    simp only [List.mem_cons, not_or] at hlines
    refine (Option.map_eq_none_iff.trans (ih hlines.2.2)).trans ?_
    simp [quoteStep, hbackslash]
  | case8 b c rest h h' h'' ih =>
    simp only [List.mem_cons, not_or] at hlines
    refine (Option.map_eq_none_iff.trans (ih (by simp [hlines]))).trans ?_
    simp [quoteStep, h, h'']

/-- Where the search for the end of a comment stands. -/
inductive CommentState where
  /-- Before the second byte of the opening. -/
  | opening
  | inside
  /-- After a `*`. -/
  | star
  deriving DecidableEq

/-- One step of the search for the end of a comment. -/
def commentStep : CommentState → UInt8 → Option CommentState
  | .opening, _ => some .inside
  | .inside, b => some (if b = byte '*' then .star else .inside)
  | .star, b => if b = byte '/' then none else some (if b = byte '*' then .star else .inside)

theorem commentStep_separator : ∀ b, isSeparator b = true →
    ∀ st, commentStep st b = some .inside := by
  intro b hb st
  obtain ⟨hslash, -⟩ := isSeparator_excludes b hb
  have hstar : b ≠ byte '*' := by
    rintro rfl
    exact absurd hb (by decide)
  cases st <;> simp [commentStep, hslash, hstar]

theorem commentStep_ne_opening (st : CommentState) (b : UInt8) :
    commentStep st b ≠ some .opening := by
  cases st <;> grind [commentStep]

theorem commentStep_gap {t following : Bytes} (hgap : Gap t following) (hmore : following ≠ [])
    {st st' : CommentState} (hfold : t.foldlM commentStep st = some st') : st' = .inside := by
  obtain ⟨t', b, rfl, hb⟩ := hgap.last hmore
  obtain ⟨before, hbefore, hstep⟩ := foldlM_concat hfold
  rcases hb with hb | ⟨rfl, t'', rfl⟩
  · simpa [commentStep_separator b hb] using hstep.symm
  · -- a closed comment in the whitespace would have been found
    exfalso
    obtain ⟨earlier, hearlier, hstar⟩ := foldlM_concat (t := t'') (b := byte '*') hbefore
    have hopened : earlier ≠ .opening := by
      rintro rfl
      rcases List.eq_nil_or_concat t'' with rfl | ⟨init, last, rfl⟩
      · obtain ⟨c, hc, hbegins⟩ := hgap.begins
        obtain rfl : byte '*' = c := by simpa [ascii, byte] using hc
        exact absurd hbegins (by decide)
      · rw [List.concat_eq_append] at hearlier
        obtain ⟨_, _, hlast⟩ := foldlM_concat hearlier
        exact commentStep_ne_opening _ _ hlast
    obtain rfl : .star = before := by
      cases earlier with
      | opening => exact absurd rfl hopened
      | inside | star =>
        have hne : byte '*' ≠ byte '/' := by decide
        simpa [commentStep, hne] using hstar
    exact absurd hstep (by simp [commentStep])

/-- The search for the end of a comment. -/
def commentFinder : Finder where
  State := CommentState
  quiet := .inside
  step := commentStep
  blank := by intro st; cases st <;> rfl
  sign := by intro st; cases st <;> rfl
  gap := commentStep_gap

theorem commentEnd?_cons_eq_none (a : UInt8) (text : Bytes) :
    commentEnd? (a :: text) = none ↔
      (text.foldlM commentStep (if a = byte '*' then .star else .inside)).isSome := by
  induction text generalizing a with
  | nil => simp [commentEnd?]
  | cons b text ih =>
    have hrest := ih b
    rw [commentEnd?]
    by_cases ha : a = byte '*'
    · by_cases hb : b = byte '/'
      · simp [ha, hb, commentStep]
      · simp only [ha, hb, and_false, if_false, if_true, Option.map_eq_none_iff, hrest]
        simp [commentStep, hb]
    · simp only [ha, false_and, if_false, Option.map_eq_none_iff, hrest]
      simp [commentStep]

/-- The search does what the rule for comments asks for. -/
theorem commentEnd?_eq_none (text : Bytes) :
    commentEnd? text = none ↔ commentFinder.Misses .inside text := by
  cases text with
  | nil => simp [commentEnd?, Finder.Misses, commentFinder]
  | cons a text => exact commentEnd?_cons_eq_none a text

/-! ## Lexemes that only their following text can change -/

theorem runeWidth_ascii {b : UInt8} (hb : b < 0x80) (rest : Bytes) : runeWidth (b :: rest) = 1 := by
  simp [runeWidth, decodeRune?, hb]

/-- A quote begins a quotation, or is a lexeme by itself when it is not closed. -/
theorem lexeme_quote {quote : UInt8} (hquote : quote = doubleQuote ∨ quote = singleQuote)
    (rest : Bytes) : (lexeme (quote :: rest)).2 = (quoteEnd? quote rest).getD 0 + 1 := by
  have hpunctuator : punctuator (quote :: rest) = 0 := by
    rcases hquote with rfl | rfl <;> exact (punctuator_of_head (by decide) rest).trans (by decide)
  have hrune : runeWidth (quote :: rest) = 1 := by
    rcases hquote with rfl | rfl <;> exact runeWidth_ascii (by decide) rest
  have hown : quotation quote (quote :: rest) = ((quoteEnd? quote rest).map (· + 1)).getD 0 := by
    simp [quotation]
  have hdouble : quotation doubleQuote (singleQuote :: rest) = 0 :=
    quotation_eq_zero (by decide) rest
  have hsingle : quotation singleQuote (doubleQuote :: rest) = 0 :=
    quotation_eq_zero (by decide) rest
  rw [lexeme_eq, hpunctuator, hrune]
  rcases hquote with rfl | rfl
  all_goals
    rw [comment_eq_zero (by decide), blanks_eq_zero (by decide), identifier_eq_zero (by decide),
      number_eq_zero (by decide) (by decide), hown]
    cases quoteEnd? _ rest <;> simp [hdouble, hsingle]

/-- A slash that opens no comment is a lexeme by itself. -/
theorem lexeme_slash {rest : Bytes} (hcomment : comment (byte '/' :: rest) = 0) :
    (lexeme (byte '/' :: rest)).2 = 1 := by
  have hpunctuator : punctuator (byte '/' :: rest) = 1 :=
    (punctuator_of_head (by decide) rest).trans (by decide)
  rw [lexeme_eq, hcomment, blanks_eq_zero (by decide), identifier_eq_zero (by decide),
    number_eq_zero (by decide) (by decide), quotation_eq_zero (by decide),
    quotation_eq_zero (by decide), hpunctuator]
  rfl

/-- What follows a lexeme, changed beyond a boundary. -/
def Agree (f f' : Bytes) : Prop :=
  ∃ p g g', f = p ++ g ∧ f' = p ++ g' ∧ Boundary g ∧ Boundary g' ∧ g'.head? ≠ some (byte '/') ∧
    (g'.head? = some (byte '#') → g.head? = some (byte '#'))

/-- At a boundary, anything may be replaced by a blank. -/
theorem Agree.of_blank {f f' : Bytes} (hf : Boundary f) (hf' : ∀ b, f'.head? = some b → b = 32) :
    Agree f f' := by
  refine ⟨[], f, f', rfl, rfl, hf, fun b hb => ?_, fun h => ?_, fun h => ?_⟩
  · rw [hf' b hb]
    decide
  · exact absurd (hf' _ h) (by decide)
  · exact absurd (hf' _ h) (by decide)

theorem Agree.of_sign (f f' : Bytes) : Agree (byte '#' :: f) (byte '#' :: f') := by
  have hsign : ∀ g, Boundary (byte '#' :: g) := by
    intro g b hb
    obtain rfl : byte '#' = b := by simpa using hb
    decide
  exact ⟨[], _, _, rfl, rfl, hsign f, hsign f', by simp; decide, fun _ => rfl⟩

theorem Agree.append {f f' : Bytes} (h : Agree f f') (t : Bytes) : Agree (t ++ f) (t ++ f') := by
  obtain ⟨p, g, g', rfl, rfl, hrest⟩ := h
  exact ⟨t ++ p, g, g', (List.append_assoc ..).symm, (List.append_assoc ..).symm, hrest⟩

/-- Two texts that agree begin alike, but for what stands at a boundary. -/
theorem Agree.head {f f' : Bytes} (h : Agree f f') {b : UInt8} (hb : isBoundary b = false) :
    f'.head? = some b ↔ f.head? = some b := by
  obtain ⟨p, g, g', rfl, rfl, hg, hg', -⟩ := h
  cases p with
  | nil =>
    have hnot : ∀ {g : Bytes}, Boundary g → g.head? ≠ some b := by
      intro g hg hhead
      exact absurd (hg b hhead) (by simp [hb])
    exact iff_of_false (hnot hg') (hnot hg)
  | cons c p => rfl

theorem Agree.head_slash {f f' : Bytes} (h : Agree f f') (hf : f.head? ≠ some (byte '/')) :
    f'.head? ≠ some (byte '/') := by
  obtain ⟨p, g, g', rfl, rfl, -, -, hslash, -⟩ := h
  cases p with
  | nil => exact hslash
  | cons c p => exact hf

/-- A quote that is a lexeme by itself. -/
def LoneQuote (t : Bytes) : Prop :=
  t = [doubleQuote] ∨ t = [singleQuote]

section Transfer

variable {kind : TokenKind} {t f f' : Bytes}

theorem quotation_transfer {quote : UInt8} (hquote : quote = doubleQuote ∨ quote = singleQuote)
    (h : Stands kind t f) (hlines : LoneQuote t → newline ∉ f) (hlines' : newline ∉ f')
    (hfound : ∀ (find : Finder) st, find.Misses st f → find.Misses st f') :
    quotation quote (t ++ f') = quotation quote (t ++ f) := by
  obtain ⟨b, t, rfl⟩ := List.exists_cons_of_ne_nil h.nonempty
  by_cases hb : b = quote
  · subst hb
    have hlength := lexeme_quote hquote (t ++ f)
    rw [← List.cons_append, h.lexeme] at hlength
    cases hend : quoteEnd? b (t ++ f) with
    | none =>
      -- a quote that is not closed stays so
      obtain rfl : t = [] := by simpa [hend] using hlength
      have hlone : LoneQuote [b] := by rcases hquote with rfl | rfl <;> simp [LoneQuote]
      have hmisses := (quoteEnd?_eq_none hquote (hlines hlone)).1 hend
      have hmisses' := hfound (quoteFinder b hquote) false hmisses
      have hend' := (quoteEnd?_eq_none hquote hlines').2 hmisses'
      simp [quotation, hend', show quoteEnd? b f = none from hend]
    | some n =>
      obtain rfl : t.length = n := by simpa [hend] using hlength
      have hend' := (closing_of_quoteEnd? hend).quoteEnd? f'
      simp [quotation, hend, hend']
  · rw [List.cons_append, List.cons_append, quotation_eq_zero hb, quotation_eq_zero hb]

theorem comment_transfer (h : Stands kind t f) (hkind : kind ≠ .space) (hagree : Agree f f')
    (hfound : ∀ (find : Finder) st, find.Misses st f → find.Misses st f') :
    comment (t ++ f') = 0 := by
  obtain ⟨hcomment, -⟩ := h.rules hkind
  obtain ⟨b, t, rfl⟩ := List.exists_cons_of_ne_nil h.nonempty
  by_cases hb : b = byte '/'
  · subst hb
    have hlength : (lexeme (byte '/' :: t ++ f)).2 = 1 := lexeme_slash hcomment
    rw [h.lexeme] at hlength
    obtain rfl : t = [] := by simpa using hlength
    obtain ⟨p, g, g', rfl, rfl, -, hg', hslash, -⟩ := hagree
    cases p with
    | nil =>
      cases g' with
      | nil => rfl
      | cons c g' =>
        have hstar : c ≠ byte '*' := by
          rintro rfl
          exact absurd hg'.head (by decide)
        have hc : c ≠ byte '/' := by simpa using hslash
        simp [comment, hc, hstar]
    | cons c p =>
      simp only [List.cons_append, List.nil_append] at hcomment hfound ⊢
      by_cases hstar : c = byte '*'
      · -- a comment that is not closed stays so
        subst hstar
        have hne : byte '*' ≠ byte '/' := by decide
        have hend : commentEnd? (p ++ g) = none := by
          cases hend : commentEnd? (p ++ g) with
          | none => rfl
          | some n => simp [comment, hend, hne] at hcomment
        have hmisses := hfound commentFinder .opening ((commentEnd?_eq_none _).1 hend)
        have hend' : commentEnd? (p ++ g') = none := (commentEnd?_eq_none _).2 hmisses
        simp [comment, hend', hne]
      · by_cases hc : c = byte '/'
        · simp [comment, hc] at hcomment
        · simp [comment, hc, hstar]
  · exact comment_eq_zero hb _

/-- A lexeme still stands when what follows it is changed beyond a boundary and searches that found
    nothing before find nothing now. A line end after a lone quote would have ended its search. -/
theorem Stands.transfer (h : Stands kind t f) (hkind : kind ≠ .space) (hagree : Agree f f')
    (hlines : LoneQuote t → newline ∉ f) (hlines' : newline ∉ f')
    (hfound : ∀ (find : Finder) st, find.Misses st f → find.Misses st f') : Stands kind t f' := by
  obtain ⟨hcomment, hblanks⟩ := h.rules hkind
  have hcomment' := comment_transfer h hkind hagree hfound
  have hdouble := quotation_transfer (Or.inl rfl) h hlines hlines' hfound
  have hsingle := quotation_transfer (Or.inr rfl) h hlines hlines' hfound
  have hblanks' : blanks (t ++ f') = 0 := by
    have hstops := h.stops hkind f'
    obtain ⟨b, t, rfl⟩ := List.exists_cons_of_ne_nil h.nonempty
    exact blanks_eq_zero (hstops b rfl) _
  -- the other rules look no further than the boundary after `t ++ p`
  obtain ⟨p, g, g', rfl, rfl, hg, hg', -, hsign⟩ := hagree
  have hne : t ++ p ≠ [] := by simp [h.nonempty]
  have hlone : t ++ p = [byte '#'] → g.head? ≠ some (byte '#') := by
    -- two signs would be one lexeme
    intro hq hhead
    obtain ⟨b, t, rfl⟩ := List.exists_cons_of_ne_nil h.nonempty
    obtain ⟨rfl, hrest⟩ : b = byte '#' ∧ t ++ p = [] := by simpa using hq
    obtain ⟨rfl, rfl⟩ := List.append_eq_nil_iff.1 hrest
    obtain ⟨g₀, rfl⟩ := List.head?_eq_some_iff.1 hhead
    have hpaste : Lexer.lexeme ([byte '#'] ++ ([] ++ byte '#' :: g₀)) = (.punctuator, 2) :=
      (stands_paste g₀).lexeme
    rw [h.lexeme] at hpaste
    simp at hpaste
  have hidentifier : identifier (t ++ (p ++ g')) = identifier (t ++ (p ++ g)) := by
    rw [← List.append_assoc, ← List.append_assoc, identifier_local hg.stops_number,
      identifier_local hg'.stops_number]
  have hnumber : number (t ++ (p ++ g')) = number (t ++ (p ++ g)) := by
    rw [← List.append_assoc, ← List.append_assoc, number_local hg.stops_number,
      number_local hg'.stops_number]
  have hpunctuator : punctuator (t ++ (p ++ g')) = punctuator (t ++ (p ++ g)) := by
    rw [← List.append_assoc, ← List.append_assoc, punctuator_local hg hne hlone,
      punctuator_local hg' hne fun hq hhead => hlone hq (hsign hhead)]
  have hrune : runeWidth (t ++ (p ++ g')) = runeWidth (t ++ (p ++ g)) := by
    rw [← List.append_assoc, ← List.append_assoc, runeWidth_local hg hne,
      runeWidth_local hg' hne]
  refine ⟨h.nonempty, ?_⟩
  rw [← h.lexeme, lexeme_eq, lexeme_eq, hcomment, hcomment', hblanks, hblanks', hidentifier,
    hnumber, hdouble, hsingle, hpunctuator, hrune]

end Transfer

end Preproc.Lexer
