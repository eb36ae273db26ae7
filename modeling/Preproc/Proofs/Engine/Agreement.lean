import Preproc.Engine.Resolve
import Preproc.Proofs.Condition.Spans
import Preproc.Proofs.Token.Kinds

set_option autoImplicit false

/-! # Two ways of cutting a condition

A condition is cut twice: into the tokens of its line, in which macros are replaced, and, once these
are written out again, into the lexemes that are evaluated. The two cuts agree (`Agree`) when every
lexeme lies inside one token and every name is a whole identifier. Which tokens are told apart
(`ToldApart`) can be seen from each token and its neighbour, and these are the ones on which the two
cuts agree (`agree_of_toldApart`, `toldApart_of_agree`). -/

namespace Preproc.Engine

open Condition (Spanned Span Shape Lexeme symbols mayFollow spansFrom isGap)
open Lexer (StopsAt Stands)

/-! ## Tokens that are told apart -/

/-- What stands for a token in the text of a condition. -/
def shown (t : Token) : Bytes :=
  if t.isSpace then ascii " " else t.text

theorem textOf_cons (t : Token) (toks : List Token) :
    Token.textOf (t :: toks) = shown t ++ Token.textOf toks := rfl

theorem textOf_append (toks toks' : List Token) :
    Token.textOf (toks ++ toks') = Token.textOf toks ++ Token.textOf toks' :=
  List.flatMap_append

/-- Whether two texts run into each other: into one word, or into a symbol of two bytes. -/
def glues (a b : Bytes) : Bool :=
  match a.getLast?, b.head? with
  | some x, some y => isIdentPart x && isIdentPart y || symbols.any fun e => e.1 == a ++ [y]
  | _, _ => false

/-- Texts do not run into each other when no word goes on and no symbol comes about. -/
theorem glues_eq_false {a b : Bytes} (hword : ∀ x ∈ a.getLast?, isIdentPart x = true →
    StopsAt isIdentPart b) (hsymbol : ∀ y ∈ b.head?, ∀ e ∈ symbols, e.1 ≠ a ++ [y]) :
    glues a b = false := by
  unfold glues
  split
  · next x y hx hy =>
    rw [Bool.or_eq_false_iff, List.any_eq_false]
    refine ⟨?_, by simpa using hsymbol y hy⟩
    cases hpart : isIdentPart x with
    | true => simp [hword x hx hpart y hy]
    | false => rfl
  · rfl

/-- A sign that is directly followed by the start of a name. -/
def HasSignedName (text : Bytes) : Prop :=
  ∃ before sign first after, text = before ++ sign :: first :: after ∧
    Lexer.isSign sign = true ∧ isIdentStart first = true

/-- A token that is cut in the same way by itself: no quote that is left open, and no number that
    goes on with a name. -/
structure Clear (t : Token) : Prop where
  quote : t.kind = .stray → t.text ≠ [singleQuote]
  number : t.kind = .number → ¬ HasSignedName t.text

/-- Tokens that are told apart when they are written out. -/
structure ToldApart (toks : List Token) : Prop where
  apart : toks.IsChain (fun a b => glues (shown a) (shown b) = false)
  clear : ∀ t ∈ toks, Clear t

/-! ## Tokens one by one -/

/-- The spans of two texts, one after the other, are those of the one and those of the other. The
    spans of the first have a property. -/
def Splits (start : Nat) (own following : Bytes) (spans : List Span) (p : Span → Prop) : Prop :=
  ∃ first more, spans = first ++ more ∧ Spanned (start + own.length) following more ∧
    ∀ s ∈ first, start ≤ s.start ∧ s.stop ≤ start + own.length ∧ p s

/-- No name is among the spans. -/
def NoName (s : Span) : Prop :=
  ∀ name, s.lexeme ≠ .name name

theorem noName_symbol (start stop : Nat) (s : Condition.Symbol) :
    NoName ⟨start, stop, .symbol s⟩ := by
  simp [NoName]

theorem Splits.imp {start : Nat} {own following : Bytes} {spans : List Span} {p q : Span → Prop}
    (h : Splits start own following spans p) (himp : ∀ s, p s → q s) :
    Splits start own following spans q := by
  obtain ⟨first, more, hspans, hmore, hfirst⟩ := h
  exact ⟨first, more, hspans, hmore, fun s hs =>
    ⟨(hfirst s hs).1, (hfirst s hs).2.1, himp s (hfirst s hs).2.2⟩⟩

theorem Splits.nil {start : Nat} {following : Bytes} {spans : List Span} {p : Span → Prop}
    (h : Spanned start following spans) : Splits start [] following spans p :=
  ⟨[], spans, rfl, h, by simp⟩

/-- One span, and then the rest of the text. -/
theorem Splits.cons {start : Nat} (own : Bytes) {rest following : Bytes} {l : Lexeme}
    {spans : List Span} {p : Span → Prop} (hp : p ⟨start, start + own.length, l⟩)
    (h : Splits (start + own.length) rest following spans p) :
    Splits start (own ++ rest) following (⟨start, start + own.length, l⟩ :: spans) p := by
  obtain ⟨first, more, rfl, hmore, hfirst⟩ := h
  refine ⟨_ :: first, more, rfl, ?_, List.forall_mem_cons.2 ⟨⟨Nat.le_refl _, ?_, hp⟩, ?_⟩⟩
  · rwa [List.length_append, ← Nat.add_assoc]
  · simp
  · intro s hs
    obtain ⟨hstart, hstop, hs⟩ := hfirst s hs
    rw [List.length_append]
    exact ⟨by omega, by omega, hs⟩

/-- A text that ends inside another. -/
theorem cut_inside {r f own following : Bytes} (h : r ++ f = own ++ following)
    (hle : own.length ≤ r.length) : ∃ r', r = own ++ r' ∧ following = r' ++ f := by
  obtain ⟨r', rfl⟩ : own <+: r :=
    List.prefix_of_prefix_length_le (h ▸ List.prefix_append own following)
      (List.prefix_append r f) hle
  rw [List.append_assoc, List.append_cancel_left_eq] at h
  exact ⟨r', rfl, h.symm⟩

/-- A word does not go on beyond the end of a text that it cannot go on after. -/
theorem word_inside {r f own following : Bytes} (h : r ++ f = own ++ following) (hr : r ≠ [])
    (hown : ∀ c ∈ own, isIdentPart c = true)
    (hstop : ∀ x ∈ r.getLast?, isIdentPart x = true → StopsAt isIdentPart f) :
    own.length ≤ r.length := by
  by_contra hlong
  obtain ⟨g, rfl, rfl⟩ := cut_inside h.symm (by omega)
  cases g with
  | nil => simp at hlong
  | cons b g =>
    have hlast : isIdentPart (r.getLast hr) = true :=
      hown _ (List.mem_append_left _ (List.getLast_mem hr))
    have hb := hstop _ (List.getLast?_eq_some_getLast hr) hlast b rfl
    exact absurd (hown b (by simp)) (by simp [hb])

/-- A byte of a class without blanks is no gap. -/
theorem isGap_eq_false {p : UInt8 → Bool} {b : UInt8} (hb : p b = true)
    (hp : p 32 = false ∧ p 9 = false ∧ p 13 = false ∧ p newline = false) : isGap b = false := by
  rw [Bool.eq_false_iff]
  intro hgap
  simp only [isGap, Bool.or_eq_true, beq_iff_eq] at hgap
  rcases hgap with ((rfl | rfl) | rfl) | rfl <;> simp_all

theorem isGap_of_isIdentPart {b : UInt8} (hb : isIdentPart b = true) : isGap b = false :=
  isGap_eq_false hb (by decide)

theorem isGap_of_isIdentStart {b : UInt8} (hb : isIdentStart b = true) : isGap b = false :=
  isGap_eq_false hb (by decide)

theorem isGap_of_not_isSeparator {b : UInt8} (hb : Lexer.isSeparator b = false) :
    isGap b = false :=
  isGap_eq_false (p := (!Lexer.isSeparator ·)) (by simp [hb]) (by decide)

/-- A byte of a number that begins neither a constant nor a name begins no lexeme but a sign. -/
theorem symbols_number {e : Bytes × Condition.Symbol} (he : e ∈ symbols) {b : UInt8}
    (hb : b ∈ e.1) (hnumber : Lexer.isNumberByte b = true) :
    Lexer.isSign b = true ∧ e.1 = [b] := by
  obtain ⟨-, hpoint, hsign⟩ := Condition.symbols_bytes e he b hb
  have hb' : Lexer.isSign b = true := by
    simpa [Lexer.isNumberByte, (Condition.symbols_excludes he hb).1, hpoint] using hnumber
  exact ⟨hb', hsign hb'⟩

/-- A constant is not directly followed by a name. -/
theorem stops_after_number {start : Nat} {constant r : Bytes} {s : Span} {more : List Span}
    (hs : s.lexeme = .number constant) (h : Spanned start r more)
    (hchain : (s :: more).IsChain (fun s s' => mayFollow s.lexeme s'.lexeme)) :
    StopsAt isIdentStart r := by
  intro d hd
  obtain ⟨r, rfl⟩ := List.head?_eq_some_iff.1 hd
  by_contra hstart
  rw [Bool.not_eq_false] at hstart
  obtain ⟨l, own, following, rest, -, hshape, -, rfl⟩ := h.first (isGap_of_isIdentStart hstart)
  have hfollow := (List.isChain_cons_cons.1 hchain).1
  rw [hs, (hshape.name_of_first hstart).1] at hfollow
  exact absurd hfollow (by simp [mayFollow, Lexeme.endsOperand, Lexeme.comesAfter])

/-- Lexemes stay inside a number, and none of them is a name. -/
theorem splits_number {r f : Bytes} {start : Nat} {spans : List Span}
    (hbytes : ∀ c ∈ r, Lexer.isNumberByte c = true) (hsigned : ¬ HasSignedName r)
    (hstop : ∀ x ∈ r.getLast?, isIdentPart x = true → StopsAt isIdentPart f)
    (hfirst : StopsAt isIdentStart r) (h : Spanned start (r ++ f) spans)
    (hchain : spans.IsChain (fun s s' => mayFollow s.lexeme s'.lexeme)) :
    Splits start r f spans NoName := by
  -- after each lexeme, what is left of the number begins with no name
  induction hn : r.length using Nat.strongRecOn generalizing r start spans with
  | ind n ih =>
    cases r with
    | nil => exact .nil h
    | cons c r =>
      have hc : Lexer.isNumberByte c = true := hbytes c (by simp)
      have hstart := hfirst c rfl
      have hquote : c ≠ singleQuote := by
        rintro rfl
        exact absurd hc (by decide)
      obtain ⟨l, own, following, more, htext, hshape, hmore, rfl⟩ :=
        h.first (isGap_eq_false hc (by decide))
      have hrest : ∀ {r'}, r = own ++ r' → (∀ name, l ≠ .name name) → StopsAt isIdentStart r' →
          Splits start (c :: r) f (⟨start, start + (own.length + 1), l⟩ :: more) NoName := by
        rintro r' rfl hl hnext
        obtain rfl : r' ++ f = following :=
          List.append_cancel_left ((List.append_assoc ..).symm.trans htext)
        refine Splits.cons (c :: own) hl
          (ih r'.length ?_ ?_ ?_ ?_ hnext hmore hchain.of_cons rfl)
        · simp at hn
          omega
        · exact fun d hd => hbytes d (by simp [hd])
        · rintro ⟨before, sign, first, after, rfl, hmarks⟩
          exact hsigned ⟨c :: own ++ before, sign, first, after, by simp, hmarks⟩
        · intro x hx
          exact hstop x (by rw [← List.cons_append, List.getLast?_append, hx]; rfl)
      have hkind := hshape.by_first
      rw [hstart, if_neg hquote] at hkind
      cases hdigit : isDigit c with
      | true =>
        rw [hdigit] at hkind
        obtain ⟨rfl, hown⟩ := hkind
        have hle := word_inside (r := c :: r) (congrArg (c :: ·) htext) (by simp) hown hstop
        obtain ⟨r', hr', rfl⟩ := cut_inside (congrArg (c :: ·) htext) hle
        refine hrest (List.cons.inj hr').2 (by simp) fun d hd => ?_
        exact stops_after_number rfl hmore hchain d (by rw [List.head?_append, hd]; rfl)
      | false =>
        rw [hdigit] at hkind
        obtain ⟨s, rfl, hspelled, -⟩ := hkind
        obtain ⟨hsign, hown⟩ := symbols_number hspelled List.mem_cons_self hc
        obtain rfl : own = [] := by simpa using hown
        refine hrest rfl (by simp) fun d hd => ?_
        obtain ⟨r, rfl⟩ := List.head?_eq_some_iff.1 hd
        by_contra hname
        exact hsigned ⟨[], c, d, r, rfl, hsign, by simpa using hname⟩

theorem isIdent_bytes {t : Bytes} (h : isIdent t = true) :
    ∃ b rest, t = b :: rest ∧ isIdentStart b = true ∧ ∀ c ∈ t, isIdentPart c = true := by
  cases t with
  | nil => simp [isIdent] at h
  | cons b rest =>
    rw [isIdent, Bool.and_eq_true, List.all_eq_true] at h
    exact ⟨b, rest, rfl, h.1, List.forall_mem_cons.2 ⟨by simp [isIdentPart, h.1], h.2⟩⟩

/-- An identifier is one name. -/
theorem splits_ident {t f : Bytes} {start : Nat} {spans : List Span} (ht : isIdent t = true)
    (hstop : StopsAt isIdentPart f) (h : Spanned start (t ++ f) spans) :
    Splits start t f spans (· = ⟨start, start + t.length, .name t⟩) := by
  obtain ⟨b, t, rfl, hb, hall⟩ := isIdent_bytes ht
  obtain ⟨l, own, following, more, htext, hshape, hmore, rfl⟩ := h.first (isGap_of_isIdentStart hb)
  obtain ⟨rfl, hown, hstops⟩ := hshape.name_of_first hb
  -- both are the longest word at the head of the text
  obtain rfl : own = t := by
    have hown' := Lexer.takeWhile_of_stops (List.forall_mem_cons.1 hown).2 hstops
    have ht' := Lexer.takeWhile_of_stops (List.forall_mem_cons.1 hall).2 hstop
    rw [← hown', ← ht']
    exact congrArg _ htext.symm
  obtain rfl : f = following := List.append_cancel_left htext
  exact ⟨[_], more, rfl, hmore, by simp⟩

theorem constantEnd?_of_closing {t : Bytes} (h : Lexer.Closing singleQuote t) (following : Bytes) :
    Condition.constantEnd? (t ++ following) = some t.length := by
  induction h with
  | quote => cases following <;> simp [Condition.constantEnd?]
  | escaped hquote hline h ih => simp [Condition.constantEnd?, hquote, hline, ih]
  | plain hquote _ hescape h ih =>
    obtain ⟨c, t, rfl⟩ := List.exists_cons_of_ne_nil h.ne_nil
    simp only [List.cons_append] at ih
    simp [Condition.constantEnd?, hquote, hescape, ih]

/-- A character constant is one lexeme. -/
theorem splits_character {body f : Bytes} {start : Nat} {spans : List Span}
    (hclosed : Lexer.Closing singleQuote body)
    (h : Spanned start (singleQuote :: body ++ f) spans) :
    Splits start (singleQuote :: body) f spans NoName := by
  rw [List.cons_append] at h
  obtain ⟨l, own, following, more, htext, hshape, hmore, rfl⟩ := h.first (by decide)
  obtain ⟨rfl, -, hend⟩ := hshape.by_first
  rw [← htext, constantEnd?_of_closing hclosed] at hend
  obtain ⟨rfl, rfl⟩ := List.append_inj htext (Option.some.inj hend)
  exact ⟨[_], more, rfl, hmore, by simp [NoName]⟩

theorem symbols_short : ∀ e ∈ symbols, e.1.length ≤ 2 := by decide

/-- What is left of a long punctuator after its first symbol: nothing, a sign, or a byte with which
    no symbol begins that may come there. -/
theorem longPunctuators_rest : ∀ p ∈ Lexer.longPunctuators, ∀ e ∈ symbols, e.1 <+: p →
    (∀ e' ∈ symbols, e'.1 <+: p → e'.1.length ≤ e.1.length) →
    p.drop e.1.length = [] ∨ ∃ c ∈ Lexer.shortPunctuators, p.drop e.1.length = [c] ∧
      (Lexer.isSign c = true ∨ ∀ e' ∈ symbols, e'.1.head? = some c →
        mayFollow (.symbol e.2) (.symbol e'.2) = false) := by
  decide +kernel

theorem glues_symbol {b y : UInt8} {f : Bytes} {s : Condition.Symbol}
    (hspelled : ([b, y], s) ∈ symbols) : glues [b] (y :: f) = true := by
  have hany : symbols.any (fun e => e.1 == [b] ++ [y]) = true :=
    List.any_eq_true.2 ⟨_, hspelled, by simp⟩
  simp only [glues, List.getLast?_singleton, List.head?_cons, hany, Bool.or_true]

/-- The first lexeme of a punctuator. -/
theorem punctuator_lexeme {b : UInt8} {rest : Bytes} {start : Nat} {spans : List Span}
    (hb : b ∈ Lexer.shortPunctuators) (h : Spanned start (b :: rest) spans) :
    ∃ s own following more, rest = own ++ following ∧ (b :: own, s) ∈ symbols ∧
      (∀ e ∈ symbols, e.1 <+: b :: rest → e.1.length ≤ (b :: own).length) ∧
      Spanned (start + (own.length + 1)) following more ∧
      spans = ⟨start, start + (own.length + 1), .symbol s⟩ :: more := by
  obtain ⟨hpart, hblank, -, hquote⟩ := Lexer.shortPunctuators_bytes b hb
  obtain ⟨l, own, following, more, rfl, hshape, hmore, rfl⟩ :=
    h.first (isGap_of_not_isSeparator hblank)
  obtain ⟨s, rfl, hspelled, hlongest⟩ := hshape.symbol_of_first hpart hquote
  exact ⟨s, own, following, more, rfl, hspelled, hlongest, hmore, rfl⟩

/-- A punctuator of one byte is one symbol. -/
theorem splits_short {b : UInt8} {f : Bytes} {start : Nat} {spans : List Span}
    (hb : b ∈ Lexer.shortPunctuators) (hapart : glues [b] f = false)
    (h : Spanned start (b :: f) spans) : Splits start [b] f spans NoName := by
  obtain ⟨s, own, following, more, rfl, hspelled, -, hmore, rfl⟩ := punctuator_lexeme hb h
  obtain rfl : own = [] := by
    have hshort := symbols_short _ hspelled
    match own, hshort with
    | [], _ => rfl
    | [y], _ =>
      have hglues : glues [b] (y :: following) = true := glues_symbol hspelled
      exact absurd hapart (by simp [hglues])
  exact ⟨[_], more, rfl, hmore, by simp [NoName]⟩

/-- A longer punctuator is one symbol, or two. -/
theorem splits_long {p f : Bytes} {start : Nat} {spans : List Span} (hp : p ∈ Lexer.longPunctuators)
    (h : Spanned start (p ++ f) spans)
    (hchain : spans.IsChain (fun s s' => mayFollow s.lexeme s'.lexeme)) :
    Splits start p f spans NoName := by
  obtain ⟨hlong, hbytes⟩ := Lexer.longPunctuators_bytes p hp
  obtain ⟨b, p, rfl⟩ := List.exists_cons_of_ne_nil (List.length_pos_iff.1 (by omega : 0 < p.length))
  rw [List.cons_append] at h
  have hb := hbytes b List.mem_cons_self
  obtain ⟨s, own, following, more, htext, hspelled, hlongest, hmore, rfl⟩ := punctuator_lexeme hb h
  have hshort := symbols_short _ hspelled
  obtain ⟨rest, rfl, rfl⟩ := cut_inside htext (by simp at hlong hshort; omega)
  have hown : ∀ e ∈ symbols, e.1 <+: b :: (own ++ rest) → e.1.length ≤ (b :: own).length :=
    fun e he hinitial => hlongest e he (hinitial.trans (by simp))
  rcases longPunctuators_rest _ hp _ hspelled (List.prefix_append (b :: own) rest) hown with
    hrest | ⟨c, hc, hrest, hnext⟩
  · obtain rfl : rest = [] := by simpa using hrest
    exact Splits.cons (b :: own) (noName_symbol _ _ s) (.nil hmore)
  · obtain rfl : rest = [c] := by simpa using hrest
    obtain ⟨s', own', following', more', htext', hspelled', -, hmore', rfl⟩ :=
      punctuator_lexeme hc hmore
    rcases hnext with hsign | hnext
    · obtain rfl : own' = [] := by
        simpa using (Condition.symbols_bytes _ hspelled' c List.mem_cons_self).2.2 hsign
      obtain rfl : f = following' := htext'
      exact Splits.cons (b :: own) (noName_symbol _ _ s)
        (Splits.cons [c] (noName_symbol _ _ s') (.nil hmore'))
    · have hfollow := (List.isChain_cons_cons.1 hchain).1
      exact absurd hfollow (by simp [hnext _ hspelled' rfl])

/-- A byte that begins no lexeme. -/
theorem not_spanned {b : UInt8} {rest : Bytes} {start : Nat} {spans : List Span}
    (hgap : isGap b = false) (hb : Condition.startsLexeme b = false) :
    ¬ Spanned start (b :: rest) spans := by
  intro h
  obtain ⟨l, own, following, more, -, hshape, -, -⟩ := h.first hgap
  simp only [Condition.startsLexeme, Bool.or_eq_false_iff, beq_eq_false_iff_ne] at hb
  obtain ⟨⟨⟨hdigit, hquote⟩, hstart⟩, hsymbol⟩ := hb
  obtain ⟨s, -, hspelled, -⟩ :=
    hshape.symbol_of_first (by simp [isIdentPart, hdigit, hstart]) hquote
  exact absurd (List.any_eq_false.1 hsymbol _ hspelled) (by simp)

/-- A stray code point other than a quote begins no lexeme. -/
theorem stray_startsLexeme {b : UInt8} (hstart : isIdentStart b = false)
    (hdigit : isDigit b = false) (hshort : b ∉ Lexer.shortPunctuators) (hquote : b ≠ singleQuote) :
    Condition.startsLexeme b = false := by
  have hsymbol : symbols.any (fun e => e.1.head? == some b) = false := by
    refine List.any_eq_false.2 fun e he hfirst => hshort ?_
    exact (Condition.symbols_bytes e he b (List.mem_of_head? (beq_iff_eq.1 hfirst))).1
  simp [Condition.startsLexeme, hstart, hdigit, hquote, hsymbol]

theorem stray_not_spanned {t following f : Bytes} {start : Nat} {spans : List Span}
    (ht : Stands .stray t following) (hquote : t ≠ [singleQuote]) :
    ¬ Spanned start (t ++ f) spans := by
  obtain ⟨b, rest, rfl⟩ := List.exists_cons_of_ne_nil ht.nonempty
  obtain ⟨hstart, hdigit, hshort⟩ := ht.stray_first b rfl
  have hsolid : Lexer.isSeparator b = false := ht.stops (by decide) [] b rfl
  have hne : b ≠ singleQuote := by
    rintro rfl
    exact hquote (ht.stray_quote rfl)
  exact not_spanned (isGap_of_not_isSeparator hsolid)
    (stray_startsLexeme hstart hdigit hshort hne)

/-- A number does not begin as a name does. -/
theorem number_stops_name {t following : Bytes} (ht : Stands .number t following) :
    StopsAt isIdentStart t := by
  intro b hb
  rw [Bool.eq_false_iff]
  intro hstart
  rcases ht.number_bytes.1 b hb with hdigit | rfl
  · simp [Condition.not_isDigit_of_isIdentStart hstart] at hdigit
  · exact absurd hstart (by decide)

/-- The names among the spans of a token: only an identifier has one, and it is all of it. -/
def NamesOf (t : Token) (start : Nat) (s : Span) : Prop :=
  ∀ name, s.lexeme = .name name →
    t.isIdent = true ∧ t.text = name ∧ s.start = start ∧ s.stop = start + (shown t).length

theorem stops_of_glues {a f : Bytes} (h : glues a f = false) :
    ∀ x ∈ a.getLast?, isIdentPart x = true → StopsAt isIdentPart f := by
  intro x hx hpart y hy
  rw [glues, hx, hy] at h
  simp_all

/-- Lexemes stay inside a token, and a name is all of an identifier. -/
theorem splits_token {t : Token} {f : Bytes} {start : Nat} {spans : List Span} (ht : t.Formed)
    (hapart : glues (shown t) f = false) (hclear : Clear t)
    (h : Spanned start (shown t ++ f) spans)
    (hchain : spans.IsChain (fun s s' => mayFollow s.lexeme s'.lexeme)) :
    Splits start (shown t) f spans (NamesOf t start) := by
  have hnone : ∀ s, NoName s → NamesOf t start s := fun s hs name hname => absurd hname (hs name)
  cases hspace : t.isSpace with
  | true =>
    rw [shown, if_pos hspace] at h ⊢
    exact ⟨[], spans, rfl, h.of_gap (by decide), by simp⟩
  | false =>
    have hshown : shown t = t.text := by rw [shown, hspace]; rfl
    rw [hshown] at hapart h ⊢
    obtain hspace' | ⟨following, hstands⟩ := ht
    · exact absurd hspace' (by simp [hspace])
    cases hkind : t.kind <;> rw [hkind] at hstands
    case endOfLine => exact absurd hstands.rule id
    case space => simp [Token.isSpace, hkind] at hspace
    case ident =>
      have hident := hstands.isIdent
      obtain ⟨b, rest, htext, -, hall⟩ := isIdent_bytes hident
      have hlast := List.getLast_mem (l := t.text) (by simp [htext])
      have hstop := stops_of_glues hapart _ (List.getLast?_eq_some_getLast (by simp [htext]))
        (hall _ hlast)
      refine (splits_ident hident hstop h).imp fun s hs name hname => ?_
      subst hs
      exact ⟨by simp [Token.isIdent, hkind], Lexeme.name.inj hname, rfl, by rw [hshown]⟩
    case number =>
      exact (splits_number hstands.number_bytes.2 (hclear.number hkind) (stops_of_glues hapart)
        (number_stops_name hstands) h hchain).imp hnone
    case string =>
      obtain ⟨rest, htext⟩ := List.head?_eq_some_iff.1 hstands.string_first
      rw [htext] at h
      exact absurd h (not_spanned (by decide) (by decide))
    case character =>
      obtain ⟨body, hbody, hclosed⟩ := hstands.character_closed
      rw [hbody] at h ⊢
      exact (splits_character hclosed h).imp hnone
    case punctuator =>
      rcases hstands.punctuator_spelling with hlong | ⟨b, hb, hshort⟩
      · exact (splits_long hlong h hchain).imp hnone
      · rw [hshort] at hapart h ⊢
        exact (splits_short hb hapart h).imp hnone
    case stray => exact absurd h (stray_not_spanned hstands (hclear.quote hkind))

/-! ## Agreement -/

/-- A token of a list, with the offset of its text in the text of the list. -/
def StandsAt (toks : List Token) (t : Token) (start : Nat) : Prop :=
  ∃ before after, toks = before ++ t :: after ∧ start = (Token.textOf before).length

/-- The lexemes of the text of a list of tokens agree with the tokens: each lies inside one token,
    and each name is a whole identifier. -/
structure Agree (toks : List Token) (spans : List Span) : Prop where
  inside : ∀ s ∈ spans, ∃ t start, StandsAt toks t start ∧
    start ≤ s.start ∧ s.stop ≤ start + (shown t).length
  names : ∀ s ∈ spans, ∀ name, s.lexeme = .name name → ∃ t, StandsAt toks t s.start ∧
    s.stop = s.start + (shown t).length ∧ t.isIdent = true ∧ t.text = name

theorem shown_ne_nil {t : Token} (ht : t.Formed) : shown t ≠ [] := by
  unfold shown
  split
  · decide
  · next hspace =>
    rcases ht with hspace' | ⟨following, hstands⟩
    · exact absurd hspace' hspace
    · exact hstands.nonempty

/-- Only the first byte of what follows matters. -/
theorem glues_append {a b : Bytes} (hb : b ≠ []) (f : Bytes) : glues a (b ++ f) = glues a b := by
  unfold glues
  rw [List.head?_append_of_ne_nil b hb]

theorem glues_nil (a : Bytes) : glues a [] = false := by
  unfold glues
  cases a.getLast? <;> rfl

/-- A list of tokens that are told apart is cut again at the same places. -/
theorem within_of_toldApart {toks : List Token} {start : Nat} {spans : List Span}
    (hformed : ∀ t ∈ toks, t.Formed) (hapart : ToldApart toks)
    (h : Spanned start (Token.textOf toks) spans)
    (hchain : spans.IsChain (fun s s' => mayFollow s.lexeme s'.lexeme)) :
    ∀ s ∈ spans, ∃ t place, StandsAt toks t place ∧ start + place ≤ s.start ∧
      s.stop ≤ start + place + (shown t).length ∧ NamesOf t (start + place) s := by
  induction toks generalizing start spans with
  | nil =>
    obtain rfl := h.eq_nil
    simp
  | cons t rest ih =>
    obtain ⟨ht, hrest⟩ := List.forall_mem_cons.1 hformed
    have hnext : glues (shown t) (Token.textOf rest) = false := by
      cases rest with
      | nil => exact glues_nil _
      | cons t' rest =>
        rw [textOf_cons, glues_append (shown_ne_nil (hrest t' (by simp)))]
        exact (List.isChain_cons_cons.1 hapart.apart).1
    rw [textOf_cons] at h
    obtain ⟨first, more, rfl, hmore, hfirst⟩ :=
      splits_token ht hnext (hapart.clear t (by simp)) h hchain
    intro s hs
    rcases List.mem_append.1 hs with hs | hs
    · exact ⟨t, 0, ⟨[], rest, rfl, rfl⟩, hfirst s hs⟩
    · have hapart' : ToldApart rest :=
        ⟨hapart.apart.of_cons, fun u hu => hapart.clear u (List.mem_cons_of_mem _ hu)⟩
      obtain ⟨u, place, ⟨before, after, rfl, rfl⟩, hinside⟩ :=
        ih hrest hapart' hmore (List.isChain_append.1 hchain).2.1 s hs
      rw [Nat.add_assoc start] at hinside
      exact ⟨u, (shown t).length + (Token.textOf before).length,
        ⟨t :: before, after, rfl, by rw [textOf_cons, List.length_append]⟩, hinside⟩

theorem agree_of_toldApart {toks : List Token} {spans : List Span}
    (hformed : ∀ t ∈ toks, t.Formed) (hapart : ToldApart toks)
    (h : Spanned 0 (Token.textOf toks) spans)
    (hchain : spans.IsChain (fun s s' => mayFollow s.lexeme s'.lexeme)) : Agree toks spans := by
  have hwithin := within_of_toldApart hformed hapart h hchain
  simp only [Nat.zero_add] at hwithin
  refine ⟨fun s hs => ?_, fun s hs name hname => ?_⟩
  · obtain ⟨t, place, hstands, hstart, hstop, -⟩ := hwithin s hs
    exact ⟨t, place, hstands, hstart, hstop⟩
  · obtain ⟨t, place, hstands, -, -, hnames⟩ := hwithin s hs
    obtain ⟨hident, htext, rfl, hstop⟩ := hnames name hname
    exact ⟨t, hstands, hstop, hident, htext⟩

/-! ## Tokens that are not told apart -/

/-- Tokens that share a byte of the text are the same. -/
theorem StandsAt.unique {toks : List Token} {t t' : Token} {start start' : Nat}
    (h : StandsAt toks t start) (h' : StandsAt toks t' start')
    (hlt : start < start' + (shown t').length) (hlt' : start' < start + (shown t).length) :
    t = t' ∧ start = start' := by
  obtain ⟨before, after, rfl, rfl⟩ := h
  obtain ⟨before', after', htoks, rfl⟩ := h'
  rcases List.append_eq_append_iff.1 htoks with ⟨x, rfl, hx⟩ | ⟨x, rfl, hx⟩
  · cases x with
    | nil => exact ⟨(List.cons.inj hx).1, by simp⟩
    | cons u x =>
      obtain ⟨rfl, -⟩ := List.cons.inj hx
      rw [textOf_append, textOf_cons, List.length_append, List.length_append] at hlt'
      omega
  · cases x with
    | nil => exact ⟨(List.cons.inj hx).1.symm, by simp⟩
    | cons u x =>
      obtain ⟨rfl, -⟩ := List.cons.inj hx
      rw [textOf_append, textOf_cons, List.length_append, List.length_append] at hlt
      omega

section Necessity

variable {toks : List Token} {spans : List Span} (h : Spanned 0 (Token.textOf toks) spans)
  (hagree : Agree toks spans)

include h hagree

/-- Every byte of a token but a blank is in a lexeme, which lies inside the token. -/
theorem exists_span {before after : List Token} {t : Token} (htoks : toks = before ++ t :: after)
    {u v : Bytes} {b : UInt8} (ht : shown t = u ++ b :: v) (hb : isGap b = false) :
    ∃ s ∈ spans, ∃ u' own w, shown t = u' ++ (own ++ w) ∧
      s.start = (Token.textOf before).length + u'.length ∧ s.stop = s.start + own.length ∧
      u'.length ≤ u.length ∧ u.length < u'.length + own.length ∧
      Shape s.lexeme own (w ++ Token.textOf after) := by
  have htext :
      Token.textOf toks = (Token.textOf before ++ u) ++ b :: (v ++ Token.textOf after) := by
    rw [htoks, textOf_append, textOf_cons, ht]
    simp
  obtain ⟨s, hs, hstart, hstop⟩ := h.covers htext hb
  obtain ⟨front, own, following, hfront, hplace, hend, hshape⟩ := h.shape s hs
  obtain ⟨t', start, hstands, hle, hge⟩ := hagree.inside s hs
  have hlength := congrArg List.length ht
  simp only [List.length_append, List.length_cons] at hstart hstop hlength
  -- the lexeme shares the byte with the token, so it lies in this one
  have hself : StandsAt toks t (Token.textOf before).length := ⟨before, after, htoks, rfl⟩
  obtain ⟨rfl, rfl⟩ := hself.unique hstands (by omega) (by omega)
  rw [htoks, textOf_append, textOf_cons] at hfront
  obtain ⟨u', rfl, hrest⟩ := cut_inside hfront.symm (by omega)
  rw [List.length_append] at hplace
  rw [← List.append_assoc] at hrest
  obtain ⟨w, hw, rfl⟩ := cut_inside hrest (by rw [List.length_append]; omega)
  exact ⟨s, hs, u', own, w, by rw [hw, List.append_assoc], by omega, hend, by omega, by omega,
    hshape⟩

/-- The lexeme at the start of a token. -/
theorem exists_first_span {before after : List Token} {t : Token}
    (htoks : toks = before ++ t :: after) {b : UInt8} {v : Bytes} (ht : shown t = b :: v)
    (hb : isGap b = false) :
    ∃ s ∈ spans, ∃ own w, v = own ++ w ∧ s.start = (Token.textOf before).length ∧
      Shape s.lexeme (b :: own) (w ++ Token.textOf after) := by
  obtain ⟨s, hs, u', own, w, hparts, hstart, -, hle, hlt, hshape⟩ :=
    exists_span h hagree htoks (u := []) ht hb
  obtain rfl : u' = [] := List.length_eq_zero_iff.1 (by simpa using hle)
  cases own with
  | nil => simp at hlt
  | cons c own =>
    rw [ht] at hparts
    obtain ⟨rfl, rfl⟩ := List.cons.inj hparts
    exact ⟨s, hs, own, w, rfl, hstart, hshape⟩

/-- The lexeme at the end of a token. -/
theorem exists_last_span {before after : List Token} {t : Token}
    (htoks : toks = before ++ t :: after) {b : UInt8} {u : Bytes} (ht : shown t = u ++ [b])
    (hb : isGap b = false) :
    ∃ s ∈ spans, ∃ own, own.getLast? = some b ∧
      s.stop = (Token.textOf (before ++ [t])).length ∧
      Shape s.lexeme own (Token.textOf after) := by
  obtain ⟨s, hs, u', own, w, hparts, hstart, hstop, hle, hlt, hshape⟩ :=
    exists_span h hagree htoks ht hb
  have hlength := congrArg List.length ht
  have hlength' := congrArg List.length hparts
  simp only [List.length_append, List.length_singleton] at hlength hlength'
  obtain rfl : w = [] := List.length_eq_zero_iff.1 (by omega)
  refine ⟨s, hs, own, ?_, ?_, hshape⟩
  · have hne : own ≠ [] := by
      rintro rfl
      simp at hlt
      omega
    rw [List.append_nil, ht] at hparts
    rw [← List.getLast?_append_of_ne_nil u' hne, ← hparts, List.getLast?_concat]
  · rw [textOf_append, List.length_append, hstop, hstart]
    simp only [List.length_nil, textOf_cons, List.length_append] at hlength' ⊢
    simp [Token.textOf]
    omega

/-- A stray quote would begin a character constant that goes on after it. -/
theorem quotes_of_agree {t : Token} (ht : t ∈ toks) (hkind : t.kind = .stray) :
    t.text ≠ [singleQuote] := by
  intro htext
  obtain ⟨before, after, htoks⟩ := List.append_of_mem ht
  have hshown : shown t = [singleQuote] := by simp [shown, Token.isSpace, hkind, htext]
  obtain ⟨s, -, own, w, hempty, -, hshape⟩ := exists_first_span h hagree htoks hshown (by decide)
  obtain ⟨rfl, rfl⟩ := List.append_eq_nil_iff.1 hempty.symm
  obtain ⟨-, -, hclosed⟩ := hshape.by_first
  exact absurd (Condition.constantEnd?_bounds _ _ hclosed).1 (by simp)

/-- A name after a sign inside a number would be no token. -/
theorem numbers_of_agree {t : Token} (ht : t ∈ toks) (hformed : t.Formed)
    (hkind : t.kind = .number) : ¬ HasSignedName t.text := by
  rintro ⟨u, sign, c, v, htext, hsign, hc⟩
  obtain ⟨before, after, htoks⟩ := List.append_of_mem ht
  have hbytes : ∀ b ∈ t.text, Lexer.isNumberByte b = true := by
    rcases hformed with hspace | ⟨following, hstands⟩
    · simp [Token.isSpace, hkind] at hspace
    · rw [hkind] at hstands
      exact hstands.number_bytes.2
  have hshown : shown t = t.text := by simp [shown, Token.isSpace, hkind]
  have hcut : shown t = (u ++ [sign]) ++ c :: v := by rw [hshown, htext]; simp
  obtain ⟨s, hs, u', own, w, hparts, hstart, hstop, hle, hlt, hshape⟩ :=
    exists_span h hagree htoks hcut (isGap_of_isIdentStart hc)
  rw [hcut] at hparts
  simp only [List.length_append, List.length_singleton] at hle hlt
  have hplace : u'.length = u.length + 1 := by
    -- otherwise the lexeme would hold the sign and the name after it
    by_contra hearlier
    rw [List.append_assoc] at hparts
    obtain ⟨x, rfl, hrest⟩ := cut_inside hparts (by omega)
    rw [List.length_append] at hlt
    have hheld : own ++ w = (x ++ [sign, c]) ++ v := by rw [hrest]; simp
    obtain ⟨y, hown, -⟩ := cut_inside hheld (by simp; omega)
    rcases hshape.of_sign (by rw [hown]; simp) hsign with hone | hquote
    · have hlength := congrArg List.length (hown.symm.trans hone)
      simp at hlength
      omega
    · obtain ⟨rest, hrest'⟩ := List.head?_eq_some_iff.1 hquote
      have hmem : singleQuote ∈ t.text := by
        rw [← hshown, hcut, List.append_assoc, List.append_assoc, ← hrest, hrest']
        simp
      exact absurd (hbytes _ hmem) (by decide)
  obtain ⟨rfl, hrest⟩ := List.append_inj hparts (by simp [hplace])
  cases own with
  | nil => simp at hlt
  | cons c' own =>
    obtain ⟨rfl, -⟩ := List.cons.inj hrest
    obtain ⟨t', hstands, hstop', -⟩ := hagree.names s hs _ (hshape.name_of_first hc).1
    have hself : StandsAt toks t (Token.textOf before).length := ⟨before, after, htoks, rfl⟩
    have hlength := congrArg List.length hcut
    simp only [List.length_append, List.length_cons] at hlength hplace hstop hstart
    obtain ⟨-, hsame⟩ := hself.unique hstands (by omega) (by omega)
    omega

/-- Two words that run into each other would be one lexeme, or two operands in a row. -/
theorem words_of_agree {before after : List Token} {a b : Token}
    (htoks : toks = before ++ a :: b :: after)
    (hchain : spans.IsChain (fun s s' => mayFollow s.lexeme s'.lexeme)) {x y : UInt8}
    (hx : (shown a).getLast? = some x) (hy : (shown b).head? = some y) :
    ¬ (isIdentPart x = true ∧ isIdentPart y = true) := by
  rintro ⟨hpart, hpart'⟩
  obtain ⟨u, hu⟩ := List.getLast?_eq_some_iff.1 hx
  obtain ⟨v, hv⟩ := List.head?_eq_some_iff.1 hy
  obtain ⟨s, hs, own, hlast, hstop, hshape⟩ :=
    exists_last_span h hagree htoks hu (isGap_of_isIdentPart hpart)
  have htoks' : toks = (before ++ [a]) ++ b :: after := by rw [htoks]; simp
  obtain ⟨s', hs', own', w, -, hstart, hshape'⟩ :=
    exists_first_span h hagree htoks' hv (isGap_of_isIdentPart hpart')
  have hfollow := h.rel_of_touching (R := (mayFollow · ·)) hchain hs hs' (hstop.trans hstart.symm)
  rcases hshape.word_of_last hlast hpart with hl | hl <;>
    rcases hshape'.word_of_first hpart' with hl' | hl' <;>
    simp [hl, hl', mayFollow, Lexeme.endsOperand, Lexeme.comesAfter] at hfollow

/-- Two bytes of a symbol that come together would be read as that symbol. -/
theorem symbols_of_agree {before after : List Token} {a b : Token}
    (htoks : toks = before ++ a :: b :: after) (ha : shown a ≠ []) {y : UInt8}
    (hy : (shown b).head? = some y) : ∀ e ∈ symbols, e.1 ≠ shown a ++ [y] := by
  intro e he hspelled
  obtain ⟨v, hv⟩ := List.head?_eq_some_iff.1 hy
  have hshort := symbols_short e he
  rw [hspelled, List.length_append] at hshort
  obtain ⟨x, hx⟩ : ∃ x, shown a = [x] :=
    List.length_eq_one_iff.1 (by have := List.length_pos_iff.2 ha; simp at hshort; omega)
  rw [hx] at hspelled
  obtain ⟨hpart, hblank, -, hquote⟩ :=
    Condition.symbols_excludes he (by simp [hspelled] : x ∈ e.1)
  obtain ⟨s, -, own, w, hempty, -, hshape⟩ :=
    exists_first_span h hagree htoks hx (isGap_of_not_isSeparator hblank)
  obtain ⟨rfl, rfl⟩ := List.append_eq_nil_iff.1 hempty.symm
  obtain ⟨-, -, -, hlongest⟩ := hshape.symbol_of_first hpart hquote
  have hlonger := hlongest e he (by rw [hspelled, textOf_cons, hv]; simp)
  rw [hspelled] at hlonger
  simp at hlonger

end Necessity

/-- Tokens that the lexemes agree with are told apart. -/
theorem toldApart_of_agree {toks : List Token} {spans : List Span}
    (hformed : ∀ t ∈ toks, t.Formed) (h : Spanned 0 (Token.textOf toks) spans)
    (hchain : spans.IsChain (fun s s' => mayFollow s.lexeme s'.lexeme))
    (hagree : Agree toks spans) : ToldApart toks where
  apart := by
    refine List.isChain_iff_forall_rel_of_append_cons_cons.2 fun a b before after htoks => ?_
    have ha : shown a ≠ [] := shown_ne_nil (hformed a (by simp [htoks]))
    refine glues_eq_false (fun x hx hpart y hy => ?_) fun y hy =>
      symbols_of_agree h hagree htoks ha hy
    rw [Bool.eq_false_iff]
    exact fun hpart' => words_of_agree h hagree htoks hchain hx hy ⟨hpart, hpart'⟩
  clear t ht := ⟨quotes_of_agree h hagree ht, numbers_of_agree h hagree ht (hformed t ht)⟩

end Preproc.Engine
