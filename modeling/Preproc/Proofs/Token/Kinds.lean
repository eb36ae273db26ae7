import Preproc.Proofs.Token.Locality

set_option autoImplicit false

/-! # What lexemes of each kind look like

A lexeme of a kind comes from the rule for that kind (`Stands.rule`), which fixes its first byte and
the bytes it is made of. A lexeme that ends as a word does is not followed by more of it
(`Stands.stops_word`). -/

namespace Preproc.Lexer

/-- The rule from which a lexeme of a kind comes. A stray code point is what no rule takes. -/
theorem Stands.rule {kind : TokenKind} {t following : Bytes} (h : Stands kind t following) :
    match kind with
    | .endOfLine => False
    | .ident => identifier (t ++ following) = t.length
    | .number => number (t ++ following) = t.length
    | .string => quotation doubleQuote (t ++ following) = t.length
    | .character => quotation singleQuote (t ++ following) = t.length
    | .punctuator => punctuator (t ++ following) = t.length
    | .space => True
    | .stray => identifier (t ++ following) = 0 ∧ number (t ++ following) = 0 ∧
        quotation singleQuote (t ++ following) = 0 ∧ punctuator (t ++ following) = 0 ∧
        runeWidth (t ++ following) = t.length := by
  have hlexeme := h.lexeme
  rw [lexeme_eq] at hlexeme
  repeat' split at hlexeme
  all_goals
    obtain ⟨rfl, hlength⟩ := Prod.mk.inj hlexeme
    simp_all

/-! ## Numbers -/

theorem isNumberByte_of_isIdent {t : Bytes} (h : isIdent t = true) :
    ∀ b ∈ t, isNumberByte b = true := by
  cases t with
  | nil => simp
  | cons b t =>
    rw [isIdent, Bool.and_eq_true, List.all_eq_true] at h
    refine List.forall_mem_cons.2 ⟨?_, fun c hc => ?_⟩
    · simp [isNumberByte, isIdentPart, h.1]
    · simp [isNumberByte, h.2 c hc]

theorem isNumberByte_of_isExponent {b : UInt8} (h : isExponent b = true) :
    isNumberByte b = true := by
  simp only [isExponent, Bool.or_eq_true, beq_iff_eq] at h
  rcases h with ((rfl | rfl) | rfl) | rfl <;> decide

theorem numberTail_bytes (text : Bytes) :
    ∀ c ∈ text.take (numberTail text), isNumberByte c = true := by
  fun_induction numberTail text with
  | case1 => simp
  | case2 b h => simp_all [isNumberByte]
  | case3 => simp
  | case4 b c rest h ih =>
    rw [Bool.and_eq_true] at h
    simp only [List.take_succ_cons, List.mem_cons, forall_eq_or_imp]
    exact ⟨isNumberByte_of_isExponent h.1, by simp [isNumberByte, h.2], ih⟩
  | case5 b c rest h h' ih =>
    rw [List.take_succ_cons, List.forall_mem_cons]
    exact ⟨by simp_all [isNumberByte], ih⟩
  | case6 => simp

/-- A number begins with a digit or a point. -/
theorem Stands.number_bytes {t following : Bytes} (h : Stands .number t following) :
    (∀ b ∈ t.head?, isDigit b = true ∨ b = byte '.') ∧ ∀ c ∈ t, isNumberByte c = true := by
  have hrule : number (t ++ following) = t.length := h.rule
  obtain ⟨b, t, rfl⟩ := List.exists_cons_of_ne_nil h.nonempty
  have htake : ∀ {n : Nat} {text : Bytes}, t ++ following = text → n = t.length →
      t = text.take n := by
    rintro n _ rfl rfl
    exact (List.take_left ..).symm
  rw [List.cons_append, number.eq_def] at hrule
  dsimp only at hrule
  split at hrule
  · next hdigit =>
    have htail := numberTail_bytes (t ++ following)
    rw [← htake rfl (Nat.succ.inj hrule)] at htail
    refine ⟨by simp [hdigit], List.forall_mem_cons.2 ⟨?_, htail⟩⟩
    simp [isNumberByte, isIdentPart, hdigit]
  · split at hrule
    · next hpoint =>
      refine ⟨by simp [hpoint], List.forall_mem_cons.2 ⟨by simp [isNumberByte, hpoint], ?_⟩⟩
      split at hrule
      · next c rest htext =>
        split at hrule
        · next hdigit =>
          have htail := numberTail_bytes rest
          have hall : t = (c :: rest).take (numberTail rest + 1) :=
            htake htext (by simpa using hrule)
          rw [hall, List.take_succ_cons, List.forall_mem_cons]
          exact ⟨by simp [isNumberByte, isIdentPart, hdigit], htail⟩
        · simp at hrule
      · simp at hrule
    · simp at hrule

/-! ## Other kinds -/

/-- A quotation is closed by its last byte. -/
theorem quotation_closed {quote : UInt8} {t following : Bytes} (hne : t ≠ [])
    (h : quotation quote (t ++ following) = t.length) :
    ∃ body, t = quote :: body ∧ Closing quote body := by
  obtain ⟨b, body, rfl⟩ := List.exists_cons_of_ne_nil hne
  rw [List.cons_append, quotation] at h
  split at h
  · next hb =>
    have hend : quoteEnd? quote (body ++ following) = some body.length := by
      cases hend : quoteEnd? quote (body ++ following) with
      | none => simp [hend] at h
      | some n => simp_all
    exact ⟨body, by rw [hb], closing_of_quoteEnd? hend⟩
  · simp at h

theorem Stands.character_closed {t following : Bytes} (h : Stands .character t following) :
    ∃ body, t = singleQuote :: body ∧ Closing singleQuote body :=
  quotation_closed h.nonempty h.rule

theorem Stands.string_first {t following : Bytes} (h : Stands .string t following) :
    t.head? = some doubleQuote := by
  obtain ⟨body, rfl, -⟩ := quotation_closed h.nonempty h.rule
  rfl

/-- A punctuator is one of the spellings that are tried. -/
theorem Stands.punctuator_spelling {t following : Bytes} (h : Stands .punctuator t following) :
    t ∈ longPunctuators ∨ ∃ b ∈ shortPunctuators, t = [b] := by
  have hrule : punctuator (t ++ following) = t.length := h.rule
  unfold punctuator at hrule
  split at hrule
  · next p hp =>
    have hinitial : p <+: t ++ following := by simpa using List.find?_some hp
    have hsame : p = t := by
      rw [List.prefix_iff_eq_take.1 hinitial, hrule, List.take_left]
    exact Or.inl (hsame ▸ List.mem_of_find?_eq_some hp)
  · obtain ⟨b, t, rfl⟩ := List.exists_cons_of_ne_nil h.nonempty
    rw [List.cons_append] at hrule
    dsimp only at hrule
    split at hrule
    · next hb =>
      obtain rfl : t = [] := List.length_eq_zero_iff.1 (Nat.succ.inj hrule).symm
      exact Or.inr ⟨b, by simpa using hb, rfl⟩
    · simp at hrule

/-- A stray code point begins no word, number or punctuator. -/
theorem Stands.stray_first {t following : Bytes} (h : Stands .stray t following) :
    ∀ b ∈ t.head?, isIdentStart b = false ∧ isDigit b = false ∧ b ∉ shortPunctuators := by
  obtain ⟨hidentifier, hnumber, -, hpunctuator, -⟩ := h.rule
  obtain ⟨b, t, rfl⟩ := List.exists_cons_of_ne_nil h.nonempty
  rw [List.cons_append] at hidentifier hnumber hpunctuator
  rintro _ ⟨⟩
  refine ⟨?_, ?_, fun hb => ?_⟩
  · by_contra hstart
    simp [identifier, hstart] at hidentifier
  · by_contra hdigit
    rw [Bool.not_eq_false] at hdigit
    simp [number, hdigit] at hnumber
  · unfold punctuator at hpunctuator
    split at hpunctuator
    · next p hp =>
      have hne : ∀ p ∈ longPunctuators, p.length ≠ 0 := by decide
      exact hne p (List.mem_of_find?_eq_some hp) hpunctuator
    · simp [hb] at hpunctuator

/-- A stray single quote is a token by itself. -/
theorem Stands.stray_quote {t following : Bytes} (h : Stands .stray t following)
    (hquote : t.head? = some singleQuote) : t = [singleQuote] := by
  obtain ⟨-, -, hquotation, -⟩ := h.rule
  obtain ⟨rest, rfl⟩ := List.head?_eq_some_iff.1 hquote
  have hlength := lexeme_quote (Or.inr rfl) (rest ++ following)
  rw [← List.cons_append, h.lexeme] at hlength
  have hopen : quoteEnd? singleQuote (rest ++ following) = none := by
    cases hend : quoteEnd? singleQuote (rest ++ following) with
    | none => rfl
    | some n => simp [quotation, hend] at hquotation
  rw [hopen] at hlength
  obtain rfl : rest = [] := by simpa using hlength
  rfl

/-! ## Words -/

/-- A run of bytes of a class that ends where it ends stops there. -/
theorem stops_of_takeWhile {p : UInt8 → Bool} {a g : Bytes}
    (h : ((a ++ g).takeWhile p).length = a.length) : StopsAt p g := by
  have htake : (a ++ g).takeWhile p = a := by
    rw [List.prefix_iff_eq_take.1 ( List.takeWhile_prefix p), h, List.take_left]
  have hall : ∀ c ∈ a, p c = true := by
    rw [← htake]
    exact fun c hc => List.mem_takeWhile_imp hc
  have hnone : g.takeWhile p = [] := by simpa [List.takeWhile_append_of_pos hall] using htake
  intro b hb
  obtain ⟨g, rfl⟩ := List.head?_eq_some_iff.1 hb
  by_contra hp
  simp [hp] at hnone

/-- A tail that ends where it ends does not go on there. -/
theorem numberTail_rest : ∀ q g : Bytes, numberTail (q ++ g) = q.length → numberTail g = 0
  | [], _, h => h
  | [_], [], _ => rfl
  | [b], c :: g, h => by
    simp only [List.singleton_append, numberTail, List.length_singleton] at h
    split at h
    · omega
    · split at h
      · omega
      · omega
  | b :: c :: q, g, h => by
    simp only [List.cons_append, numberTail, List.length_cons] at h
    split at h
    · exact numberTail_rest q g (by omega)
    · split at h
      · exact numberTail_rest (c :: q) g (by simpa using h)
      · omega

theorem stops_of_numberTail {g : Bytes} (h : numberTail g = 0) : StopsAt isIdentPart g := by
  intro b hb
  obtain ⟨g, rfl⟩ := List.head?_eq_some_iff.1 hb
  by_contra hpart
  rw [Bool.not_eq_false] at hpart
  cases g <;> simp [numberTail, hpart] at h
  split at h <;> omega

theorem runeWidth_bytes (b : UInt8) (rest : Bytes) :
    ∀ c ∈ (b :: rest).take (runeWidth (b :: rest)), c = b ∨ isContinuation c = true := by
  unfold runeWidth decodeRune?
  grind

theorem Stands.ident_stops {t following : Bytes} (h : Stands .ident t following) :
    StopsAt isIdentPart following := by
  have hrule : identifier (t ++ following) = t.length := h.rule
  obtain ⟨b, t, rfl⟩ := List.exists_cons_of_ne_nil h.nonempty
  rw [List.cons_append, identifier] at hrule
  split at hrule
  · exact stops_of_takeWhile (Nat.succ.inj hrule)
  · simp at hrule

theorem Stands.number_stops {t following : Bytes} (h : Stands .number t following) :
    StopsAt isIdentPart following := by
  have hrule : number (t ++ following) = t.length := h.rule
  obtain ⟨b, t, rfl⟩ := List.exists_cons_of_ne_nil h.nonempty
  rw [List.cons_append, number.eq_def] at hrule
  dsimp only at hrule
  split at hrule
  · exact stops_of_numberTail (numberTail_rest t following (Nat.succ.inj hrule))
  · split at hrule
    · cases t with
      | nil =>
        -- a lone point is no number
        split at hrule
        · split at hrule <;> simp at hrule
        · simp at hrule
      | cons c t =>
        dsimp only [List.cons_append] at hrule
        split at hrule
        · exact stops_of_numberTail (numberTail_rest t following (by simpa using hrule))
        · simp at hrule
    · simp at hrule

theorem Closing.last {quote : UInt8} {t : Bytes} (h : Closing quote t) :
    t.getLast? = some quote := by
  induction h with
  | quote => rfl
  | escaped _ _ h ih | plain _ _ _ h ih => simp [List.getLast?_cons, ih]

/-- A quotation ends with its quote. -/
theorem quotation_last {quote : UInt8} {t following : Bytes} (hne : t ≠ [])
    (h : quotation quote (t ++ following) = t.length) : t.getLast? = some quote := by
  obtain ⟨body, rfl, hclosed⟩ := quotation_closed hne h
  rw [List.getLast?_cons, hclosed.last]
  rfl

/-- A long punctuator is made of short ones. -/
theorem longPunctuators_bytes : ∀ p ∈ longPunctuators, 2 ≤ p.length ∧
    ∀ b ∈ p, b ∈ shortPunctuators := by
  decide +kernel

/-- A punctuator is no letter or digit, no blank and no quote. -/
theorem shortPunctuators_bytes : ∀ b ∈ shortPunctuators, isIdentPart b = false ∧
    isSeparator b = false ∧ b ≠ doubleQuote ∧ b ≠ singleQuote := by
  decide +kernel

theorem not_isIdentPart_of_isContinuation {b : UInt8} (h : isContinuation b = true) :
    isIdentPart b = false := by
  simp [isContinuation, isIdentPart, isIdentStart, isDigit, byte, UInt8.le_iff_toNat_le,
    ← UInt8.toNat_inj] at h ⊢
  omega

/-- No byte of a stray code point is a letter or digit. -/
theorem Stands.stray_bytes {t following : Bytes} (h : Stands .stray t following) :
    ∀ c ∈ t, isIdentPart c = false := by
  obtain ⟨-, -, -, -, hwidth⟩ := h.rule
  obtain ⟨b, t, rfl⟩ := List.exists_cons_of_ne_nil h.nonempty
  obtain ⟨hstart, hdigit, -⟩ := h.stray_first b rfl
  have hbytes := runeWidth_bytes b (t ++ following)
  rw [← List.cons_append, hwidth, List.take_left] at hbytes
  intro c hc
  rcases hbytes c hc with rfl | hcontinues
  · simp [isIdentPart, hstart, hdigit]
  · exact not_isIdentPart_of_isContinuation hcontinues

/-- A lexeme that ends with a letter or digit is followed by none. -/
theorem Stands.stops_word {kind : TokenKind} {t following : Bytes} (h : Stands kind t following)
    (hkind : kind ≠ .space) {x : UInt8} (hx : t.getLast? = some x) (hpart : isIdentPart x = true) :
    StopsAt isIdentPart following := by
  have hmem : x ∈ t := List.mem_of_getLast? hx
  have habsurd : ∀ {q : Prop}, isIdentPart x = false → q := fun hnot =>
    absurd hpart (by simp [hnot])
  cases kind with
  | endOfLine => exact absurd h.rule id
  | space => exact absurd rfl hkind
  | ident => exact h.ident_stops
  | number => exact h.number_stops
  | string =>
    have hlast := quotation_last h.nonempty h.rule
    obtain rfl : doubleQuote = x := Option.some.inj (hlast.symm.trans hx)
    exact habsurd (by decide)
  | character =>
    have hlast := quotation_last h.nonempty h.rule
    obtain rfl : singleQuote = x := Option.some.inj (hlast.symm.trans hx)
    exact habsurd (by decide)
  | punctuator =>
    have hshort : x ∈ shortPunctuators := by
      rcases h.punctuator_spelling with hlong | ⟨b, hb, rfl⟩
      · exact (longPunctuators_bytes t hlong).2 x hmem
      · obtain rfl : b = x := by simpa using hx
        exact hb
    exact habsurd (shortPunctuators_bytes x hshort).1
  | stray => exact habsurd (h.stray_bytes x hmem)

/-! ## Line ends and blanks -/

/-- A quotation is closed before the line ends. -/
theorem Closing.unbroken {quote : UInt8} (hquote : quote ≠ newline) {t : Bytes}
    (h : Closing quote t) : newline ∉ t := by
  induction h with
  | quote => simpa using hquote.symm
  | escaped _ hline h ih =>
    have hslash : newline ≠ backslash := by decide
    simp [ih, hslash, hline.symm]
  | plain _ hline _ h ih => simp [ih, hline.symm]

theorem quotation_unbroken {quote : UInt8} (hquote : quote ≠ newline) {t following : Bytes}
    (hne : t ≠ []) (h : quotation quote (t ++ following) = t.length) : newline ∉ t := by
  obtain ⟨body, rfl, hclosed⟩ := quotation_closed hne h
  simp [hclosed.unbroken hquote, hquote.symm]

/-- The bytes of words, numbers and code points beyond ASCII separate nothing. -/
theorem not_isSeparator : ∀ b : UInt8,
    isNumberByte b = true ∨ isContinuation b = true → isSeparator b = false :=
  forall_byte (by decide +kernel)

/-- Of the lexemes that are no whitespace, only quotations have blanks in them. -/
theorem Stands.bytes_or_quotation {kind : TokenKind} {t following : Bytes}
    (h : Stands kind t following) (hkind : kind ≠ .space) :
    (∀ b ∈ t, isSeparator b = false) ∨
      ∃ quote, (quote = doubleQuote ∨ quote = singleQuote) ∧
        quotation quote (t ++ following) = t.length := by
  cases kind with
  | endOfLine => exact absurd h.rule id
  | space => exact absurd rfl hkind
  | ident =>
    exact Or.inl fun b hb => not_isSeparator b (Or.inl (isNumberByte_of_isIdent h.isIdent b hb))
  | number => exact Or.inl fun b hb => not_isSeparator b (Or.inl (h.number_bytes.2 b hb))
  | string => exact Or.inr ⟨doubleQuote, Or.inl rfl, h.rule⟩
  | character => exact Or.inr ⟨singleQuote, Or.inr rfl, h.rule⟩
  | punctuator =>
    refine Or.inl fun b hb => ?_
    rcases h.punctuator_spelling with hlong | ⟨c, hc, rfl⟩
    · exact (shortPunctuators_bytes b ((longPunctuators_bytes t hlong).2 b hb)).2.1
    · obtain rfl := List.mem_singleton.1 hb
      exact (shortPunctuators_bytes b hc).2.1
  | stray =>
    obtain ⟨-, -, -, -, hwidth⟩ := h.rule
    have hfirst := h.stops hkind following
    obtain ⟨b, t, rfl⟩ := List.exists_cons_of_ne_nil h.nonempty
    have hbytes := runeWidth_bytes b (t ++ following)
    rw [← List.cons_append, hwidth, List.take_left] at hbytes
    refine Or.inl fun c hc => ?_
    rcases hbytes c hc with rfl | hcontinues
    · exact hfirst c rfl
    · exact not_isSeparator c (Or.inr hcontinues)

/-- What is no whitespace stands on one line. -/
theorem Stands.unbroken {kind : TokenKind} {t following : Bytes} (h : Stands kind t following)
    (hkind : kind ≠ .space) : newline ∉ t := by
  rcases h.bytes_or_quotation hkind with hbytes | ⟨quote, hquote, hrule⟩
  · exact fun hmem => absurd (hbytes newline hmem) (by decide)
  · exact quotation_unbroken (by rcases hquote with rfl | rfl <;> decide) h.nonempty hrule

/-- What is no whitespace does not end with a blank. -/
theorem Stands.last_stops {kind : TokenKind} {t following : Bytes} (h : Stands kind t following)
    (hkind : kind ≠ .space) : ∀ b ∈ t.getLast?, isSeparator b = false := by
  intro b hb
  rcases h.bytes_or_quotation hkind with hbytes | ⟨quote, hquote, hrule⟩
  · exact hbytes b (List.mem_of_getLast? hb)
  · obtain rfl : quote = b := Option.some.inj ((quotation_last h.nonempty hrule).symm.trans hb)
    rcases hquote with rfl | rfl <;> decide

end Preproc.Lexer

namespace Preproc

/-- Whitespace, or a lexeme of its kind. -/
def Token.Formed (t : Token) : Prop :=
  t.isSpace = true ∨ ∃ following, Lexer.Stands t.kind t.text following

end Preproc
