import Preproc.Token.Cursor

set_option autoImplicit false

/-! # How a text is cut into lexemes

A piece of text stands at the head of what follows it when the first lexeme of the two together is
that piece. Cutting a text then comes down to one such fact for each lexeme (`lexemes_of_stands`).
The rest of the file says when whitespace, identifiers and the sign of a directive stand, and what
the length of a lexeme can be. -/

namespace Preproc

/-- A property of all bytes, checked one by one. -/
theorem forall_byte {p : UInt8 → Prop} (h : ∀ n : Fin 256, p (UInt8.ofNat n)) (b : UInt8) :
    p b := by
  have hb := h ⟨b.toNat, b.toNat_lt⟩
  rwa [UInt8.ofNat_toNat] at hb

namespace Lexer

/-! ## One lexeme at a time -/

/-- The rules in their order, written out. -/
theorem lexeme_eq (text : Bytes) :
    lexeme text =
      if 0 < comment text then (.space, comment text)
      else if 0 < blanks text then (.space, blanks text)
      else if 0 < identifier text then (.ident, identifier text)
      else if 0 < number text then (.number, number text)
      else if 0 < quotation doubleQuote text then (.string, quotation doubleQuote text)
      else if 0 < quotation singleQuote text then (.character, quotation singleQuote text)
      else if 0 < punctuator text then (.punctuator, punctuator text)
      else (.stray, runeWidth text) := by
  repeat' split
  all_goals simp_all [lexeme, rules]

/-- The text `t` is the first lexeme of `t` and what follows it. -/
structure Stands (kind : TokenKind) (t following : Bytes) : Prop where
  nonempty : t ≠ []
  lexeme : lexeme (t ++ following) = (kind, t.length)

theorem lexemes_of_stands {kind : TokenKind} {t following : Bytes} (h : Stands kind t following) :
    lexemes (t ++ following) = (kind, t) :: lexemes following := by
  cases t with
  | nil => exact absurd rfl h.nonempty
  | cons b t =>
    have hlexeme := h.lexeme
    rw [List.cons_append] at hlexeme ⊢
    rw [lexemes, hlexeme]
    simp

/-! ## First bytes -/

theorem comment_eq_zero {b : UInt8} (hb : b ≠ byte '/') (rest : Bytes) :
    comment (b :: rest) = 0 := by
  cases rest <;> simp [comment, hb]

theorem blanks_eq_zero {b : UInt8} (hb : isSeparator b = false) (rest : Bytes) :
    blanks (b :: rest) = 0 := by
  simp [blanks, hb]

theorem identifier_eq_zero {b : UInt8} (hb : isIdentStart b = false) (rest : Bytes) :
    identifier (b :: rest) = 0 := by
  simp [identifier, hb]

theorem number_eq_zero {b : UInt8} (hdigit : isDigit b = false) (hpoint : b ≠ byte '.')
    (rest : Bytes) : number (b :: rest) = 0 := by
  simp [number, hdigit, hpoint]

theorem quotation_eq_zero {quote b : UInt8} (hb : b ≠ quote) (rest : Bytes) :
    quotation quote (b :: rest) = 0 := by
  simp [quotation, hb]

/-- The bytes of an identifier are none of those with which the rules before it begin. -/
theorem isIdentStart_excludes : ∀ b, isIdentStart b = true →
    b ≠ byte '/' ∧ isSeparator b = false ∧ (b == byte '#') = false := by
  intro b h
  simp [isIdentStart, isSeparator, byte, UInt8.le_iff_toNat_le, ← UInt8.toNat_inj] at h ⊢
  omega

theorem isSeparator_excludes : ∀ b, isSeparator b = true → b ≠ byte '/' ∧ b ≠ byte '#' := by
  intro b h
  simp [isSeparator, byte, UInt8.le_iff_toNat_le, ← UInt8.toNat_inj] at h ⊢
  omega

/-! ## Lexemes that stand by their own bytes and the next one -/

/-- What follows does not begin with a byte of a class. -/
def StopsAt (p : UInt8 → Bool) (following : Bytes) : Prop :=
  ∀ b, following.head? = some b → p b = false

instance (p : UInt8 → Bool) (following : Bytes) : Decidable (StopsAt p following) :=
  match following with
  | [] => isTrue (by simp [StopsAt])
  | b :: _ => decidable_of_iff (p b = false) (by simp [StopsAt])

theorem stops_cons {p : UInt8 → Bool} {b : UInt8} (h : p b = false) (rest : Bytes) :
    StopsAt p (b :: rest) := by
  intro c hc
  rw [← Option.some.inj hc]
  exact h

theorem takeWhile_of_stops {p : UInt8 → Bool} {t following : Bytes} (ht : ∀ b ∈ t, p b = true)
    (hstop : StopsAt p following) : (t ++ following).takeWhile p = t := by
  rw [List.takeWhile_append_of_pos ht]
  cases following with
  | nil => simp
  | cons b rest => simp [hstop b rfl]

theorem stops_append {p : UInt8 → Bool} {t following : Bytes} (ht : ∀ b ∈ t, p b = false)
    (hstop : StopsAt p following) : StopsAt p (t ++ following) := by
  cases t with
  | nil => exact hstop
  | cons first t =>
    intro b hb
    exact ht b (by simp_all)

theorem stops_ident {p : UInt8 → Bool} (hp : ∀ b, isIdentStart b = true → p b = false)
    {t following : Bytes} (ht : isIdent t = true) : StopsAt p (t ++ following) := by
  cases t with
  | nil => exact absurd ht (by simp [isIdent])
  | cons first t =>
    rw [isIdent, Bool.and_eq_true] at ht
    intro b hb
    obtain rfl : first = b := by simpa using hb
    exact hp first ht.1

theorem stands_blanks {t following : Bytes} (hne : t ≠ []) (ht : ∀ b ∈ t, isSeparator b = true)
    (hstop : StopsAt isSeparator following) : Stands .space t following := by
  refine ⟨hne, ?_⟩
  have hblanks : blanks (t ++ following) = t.length := by
    rw [blanks, takeWhile_of_stops ht hstop]
  have hpos : 0 < t.length := List.length_pos_iff.2 hne
  have hcomment : comment (t ++ following) = 0 := by
    cases t with
    | nil => exact absurd rfl hne
    | cons b t =>
      exact comment_eq_zero (isSeparator_excludes b (ht b (by simp))).1 _
  rw [lexeme_eq, hcomment, hblanks]
  simp [hpos]

theorem stands_blank {following : Bytes} (hstop : StopsAt isSeparator following) :
    Stands .space (ascii " ") following :=
  stands_blanks (by decide) (by decide +kernel) hstop

theorem stands_ident {t following : Bytes} (ht : isIdent t = true)
    (hstop : StopsAt isIdentPart following) : Stands .ident t following := by
  cases t with
  | nil => exact absurd ht (by simp [isIdent])
  | cons b t =>
    rw [isIdent, Bool.and_eq_true, List.all_eq_true] at ht
    obtain ⟨hstart, hpart⟩ := ht
    obtain ⟨hslash, hblank, -⟩ := isIdentStart_excludes b hstart
    have hident : identifier (b :: (t ++ following)) = t.length + 1 := by
      simp only [identifier, hstart, if_true]
      rw [takeWhile_of_stops hpart hstop]
    refine ⟨by simp, ?_⟩
    rw [List.cons_append, lexeme_eq, comment_eq_zero hslash, blanks_eq_zero hblank, hident]
    simp

/-- Only identifiers stand as such. -/
theorem Stands.isIdent {t following : Bytes} (h : Stands .ident t following) :
    Preproc.isIdent t = true := by
  obtain ⟨b, t, rfl⟩ := List.exists_cons_of_ne_nil h.nonempty
  have hlexeme := h.lexeme
  rw [lexeme_eq] at hlexeme
  repeat' split at hlexeme
  all_goals first | exact absurd (Prod.mk.inj hlexeme).1 (by decide) | skip
  next hpos =>
    have hlength := (Prod.mk.inj hlexeme).2
    rw [List.cons_append, identifier] at hlength hpos
    split at hlength
    · next hstart =>
      have htake : (t ++ following).takeWhile isIdentPart = t := by
        rw [List.prefix_iff_eq_take.1 ( List.takeWhile_prefix isIdentPart)]
        simp only [List.length_cons, Nat.add_right_cancel_iff] at hlength
        rw [hlength, List.take_left]
      rw [Preproc.isIdent, Bool.and_eq_true, List.all_eq_true]
      refine ⟨hstart, fun c hc => ?_⟩
      rw [← htake] at hc
      exact List.all_eq_true.1 (List.all_takeWhile (l := t ++ following)) c hc
    · next hstart => exact absurd hpos (by simp [hstart])

/-! ## Punctuators -/

/-- What the rule for punctuators takes is a lexeme when no rule before it takes anything. -/
theorem stands_punctuator {b : UInt8} {t following : Bytes} (hslash : b ≠ byte '/')
    (hblank : isSeparator b = false) (hstart : isIdentStart b = false)
    (hnumber : number (b :: t ++ following) = 0) (hdouble : b ≠ doubleQuote)
    (hsingle : b ≠ singleQuote) (hpunctuator : punctuator (b :: t ++ following) = t.length + 1) :
    Stands .punctuator (b :: t) following := by
  refine ⟨by simp, ?_⟩
  rw [lexeme_eq, hnumber, hpunctuator]
  rw [List.cons_append, comment_eq_zero hslash, blanks_eq_zero hblank, identifier_eq_zero hstart,
    quotation_eq_zero hdouble, quotation_eq_zero hsingle]
  simp

/-- A byte with which no long punctuator begins. -/
theorem punctuator_of_head {b : UInt8} (hlong : ∀ p ∈ longPunctuators, p.head? ≠ some b)
    (rest : Bytes) :
    punctuator (b :: rest) = if shortPunctuators.contains b then 1 else 0 := by
  have hnone : longPunctuators.find? (·.isPrefixOf (b :: rest)) = none := by
    rw [List.find?_eq_none]
    intro p hp hinitial
    have hhead := hlong p hp
    cases p with
    | nil => exact absurd hp (by decide)
    | cons c p => simp_all
  rw [punctuator, hnone]

/-- The marks of a parameter list stand before any text. -/
theorem stands_mark {b : UInt8} (hb : b ∈ ascii "(),") (following : Bytes) :
    Stands .punctuator [b] following := by
  have hlong : ∀ b ∈ ascii "(),", (∀ p ∈ longPunctuators, p.head? ≠ some b) ∧
      shortPunctuators.contains b = true := by decide +kernel
  have hfirst : ∀ b ∈ ascii "(),", b ≠ byte '/' ∧ isSeparator b = false ∧ isIdentStart b = false ∧
      isDigit b = false ∧ b ≠ byte '.' ∧ b ≠ doubleQuote ∧ b ≠ singleQuote := by decide +kernel
  obtain ⟨hslash, hblank, hstart, hdigit, hpoint, hdouble, hsingle⟩ := hfirst b hb
  refine stands_punctuator hslash hblank hstart (number_eq_zero hdigit hpoint _) hdouble hsingle ?_
  rw [List.singleton_append, punctuator_of_head (hlong b hb).1, if_pos (hlong b hb).2]
  rfl

theorem stands_ellipsis (following : Bytes) : Stands .punctuator (ascii "...") following := by
  have hdigit : isDigit (byte '.') = false := by decide
  refine stands_punctuator (b := byte '.') (t := ascii "..") (by decide) (by decide) (by decide) ?_
    (by decide) (by decide) ?_
  · show number (byte '.' :: byte '.' :: (byte '.' :: following)) = 0
    simp [number, hdigit]
  · simp [punctuator, longPunctuators, ascii, byte, List.isPrefixOf]

theorem stands_paste (following : Bytes) : Stands .punctuator (ascii "##") following :=
  stands_punctuator (b := byte '#') (t := ascii "#") (by decide) (by decide) (by decide)
    (number_eq_zero (by decide) (by decide) _) (by decide) (by decide)
    (by simp [punctuator, longPunctuators, ascii, byte, List.isPrefixOf])

/-- A lone `#` is a punctuator of its own. -/
theorem stands_hash {following : Bytes} (hstop : StopsAt (· == byte '#') following) :
    Stands .punctuator [byte '#'] following := by
  have hpunctuator : punctuator (byte '#' :: following) = 1 := by
    cases following with
    | nil => decide
    | cons b rest =>
      have hb : b ≠ byte '#' := by simpa using hstop b rfl
      have hsigns : ∀ p ∈ longPunctuators, p.head? = some (byte '#') →
          p = [byte '#', byte '#'] := by decide +kernel
      have hnone : longPunctuators.find? (·.isPrefixOf (byte '#' :: b :: rest)) = none := by
        rw [List.find?_eq_none]
        intro p hp hinitial
        cases p with
        | nil => exact absurd hp (by decide)
        | cons c p =>
          obtain ⟨rfl, -⟩ : c = byte '#' ∧ p.isPrefixOf (b :: rest) = true := by
            simpa using hinitial
          rw [hsigns _ hp rfl] at hinitial
          exact hb (by simpa using hinitial : byte '#' = b).symm
      rw [punctuator, hnone]
      decide
  exact stands_punctuator (by decide) (by decide) (by decide)
    (number_eq_zero (by decide) (by decide) _) (by decide) (by decide) hpunctuator

end Lexer

/-! ## Tokens -/

theorem Cursor.nextNonSpace_of_after {c : Cursor} {blanks rest : List Token} {t : Token}
    (h : c.after = blanks ++ t :: rest) (hblanks : ∀ b ∈ blanks, b.isSpace = true)
    (ht : t.isSpace = false) :
    c.nextNonSpace.1 = t ∧ c.nextNonSpace.2.after = rest ∧ c.nextNonSpace.2.eol = c.eol := by
  have hdrop : c.after.dropWhile Token.isSpace = t :: rest := by
    rw [h, List.dropWhile_append_of_pos hblanks]
    simp [ht]
  simp [Cursor.nextNonSpace, Cursor.next, Cursor.skipSpace, hdrop]

theorem Cursor.nextNonSpace_of_cons {c : Cursor} {rest : List Token} {t : Token}
    (h : c.after = t :: rest) (ht : t.kind ≠ .space) :
    c.nextNonSpace.1 = t ∧ c.nextNonSpace.2.after = rest ∧ c.nextNonSpace.2.eol = c.eol := by
  have hafter : c.after = [] ++ t :: rest := h
  exact nextNonSpace_of_after hafter (by simp) (by simpa [Token.isSpace] using ht)

end Preproc
