import Preproc.Text.Quoted
import Preproc.Proofs.Text.Runes

set_option autoImplicit false

/-! # Escaped text

Between its quotes a text is written unit by unit, some units as they are and the others as escapes.
A reader of quotations that looks for the closing quote goes over all of it (`passedOver_escaped`),
but does not undo the escapes. No escape is as short as the unit that it stands for, so what was
written is the text itself exactly when no unit had to be escaped (`escaped_eq_self_iff`). -/

namespace Preproc

/-- What stands between the quotes of a quoted text. -/
def escaped (text : Bytes) : Bytes :=
  (runes text).flatMap Rune.quoted

theorem quoted_eq (text : Bytes) : quoted text = doubleQuote :: (escaped text ++ [doubleQuote]) :=
  rfl

@[simp] theorem escaped_nil : escaped [] = [] := by
  rw [escaped, runes]
  rfl

theorem escaped_sequence {t : Bytes} {code : Nat} (h : Sequence t code) (f : Bytes) :
    escaped (t ++ f) = (Rune.scalar code t).quoted ++ escaped f := by
  rw [escaped, runes_sequence h, List.flatMap_cons, ← escaped]

theorem escaped_stray {b : UInt8} {f : Bytes} (h : decodeRune? (b :: f) = none) :
    escaped (b :: f) = (Rune.stray b).quoted ++ escaped f := by
  rw [escaped, runes_stray h, List.flatMap_cons, ← escaped]

/-! ## Digits -/

/-- A property of the written digits of a number holds of each digit of the base. -/
theorem forall_toDigits {base : Nat} (hbase : 1 < base) {p : Char → Prop}
    (hp : ∀ d < base, p (Nat.digitChar d)) (n : Nat) : ∀ c ∈ Nat.toDigits base n, p c := by
  induction n using Nat.strongRecOn with
  | ind n ih =>
    by_cases hn : n < base
    · rw [Nat.toDigits_of_lt_base hn, List.forall_mem_singleton]
      exact hp n hn
    · rw [Nat.toDigits_of_base_le hbase (Nat.not_lt.1 hn), List.forall_mem_append,
        List.forall_mem_singleton]
      exact ⟨ih (n / base) (Nat.div_lt_self (by omega) hbase), hp _ (Nat.mod_lt _ (by omega))⟩

theorem isHexDigit_hex (width n : Nat) : ∀ b ∈ hex width n, isHexDigit b = true := by
  rw [hex, List.forall_mem_append, List.forall_mem_map]
  refine ⟨fun b hb => ?_, forall_toDigits (by decide) (by decide) n⟩
  rw [List.eq_of_mem_replicate hb]
  decide

theorem length_hex (width n : Nat) : width ≤ (hex width n).length := by
  rw [hex, List.length_append, List.length_replicate]
  omega

theorem isDigit_decimalNat (n : Nat) : ∀ b ∈ decimalNat n, isDigit b = true := by
  rw [decimalNat, List.forall_mem_map]
  exact forall_toDigits (by decide) (by decide) n

theorem digitsValue_decimalNat (n : Nat) : digitsValue 10 (decimalNat n) = n := by
  have hdigit : ∀ d < 10, digitValue (byte (Nat.digitChar d)) = d := by decide
  induction n using Nat.strongRecOn with
  | ind n ih =>
    by_cases hn : n < 10
    · rw [decimalNat, Nat.toDigits_of_lt_base hn]
      simp [digitsValue, hdigit n hn]
    · have hrest := ih (n / 10) (by omega)
      rw [decimalNat, digitsValue] at hrest
      rw [decimalNat, Nat.toDigits_of_base_le (by decide) (Nat.not_lt.1 hn), digitsValue,
        List.map_append, List.foldl_append, hrest, List.map_singleton, List.foldl_cons,
        List.foldl_nil, hdigit _ (Nat.mod_lt _ (by decide))]
      omega

/-- A number that is small enough is read back from its digits. -/
theorem readNat?_decimalNat {n bound : Nat} (h : n < bound) :
    readNat? 10 bound (decimalNat n) = some n := by
  have hdigit : ∀ b, isDigit b = true → (isHexDigit b && digitValue b < 10) = true :=
    forall_byte (by decide +kernel)
  have hempty : (decimalNat n).isEmpty = false := by simp [decimalNat]
  have hall : (decimalNat n).all (fun b => isHexDigit b && digitValue b < 10) = true :=
    List.all_eq_true.2 fun b hb => hdigit b (isDigit_decimalNat n b hb)
  rw [readNat?, hempty, hall, digitsValue_decimalNat]
  exact if_pos h

/-! ## The search for the closing quote -/

namespace Lexer

/-- A search for the closing quote goes over a text, whatever follows it. -/
def PassedOver (t : Bytes) : Prop :=
  ∀ following, quoteEnd? doubleQuote (t ++ following) =
    (quoteEnd? doubleQuote following).map (· + t.length)

theorem PassedOver.nil : PassedOver [] := by
  intro following
  simp

theorem PassedOver.append {t t' : Bytes} (h : PassedOver t) (h' : PassedOver t') :
    PassedOver (t ++ t') := by
  intro following
  rw [List.append_assoc, h, h', Option.map_map, List.length_append]
  congr 1
  funext n
  simp only [Function.comp_apply]
  omega

/-- A byte that neither ends nor escapes anything. -/
def isInner (b : UInt8) : Bool :=
  b != doubleQuote && b != newline && b != backslash

theorem passedOver_byte {b : UInt8} (h : isInner b = true) : PassedOver [b] := by
  simp only [isInner, Bool.and_eq_true, bne_iff_ne] at h
  obtain ⟨⟨hquote, hline⟩, hescape⟩ := h
  intro following
  cases following with
  | nil => simp [quoteEnd?, hquote]
  | cons c rest => simp [quoteEnd?, hquote, hline, hescape]

theorem passedOver_bytes {t : Bytes} (h : ∀ b ∈ t, isInner b = true) : PassedOver t := by
  induction t with
  | nil => exact .nil
  | cons b t ih =>
    obtain ⟨hb, ht⟩ := List.forall_mem_cons.1 h
    exact (passedOver_byte hb).append (ih ht)

theorem passedOver_escape {letter : UInt8} (h : letter ≠ newline) :
    PassedOver [backslash, letter] := by
  intro following
  show quoteEnd? doubleQuote (backslash :: letter :: following) = _
  rw [quoteEnd?, if_neg (by decide), if_neg (by decide), if_pos rfl, if_neg h]
  rfl

theorem isInner_of_isHexDigit : ∀ b, isHexDigit b = true → isInner b = true :=
  forall_byte (by decide +kernel)

theorem passedOver_numeric {letter : UInt8} (h : letter ≠ newline) (width n : Nat) :
    PassedOver ([backslash, letter] ++ hex width n) :=
  (passedOver_escape h).append
    (passedOver_bytes fun b hb => isInner_of_isHexDigit b (isHexDigit_hex width n b hb))

end Lexer

open Lexer (PassedOver isInner passedOver_bytes passedOver_escape passedOver_numeric)

theorem namedEscape?_ne_newline {code : Nat} {letter : UInt8}
    (h : namedEscape? code = some letter) : letter ≠ newline := by
  revert h
  fun_cases namedEscape? code
  all_goals
    intro h
    first
    | (obtain rfl := Option.some.inj h; decide)
    | simp at h

/-- The bytes of a code point without a named escape. -/
theorem Sequence.isInner {t : Bytes} {code : Nat} (h : Sequence t code)
    (hnamed : namedEscape? code = none) : ∀ b ∈ t, Lexer.isInner b = true := by
  rcases h.ascii_or with ⟨b, rfl, -, rfl⟩ | ⟨-, hhigh⟩
  · rw [List.forall_mem_singleton]
    revert hnamed
    exact forall_byte (p := fun b => namedEscape? b.toNat = none → Lexer.isInner b = true)
      (by decide +kernel) b
  · intro b hb
    exact forall_byte (p := fun b => 0x80 ≤ b → Lexer.isInner b = true) (by decide +kernel) b
      (hhigh b hb)

theorem Sequence.passedOver {t : Bytes} {code : Nat} (h : Sequence t code) :
    PassedOver (Rune.scalar code t).quoted := by
  rw [Rune.quoted]
  cases hnamed : namedEscape? code with
  | some letter => exact passedOver_escape (namedEscape?_ne_newline hnamed)
  | none =>
    dsimp only
    split
    · exact passedOver_bytes (h.isInner hnamed)
    · split
      · exact passedOver_numeric (by decide) 2 code
      · split
        · exact passedOver_numeric (by decide) 4 code
        · exact passedOver_numeric (by decide) 8 code

/-- The quotes around an escaped text are the first and the last one. -/
theorem passedOver_escaped (text : Bytes) : PassedOver (escaped text) := by
  induction text using runes_induction with
  | nil => rw [escaped_nil]; exact .nil
  | sequence t f code ht ih => rw [escaped_sequence ht]; exact ht.passedOver.append ih
  | stray b f _ hdecode ih =>
    rw [escaped_stray hdecode]
    exact (passedOver_numeric (by decide) 2 b.toNat).append ih

/-! ## What the escapes change -/

/-- A unit that stands between the quotes as it is: a printable code point other than the quote and
    the backslash. -/
def Rune.isVerbatim : Rune → Bool
  | .scalar code _ => isPrintable code && code != 34 && code != 92
  | .stray _ => false

theorem le_of_isPrintable {code : Nat} (h : isPrintable code = true) : 0x20 ≤ code := by
  have hranges : printableRanges.toList.all (fun r => 0x20 ≤ r.1) = true := by decide +kernel
  rw [isPrintable, ← Array.any_toList, List.any_eq_true] at h
  obtain ⟨⟨lo, hi⟩, hmem, hcode⟩ := h
  have hlo := List.all_eq_true.1 hranges _ hmem
  simp only [Bool.and_eq_true, decide_eq_true_eq] at hcode hlo
  omega

theorem namedEscape?_eq_none {code : Nat} (hprintable : isPrintable code = true)
    (hquote : code ≠ 34) (hescape : code ≠ 92) : namedEscape? code = none := by
  have hcode := le_of_isPrintable hprintable
  unfold namedEscape?
  split <;> first | rfl | omega

theorem Rune.quoted_verbatim {u : Rune} (h : u.isVerbatim = true) : u.quoted = u.bytes := by
  cases u with
  | stray b => exact absurd h (by simp [isVerbatim])
  | scalar code t =>
    simp only [isVerbatim, Bool.and_eq_true, bne_iff_ne] at h
    rw [Rune.quoted, namedEscape?_eq_none h.1.1 h.1.2 h.2]
    exact if_pos h.1.1

theorem namedEscape?_lt {code : Nat} {letter : UInt8} (h : namedEscape? code = some letter) :
    code < 0x80 := by
  by_contra hlarge
  unfold namedEscape? at h
  split at h <;> first | omega | simp at h

/-- A code point is escaped by more bytes than it has. -/
theorem Sequence.length_lt_quoted {t : Bytes} {code : Nat} (h : Sequence t code)
    (hu : (Rune.scalar code t).isVerbatim = false) :
    t.length < (Rune.scalar code t).quoted.length := by
  -- the escapes of two and four bytes stand only for ASCII, where a code point is one byte
  have hwidth : t.length ≤ 4 ∧ (code < 0x80 → t.length = 1) := by
    refine ⟨by cases h <;> simp, fun hcode => ?_⟩
    rcases h.ascii_or with ⟨b, rfl, -⟩ | ⟨hlarge, -⟩
    · rfl
    · omega
  have hnumeric : ∀ (s : String) width, s.toList.length = 2 →
      2 + width ≤ (ascii s ++ hex width code).length := by
    intro s width hs
    have hhex := length_hex width code
    rw [List.length_append, ascii, List.length_map]
    omega
  rw [Rune.quoted]
  cases hnamed : namedEscape? code with
  | some letter =>
    have hone := hwidth.2 (namedEscape?_lt hnamed)
    simp [hone]
  | none =>
    have hprintable : isPrintable code = false := by
      by_contra hprintable
      refine absurd hu ?_
      have hquote : code ≠ 34 := by rintro rfl; simp [namedEscape?] at hnamed
      have hescape : code ≠ 92 := by rintro rfl; simp [namedEscape?] at hnamed
      simp [Rune.isVerbatim, hprintable, hquote, hescape]
    dsimp only
    rw [if_neg (by simp [hprintable])]
    split
    · have hlength := hnumeric "\\x" 2 rfl
      omega
    · split
      · have hlength := hnumeric "\\u" 4 rfl
        omega
      · have hlength := hnumeric "\\U" 8 rfl
        omega

theorem length_stray_quoted (b : UInt8) : 1 < (Rune.stray b).quoted.length := by
  have hhex := length_hex 2 b.toNat
  rw [Rune.quoted, List.length_append]
  omega

theorem length_le_escaped (text : Bytes) : text.length ≤ (escaped text).length := by
  induction text using runes_induction with
  | nil => simp
  | sequence t f code ht ih =>
    have hfirst : t.length ≤ (Rune.scalar code t).quoted.length := by
      cases hu : (Rune.scalar code t).isVerbatim with
      | true => rw [Rune.quoted_verbatim hu, Rune.bytes]
      | false => exact (ht.length_lt_quoted hu).le
    rw [escaped_sequence ht, List.length_append, List.length_append]
    omega
  | stray b f _ hdecode ih =>
    have hfirst := length_stray_quoted b
    rw [escaped_stray hdecode, List.length_append, List.length_cons]
    omega

theorem escaped_eq_nil {text : Bytes} : escaped text = [] ↔ text = [] := by
  constructor
  · intro h
    have hlength := length_le_escaped text
    rw [h] at hlength
    exact List.length_eq_zero_iff.1 (Nat.le_zero.1 hlength)
  · rintro rfl
    exact escaped_nil

/-- Escaping leaves exactly those texts alone in which nothing has to be escaped. -/
theorem escaped_eq_self_iff (text : Bytes) :
    escaped text = text ↔ ∀ u ∈ runes text, u.isVerbatim = true := by
  induction text using runes_induction with
  | nil => simp [runes]
  | sequence t f code ht ih =>
    rw [escaped_sequence ht, runes_sequence ht, List.forall_mem_cons]
    cases hu : (Rune.scalar code t).isVerbatim with
    | true => rw [Rune.quoted_verbatim hu, Rune.bytes, List.append_cancel_left_eq, ih]; simp
    | false =>
      have hfirst := ht.length_lt_quoted hu
      have hrest := length_le_escaped f
      have hne : (Rune.scalar code t).quoted ++ escaped f ≠ t ++ f := by
        intro heq
        have hlength := congrArg List.length heq
        rw [List.length_append, List.length_append] at hlength
        omega
      simp [hne]
  | stray b f _ hdecode ih =>
    have hfirst := length_stray_quoted b
    have hrest := length_le_escaped f
    have hne : (Rune.stray b).quoted ++ escaped f ≠ b :: f := by
      intro heq
      have hlength := congrArg List.length heq
      rw [List.length_append, List.length_cons] at hlength
      omega
    rw [escaped_stray hdecode, runes_stray hdecode]
    simp [hne, Rune.isVerbatim]

end Preproc
