import Mathlib.Data.List.TakeWhile
import Mathlib.Data.Nat.Digits.Defs
import Preproc.Condition.Eval
import Preproc.Proofs.Condition.Arithmetic
import Preproc.Proofs.Token.Lexemes

set_option autoImplicit false

/-! # Integer constants

What an integer constant denotes, said by its digits alone (`Number.ofConstant`): each digit counts
a power of the base that the constant begins with. Every constant that stands in a condition is
written as such constants are (`isInteger_of_lexemes?`), and is read as what it denotes
(`integerValue_eq_ofConstant`). -/

namespace Preproc.Condition

/-- Digits with the mark of their base: only digits or, after `0x`, hexadecimal ones. -/
def IsDigits (digits : Bytes) : Prop :=
  (digits ≠ [] ∧ digits.all isDigit = true) ∨
  ∃ x body, digits = byte '0' :: x :: body ∧ (x = byte 'x' ∨ x = byte 'X') ∧
    body ≠ [] ∧ body.all isHexDigit = true

/-- A text that is an integer constant: digits, and then any letters of a suffix. -/
def IsInteger (text : Bytes) : Prop :=
  ∃ digits suffix, text = digits ++ suffix ∧ IsDigits digits ∧ suffix.all isSuffix = true

/-- The base of an integer constant without its suffix, and the digits in that base. -/
def splitRadix (digits : Bytes) : Nat × Bytes :=
  match digits with
  | z :: x :: body =>
    if z ≠ byte '0' then (10, digits)
    else if x = byte 'x' ∨ x = byte 'X' then (16, body)
    else (8, x :: body)
  | _ => (10, digits)

/-- The number that digits denote in a base: the last one counts ones, and each one before it as
    much again as the base. -/
def exactValue (base : Nat) (digits : Bytes) : Nat :=
  Nat.ofDigits base (digits.reverse.map digitValue)

/-- What an integer constant denotes. It is refused when it is 2^64 or more, and when it is octal
    with a digit 8 or 9. -/
def Number.ofConstant (text : Bytes) : Except Error Number :=
  let digits := text.takeWhile fun b => !isSuffix b
  let (base, body) := splitRadix digits
  let n := exactValue base body
  if 2 ^ 64 ≤ n ∨ base = 8 ∧ ∃ b ∈ body, 8 ≤ digitValue b then .error (.badInteger digits)
  else .ok ⟨n, byte 'u' ∈ text ∨ byte 'U' ∈ text ∨ 2 ^ 63 - 1 < n⟩

/-! ## Digits -/

theorem digitsValue_eq_exactValue (base : Nat) (digits : Bytes) :
    digitsValue base digits = exactValue base digits := by
  have hfrom : ∀ n, digits.foldl (fun n b => n * base + digitValue b) n =
      n * base ^ digits.length + exactValue base digits := by
    induction digits with
    | nil => simp [exactValue]
    | cons b rest ih =>
      intro n
      have hcons : exactValue base (b :: rest) =
          exactValue base rest + base ^ rest.length * digitValue b := by
        simp [exactValue, Nat.ofDigits_append]
      rw [List.foldl_cons, ih, hcons, List.length_cons]
      ring
  simpa [digitsValue] using hfrom 0

theorem digit_facts : ∀ b, isDigit b = true →
    isHexDigit b = true ∧ digitValue b < 10 ∧ isSuffix b = false ∧ b ≠ byte 'x' ∧ b ≠ byte 'X' :=
  forall_byte (by decide +kernel)

theorem hexDigit_facts : ∀ b, isHexDigit b = true → digitValue b < 16 ∧ isSuffix b = false :=
  forall_byte (by decide +kernel)

/-- Digits of a base, among which an octal constant may still have one too large. -/
def FitsBase (base : Nat) (body : Bytes) : Prop :=
  body ≠ [] ∧ ((base = 16 ∧ body.all isHexDigit = true) ∨
    ((base = 10 ∨ base = 8) ∧ body.all isDigit = true))

theorem readNat?_eq {base : Nat} {body : Bytes} (h : FitsBase base body) (bound : Nat) :
    readNat? base bound body =
      if bound ≤ exactValue base body ∨ base = 8 ∧ ∃ b ∈ body, 8 ≤ digitValue b then none
      else some (exactValue base body) := by
  obtain ⟨hne, hbody⟩ := h
  -- only an octal constant can hold a digit that its base does not have
  have hdigits : body.all (fun b => isHexDigit b && digitValue b < base) = true ↔
      ¬ (base = 8 ∧ ∃ b ∈ body, 8 ≤ digitValue b) := by
    simp only [List.all_eq_true, Bool.and_eq_true, decide_eq_true_eq]
    rcases hbody with ⟨rfl, hhex⟩ | ⟨hbase, hdigit⟩
    · simp only [show ¬ (16 = 8) by decide, false_and, not_false_eq_true, iff_true]
      intro b hb
      have hb := List.all_eq_true.1 hhex b hb
      exact ⟨hb, (hexDigit_facts b hb).1⟩
    · have hfacts := fun b hb => digit_facts b (List.all_eq_true.1 hdigit b hb)
      constructor
      · rintro hall ⟨rfl, b, hb, hlarge⟩
        exact Nat.not_lt.2 hlarge (hall b hb).2
      · intro hsmall b hb
        refine ⟨(hfacts b hb).1, ?_⟩
        rcases hbase with rfl | rfl
        · exact (hfacts b hb).2.1
        · by_contra hlarge
          exact hsmall ⟨rfl, b, hb, Nat.not_lt.1 hlarge⟩
  have hempty : body.isEmpty = false := by simpa using hne
  rw [readNat?, hempty, digitsValue_eq_exactValue, Bool.false_or]
  by_cases hbad : base = 8 ∧ ∃ b ∈ body, 8 ≤ digitValue b
  · rw [if_pos (Or.inr hbad), if_pos]
    rw [Bool.not_eq_true', ← Bool.not_eq_true, hdigits]
    exact not_not.2 hbad
  · rw [if_neg (by simpa using hdigits.2 hbad)]
    by_cases hlt : exactValue base body < bound
    · rw [if_pos hlt, if_neg (not_or.2 ⟨Nat.not_le.2 hlt, hbad⟩)]
    · rw [if_neg hlt, if_pos (.inl (Nat.not_lt.1 hlt))]

/-- The base of a constant is chosen by the marks that it begins with. -/
theorem IsDigits.readInteger? {digits : Bytes} (h : IsDigits digits) :
    FitsBase (splitRadix digits).1 (splitRadix digits).2 ∧
    readInteger? digits = readNat? (splitRadix digits).1 wordCount (splitRadix digits).2 := by
  rcases h with ⟨hne, hall⟩ | ⟨x, body, rfl, hx, hbody, hhex⟩
  · match digits, hne, hall with
    | [a], hne, hall => exact ⟨⟨hne, .inr ⟨.inl rfl, hall⟩⟩, rfl⟩
    | a :: b :: rest, hne, hall =>
      have hb := digit_facts b (by simp_all)
      have hnotHex : ¬ (b = byte 'x' ∨ b = byte 'X') := by simp [hb.2.2.2]
      by_cases ha : a = byte '0'
      · have hrest : (b :: rest).all isDigit = true := by simp_all
        simp only [splitRadix, ha, not_true, ne_eq, if_false, if_neg hnotHex]
        refine ⟨⟨by simp, .inr ⟨.inr rfl, hrest⟩⟩, ?_⟩
        cases rest with
        | nil => simp [Condition.readInteger?]
        | cons c rest => simp [Condition.readInteger?, hnotHex]
      · simp only [splitRadix, ne_eq, ha, not_false_eq_true, if_true]
        refine ⟨⟨hne, .inr ⟨.inl rfl, hall⟩⟩, ?_⟩
        cases rest with
        | nil => simp [Condition.readInteger?, ha]
        | cons c rest => simp [Condition.readInteger?, hnotHex, ha]
  · simp only [splitRadix, ne_eq, not_true, if_false, if_pos hx]
    refine ⟨⟨hbody, .inl ⟨rfl, hhex⟩⟩, ?_⟩
    cases body with
    | nil => exact absurd rfl hbody
    | cons c rest => simp [Condition.readInteger?, hx]

/-! ## The suffix -/

theorem IsDigits.not_suffix {digits : Bytes} (h : IsDigits digits) :
    ∀ b ∈ digits, isSuffix b = false := by
  rcases h with ⟨-, hall⟩ | ⟨x, body, rfl, hx, -, hhex⟩
  · exact fun b hb => (digit_facts b (List.all_eq_true.1 hall b hb)).2.2.1
  · intro b hb
    rcases List.mem_cons.1 hb with rfl | hb
    · decide
    rcases List.mem_cons.1 hb with rfl | hb
    · rcases hx with rfl | rfl <;> decide
    · exact (hexDigit_facts b (List.all_eq_true.1 hhex b hb)).2

theorem takeWhile_digits {digits suffix : Bytes} (h : IsDigits digits)
    (hsuffix : suffix.all isSuffix = true) :
    (digits ++ suffix).takeWhile (fun b => !isSuffix b) = digits := by
  rw [List.takeWhile_append_of_pos (by simpa using h.not_suffix)]
  cases suffix with
  | nil => simp
  | cons b rest => simp_all

theorem integerDigits_append {digits suffix : Bytes} (h : IsDigits digits)
    (hsuffix : suffix.all isSuffix = true) : integerDigits (digits ++ suffix) = digits := by
  rw [integerDigits, List.reverse_append,
    List.dropWhile_append_of_pos (by simpa using hsuffix), List.dropWhile_eq_self_iff.2,
    List.reverse_reverse]
  intro hpos
  have hlast := h.not_suffix _ (List.mem_reverse.1 (List.getElem_mem hpos))
  simpa using hlast

/-- A constant that is large enough to need an unsigned type stands for itself. -/
theorem number_ofNat {n : Nat} (hn : n < 2 ^ 64) (marked : Bool) :
    (Value.mk (BitVec.ofNat 64 n) (marked || decide (signedBound ≤ n))).number =
      ⟨n, marked || decide (signedBound ≤ n)⟩ := by
  rw [← BitVec.ofInt_natCast, Value.number_ofInt, Number.reduce]
  split
  · rw [Int.emod_eq_of_lt (by omega) (by omega)]
  · next hsigned =>
    have hsmall : n < 2 ^ 63 := by
      by_contra hlarge
      exact hsigned (by simp [show signedBound ≤ n from Nat.not_lt.1 hlarge])
    rw [Int.bmod_eq_of_le (by omega) (by omega)]

/-- **An integer constant is read as what it denotes.** -/
theorem integerValue_eq_ofConstant {text : Bytes} (h : IsInteger text) :
    (integerValue text).map Value.number = Number.ofConstant text := by
  obtain ⟨digits, suffix, rfl, hdigits, hsuffix⟩ := h
  obtain ⟨hfits, hread⟩ := hdigits.readInteger?
  have hmarked : (suffix.any fun b => b == byte 'u' || b == byte 'U') = true ↔
      byte 'u' ∈ digits ++ suffix ∨ byte 'U' ∈ digits ++ suffix := by
    have hnone : byte 'u' ∉ digits ∧ byte 'U' ∉ digits :=
      ⟨fun hu => absurd (hdigits.not_suffix _ hu) (by decide),
        fun hu => absurd (hdigits.not_suffix _ hu) (by decide)⟩
    simp only [List.any_eq_true, Bool.or_eq_true, beq_iff_eq, List.mem_append, hnone, false_or]
    constructor
    · rintro ⟨b, hb, rfl | rfl⟩
      · exact .inl hb
      · exact .inr hb
    · rintro (hb | hb)
      · exact ⟨_, hb, .inl rfl⟩
      · exact ⟨_, hb, .inr rfl⟩
  have hvalue := hread.trans (readNat?_eq hfits (2 ^ 64))
  simp only [integerValue, Number.ofConstant, integerDigits_append hdigits hsuffix,
    takeWhile_digits hdigits hsuffix, hvalue, List.drop_left]
  by_cases hbad : 2 ^ 64 ≤ exactValue (splitRadix digits).1 (splitRadix digits).2 ∨
      (splitRadix digits).1 = 8 ∧ ∃ b ∈ (splitRadix digits).2, 8 ≤ digitValue b
  · rw [if_pos hbad, if_pos hbad]
    rfl
  · rw [if_neg hbad, if_neg hbad]
    refine congrArg Except.ok ((number_ofNat (Nat.not_le.1 (not_or.1 hbad).1) _).trans ?_)
    rw [Number.mk.injEq, Bool.eq_iff_iff, Bool.or_eq_true, hmarked]
    simp only [decide_eq_true_eq, or_assoc, true_and]
    rfl

/-! ## Constants in a condition -/

theorem take_digits_suffix (p : UInt8 → Bool) (text : Bytes) :
    text.take ((text.takeWhile p).length + suffixWidth (text.drop (text.takeWhile p).length)) =
      text.takeWhile p ++ (text.drop (text.takeWhile p).length).takeWhile isSuffix := by
  rw [List.take_add, suffixWidth]
  simp only [← List.prefix_iff_eq_take.1 (List.takeWhile_prefix _)]

theorem isInteger_of_hexWidth {text : Bytes} (h : 0 < hexWidth text) :
    IsInteger (text.take (hexWidth text)) := by
  unfold hexWidth at h ⊢
  split at h
  · next a x rest =>
    split at h
    · next hmark =>
      dsimp only at h
      split at h
      · next hdigits =>
        obtain ⟨rfl, hx⟩ := hmark
        rw [if_pos ⟨rfl, hx⟩]
        dsimp only
        rw [if_pos hdigits, Nat.add_assoc, Nat.add_comm, List.take_succ_cons, List.take_succ_cons,
          take_digits_suffix]
        exact ⟨byte '0' :: x :: rest.takeWhile isHexDigit, _, rfl,
          .inr ⟨x, _, rfl, hx, List.length_pos_iff.1 hdigits, List.all_takeWhile⟩,
          List.all_takeWhile⟩
      · exact absurd h (by simp)
    · exact absurd h (by simp)
  · exact absurd h (by simp)

theorem isInteger_of_digitsWidth {text : Bytes} (h : 0 < digitsWidth text) :
    IsInteger (text.take (digitsWidth text)) := by
  unfold digitsWidth at h ⊢
  dsimp only at h ⊢
  split at h
  · next hdigits =>
    rw [if_pos hdigits, take_digits_suffix]
    exact ⟨_, _, rfl, .inl ⟨List.length_pos_iff.1 hdigits, List.all_takeWhile⟩,
      List.all_takeWhile⟩
  · exact absurd h (by simp)

theorem isInteger_of_numberWidth {text : Bytes} (h : 0 < numberWidth text) :
    IsInteger (text.take (numberWidth text)) := by
  unfold numberWidth at h ⊢
  split at h
  · next hhex =>
    rw [if_pos hhex]
    exact isInteger_of_hexWidth h
  · next hhex =>
    rw [if_neg hhex]
    exact isInteger_of_digitsWidth h

theorem isInteger_of_lexeme? {text constant : Bytes} {width : Nat}
    (h : lexeme? text = some (.number constant, width)) : IsInteger constant := by
  unfold lexeme? at h
  split at h
  · next hnumber =>
    obtain ⟨rfl, -⟩ : text.take (numberWidth text) = constant ∧ _ := by simpa using h
    exact isInteger_of_numberWidth hnumber
  · split at h
    · exact absurd h (by simp)
    · split at h
      · exact absurd h (by simp)
      · exact absurd h (by simp)

/-- The numbers among the lexemes of a condition are integer constants. -/
theorem isInteger_of_lexemes? {text : Bytes} {input : List Lexeme}
    (h : lexemes? text = some input) {constant : Bytes} (hmem : .number constant ∈ input) :
    IsInteger constant := by
  fun_induction lexemes? text generalizing input with
  | case1 =>
    obtain rfl : [] = input := by simpa using h
    exact absurd hmem (by simp)
  | case2 b rest hgap ih => exact ih h hmem
  | case3 b rest hgap lexeme width hlexeme ih =>
    obtain ⟨more, hmore, rfl⟩ : ∃ more, lexemes? (rest.drop (width - 1)) = some more ∧
        lexeme :: more = input := by simpa using h
    rcases List.mem_cons.1 hmem with rfl | hmem
    · exact isInteger_of_lexeme? hlexeme
    · exact ih hmore hmem
  | case4 b rest hgap hlexeme => exact absurd h (by simp)

end Preproc.Condition
