import Preproc.Proofs.Token.Cut

set_option autoImplicit false

/-! # Code points across a cut

The units of two texts put together are the units of the one and then those of the other, unless a
code point goes across the place where they meet. None does when the second text does not begin with
a continuation byte (`runes_append_of_stops`), when the first ends with an ASCII byte
(`runes_append_of_ascii`), and when the first is the first unit of the two together
(`runes_append_of_width`). -/

namespace Preproc

open Lexer (StopsAt)

/-! ## Well-formed sequences -/

/-- The well-formed sequences, by their length, with the code points that they denote. -/
inductive Sequence : Bytes → Nat → Prop where
  | one {a : UInt8} (ha : a < 0x80) : Sequence [a] a.toNat
  | two {a b : UInt8} (ha : 0xC2 ≤ a) (ha' : a < 0xE0) (hb : isContinuation b = true) :
    Sequence [a, b] ((a.toNat - 0xC0) * 64 + continuationBits b)
  | three {a b c : UInt8} {n : Nat} (ha : 0xE0 ≤ a) (ha' : a < 0xF0)
      (hb : isContinuation b = true) (hc : isContinuation c = true)
      (hn : n = (a.toNat - 0xE0) * 4096 + continuationBits b * 64 + continuationBits c)
      (hlong : 0x800 ≤ n) (hscalar : n < 0xD800 ∨ 0xDFFF < n) : Sequence [a, b, c] n
  | four {a b c d : UInt8} {n : Nat} (ha : 0xF0 ≤ a) (ha' : a < 0xF5)
      (hb : isContinuation b = true) (hc : isContinuation c = true)
      (hd : isContinuation d = true)
      (hn : n = (a.toNat - 0xF0) * 262144 + continuationBits b * 4096 + continuationBits c * 64
        + continuationBits d) (hlong : 0x10000 ≤ n) (hscalar : n ≤ 0x10FFFF) :
    Sequence [a, b, c, d] n

theorem exists_sequence {text : Bytes} {code width : Nat}
    (h : decodeRune? text = some (code, width)) :
    ∃ t f, text = t ++ f ∧ t.length = width ∧ Sequence t code := by
  revert h
  fun_cases decodeRune? text with
  | case2 a rest ha =>
    intro h
    obtain ⟨rfl, rfl⟩ := Prod.mk.inj (Option.some.inj h)
    exact ⟨[a], rest, rfl, rfl, .one ha⟩
  | case4 a ha hlong htwo b tail hb =>
    intro h
    obtain ⟨rfl, rfl⟩ := Prod.mk.inj (Option.some.inj h)
    exact ⟨[a, b], tail, rfl, rfl, .two (UInt8.not_lt.1 hlong) htwo hb⟩
  | case7 a ha hlong htwo hthree b c tail n hn =>
    intro h
    obtain ⟨rfl, rfl⟩ := Prod.mk.inj (Option.some.inj h)
    simp only [Bool.and_eq_true, Bool.not_eq_true', decide_eq_true_eq, Bool.and_eq_false_iff,
      decide_eq_false_iff_not] at hn
    exact ⟨[a, b, c], tail, rfl, rfl, .three (UInt8.not_lt.1 htwo) hthree hn.1.1.1 hn.1.1.2 rfl
      hn.1.2 (by omega)⟩
  | case10 a ha hlong htwo hthree hfour b c d tail n hn =>
    intro h
    obtain ⟨rfl, rfl⟩ := Prod.mk.inj (Option.some.inj h)
    simp only [Bool.and_eq_true, decide_eq_true_eq] at hn
    exact ⟨[a, b, c, d], tail, rfl, rfl, .four (UInt8.not_lt.1 hthree) hfour hn.1.1.1.1
      hn.1.1.1.2 hn.1.1.2 rfl hn.1.2 hn.2⟩
  | _ => simp

theorem Sequence.decode {t : Bytes} {code : Nat} (h : Sequence t code) (f : Bytes) :
    decodeRune? (t ++ f) = some (code, t.length) := by
  have hnot : ∀ {a low : UInt8} (bound : UInt8), low ≤ a → bound ≤ low → ¬ a < bound :=
    fun _ ha hbound => UInt8.not_lt.2 (UInt8.le_trans hbound ha)
  rw [decodeRune?.eq_def]
  cases h with
  | one ha =>
    dsimp only [List.cons_append]
    rw [if_pos ha]
    rfl
  | two ha ha' hb =>
    dsimp only [List.cons_append]
    rw [if_neg (hnot 0x80 ha (by decide)), if_neg (hnot 0xC2 ha (by decide)), if_pos ha', if_pos hb]
    rfl
  | three ha ha' hb hc hn hlong hscalar =>
    dsimp only [List.cons_append]
    rw [if_neg (hnot 0x80 ha (by decide)), if_neg (hnot 0xC2 ha (by decide)),
      if_neg (hnot 0xE0 ha (by decide)), if_pos ha', ← hn, if_pos]
    · rfl
    · rw [hb, hc, decide_eq_true hlong]
      simpa using hscalar
  | four ha ha' hb hc hd hn hlong hscalar =>
    dsimp only [List.cons_append]
    rw [if_neg (hnot 0x80 ha (by decide)), if_neg (hnot 0xC2 ha (by decide)),
      if_neg (hnot 0xE0 ha (by decide)), if_neg (hnot 0xF0 ha (by decide)), if_pos ha', ← hn,
      if_pos]
    · rfl
    · rw [hb, hc, hd, decide_eq_true hlong, decide_eq_true hscalar]
      rfl

theorem isContinuation_le {c : UInt8} (h : isContinuation c = true) : 0x80 ≤ c := by
  simp only [isContinuation, Bool.and_eq_true, decide_eq_true_eq] at h
  exact h.1

/-- A sequence is an ASCII byte, or has no such byte in it. -/
theorem Sequence.ascii_or {t : Bytes} {code : Nat} (h : Sequence t code) :
    (∃ b, t = [b] ∧ b < 0x80 ∧ code = b.toNat) ∨ 0x80 ≤ code ∧ ∀ b ∈ t, 0x80 ≤ b := by
  cases h with
  | one ha => exact Or.inl ⟨_, rfl, ha, rfl⟩
  | two ha ha' hb =>
    have hascii := UInt8.le_trans (show (0x80 : UInt8) ≤ 0xC2 by decide) ha
    refine Or.inr ⟨?_, by simp [hascii, isContinuation_le hb]⟩
    simp only [UInt8.le_iff_toNat_le, UInt8.reduceToNat] at ha
    omega
  | three ha ha' hb hc hn hlong hscalar =>
    have hascii := UInt8.le_trans (show (0x80 : UInt8) ≤ 0xE0 by decide) ha
    exact Or.inr ⟨by omega, by simp [hascii, isContinuation_le hb, isContinuation_le hc]⟩
  | four ha ha' hb hc hd hn hlong hscalar =>
    have hascii := UInt8.le_trans (show (0x80 : UInt8) ≤ 0xF0 by decide) ha
    exact Or.inr ⟨by omega,
      by simp [hascii, isContinuation_le hb, isContinuation_le hc, isContinuation_le hd]⟩

theorem Sequence.ne_nil {t : Bytes} {code : Nat} (h : Sequence t code) : t ≠ [] := by
  cases h <;> simp

/-- What cannot be continued is decoded by itself. -/
theorem decodeRune?_of_stops {a f : Bytes} (ha : a ≠ []) (hf : StopsAt isContinuation f) :
    decodeRune? (a ++ f) = decodeRune? a := by
  obtain ⟨b, a, rfl⟩ := List.exists_cons_of_ne_nil ha
  rcases f with _ | ⟨e, f⟩
  · rw [List.append_nil]
  · have he := hf e rfl
    -- a code point has at most four bytes
    rcases a with _ | ⟨b, _ | ⟨c, _ | ⟨d, a⟩⟩⟩
    · rcases f with _ | ⟨e', _ | ⟨e'', f⟩⟩ <;> simp [decodeRune?, he]
    · rcases f with _ | ⟨e', f⟩ <;> simp [decodeRune?, he]
    · simp [decodeRune?, he]
    · simp [decodeRune?]

/-! ## Units -/

theorem runes_sequence {t : Bytes} {code : Nat} (h : Sequence t code) (f : Bytes) :
    runes (t ++ f) = .scalar code t :: runes f := by
  have hdecode := h.decode f
  obtain ⟨b, t, rfl⟩ := List.exists_cons_of_ne_nil h.ne_nil
  rw [List.cons_append] at hdecode ⊢
  rw [runes, hdecode]
  simp

theorem runes_stray {b : UInt8} {f : Bytes} (h : decodeRune? (b :: f) = none) :
    runes (b :: f) = .stray b :: runes f := by
  rw [runes, h]

theorem runes_ascii {b : UInt8} (h : b < 0x80) (f : Bytes) :
    runes (b :: f) = .scalar b.toNat [b] :: runes f :=
  runes_sequence (.one h) f

/-- A text begins with a code point or with a byte that starts none. -/
theorem runes_cases {text : Bytes} (h : text ≠ []) :
    (∃ t f code, text = t ++ f ∧ Sequence t code) ∨
      ∃ b f, text = b :: f ∧ 0x80 ≤ b ∧ decodeRune? (b :: f) = none := by
  obtain ⟨b, f, rfl⟩ := List.exists_cons_of_ne_nil h
  cases hdecode : decodeRune? (b :: f) with
  | some r =>
    obtain ⟨t, f', htext, -, ht⟩ := exists_sequence hdecode
    exact Or.inl ⟨t, f', r.1, htext, ht⟩
  | none =>
    refine Or.inr ⟨b, f, rfl, UInt8.not_lt.1 fun hb => ?_, hdecode⟩
    exact absurd ((Sequence.one hb).decode f) (by simp [hdecode])

/-- What holds of the empty text, and goes over from a text to that text after a code point or after
    a stray byte, holds of all texts. -/
theorem runes_induction {motive : Bytes → Prop} (nil : motive [])
    (sequence : ∀ t f code, Sequence t code → motive f → motive (t ++ f))
    (stray : ∀ b f, 0x80 ≤ b → decodeRune? (b :: f) = none → motive f → motive (b :: f))
    (text : Bytes) : motive text := by
  induction hn : text.length using Nat.strongRecOn generalizing text with
  | ind n ih =>
    by_cases hempty : text = []
    · exact hempty ▸ nil
    · rcases runes_cases hempty with ⟨t, f, code, rfl, ht⟩ | ⟨b, f, rfl, hb, hdecode⟩
      · have hpos := List.length_pos_iff.2 ht.ne_nil
        rw [List.length_append] at hn
        exact sequence t f code ht (ih f.length (by omega) f rfl)
      · rw [List.length_cons] at hn
        exact stray b f hb hdecode (ih f.length (by omega) f rfl)

/-! ## Cuts -/

theorem runes_append_of_stops (a : Bytes) {f : Bytes} (hf : StopsAt isContinuation f) :
    runes (a ++ f) = runes a ++ runes f := by
  induction a using runes_induction with
  | nil => simp [runes]
  | sequence t a code ht ih =>
    rw [List.append_assoc, runes_sequence ht, runes_sequence ht, ih, List.cons_append]
  | stray b a _ hdecode ih =>
    have hboth : decodeRune? (b :: (a ++ f)) = none :=
      (decodeRune?_of_stops (by simp) hf).trans hdecode
    rw [List.cons_append, runes_stray hboth, runes_stray hdecode, ih, List.cons_append]

theorem runes_append_of_ascii {a : Bytes} {b : UInt8} (ha : a.getLast? = some b) (hb : b < 0x80)
    (f : Bytes) : runes (a ++ f) = runes a ++ runes f := by
  obtain ⟨a, rfl⟩ := List.getLast?_eq_some_iff.1 ha
  have hstops : ∀ f, StopsAt isContinuation (b :: f) := by
    refine Lexer.stops_cons ?_
    simp only [isContinuation, Bool.and_eq_false_iff, decide_eq_false_iff_not]
    exact Or.inl (UInt8.not_le.2 hb)
  have hlast : runes [b] = [.scalar b.toNat [b]] := by rw [runes_ascii hb, runes]
  rw [List.append_assoc, List.singleton_append, runes_append_of_stops a (hstops f),
    runes_append_of_stops a (hstops []), runes_ascii hb, hlast, List.append_assoc,
    List.singleton_append]

/-- The first unit of a text is cut off whatever is left of the rest. -/
theorem runes_append_of_width {a f f' : Bytes} (ha : a ≠ [])
    (hwidth : runeWidth (a ++ f) = a.length) (hf : f' <+: f) :
    runes (a ++ f') = runes a ++ runes f' := by
  have hne : a ++ f ≠ [] := by simp [ha]
  rcases runes_cases hne with ⟨t, g, code, htext, ht⟩ | ⟨b, g, htext, hb, hdecode⟩
  · have hlength : t.length = a.length := by
      rw [← hwidth, htext, runeWidth, ht.decode]
    obtain ⟨rfl, -⟩ := List.append_inj htext hlength.symm
    have hself := runes_sequence ht []
    rw [List.append_nil, runes] at hself
    rw [runes_sequence ht, hself]
    rfl
  · rw [htext, runeWidth, hdecode] at hwidth
    obtain ⟨c, rfl⟩ := List.length_eq_one_iff.1 hwidth.symm
    obtain ⟨rfl, rfl⟩ := List.cons.inj htext
    obtain ⟨g, rfl⟩ := hf
    have hnone : ∀ h, h <+: f' ++ g → decodeRune? (c :: h) = none := by
      rintro h ⟨h', hh'⟩
      cases hsome : decodeRune? (c :: h) with
      | none => rfl
      | some r =>
        obtain ⟨t, h'', htext', -, ht⟩ := exists_sequence hsome
        have hwhole := ht.decode (h'' ++ h')
        rw [← List.append_assoc, ← htext', List.cons_append, hh'] at hwhole
        exact absurd (hdecode.symm.trans hwhole) (by simp)
    rw [List.singleton_append, runes_stray (hnone f' (List.prefix_append _ _)),
      runes_stray (hnone [] List.nil_prefix), runes]
    rfl

end Preproc
