import Preproc.Proofs.Source.Reading
import Preproc.Proofs.Source.SimpleLines

set_option autoImplicit false

/-! # Line ends inside a directive

A directive takes in a line end only where a block comment is open in it (`logicalLines_joined`).
Other text can be followed through quotes and comments piece by piece: most bytes leave code as it
is (`Region.after_calm`). -/

namespace Preproc.Source

/-! ## Regions -/

/-- The bytes that begin neither a quotation nor a comment. -/
def isCalm (b : UInt8) : Bool :=
  b != doubleQuote && b != singleQuote && b != byte '/'

/-- A byte that begins nothing is passed over. -/
theorem Region.after_cons {b : UInt8} (hquotes : b ≠ doubleQuote ∧ b ≠ singleQuote) {rest : Bytes}
    (hslash : b = byte '/' → rest.head? ≠ some (byte '/') ∧ rest.head? ≠ some (byte '*')) :
    Region.code.after (b :: rest) = Region.code.after rest := by
  have hb : ¬ (b = doubleQuote ∨ b = singleQuote) := not_or.2 hquotes
  cases rest with
  | nil => simp [Region.after, hb]
  | cons c rest =>
    have hline : ¬ (b = byte '/' ∧ c = byte '/') := fun h => (hslash h.1).1 (by rw [h.2]; rfl)
    have hblock : ¬ (b = byte '/' ∧ c = byte '*') := fun h => (hslash h.1).2 (by rw [h.2]; rfl)
    rw [Region.after, if_neg hb, if_neg hline, if_neg hblock]

/-- Code stays code over bytes that begin nothing, whatever follows them. -/
theorem Region.after_calm {t : Bytes} (ht : ∀ b ∈ t, isCalm b = true) (rest : Bytes) :
    Region.code.after (t ++ rest) = Region.code.after rest := by
  induction t with
  | nil => rfl
  | cons b t ih =>
    rw [List.forall_mem_cons] at ht
    simp only [isCalm, Bool.and_eq_true, bne_iff_ne] at ht
    rw [List.cons_append, Region.after_cons ht.1.1 fun h => absurd h ht.1.2]
    exact ih (by simpa [isCalm] using ht.2)

theorem Region.after_quote {quote : UInt8} (hquote : quote = doubleQuote ∨ quote = singleQuote)
    (rest : Bytes) : Region.code.after (quote :: rest) = (Region.quotation quote).after rest := by
  cases rest <;> simp [Region.after, hquote]

/-! ## Joined text -/

/-- A text with line ends only where a block comment is open. -/
def Joined (text : Bytes) : Prop :=
  ∀ u v, text = u ++ newline :: v → Region.code.after u = .blockComment

theorem joined_of_lines {text : Bytes} (h : newline ∉ text) : Joined text := by
  rintro u v rfl
  exact absurd h (by simp)

theorem Joined.append {text more : Bytes} (h : Joined text) (hmore : newline ∉ more) :
    Joined (text ++ more) := by
  intro u v heq
  rcases List.append_eq_append_iff.1 heq with ⟨rest, rfl, hrest⟩ | ⟨rest, rfl, hrest⟩
  · rw [hrest] at hmore
    exact absurd hmore (by simp)
  · cases rest with
    | nil =>
      obtain rfl : newline :: v = more := hrest
      exact absurd hmore (by simp)
    | cons b rest =>
      obtain ⟨rfl, -⟩ := List.cons.inj hrest
      exact h u rest rfl

theorem Joined.newline {text : Bytes} (h : Joined text)
    (hopen : Region.code.after text = .blockComment) : Joined (text ++ [newline]) := by
  intro u v heq
  rcases List.append_eq_append_iff.1 heq with ⟨rest, rfl, hrest⟩ | ⟨rest, rfl, hrest⟩
  · cases rest with
    | nil => simpa using hopen
    | cons b rest => simp at hrest
  · cases rest with
    | nil => simpa using hopen
    | cons b rest =>
      obtain ⟨rfl, -⟩ := List.cons.inj hrest
      exact h u rest rfl

/-! ## Directives -/

theorem Pending.extend_directive (p : Pending) (physical : PhysicalLine) :
    (p.extend physical).1.directive = p.directive := by
  obtain ⟨text, heq⟩ := p.extend_eq physical
  rw [heq]

/-- What has begun as a directive has line ends in block comments only. -/
def Pending.IsJoined (p : Pending) : Prop :=
  p.directive = true → Joined p.text

theorem Pending.extend_joined {p : Pending} (hp : p.IsJoined) {physical : PhysicalLine}
    (hunbroken : newline ∉ physical.text) : (p.extend physical).1.IsJoined := by
  have hline : newline ∉ dropCarriageReturn physical.text := fun h =>
    hunbroken ((dropCarriageReturn_initial _).mem h)
  intro hdirective
  rw [extend_directive] at hdirective
  unfold Pending.extend
  dsimp only
  split
  · exact (hp hdirective).append fun h => hline (List.mem_of_mem_dropLast h)
  · have hlonger := (hp hdirective).append hline
    split
    · next hopen =>
      rw [hdirective, Bool.true_and] at hopen
      exact hlonger.newline (by simpa [endsInComment] using hopen)
    · exact hlonger

theorem carries_joined : Carries (fun _ p => p.1.IsJoined)
    (fun _ l => l.directive = true → Joined l.text) where
  first start l unbroken :=
    Pending.extend_joined (fun _ => joined_of_lines (by simp [Start.pending])) unbroken
  next _ _ _ unbroken before := Pending.extend_joined before unbroken
  close _ _ _ _ last := last
  cutOff _ _ last := last

/-- **A directive takes in line ends inside block comments only.** -/
theorem logicalLines_joined (source : Bytes) :
    ∀ l ∈ logicalLines source, l.directive = true → Joined l.text :=
  (logicalLines_each carries_joined source).forall_mem

end Preproc.Source
