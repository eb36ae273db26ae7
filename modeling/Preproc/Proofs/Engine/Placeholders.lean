import Preproc.Engine.Process
import Preproc.Proofs.Source.Placement
import Preproc.Proofs.Token.LinePlaces

set_option autoImplicit false

/-! # Placeholders of dropped lines

A line that is dropped leaves line breaks behind. They are as many as the line has in the source,
unless the source ends where the line would go on: then the last line break is missing
(`blankLines_breaks_iff`). -/

namespace Preproc

namespace Source

/-! ## How lines go on -/

/-- A text after which a line goes on: it ends in a backslash, with or without a carriage return. -/
def EndsOpen (text : Bytes) : Prop :=
  (dropCarriageReturn text).getLast? = some backslash

instance (text : Bytes) : Decidable (EndsOpen text) :=
  inferInstanceAs (Decidable (_ = _))

/-- Only the last physical line decides whether a text ends open. -/
theorem endsOpen_append {lead : Bytes} (hlead : lead = [] ∨ lead.getLast? = some newline)
    (text : Bytes) : EndsOpen (lead ++ text) ↔ EndsOpen text := by
  rcases hlead with rfl | hlead
  · rfl
  · have hnewline : newline ≠ 13 ∧ newline ≠ backslash := by decide
    unfold EndsOpen dropCarriageReturn
    cases text using List.reverseRecOn with
    | nil => simp [hlead, hnewline.1, hnewline.2]
    | append_singleton text b =>
      rw [← List.append_assoc, List.getLast?_concat, List.getLast?_concat]
      split
      · rw [List.dropLast_concat, List.dropLast_concat, List.getLast?_append, hlead]
        cases text.getLast? <;> simp [hnewline.2]
      · rw [List.getLast?_concat, List.getLast?_concat]

theorem Pending.lead_ends (p : Pending) : p.lead = [] ∨ p.lead.getLast? = some newline := by
  unfold Pending.lead
  split
  · exact .inl rfl
  · exact .inr List.getLast?_concat

/-- A line goes on after a text that ends open, and a directive where a comment is open in it. -/
theorem Pending.extend_goesOn (p : Pending) (l : PhysicalLine) :
    (p.extend l).2 = true ↔ EndsOpen (p.extend l).1.raw ∨
      p.directive = true ∧ endsInComment false (p.extend l).1.text = true := by
  rw [Pending.extend_raw, endsOpen_append p.lead_ends]
  unfold Pending.extend EndsOpen
  dsimp only
  split
  · next hopen => simp [hopen]
  · next hends =>
    split
    · next hcomment =>
      -- the line end that stays in the text does not close the comment
      obtain ⟨hdirective, hcomment⟩ := Bool.and_eq_true_iff.1 hcomment
      have hlonger := Region.after_newline (of_decide_eq_true hcomment)
      exact iff_of_true rfl (.inr ⟨hdirective, decide_eq_true hlonger⟩)
    · next hcomment =>
      refine iff_of_false Bool.false_ne_true ?_
      rw [Bool.and_eq_true] at hcomment
      exact not_or.2 ⟨hends, hcomment⟩

/-- Whether a line with the text `raw` in the source wants another physical line. `text` is what it
    is joined to. -/
def WantsMore (directive : Bool) (raw text : Bytes) : Prop :=
  EndsOpen raw ∨ directive = true ∧ endsInComment false text = true

/-- A line that ends with a physical line after which it does not go on. -/
structure Complete (l : LogicalLine) : Prop where
  counted : countNewlines l.raw + 1 = l.count
  ends : l.terminated = true → ¬ WantsMore l.directive l.raw l.text
  last : l.terminated = false → l.raw.getLast? ≠ some newline

/-- A line that ends with its source, where it would go on. -/
structure CutShort (l : LogicalLine) : Prop where
  counted : countNewlines l.raw = l.count
  terminated : l.terminated = false
  wants : ∃ body, l.raw = body ++ [newline] ∧ WantsMore l.directive body l.text

/-- A line that has begun and goes on. -/
structure Pending.GoesOn (p : Pending) : Prop where
  counted : p.Counted
  wants : WantsMore p.directive p.raw p.text

theorem Pending.extend_wantsMore (p : Pending) (l : PhysicalLine) :
    (p.extend l).2 = true ↔
      WantsMore (p.extend l).1.directive (p.extend l).1.raw (p.extend l).1.text := by
  rw [extend_directive]
  exact p.extend_goesOn l

theorem Pending.extend_complete {p : Pending} {last : PhysicalLine}
    (hcounted : (p.extend last).1.Counted) (hunbroken : newline ∉ last.text)
    (hfull : last.terminated = false → last.text ≠ [])
    (hends : ¬ ((p.extend last).2 && last.terminated) = true) :
    Complete ((p.extend last).1.close last.terminated) where
  counted := hcounted
  ends hterminated := by
    have hterminated : last.terminated = true := hterminated
    have hstops : ¬ (p.extend last).2 = true := by simpa [hterminated] using hends
    rwa [Pending.extend_wantsMore] at hstops
  last hterminated := by
    show (p.extend last).1.raw.getLast? ≠ some newline
    rw [Pending.extend_raw, List.getLast?_append_of_ne_nil _ (hfull hterminated)]
    exact fun hlast => hunbroken (List.mem_of_getLast? hlast)

theorem Pending.GoesOn.cutShort {p : Pending} (hp : p.GoesOn) :
    CutShort ({ p with raw := p.raw ++ [newline] }.close false) where
  counted := by
    show countNewlines (p.raw ++ [newline]) = p.count
    rw [← hp.counted, countNewlines, List.count_append]
    rfl
  terminated := rfl
  wants := ⟨p.raw, rfl, hp.wants⟩

theorem joinLines_ended {physical : List PhysicalLine} (hbroken : Broken physical)
    (hfull : ∀ l ∈ physical, l.terminated = false → l.text ≠ []) (start : Start)
    (pending : Option Pending) (hpending : ∀ p, pending = some p → p.GoesOn) :
    ∀ l ∈ joinLines start pending physical, Complete l ∨ CutShort l := by
  induction hbroken generalizing start pending with
  | nil =>
    cases pending with
    | none => simp [joinLines]
    | some p =>
      intro l hl
      rw [joinLines, List.mem_singleton] at hl
      exact .inr (hl ▸ (hpending p rfl).cutShort)
  | @cons first rest unbroken more next ih =>
    have hrest : ∀ l ∈ rest, l.terminated = false → l.text ≠ [] :=
      fun l hl => hfull l (List.mem_cons_of_mem _ hl)
    have hcounted : ((pending.getD (start.pending first)).extend first).1.Counted := by
      refine Pending.extend_counted ?_ unbroken
      cases pending with
      | none => exact .inl rfl
      | some p => exact .inr (hpending p rfl).counted
    rw [joinLines]
    dsimp only
    split
    · next hgoes =>
      refine ih hrest start _ ?_
      rintro p ⟨⟩
      exact ⟨hcounted, (Pending.extend_wantsMore _ _).1 (Bool.and_eq_true_iff.1 hgoes).1⟩
    · next hends =>
      refine List.forall_mem_cons.2 ⟨?_, ih hrest _ none (by simp)⟩
      exact .inl (Pending.extend_complete hcounted unbroken (hfull first List.mem_cons_self) hends)

/-- **Every line of a source** is complete, or cut short by the end of the source. -/
theorem logicalLines_ended (source : Bytes) :
    ∀ l ∈ logicalLines source, Complete l ∨ CutShort l :=
  joinLines_ended (physicalLines_broken source) (physicalLines_full source) {} none (by simp)

/-- A directive starts outside all comments. -/
theorem Reads.startsOutside {start : Start} {lines : List LogicalLine} (h : Reads start lines) :
    ∀ l ∈ lines, l.directive = true → l.endsInComment = endsInComment false l.text := by
  induction h with
  | nil => simp
  | cons here _ _ ih =>
    refine List.forall_mem_cons.2 ⟨fun hdirective => ?_, ih⟩
    rw [here.comment, here.outside hdirective]

/-- Only the last line of a source may lack its newline. -/
theorem Reads.getLast?_of_open {start : Start} {lines : List LogicalLine} (h : Reads start lines)
    {l : LogicalLine} (hl : l ∈ lines) (hopen : l.terminated = false) :
    lines.getLast? = some l := by
  induction h with
  | nil => exact absurd hl (by simp)
  | @cons _ first rest _ more _ ih =>
    rcases List.mem_cons.1 hl with rfl | hl
    · rw [more.resolve_left (by simp [hopen])]
      rfl
    · rw [List.getLast?_cons, ih hl]
      rfl

/-- A line whose last line break stands where the line would go on, at a backslash or, in a
    directive, inside a block comment. -/
def LogicalLine.RunsOut (l : LogicalLine) : Prop :=
  ∃ body, l.bytes = body ++ [newline] ∧
    (EndsOpen body ∨ l.directive = true ∧ l.endsInComment = true)

/-- The lines that run out are those that the end of the source cuts short. -/
theorem runsOut_iff {source : Bytes} {l : LogicalLine} (hl : l ∈ logicalLines source) :
    l.RunsOut ↔ CutShort l := by
  have houtside := (logicalLines_reads source).startsOutside l hl
  have hwants : ∀ body, (EndsOpen body ∨ l.directive = true ∧ l.endsInComment = true) ↔
      WantsMore l.directive body l.text := by
    intro body
    refine or_congr_right (and_congr_right fun hdirective => ?_)
    rw [houtside hdirective]
  constructor
  · rintro ⟨body, hbody, hmore⟩
    rw [hwants] at hmore
    refine (logicalLines_ended source l hl).resolve_left fun hcomplete => ?_
    unfold LogicalLine.bytes at hbody
    cases hterminated : l.terminated with
    | true =>
      simp only [hterminated, if_true, List.append_cancel_right_eq] at hbody
      exact hcomplete.ends hterminated (hbody ▸ hmore)
    | false =>
      simp only [hterminated, Bool.false_eq_true, if_false, List.append_nil] at hbody
      exact hcomplete.last hterminated (hbody ▸ List.getLast?_concat)
  · intro hcut
    obtain ⟨body, hraw, hmore⟩ := hcut.wants
    refine ⟨body, ?_, (hwants body).2 hmore⟩
    simp [LogicalLine.bytes, hcut.terminated, hraw]

end Source

namespace Engine

open Source (LogicalLine logicalLines Complete CutShort)

/-! ## Placeholders -/

theorem countNewlines_blankLines (l : LogicalLine) :
    countNewlines (blankLines l) = if l.terminated then l.count else l.count - 1 :=
  List.count_replicate_self

theorem countNewlines_bytes (l : LogicalLine) :
    countNewlines l.bytes = countNewlines l.raw + if l.terminated then 1 else 0 := by
  unfold LogicalLine.bytes countNewlines
  rw [List.count_append]
  split <;> rfl

theorem blankLines_of_complete {l : LogicalLine} (h : Complete l) :
    countNewlines (blankLines l) = countNewlines l.bytes := by
  rw [countNewlines_blankLines, countNewlines_bytes, ← h.counted]
  split <;> rfl

theorem blankLines_of_cutShort {l : LogicalLine} (h : CutShort l) :
    countNewlines (blankLines l) + 1 = countNewlines l.bytes := by
  obtain ⟨body, hraw, -⟩ := h.wants
  have hcounted := h.counted
  rw [hraw, countNewlines, List.count_append] at hcounted
  rw [countNewlines_blankLines, countNewlines_bytes, h.terminated, h.counted, ← hcounted]
  rfl

/-- **A dropped line leaves its line breaks behind**, as many as the part of the source has that the
    line covers, exactly when it does not run out. A line that runs out is the last one of a source
    that ends in a newline, and leaves one line break less. -/
theorem blankLines_breaks_iff {source : Bytes} {l : LogicalLine} (hl : l ∈ logicalLines source) :
    (countNewlines (blankLines l) = countNewlines l.bytes ↔ ¬ l.RunsOut) ∧
    (l.RunsOut → countNewlines (blankLines l) + 1 = countNewlines l.bytes ∧
      (logicalLines source).getLast? = some l ∧ source.getLast? = some newline) := by
  rw [Source.runsOut_iff hl]
  constructor
  · constructor
    · intro hsame hcut
      have hless := blankLines_of_cutShort hcut
      omega
    · intro hnot
      exact blankLines_of_complete ((Source.logicalLines_ended source l hl).resolve_right hnot)
  · intro hcut
    have hlast := (Source.logicalLines_reads source).getLast?_of_open hl hcut.terminated
    refine ⟨blankLines_of_cutShort hcut, hlast, ?_⟩
    obtain ⟨front, hfront⟩ := List.getLast?_eq_some_iff.1 hlast
    obtain ⟨body, hbody, -⟩ := (Source.runsOut_iff hl).2 hcut
    have hsource := Source.bytesOf_logicalLines source
    rw [hfront, Source.bytesOf, List.flatMap_append, List.flatMap_singleton, hbody,
      ← List.append_assoc] at hsource
    rw [← hsource]
    exact List.getLast?_concat

/-- A directive that ends in a backslash before the last newline of its source. -/
def continuedPragma : Bytes :=
  ascii "x\n#pragma y\\\n"

theorem blankLines_breaks_iff_continuedPragma :
    ∃ l ∈ logicalLines continuedPragma, l.RunsOut ∧ blankLines l = [] ∧
      countNewlines (blankLines l) ≠ countNewlines l.bytes ∧
      countNewlines (blankLines l) + 1 = countNewlines l.bytes := by
  obtain ⟨l, hl⟩ : ∃ l, (logicalLines continuedPragma)[1]? = some l :=
    Option.isSome_iff_exists.1 (by decide +kernel)
  have hmem : l ∈ logicalLines continuedPragma := List.mem_of_getElem? hl
  have hbytes : l.bytes = ascii "#pragma y\\" ++ [newline] := by
    have hall : (logicalLines continuedPragma)[1]?.map LogicalLine.bytes =
        some (ascii "#pragma y\\" ++ [newline]) := by decide +kernel
    rw [hl] at hall
    exact Option.some.inj hall
  have hblank : blankLines l = [] := by
    have hall : (logicalLines continuedPragma)[1]?.map blankLines = some [] := by decide +kernel
    rw [hl] at hall
    exact Option.some.inj hall
  have hout : l.RunsOut := ⟨_, hbytes, .inl (by decide)⟩
  obtain ⟨hiff, hless⟩ := blankLines_breaks_iff hmem
  exact ⟨l, hmem, hout, hblank, fun hsame => hiff.1 hsame hout, (hless hout).1⟩

end Engine

end Preproc
