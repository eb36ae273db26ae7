import Preproc.Proofs.Engine.LockedMacros

set_option autoImplicit false

/-! # Errors that come too late

A directive that reports an error is dropped: it leaves the macros and the line numbers as they are.
Two directives break this rule, both where extra tokens are errors: `#undef` drops its macro and
`#line` sets its numbers although they complain about what follows their operands. No other
directive does (`error_keeps_iff`). -/

namespace Preproc.Engine

/-! ## Effects and errors -/

/-- The state `s'` has the macros and the line numbers of `s`. -/
structure Keeps (s s' : State) : Prop where
  table : s'.table = s.table
  tracker : s'.tracker = s.tracker

theorem Keeps.refl (s : State) : Keeps s s :=
  ⟨rfl, rfl⟩

theorem Keeps.reported {s s' s'' : State} (h : Keeps s s') (h' : Reported s' s'') : Keeps s s'' :=
  ⟨h'.table.trans h.table, h'.tracker.trans h.tracker⟩

/-- A directive that reports no error and does not fail. -/
def Faultless (s : State) (out : Outcome) : Prop :=
  out.failure = none ∧ out.state.reporter.errors = s.reporter.errors

/-- An `#undef` with the operands at `c` that drops a macro and complains about what follows its
    name. -/
structure DropsLate (h : Host) (s : State) (c : Cursor) : Prop where
  strict : h.settings.strict = true
  named : Macro.checkName c.nextNonSpace.1 Keyword.undef.name = .ok ()
  seen : (s.table.lookup c.nextNonSpace.1.text).any (·.origin ≠ .locked) = true
  extra : c.nextNonSpace.2.remaining ≠ []

/-- A line directive with the operands at `c` that changes the line numbers to `t` and complains
    about what follows its operands. The form without a name does not complain. -/
structure RenumbersLate (h : Host) (s : State) (name : Bytes) (c : Cursor) (t : Tracker) :
    Prop where
  strict : h.settings.strict = true
  named : name.isEmpty = false
  sets : ∃ t' n file rest, s.tracker = some t' ∧ lineOperands name c = .ok (n, file, rest) ∧
    rest.remaining ≠ [] ∧ t = t'.setLine n file
  changed : s.tracker ≠ some t

/-- The line holds a directive that takes effect and is an error. -/
def ErrsLate (h : Host) (s : State) (pos : Position) (line : Bytes) : Prop :=
  (∃ name c, Announces .undef pos line name c ∧ DropsLate h s c) ∨
    ∃ name c t, Announces .line pos line name c ∧ h.includer.isSome = true ∧
      RenumbersLate h s name.text c t

/-! ## Checks -/

section Checks

variable {h : Host} {s : State}

theorem caution_errors (s : State) (pos : Position) (c : Caution) :
    (s.caution pos c).reporter.errors = s.reporter.errors :=
  warn_errors _ _ _ _

/-- Extra tokens are an error in strict mode only. -/
theorem checkTrailing_errors (h : Host) (s : State) (c : Cursor) (kw : Keyword) :
    (s.checkTrailing h c kw).reporter.errors = s.reporter.errors ∨
      h.settings.strict = true ∧ c.remaining ≠ [] := by
  unfold State.checkTrailing
  split
  · exact .inl rfl
  · next extra more hextra =>
    split
    · next hstrict => exact .inr ⟨hstrict, by simp [hextra]⟩
    · exact .inl (caution_errors s _ _)

/-- In strict mode, extra tokens are one error. -/
theorem checkTrailing_strict {c : Cursor} (hstrict : h.settings.strict = true)
    (hextra : c.remaining ≠ []) (s : State) (kw : Keyword) :
    ∃ pos, s.checkTrailing h c kw = s.complain pos (.extraTokens kw) := by
  unfold State.checkTrailing
  split
  · next hnone => exact absurd hnone hextra
  · next extra more _ => exact ⟨extra.pos, if_pos hstrict⟩

/-- The form of a line directive without a name never complains about extra tokens. -/
theorem checkLineRest_errors (h : Host) (s : State) (name : Bytes) (c : Cursor) :
    (s.checkLineRest h name c).reporter.errors = s.reporter.errors ∨
      name.isEmpty = false ∧ h.settings.strict = true ∧ c.remaining ≠ [] := by
  unfold State.checkLineRest
  split
  · split
    · exact .inl (caution_errors s _ _)
    · exact .inl rfl
  · next hname =>
    exact (checkTrailing_errors h s c .line).imp id fun hlate => ⟨by simpa using hname, hlate⟩

end Checks

/-! ## Directives -/

section Directives

variable {h : Host} {nested : Option Nested} {s : State} {pos : Position} {c : Cursor}

theorem branch_keeps {test : State → State × Bool} (htest : Harmless test) (pos : Position)
    (step : Branch.Step) : Keeps s (s.branch pos step test).state := by
  obtain ⟨branches, evaluations, hreported⟩ := branch_reported htest pos step
  exact ⟨hreported.table, hreported.tracker⟩

theorem close_keeps (kw : Keyword) (result : Except Branch.Refusal Branch.Stack) :
    Keeps s (s.close h pos kw c result).state := by
  obtain ⟨branches, hreported⟩ := close_reported h s pos kw c result
  exact ⟨hreported.table, hreported.tracker⟩

/-- A definition changes the table only when nothing is wrong with it. -/
theorem defineDirective_keeps_or (h : Host) (s : State) (c : Cursor) :
    Keeps s (s.defineDirective h c).state ∨ Faultless s (s.defineDirective h c) := by
  have heffect := (defineDirective_effect h s c).1
  cases hp : Macro.parse h.limits c with
  | error e =>
    have hsame : tableAfterDefine h.limits s.table c = s.table := by
      simp only [tableAfterDefine, hp]
    exact .inl ⟨heffect.table.trans hsame, heffect.tracker⟩
  | ok p =>
    cases hr : Macro.define s.table p.definition with
    | error e =>
      have hsame : tableAfterDefine h.limits s.table c = s.table := by
        simp only [tableAfterDefine, hp, hr]
      exact .inl ⟨heffect.table.trans hsame, heffect.tracker⟩
    | ok r =>
      obtain ⟨s', hdefine, -, herrors⟩ := define_of_ok hp hr
      refine .inr ?_
      unfold State.defineDirective
      rw [hdefine]
      exact ⟨rfl, herrors⟩

/-- An `#undef` changes the table before it looks at what follows the name. -/
theorem undefDirective_keeps_or (h : Host) (s : State) (c : Cursor) :
    Keeps s (s.undefDirective h c).state ∨ Faultless s (s.undefDirective h c) ∨
      DropsLate h s c := by
  unfold State.undefDirective
  dsimp only
  split
  · exact .inl (.refl s)
  · next hnamed =>
    split
    · exact .inl (.refl s)
    · by_cases hseen : (s.table.lookup c.nextNonSpace.1.text).any (·.origin ≠ .locked) = true
      · rcases checkTrailing_errors h { s with table := _ } c.nextNonSpace.2 .undef with
          herrors | ⟨hstrict, hextra⟩
        · exact .inr (.inl ⟨rfl, herrors⟩)
        · exact .inr (.inr ⟨hstrict, hnamed, hseen, hextra⟩)
      · -- there is nothing to drop
        rw [Macro.Table.undefine?_eq, if_neg hseen]
        exact .inl ((Keeps.refl s).reported (Reported.checkTrailing h s _ _))

/-- A line directive sets the numbers after it has looked at what is left of the line. -/
theorem lineDirective_keeps_or (h : Host) (s : State) (name : Bytes) (pos : Position) (c : Cursor) :
    Keeps s (s.lineDirective h name pos c).state ∨ Faultless s (s.lineDirective h name pos c) ∨
      ∃ t, RenumbersLate h s name c t := by
  have htable := lineDirective_table h s name pos c
  rw [lineDirective_eq] at htable ⊢
  cases hoperands : lineOperands name c with
  | error e => exact .inl (.refl s)
  | ok asked =>
    obtain ⟨n, file, rest⟩ := asked
    have hleft := Reported.checkLineRest h s name rest
    rw [hoperands] at htable
    dsimp only at htable ⊢
    rw [hleft.tracker] at htable ⊢
    cases htracker : s.tracker with
    | none => exact .inl ((Keeps.refl s).reported hleft)
    | some t =>
      rw [htracker] at htable
      by_cases hsame : s.tracker = some (t.setLine n file)
      · exact .inl ⟨htable, hsame.symm⟩
      rcases checkLineRest_errors h s name rest with herrors | ⟨hname, hstrict, hextra⟩
      · exact .inr (.inl ⟨rfl, herrors⟩)
      · exact .inr (.inr ⟨t.setLine n file, hstrict, hname,
          ⟨t, n, file, rest, htracker, hoperands, hextra, rfl⟩, hsame⟩)

theorem external_keeps_or {kw : Option Keyword} (hkw : kw ≠ some .includeFile) (name : Bytes) :
    Keeps s (s.external h nested kw name pos c).state ∨
      Faultless s (s.external h nested kw name pos c) ∨
      kw = some .line ∧ h.includer.isSome = true ∧ ∃ t, RenumbersLate h s name c t := by
  have hout := external_outcome h nested s kw name pos c
  generalize s.external h nested kw name pos c = out at hout ⊢
  cases hout with
  | included _ hincludes => exact absurd hincludes hkw
  | renumbered hfind hline =>
    exact (lineDirective_keeps_or h s name pos c).imp id (.imp id fun hlate =>
      ⟨hline, hfind, hlate⟩)
  | ignored | failed => exact .inl (.refl s)
  | warned => exact .inl ((Keeps.refl s).reported (.caution s _ _))

/-- What a directive that includes no file does: it keeps the macros and the line numbers, or
    nothing is wrong with it, or it errs late. -/
theorem dispatch_keeps_or {kw : Option Keyword} (hkw : kw ≠ some .includeFile) (name : Token) :
    Keeps s (s.dispatch h nested kw name c).state ∨ Faultless s (s.dispatch h nested kw name c) ∨
      kw = some .undef ∧ DropsLate h s c ∨
      kw = some .line ∧ h.includer.isSome = true ∧ ∃ t, RenumbersLate h s name.text c t := by
  have hopened : ∀ {test : State → State × Bool}, Harmless test → ∀ step : Branch.Step,
      Keeps s ((s.branch name.pos step test).state.checkDepth name.pos) := fun htest step =>
    (branch_keeps htest name.pos step).reported (.checkDepth _ _)
  unfold State.dispatch
  dsimp only
  split
  · exact .inl (hopened (harmless_test _ _ _) _)
  · exact .inl (hopened (harmless_testDefined h _ _) _)
  · exact .inl (hopened (harmless_testDefined h _ _) _)
  · exact .inl (branch_keeps (harmless_test _ _ _) _ _)
  · exact .inl (close_keeps _ _)
  · exact .inl (close_keeps _ _)
  · exact (defineDirective_keeps_or h s c).imp id .inl
  · exact (undefDirective_keeps_or h s c).imp id (.imp id fun hlate => .inl ⟨rfl, hlate⟩)
  · exact (external_keeps_or hkw name.text).imp id (.imp id .inr)

/-- The report of a failure at the end changes nothing, and is the only one that is added. -/
theorem reported_keeps_or {out : Outcome} {P : Prop}
    (hout : Keeps s out.state ∨ Faultless s out ∨ P) (pos : Position) :
    Keeps s (out.reported pos).state ∨
      (out.reported pos).state.reporter.errors = s.reporter.errors ∨ P := by
  refine hout.imp (fun hkeeps => hkeeps.reported (reported_effect out pos).1)
    (.imp (fun hfault => ?_) id)
  obtain ⟨hfailure, herrors⟩ := hfault
  simp only [Outcome.reported, hfailure]
  exact herrors

/-- **One directive** that includes no file, where lines are compiled. -/
theorem directiveWith_keeps_or (nested : Option Nested) (hs : s.compiling = true) {line : Bytes}
    (hline : ∀ name c, ¬ Announces .includeFile pos line name c) :
    Keeps s (s.directiveWith h nested pos line).state ∨
      (s.directiveWith h nested pos line).state.reporter.errors = s.reporter.errors ∨
      ErrsLate h s pos line := by
  have hout := directiveWith_outcome h nested s pos line
  generalize s.directiveWith h nested pos line = out at hout ⊢
  cases hout with
  | unsigned | invalid => exact .inl ((Keeps.refl s).reported (.complain s _ _))
  | ignored => exact .inl (.refl s)
  | @named name c hsigned hident =>
    have hannounces : ∀ kw, Keyword.ofName? name.text = some kw → Announces kw pos line name c :=
      fun kw hkw => ⟨hsigned.sign, hsigned.read, hident, hkw⟩
    obtain ⟨resync, hnote⟩ := noteSwitch_effect
      (s.dispatch h nested (Keyword.ofName? name.text) name c) s.compiling
    rw [hnote]
    refine reported_keeps_or ?_ _
    refine (dispatch_keeps_or (fun hkw => hline _ _ (hannounces _ hkw)) _).imp
      (fun hkeeps => ⟨hkeeps.table, hkeeps.tracker⟩) (.imp id ?_)
    rintro (⟨hkw, hlate⟩ | ⟨hkw, hfind, t, hlate⟩)
    · exact .inl ⟨_, _, hannounces _ hkw, hlate⟩
    · exact .inr ⟨_, _, t, hannounces _ hkw, hfind, hlate⟩
  | numbered =>
    refine reported_keeps_or ((external_keeps_or (by simp) []).imp id (.imp id ?_)) _
    -- the form without a name allows extra tokens
    rintro ⟨-, -, t, hlate⟩
    exact absurd hlate.named (by simp)
  | skipped _ hskipped => exact absurd (hs.symm.trans hskipped) (by simp)

end Directives

/-! ## Late errors -/

section Late

variable {h : Host} {nested : Option Nested} {s : State} {pos : Position} {line : Bytes}

/-- A directive that does not fail leaves what its own function leaves. -/
theorem Announces.state_of_no_failure {kw : Keyword} {name : Token} {c : Cursor}
    (ha : Announces kw pos line name c) (hs : s.compiling = true)
    (hfailure : (s.dispatch h nested (some kw) name c).failure = none) :
    ∃ resync, (s.directiveWith h nested pos line).state =
      { (s.dispatch h nested (some kw) name c).state with resync } := by
  obtain ⟨resync, hnote⟩ := noteSwitch_effect (s.dispatch h nested (some kw) name c) true
  refine ⟨resync, ?_⟩
  rw [ha.directiveWith h nested hs, hnote]
  simp only [Outcome.reported, hfailure]

/-- A late `#undef` drops its macro and reports one error. -/
theorem DropsLate.dispatch {c : Cursor} (hlate : DropsLate h s c) (nested : Option Nested)
    (name : Token) :
    ∃ table p, s.dispatch h nested (some .undef) name c =
        { state := { s with table }.complain p (.extraTokens .undef) } ∧
      (s.table.Wf → table.lookup c.nextNonSpace.1.text = none) := by
  have hfree : (s.table.lookup c.nextNonSpace.1.text).any (·.origin = .locked) = false := by
    obtain ⟨d, hd, horigin⟩ := (Option.any_eq_true _ _).1 hlate.seen
    simpa [hd] using horigin
  obtain ⟨p, hp⟩ := checkTrailing_strict hlate.strict hlate.extra
    { s with table := (s.table.undefine? c.nextNonSpace.1.text).getD s.table } .undef
  refine ⟨(s.table.undefine? c.nextNonSpace.1.text).getD s.table, p, ?_, fun hwf => ?_⟩
  · simp only [State.dispatch, State.undefDirective, hlate.named, hfree, Bool.false_eq_true,
      if_false, hp]
  · have hr := Macro.Represents.of_wf hwf
    have hseen := hlate.seen
    rw [hr.lookup] at hseen
    have hafter := (hr.undefine c.nextNonSpace.1.text).lookup c.nextNonSpace.1.text
    rw [Macro.Contents.apply, if_pos hseen] at hafter
    exact hafter.trans (by simp [Macro.Contents.lookup, Macro.Contents.set])

/-- A late line directive sets its numbers and reports one error. -/
theorem RenumbersLate.dispatch {name : Token} {c : Cursor} {t : Tracker}
    (hlate : RenumbersLate h s name.text c t) (hfind : h.includer.isSome = true)
    (nested : Option Nested) :
    ∃ p, s.dispatch h nested (some .line) name c =
      { state := { s.complain p (.extraTokens .line) with tracker := some t } } := by
  obtain ⟨t', n, file, rest, htracker, hoperands, hextra, rfl⟩ := hlate.sets
  obtain ⟨find, hfind⟩ := Option.isSome_iff_exists.1 hfind
  obtain ⟨p, hp⟩ := checkTrailing_strict hlate.strict hextra s .line
  have hrest : s.checkLineRest h name.text rest = s.complain p (.extraTokens .line) := by
    rw [State.checkLineRest, hlate.named, if_neg (by simp), hp]
  refine ⟨p, ?_⟩
  simp only [State.dispatch, State.external, hfind, lineDirective_eq, hoperands, hrest]
  simp only [State.complain, htracker]

/-- A directive that errs late reports extra tokens, as its only error, and takes effect. -/
theorem ErrsLate.reports (hlate : ErrsLate h s pos line) (hwf : s.table.Wf)
    (hs : s.compiling = true) (nested : Option Nested) :
    ¬ Keeps s (s.directiveWith h nested pos line).state ∧
      ∃ p kw, (s.directiveWith h nested pos line).state.reporter =
        s.reporter.error p (Complaint.extraTokens kw).message := by
  rcases hlate with ⟨name, c, ha, hlate⟩ | ⟨name, c, t, ha, hfind, hlate⟩
  · obtain ⟨table, p, hdispatch, hnone⟩ := hlate.dispatch nested name
    obtain ⟨resync, hstate⟩ := ha.state_of_no_failure hs (by rw [hdispatch])
    rw [hstate, hdispatch]
    refine ⟨fun hkeeps => ?_, p, .undef, rfl⟩
    -- the macro could be seen before
    have hsame : table = s.table := hkeeps.table
    have hseen := hlate.seen
    rw [← hsame, hnone hwf] at hseen
    exact absurd hseen (by simp)
  · obtain ⟨p, hdispatch⟩ := hlate.dispatch hfind nested
    obtain ⟨resync, hstate⟩ := ha.state_of_no_failure hs (by rw [hdispatch])
    rw [hstate, hdispatch]
    exact ⟨fun hkeeps => hlate.changed hkeeps.tracker.symm, p, .line, rfl⟩

end Late

/-! ## Main statement -/

/-- **When an error leaves the macros and the line numbers alone.** Where lines are compiled, a
    directive other than an include directive that reports an error keeps both, unless it errs late:
    in strict mode, an `#undef` with tokens after the name of a macro, or a `#line` with tokens
    after its operands. Such a directive reports these tokens, and nothing else, and takes
    effect. -/
theorem error_keeps_iff (h : Host) {s : State} (hs : Reachable h s)
    (hcompiling : s.compiling = true) (levels : Nat) (pos : Position) (line : Bytes)
    (hline : ∀ name c, ¬ Announces .includeFile pos line name c) :
    ∃ told, Delivers s.reporter told
        (s.directiveWith h (nestedProcess h levels) pos line).state.reporter ∧
      ((∃ d ∈ told, countsAsError d = true) →
        (Keeps s (s.directiveWith h (nestedProcess h levels) pos line).state ↔
          ¬ ErrsLate h s pos line)) ∧
      (ErrsLate h s pos line →
        ∃ p kw, told = [⟨p, .error, .none, (Complaint.extraTokens kw).message⟩]) := by
  by_cases hlate : ErrsLate h s pos line
  · obtain ⟨hchanged, p, kw, hreporter⟩ := hlate.reports hs.wf hcompiling (nestedProcess h levels)
    rw [hreporter]
    exact ⟨_, delivers_error _ _ _, fun _ => iff_of_false hchanged (not_not_intro hlate),
      fun _ => ⟨p, kw, rfl⟩⟩
  · obtain ⟨told, hdelivers⟩ :=
      (directiveWith_told (nestedProcess_told h levels) h s pos line).delivers
    refine ⟨told, hdelivers, fun herror => iff_of_true ?_ hlate, fun hl => absurd hl hlate⟩
    rcases directiveWith_keeps_or (nestedProcess h levels) hcompiling hline with
      hkeeps | hnone | hl
    · exact hkeeps
    · have hcount := hdelivers.errors
      rw [hnone] at hcount
      exact absurd (List.countP_pos_iff.2 herror) (by omega)
    · exact absurd hl hlate

/-- A host that treats extra tokens as errors. -/
def fussyHost : Host where
  settings := { strict := true }
  includer := some fun _ _ _ => .error (ascii "no such file")

/-- The state of that host inside a file that has defined `A`. -/
def fussyState : State :=
  ((fussyHost.start.1.openFile (ascii "main.c")).directiveWith fussyHost
    (nestedProcess fussyHost 1) { line := 1, column := 1 } (ascii "#define A 1")).state

/-- There, `#undef A x` is an error and drops `A`, and `#line 7 "x.c" junk` is an error and sets the
    line numbers. -/
theorem error_keeps_iff_late :
    let pos : Position := { line := 2, column := 1 }
    let undef := ascii "#undef A x"
    let line := ascii "#line 7 \"x.c\" junk"
    let after := fun text => (fussyState.directiveWith fussyHost (nestedProcess fussyHost 1) pos
      text).state
    Reachable fussyHost fussyState ∧ fussyState.compiling = true ∧
      (ErrsLate fussyHost fussyState pos undef ∧ ¬ Keeps fussyState (after undef) ∧
        (after undef).reporter.errors = fussyState.reporter.errors + 1 ∧
        (fussyState.table.lookup (ascii "A")).isSome = true ∧
        (after undef).table.lookup (ascii "A") = none) ∧
      ErrsLate fussyHost fussyState pos line ∧ ¬ Keeps fussyState (after line) ∧
        (after line).reporter.errors = fussyState.reporter.errors + 1 ∧
        (after line).tracker.map (·.name) = some (ascii "x.c") := by
  intro pos undef line after
  have hs : Reachable fussyHost fussyState :=
    ((Reachable.start (by decide +kernel)).openFile _).directive 1 _ _
  have hcompiling : fussyState.compiling = true := by decide +kernel
  have hundef : ErrsLate fussyHost fussyState pos undef :=
    .inl ⟨_, _, ⟨by decide +kernel, rfl, by decide +kernel, by decide +kernel⟩,
      by decide +kernel, by decide +kernel, by decide +kernel, by decide +kernel⟩
  let name := (Cursor.ofText pos line).nextNonSpace.2.nextNonSpace.1
  let operands := (Cursor.ofText pos line).nextNonSpace.2.nextNonSpace.2
  have hread : readNat? 10 0x80000000 operands.nextNonSpace.1.text = some 7 := by decide +kernel
  have hoperands : lineOperands name.text operands =
      .ok (7, unquote operands.nextNonSpace.2.nextNonSpace.1.text,
        operands.nextNonSpace.2.nextNonSpace.2) := by
    have hstring : operands.nextNonSpace.2.nextNonSpace.1.kind = .string := by decide +kernel
    unfold lineOperands
    dsimp only
    rw [if_neg (by decide +kernel), hread]
    dsimp only
    rw [if_neg (by simp), hstring, if_neg (by simp), if_pos rfl]
  have hnumbers : ErrsLate fussyHost fussyState pos line :=
    .inr ⟨name, operands, (fussyState.tracker.get (by decide +kernel)).setLine 7 _,
      ⟨by decide +kernel, rfl, by decide +kernel, by decide +kernel⟩, by decide +kernel,
      by decide +kernel, by decide +kernel,
      ⟨_, 7, _, _, (Option.some_get _).symm, hoperands, by decide +kernel, rfl⟩, by decide +kernel⟩
  -- neither line includes a file
  have hkeyword : ∀ text,
      Keyword.ofName? (Cursor.ofText pos text).nextNonSpace.2.nextNonSpace.1.text ≠
        some .includeFile → ∀ name c, ¬ Announces .includeFile pos text name c :=
    fun text htext name c ha => htext (by rw [ha.read, ha.keyword])
  obtain ⟨told, hdelivers, hkeeps, hlate⟩ := error_keeps_iff fussyHost hs hcompiling 1 pos undef
    (hkeyword undef (by decide +kernel))
  obtain ⟨told', hdelivers', hkeeps', hlate'⟩ := error_keeps_iff fussyHost hs hcompiling 1 pos line
    (hkeyword line (by decide +kernel))
  obtain ⟨p, kw, rfl⟩ := hlate hundef
  obtain ⟨p', kw', rfl⟩ := hlate' hnumbers
  exact ⟨hs, hcompiling,
    ⟨hundef, fun hsame => (hkeeps ⟨_, List.mem_singleton_self _, rfl⟩).1 hsame hundef,
      hdelivers.errors, by decide +kernel, by decide +kernel⟩,
    hnumbers, fun hsame => (hkeeps' ⟨_, List.mem_singleton_self _, rfl⟩).1 hsame hnumbers,
    hdelivers'.errors, by decide +kernel⟩

end Preproc.Engine
