import Preproc.Proofs.Engine.LockedMacros
import Preproc.Proofs.Macro.Printed
import Preproc.Proofs.Token.DirectiveLine

set_option autoImplicit false

/-! # Where definitions come from

The built-in macros are in the table before anything else (`represents_builtin`). All others were
read from the tokens of a directive or of a text in the settings, and none takes the place of a
locked macro that the settings did not drop (`runs_ascribed`). -/

namespace Preproc

/-! ## Tokens of directives -/

/-- The next token that is no whitespace, where there is one. -/
theorem Cursor.nextNonSpace_split {c : Cursor} (heol : c.eol.kind = .endOfLine)
    (h : c.nextNonSpace.1.kind ≠ .endOfLine) :
    ∃ blanks, c.after = blanks ++ c.nextNonSpace.1 :: c.nextNonSpace.2.after ∧
      (∀ b ∈ blanks, b.isSpace = true) ∧ c.nextNonSpace.2.eol = c.eol := by
  have hafter := List.takeWhile_append_dropWhile (p := Token.isSpace) (l := c.after)
  cases hdrop : c.after.dropWhile Token.isSpace with
  | nil => simp [Cursor.nextNonSpace, Cursor.next, Cursor.skipSpace, hdrop, heol] at h
  | cons t rest =>
    rw [hdrop] at hafter
    refine ⟨c.after.takeWhile Token.isSpace, ?_, fun b hb => List.mem_takeWhile_imp hb, ?_⟩
    · simp only [Cursor.nextNonSpace, Cursor.next, Cursor.skipSpace, hdrop]
      exact hafter.symm
    · simp [Cursor.nextNonSpace, Cursor.next, Cursor.skipSpace, hdrop]

namespace Macro

open Lexer (WellCut Sealed Opens slashLexeme)

theorem gathered_of_joined {text : Bytes} (h : Source.Joined text) (pos : Position) :
    Gathered (Cursor.ofText pos text) := by
  refine ⟨rfl, ?_, ?_⟩
  · rw [shapes_ofText]
    exact (Lexer.wellCut_lexemes text).1
  · rw [shapes_ofText]
    exact Lexer.lexemes_sealed_or_opens h

/-- A token that is no slash can be read away. -/
theorem Gathered.next {c : Cursor} (h : Gathered c) (hkind : c.nextNonSpace.1.kind ≠ .endOfLine)
    (hslash : tokenShape c.nextNonSpace.1 ≠ slashLexeme) : Gathered c.nextNonSpace.2 := by
  obtain ⟨blanks, hafter, hblanks, heol⟩ := Cursor.nextNonSpace_split h.eol hkind
  have hsuffix : c.nextNonSpace.2.after.map tokenShape <:+ c.after.map tokenShape :=
    List.IsSuffix.map tokenShape
      ⟨blanks ++ [c.nextNonSpace.1], by rw [List.append_assoc, List.singleton_append, ← hafter]⟩
  refine ⟨by rw [heol, h.eol], h.cut.suffix hsuffix, h.unclosed.imp (·.suffix hsuffix) ?_⟩
  intro hopens
  rw [hafter, List.map_append, List.map_cons] at hopens
  have hrest := hopens.of_append fun hmem => by
    obtain ⟨b, hb, hshape⟩ := List.mem_map.1 hmem
    rw [shape_of_space (hblanks b hb)] at hshape
    simp [slashLexeme] at hshape
  exact (Or.resolve_left hrest fun h => hslash h.1).2

end Macro

namespace Engine

open Macro (Table TableOp Definition Gathered)

/-- The operands of a directive are gathered. -/
theorem Announces.gathered {kw : Keyword} {pos : Position} {line : Bytes} {name : Token}
    {c : Cursor} (ha : Announces kw pos line name c) (hline : Source.Joined line) : Gathered c := by
  have hsign := (Macro.is_iff .hash (by decide) _).1 ha.sign
  have hshape : Macro.tokenShape name = (.ident, name.text) :=
    Macro.shape_of_ident (by simp [Token.isIdent, ha.ident])
  have hname : (Cursor.ofText pos line).nextNonSpace.2.nextNonSpace.1 = name := by rw [ha.read]
  have hrest : (Cursor.ofText pos line).nextNonSpace.2.nextNonSpace.2 = c := by rw [ha.read]
  rw [← hrest]
  refine ((Macro.gathered_of_joined hline pos).next ?_ ?_).next ?_ ?_
  · rw [(Prod.mk.inj hsign).1]
    decide
  · rw [hsign]
    decide
  · rw [hname, ha.ident]
    decide
  · rw [hname, hshape]
    simp [Lexer.slashLexeme]

theorem definesFrom_gathered (contents : Bytes) :
    DefinesFrom Gathered (Source.logicalLines contents) := by
  intro l hl hdirective pos name c ha
  exact ha.gathered (Source.logicalLines_joined contents l hl hdirective)

/-! ## Built-in macros -/

/-- A macro without a body that directives cannot change. -/
def lockedMacro (name : Bytes) : Definition where
  name := name
  definedAt := { file := ascii "<builtin>" }
  origin := .locked

/-- A built-in macro that directives can change. -/
def openMacro (origin : Macro.Origin) (name : Bytes) : Definition where
  name := name
  body := [.literal (ascii "1")]
  definedAt := commandLine
  origin := origin

/-- The built-in macros. -/
def builtinMacros : List Definition :=
  [lockedMacro (ascii "__FILE__"), lockedMacro (ascii "__LINE__"),
    openMacro .predefined (ascii "__RPP__"), openMacro .extension (ascii "__RPP_EXTENSIONS__")]

theorem parse_builtins (limits : Macro.Limits) :
    Macro.parse limits (Cursor.ofText commandLine (ascii "__RPP__ 1")) =
        .ok { definition := openMacro .user (ascii "__RPP__"), notice := none } ∧
      Macro.parse limits (Cursor.ofText commandLine (ascii "__RPP_EXTENSIONS__ 1")) =
        .ok { definition := openMacro .user (ascii "__RPP_EXTENSIONS__"), notice := none } := by
  -- the tokens do not depend on the limits
  have htokens : Lexer.tokens commandLine (ascii "__RPP__ 1") =
      [⟨.ident, ascii "__RPP__", commandLine⟩, ⟨.space, ascii " ", commandLine.right 7⟩,
        ⟨.number, ascii "1", commandLine.right 8⟩] := by decide +kernel
  have htokens' : Lexer.tokens commandLine (ascii "__RPP_EXTENSIONS__ 1") =
      [⟨.ident, ascii "__RPP_EXTENSIONS__", commandLine⟩,
        ⟨.space, ascii " ", commandLine.right 18⟩,
        ⟨.number, ascii "1", commandLine.right 19⟩] := by decide +kernel
  unfold Macro.parse Macro.readHead Cursor.ofText
  rw [htokens, htokens']
  exact ⟨rfl, rfl⟩

theorem lockName_table (s : State) (name : Bytes) :
    (s.lockName name).table = s.table.apply (.definePrivileged (lockedMacro name)) := by
  unfold State.lockName
  dsimp only
  rw [(Reported.ceiling _ _).table]
  rfl

theorem defineTextAs_table {h : Host} {text : Bytes} {p : Macro.Parsed}
    (hp : Macro.parse h.limits (Cursor.ofText commandLine text) = .ok p) (s : State)
    (origin : Macro.Origin) :
    (s.defineTextAs h origin text).1.table =
      s.table.apply (.definePrivileged { p.definition with origin }) := by
  have hnotice := Reported.notice s p.definition.definedAt p.notice
  unfold State.defineTextAs State.defineAs
  rw [hp]
  dsimp only
  rw [(Reported.ceiling _ _).table, hnotice.table]
  rfl

/-- The table of the built-in macros. -/
def builtinTable (maxMacros : Int) (strict : Bool) : Table :=
  (builtinMacros.map TableOp.definePrivileged).foldl Table.apply (.empty maxMacros strict)

theorem builtinState_table (h : Host) :
    h.builtinState.table = builtinTable h.settings.maxMacros h.settings.strict := by
  obtain ⟨hpredefined, hextension⟩ := parse_builtins h.limits
  unfold Host.builtinState builtins lockedNames
  simp only [List.foldl_cons, List.foldl_nil]
  rw [defineTextAs_table hextension, defineTextAs_table hpredefined, lockName_table, lockName_table]
  rfl

/-- Definitions of different names, whatever was there before. -/
theorem stored_definePrivileged {ds : List Definition}
    (hdistinct : ds.Pairwise fun d d' => d.name ≠ d'.name) (m : Macro.Contents) (name : Bytes) :
    ((ds.map TableOp.definePrivileged).foldl Macro.Contents.apply m).stored name =
      (ds.find? (·.name = name)).or (m.stored name) := by
  induction ds generalizing m with
  | nil => rfl
  | cons d ds ih =>
    obtain ⟨hd, hds⟩ := List.pairwise_cons.1 hdistinct
    rw [List.map_cons, List.foldl_cons, ih hds]
    by_cases hname : d.name = name
    · have hnone : ds.find? (·.name = name) = none := by
        rw [List.find?_eq_none]
        intro d' hd' heq
        exact hd d' hd' (hname.trans (by simpa using heq : d'.name = name).symm)
      rw [hnone, List.find?_cons_of_pos (by simpa using hname)]
      simp [Macro.Contents.apply, Macro.Contents.stored_set, hname]
    · rw [List.find?_cons_of_neg (by simpa using hname)]
      simp [Macro.Contents.apply, Macro.Contents.stored_set, Ne.symm hname]

/-- The table of the built-in macros represents the map of them. -/
theorem represents_builtin (maxMacros : Int) (strict : Bool) :
    Macro.Represents (builtinTable maxMacros strict)
      { stored := fun name => builtinMacros.find? (·.name = name), strict } := by
  have hr := (Macro.Represents.of_empty maxMacros strict).run
    (builtinMacros.map TableOp.definePrivileged)
  have hdistinct : builtinMacros.Pairwise fun d d' => d.name ≠ d'.name := by decide
  refine ⟨hr.wf, fun name => (hr.stored name).trans ?_, ?_⟩
  · rw [stored_definePrivileged hdistinct]
    exact Option.or_none
  · exact hr.strict

theorem mem_builtinMacros {maxMacros : Int} {strict : Bool} {name : Bytes} {d : Definition}
    (hd : (builtinTable maxMacros strict).stored name = some d) :
    d ∈ builtinMacros ∧ d.name = name := by
  have hr := represents_builtin maxMacros strict
  have hfound : builtinMacros.find? (·.name = name) = some d := (hr.stored name).symm.trans hd
  exact ⟨List.mem_of_find?_eq_some hfound, by simpa using List.find?_some hfound⟩

/-- What the built-in macros are like. -/
theorem builtin_facts : ∀ b ∈ builtinMacros,
    b.origin ≠ .user ∧ b.functionLike = false ∧ b.params = [] ∧
      (b.origin = .locked → b.name ∈ lockedNames) := by
  decide

/-! ## Definitions of programs -/

/-- The definitions of a program's own in a table were read from gathered tokens, and the locked
    names are locked, those apart that the settings drop. -/
structure Ascribed (h : Host) (t : Table) : Prop where
  wf : t.Wf
  locked : ∀ name ∈ lockedNames, name ∉ h.settings.undefines →
    ∃ d, t.stored name = some d ∧ d.origin = .locked
  user : ∀ name d, t.stored name = some d → d.origin = .user →
    ∃ c p, Gathered c ∧ Macro.parse h.limits c = .ok p ∧ p.definition = d

theorem stored_name {t : Table} (hwf : t.Wf) {name : Bytes} {d : Definition}
    (h : t.stored name = some d) : d.name = name :=
  ((Table.stored_eq_some_iff hwf name d rfl).1 h).2

/-- A definition adds nothing but itself. -/
theorem stored_apply_define {t : Table} (hwf : t.Wf) {d d' : Definition} {name : Bytes}
    (h : (t.apply (.define d')).stored name = some d) : t.stored name = some d ∨ d = d' := by
  rw [((Macro.Represents.of_wf hwf).apply (.define d')).stored name] at h
  simp only [Macro.Contents.apply] at h
  split at h
  · exact Or.inl h
  · rw [Macro.Contents.stored_set] at h
    split at h
    · exact Or.inr (Option.some.inj h).symm
    · exact Or.inl h

/-- An edit adds no definition but its own. -/
theorem stored_apply_edit {t : Table} (hwf : t.Wf) {limits : Macro.Limits}
    {Operands : Cursor → Prop} {op : TableOp} (hop : Edit limits Operands op) {name : Bytes}
    {d : Definition} (h : (t.apply op).stored name = some d) :
    t.stored name = some d ∨
      ∃ c p, Operands c ∧ Macro.parse limits c = .ok p ∧ p.definition = d := by
  cases hop with
  | @define c p hc hp =>
    refine (stored_apply_define hwf h).imp_right fun hd => ?_
    exact ⟨c, p, hc, hp, hd.symm⟩
  | undefine dropped =>
    rw [((Macro.Represents.of_wf hwf).apply (.undefine dropped)).stored name] at h
    simp only [Macro.Contents.apply] at h
    split at h
    · rw [Macro.Contents.stored_set] at h
      split at h
      · exact absurd h (by simp)
      · exact Or.inl h
    · exact Or.inl h

section Ascribed

variable {h : Host} {t t' : Table}

theorem Edit.ascribed {op : TableOp} (hop : Edit h.limits Gathered op) (ht : Ascribed h t) :
    Ascribed h (t.apply op) where
  wf := ht.wf.apply op
  locked name hname hkept := by
    obtain ⟨d, hd, hlocked⟩ := ht.locked name hname hkept
    obtain rfl := stored_name ht.wf hd
    exact ⟨d, (hop.holds hlocked ⟨ht.wf, hd⟩).2, hlocked⟩
  user name d hd horigin := by
    rcases stored_apply_edit ht.wf hop hd with hd | hread
    · exact ht.user name d hd horigin
    · exact hread

theorem Edited.ascribed (hedited : Edited h.limits Gathered t t') (ht : Ascribed h t) :
    Ascribed h t' :=
  hedited.induct (fun _ _ hop ht => hop.ascribed ht) ht

theorem Ascribed.drop (ht : Ascribed h t) {name : Bytes} (hname : name ∈ h.settings.undefines) :
    Ascribed h (t.apply (.undefinePrivileged name)) := by
  have hstored := ((Macro.Represents.of_wf ht.wf).apply (.undefinePrivileged name)).stored
  simp only [Macro.Contents.apply, Macro.Contents.stored_set] at hstored
  refine ⟨ht.wf.apply _, fun other hother hkept => ?_, fun other d hd => ?_⟩
  · have hne : other ≠ name := fun heq => hkept (heq ▸ hname)
    rw [hstored, if_neg hne]
    exact ht.locked other hother hkept
  · rw [hstored] at hd
    split at hd
    · exact absurd hd (by simp)
    · exact ht.user other d hd

end Ascribed

theorem ascribed_builtin (h : Host) (maxMacros : Int) (strict : Bool) :
    Ascribed h (builtinTable maxMacros strict) := by
  have hr := represents_builtin maxMacros strict
  have hlocked : ∀ name ∈ lockedNames,
      builtinMacros.find? (·.name = name) = some (lockedMacro name) := by decide +kernel
  refine ⟨hr.wf, fun name hname _ => ⟨lockedMacro name, ?_, rfl⟩, fun name d hd horigin => ?_⟩
  · rw [hr.stored]
    exact hlocked name hname
  · exact absurd horigin (builtin_facts d (mem_builtinMacros hd).1).1

theorem cut?_eq_some {sep : UInt8} {text a b : Bytes} (h : cut? sep text = some (a, b)) :
    text = a ++ sep :: b := by
  have hsplit := List.takeWhile_append_dropWhile (p := (· != sep)) (l := text)
  have hhead := List.head?_dropWhile_not (· != sep) text
  unfold cut? at h
  split at h
  · exact absurd h (by simp)
  · next c after hdrop =>
    obtain ⟨rfl, rfl⟩ := Prod.mk.inj (Option.some.inj h)
    rw [hdrop] at hsplit hhead
    obtain rfl : c = sep := by simpa using hhead
    exact hsplit.symm

/-- A definition in the settings is on one line if its text is. -/
theorem ofText_lines {text : Bytes} {d : Settings.Define} (h : Settings.Define.ofText text = .ok d)
    (htext : newline ∉ text) : newline ∉ d.head ++ ascii " " ++ d.body := by
  have hblank : newline ∉ ascii " " ∧ newline ∉ ascii "1" := by decide
  have hparts : newline ∉ ((cut? (byte '=') text).getD (text, ascii "1")).1 ∧
      newline ∉ ((cut? (byte '=') text).getD (text, ascii "1")).2 := by
    cases hcut : cut? (byte '=') text with
    | none => exact ⟨htext, hblank.2⟩
    | some parts =>
      rw [cut?_eq_some hcut] at htext
      simp only [List.mem_append, List.mem_cons, not_or] at htext
      exact ⟨htext.1, htext.2.2⟩
  have hd : d = ⟨((cut? (byte '=') text).getD (text, ascii "1")).1,
      ((cut? (byte '=') text).getD (text, ascii "1")).2⟩ := by
    unfold Settings.Define.ofText at h
    grind
  rw [hd]
  simp [hparts, hblank.1]

/-- The table after the start of a host and any number of runs. -/
def Host.tableAfter (h : Host) (files : List (Bytes × Bytes)) : Table :=
  (files.foldl (fun s file => (s.run h file.1 file.2).1.state) h.start.1).table

theorem wf_tableAfter (h : Host) (files : List (Bytes × Bytes)) : (h.tableAfter files).Wf := by
  refine List.foldlRecOn (motive := fun s : State => s.table.Wf) files _ (wf_start h)
    fun s hs file _ => ?_
  exact (run_edited definesFrom_gathered h s file.1 file.2).wf hs

/-- **Whatever programs do, their definitions were read from gathered tokens.** -/
theorem runs_ascribed {h : Host} (hok : h.start.2 = none)
    (hdefines : ∀ text ∈ h.settings.defines, newline ∉ text) (files : List (Bytes × Bytes)) :
    Ascribed h (h.tableAfter files) := by
  have hstart : Ascribed h h.start.1.table := by
    rw [(start_of_ok hok).2]
    refine List.foldlRecOn (motive := fun s : State => Ascribed h s.table) h.settings.undefines _ ?_
      fun s hs name hname => hs.drop hname
    refine applyDefines_induct (P := fun s : State => Ascribed h s.table)
      (fun s text htext d hd hs => ?_) ?_
    · show Ascribed h (s.define h _).1.table
      rw [(define_effect h s _).table]
      refine Edited.ascribed (edited_define ?_ s.table) hs
      exact Macro.gathered_of_joined
        (Source.joined_of_lines (ofText_lines hd (hdefines text htext))) _
    · rw [builtinState_table]
      exact ascribed_builtin _ _ _
  refine List.foldlRecOn (motive := fun s : State => Ascribed h s.table) files _ hstart
    fun s hs file _ => ?_
  exact (run_edited definesFrom_gathered h s file.1 file.2).ascribed hs

end Engine

end Preproc
