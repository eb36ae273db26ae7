import Preproc.Proofs.Engine.FileScope
import Preproc.Proofs.Macro.FiniteMap
import Preproc.Proofs.Macro.RoundTrip
import Preproc.Proofs.Token.DirectiveLine

set_option autoImplicit false

/-! # What programs do to the macro table

Directives change the table in two ways: `#define` defines the macro that its operands are read as,
and `#undef` drops a name. So whatever a file holds and includes, the table afterwards comes from
the table before by a sequence of these two operations (`run_edited`), and what they keep, every
run keeps. Every table that a host can come to is well formed (`Reachable.wf`). -/

namespace Preproc

/-! ## Well-formed tables -/

/-- A well-formed table represents the map of its own definitions. -/
theorem Macro.Represents.of_wf {t : Macro.Table} (hwf : t.Wf) :
    Macro.Represents t { stored := t.stored, strict := t.strict } :=
  ⟨hwf, fun _ => rfl, rfl⟩

theorem Macro.Table.Wf.apply {t : Macro.Table} (hwf : t.Wf) (op : Macro.TableOp) :
    (t.apply op).Wf :=
  ((Macro.Represents.of_wf hwf).apply op).wf

namespace Engine

open Macro (Table TableOp)

/-! ## The directive on a line -/

/-- The line that starts at `pos` holds the directive `kw`, written as `name`, with the operands
    at `c`. -/
structure Announces (kw : Keyword) (pos : Position) (line : Bytes) (name : Token) (c : Cursor) :
    Prop where
  sign : (Cursor.ofText pos line).nextNonSpace.1.is .hash = true
  read : (Cursor.ofText pos line).nextNonSpace.2.nextNonSpace = (name, c)
  ident : name.kind = .ident
  keyword : Keyword.ofName? name.text = some kw

/-- A line that is cut into the sign of a directive, its name and other lexemes holds the directive,
    with these lexemes as its operands. -/
theorem announces_of_lexemes (kw : Keyword) {line : Bytes} {ls : List (TokenKind × Bytes)}
    (hline : Lexer.mergeSpaces (Lexer.lexemes line) =
      Macro.signLexeme .hash :: (.ident, kw.name) :: ls) (pos : Position) :
    ∃ name c, Announces kw pos line name c ∧ name.text = kw.name ∧
      c.after.map Macro.tokenShape = ls := by
  have hshapes := (Macro.shapes_ofText pos line).trans hline
  obtain ⟨sign, rest, hafter, hsign, hrest⟩ := List.map_eq_cons_iff.1 hshapes
  obtain ⟨name, rest, rfl, hname, hrest⟩ := List.map_eq_cons_iff.1 hrest
  have hkind : name.kind = .ident := congrArg Prod.fst hname
  have htext : name.text = kw.name := congrArg Prod.snd hname
  have hpunctuator : sign.kind = .punctuator := congrArg Prod.fst hsign
  have hstart : (Cursor.ofText pos line).after = sign :: name :: rest := hafter
  obtain ⟨hfirst, hnext, -⟩ := Cursor.nextNonSpace_of_cons hstart (by simp [hpunctuator])
  obtain ⟨hsecond, hoperands, -⟩ := Cursor.nextNonSpace_of_cons hnext (by simp [hkind])
  refine ⟨name, _, ⟨?_, Prod.ext hsecond rfl, hkind, ?_⟩, htext, ?_⟩
  · rw [hfirst]
    exact (Macro.is_iff .hash (by decide) sign).2 hsign
  · rw [htext]
    exact DirectiveLine.ofName?_name kw
  · rw [hoperands]
    exact hrest

/-- A directive that is not skipped is carried out and reported. -/
theorem Announces.directiveWith {kw : Keyword} {pos : Position} {line : Bytes} {name : Token}
    {c : Cursor} (ha : Announces kw pos line name c) (h : Host) (nested : Option Nested) {s : State}
    (hs : s.compiling = true) :
    s.directiveWith h nested pos line =
      ((s.dispatch h nested (some kw) name c).noteSwitch true).reported name.pos := by
  unfold State.directiveWith
  simp only [ha.sign, ha.read, ha.ident, ha.keyword, hs, Bool.not_true, Bool.false_and,
    Bool.false_eq_true, if_false]

/-! ## Edits -/

/-- An operation that a directive can make, its operands being of a given kind. -/
inductive Edit (limits : Macro.Limits) (Operands : Cursor → Prop) : TableOp → Prop where
  | define {c : Cursor} {p : Macro.Parsed} (hc : Operands c) (hp : Macro.parse limits c = .ok p) :
    Edit limits Operands (.define p.definition)
  | undefine (name : Bytes) : Edit limits Operands (.undefine name)

/-- The table `t'` comes from `t` by edits. -/
def Edited (limits : Macro.Limits) (Operands : Cursor → Prop) (t t' : Table) : Prop :=
  ∃ ops : List TableOp, (∀ op ∈ ops, Edit limits Operands op) ∧ t' = ops.foldl Table.apply t

section Edited

variable {limits : Macro.Limits} {Operands : Cursor → Prop} {t t' t'' : Table}

theorem Edited.refl (t : Table) : Edited limits Operands t t :=
  ⟨[], by simp, rfl⟩

theorem Edited.of_eq (h : t' = t) : Edited limits Operands t t' := by
  rw [h]
  exact .refl t

theorem Edited.trans (h : Edited limits Operands t t') (h' : Edited limits Operands t' t'') :
    Edited limits Operands t t'' := by
  obtain ⟨ops, hall, rfl⟩ := h
  obtain ⟨ops', hall', rfl⟩ := h'
  refine ⟨ops ++ ops', fun op hop => ?_, List.foldl_append.symm⟩
  rcases List.mem_append.1 hop with hop | hop
  · exact hall op hop
  · exact hall' op hop

/-- What every edit keeps, any number of them keeps. -/
theorem Edited.induct {P : Table → Prop} (h : Edited limits Operands t t')
    (hstep : ∀ t op, Edit limits Operands op → P t → P (t.apply op)) (ht : P t) : P t' := by
  obtain ⟨ops, hall, rfl⟩ := h
  induction ops generalizing t with
  | nil => exact ht
  | cons op ops ih =>
    exact ih (hstep t op (hall op (by simp)) ht) (fun op' hop => hall op' (by simp [hop]))

theorem Edited.wf (h : Edited limits Operands t t') (ht : t.Wf) : t'.Wf :=
  h.induct (fun _ op _ hwf => hwf.apply op) ht

theorem edited_define {c : Cursor} (hc : Operands c) (t : Table) :
    Edited limits Operands t (tableAfterDefine limits t c) := by
  unfold tableAfterDefine
  cases hp : Macro.parse limits c with
  | error e => exact .refl t
  | ok p =>
    refine ⟨[.define p.definition], by simpa using Edit.define hc hp, ?_⟩
    simp only [List.foldl_cons, List.foldl_nil, Table.apply]
    cases Macro.define t p.definition <;> rfl

theorem edited_undef (c : Cursor) (t : Table) :
    Edited limits Operands t (tableAfterUndef t c) := by
  unfold tableAfterUndef
  cases Macro.checkName c.nextNonSpace.1 Keyword.undef.name with
  | error e => exact .refl t
  | ok => exact ⟨[.undefine c.nextNonSpace.1.text], by simpa using Edit.undefine _, rfl⟩

end Edited

/-! ## Directives -/

/-- A test leaves the table alone. -/
theorem branch_table {s : State} {test : State → State × Bool} (htest : Harmless test)
    (pos : Position) (step : Branch.Step) : (s.branch pos step test).state.table = s.table := by
  obtain ⟨branches, evaluations, hreported⟩ := branch_reported htest pos step
  exact hreported.table

theorem close_table (h : Host) (s : State) (pos : Position) (kw : Keyword) (c : Cursor)
    (result : Except Branch.Refusal Branch.Stack) :
    (s.close h pos kw c result).state.table = s.table := by
  obtain ⟨branches, hreported⟩ := close_reported h s pos kw c result
  exact hreported.table

theorem lineDirective_table (h : Host) (s : State) (name : Bytes) (pos : Position) (c : Cursor) :
    (s.lineDirective h name pos c).state.table = s.table := by
  obtain ⟨tracker, hreported⟩ := lineDirective_reported h s name pos c
  exact hreported.table

/-- The table after a directive that is neither conditional nor a definition: that of the included
    file, if there is one. -/
theorem external_table (h : Host) (nested : Option Nested) (s : State) (kw : Option Keyword)
    (name : Bytes) (pos : Position) (c : Cursor) :
    (s.external h nested kw name pos c).state.table = s.table ∨
      ∃ process path contents requests, nested = some process ∧
        (s.external h nested kw name pos c).state.table =
          (process { s with requests } path contents).state.table := by
  have hout := external_outcome h nested s kw name pos c
  generalize s.external h nested kw name pos c = out at hout ⊢
  cases hout with
  | @included find =>
    have hfile := include_outcome h nested find s pos c
    generalize s.include h nested find pos c = out at hfile ⊢
    cases hfile with
    | unnamed | tooDeep | notFound => exact Or.inl rfl
    | opened _ hsome => exact Or.inr ⟨_, _, _, _, hsome, rfl⟩
  | renumbered => exact Or.inl (lineDirective_table h s name pos c)
  | ignored | warned | failed => exact Or.inl rfl

/-- Processing of included files that changes the table by edits only. -/
def NestedEdited (limits : Macro.Limits) (Operands : Cursor → Prop) (nested : Option Nested) :
    Prop :=
  ∀ process, nested = some process → ∀ s path contents,
    Edited limits Operands s.table (process s path contents).state.table

theorem reported_table (out : Outcome) (wasCompiling : Bool) (pos : Position) :
    ((out.noteSwitch wasCompiling).reported pos).state.table = out.state.table := by
  obtain ⟨resync, hnote⟩ := noteSwitch_effect out wasCompiling
  rw [(reported_effect _ pos).1.table, hnote]

section Files

variable {h : Host} {nested : Option Nested} {Operands : Cursor → Prop}

theorem external_edited (hnested : NestedEdited h.limits Operands nested) (s : State)
    (kw : Option Keyword) (name : Bytes) (pos : Position) (c : Cursor) :
    Edited h.limits Operands s.table (s.external h nested kw name pos c).state.table := by
  rcases external_table h nested s kw name pos c with hsame | ⟨process, path, contents, requests,
    hsome, htable⟩
  · exact .of_eq hsame
  · rw [htable]
    exact hnested process hsome { s with requests } path contents

theorem dispatch_edited (hnested : NestedEdited h.limits Operands nested) (s : State)
    (kw : Option Keyword) (name : Token) {c : Cursor} (hc : kw = some .define → Operands c) :
    Edited h.limits Operands s.table (s.dispatch h nested kw name c).state.table := by
  unfold State.dispatch
  dsimp only
  split
  · exact .of_eq ((Reported.checkDepth _ _).table.trans (branch_table (harmless_test _ _ _) _ _))
  · exact .of_eq
      ((Reported.checkDepth _ _).table.trans (branch_table (harmless_testDefined h _ _) _ _))
  · exact .of_eq
      ((Reported.checkDepth _ _).table.trans (branch_table (harmless_testDefined h _ _) _ _))
  · exact .of_eq (branch_table (harmless_test _ _ _) _ _)
  · exact .of_eq (close_table h s _ _ _ _)
  · exact .of_eq (close_table h s _ _ _ _)
  · rw [(defineDirective_effect h s c).1.table]
    exact edited_define (hc rfl) s.table
  · rw [(undefDirective_effect h s c).1.table]
    exact edited_undef c s.table
  · exact external_edited hnested s _ _ _ _

/-- **One directive** edits the table, or leaves it as the file that it includes does. -/
theorem directiveWith_edited (hnested : NestedEdited h.limits Operands nested) (s : State)
    {pos : Position} {line : Bytes}
    (hline : ∀ name c, Announces .define pos line name c → Operands c) :
    Edited h.limits Operands s.table (s.directiveWith h nested pos line).state.table := by
  have hout := directiveWith_outcome h nested s pos line
  generalize s.directiveWith h nested pos line = out at hout ⊢
  cases hout with
  | unsigned | ignored | invalid | skipped => exact .refl _
  | named hsigned hident =>
    rw [reported_table]
    exact dispatch_edited hnested s _ _
      fun hkw => hline _ _ ⟨hsigned.sign, hsigned.read, hident, hkw⟩
  | numbered =>
    rw [(reported_effect _ _).1.table]
    exact external_edited hnested s _ _ _ _

/-! ## Files -/

/-- The operands of all definitions on some lines are of a given kind. -/
def DefinesFrom (Operands : Cursor → Prop) (lines : List Source.LogicalLine) : Prop :=
  ∀ l ∈ lines, l.directive = true → ∀ pos name c, Announces .define pos l.text name c → Operands c

theorem closeGroups_table (s : State) : s.closeGroups.table = s.table := by
  obtain ⟨t, hreported, hclosed⟩ := closeGroups_reported s
  rw [hclosed]
  exact hreported.table

theorem processLines_edited (hnested : NestedEdited h.limits Operands nested)
    (lines : List Source.LogicalLine) (hlines : DefinesFrom Operands lines) (place : OutputPlace)
    (s : State) :
    Edited h.limits Operands s.table (s.processLines h nested place lines).state.table := by
  refine processLines_trans (R := fun s t => Edited h.limits Operands s.table t.table)
    (fun _ _ _ => .trans) ?_ ?_ ?_ place s
  · intro s
    exact .of_eq (closeGroups_table s)
  · intro s l
    exact .refl s.table
  · intro s l hmem hl
    exact directiveWith_edited hnested (s.track l) (hlines l hmem hl ((s.track l).linePosition l))

variable (hall : ∀ contents, DefinesFrom Operands (Source.logicalLines contents))

include hall

theorem processFile_edited (hnested : NestedEdited h.limits Operands nested) (s : State)
    (name contents : Bytes) :
    Edited h.limits Operands s.table (s.processFile h nested name contents).state.table :=
  processLines_edited hnested (Source.logicalLines contents) (hall contents) {} (s.openFile name)

theorem nestedProcess_edited (h : Host) (levels : Nat) :
    NestedEdited h.limits Operands (nestedProcess h levels) :=
  nestedProcess_induct (fun _ hnested => processFile_edited hall hnested) levels

/-- **A run edits the table.** -/
theorem run_edited (h : Host) (s : State) (name contents : Bytes) :
    Edited h.limits Operands s.table (s.run h name contents).1.state.table :=
  processFile_edited hall (nestedProcess_edited hall h _)
    { s with branches := s.branches.reset, files := [], resync := false } name contents

end Files

/-! ## Reachable states -/

theorem defineAs_table (h : Host) (s : State) (origin : Macro.Origin) (c : Cursor) :
    (s.defineAs h origin c).1.table = s.table ∨
      ∃ d, (s.defineAs h origin c).1.table = s.table.apply (.definePrivileged d) := by
  unfold State.defineAs
  cases Macro.parse h.limits c with
  | error e => exact Or.inl rfl
  | ok p =>
    have hnotice := Reported.notice s p.definition.definedAt p.notice
    refine Or.inr ⟨{ p.definition with origin }, ?_⟩
    dsimp only
    rw [(Reported.ceiling _ _).table, hnotice.table]
    rfl

section Reached

variable {h : Host} {s : State}

theorem wf_define (hs : s.table.Wf) (c : Cursor) : (s.define h c).1.table.Wf := by
  rw [(define_effect h s c).table]
  have hedited : Edited h.limits (fun _ => True) s.table (tableAfterDefine h.limits s.table c) :=
    edited_define trivial s.table
  exact hedited.wf hs

theorem wf_defineAs (hs : s.table.Wf) (origin : Macro.Origin) (c : Cursor) :
    (s.defineAs h origin c).1.table.Wf := by
  rcases defineAs_table h s origin c with hsame | ⟨d, hdefined⟩
  · rw [hsame]
    exact hs
  · rw [hdefined]
    exact hs.apply _

theorem wf_lockName (hs : s.table.Wf) (name : Bytes) : (s.lockName name).table.Wf := by
  unfold State.lockName
  dsimp only
  rw [(Reported.ceiling _ _).table]
  exact hs.apply (.definePrivileged _)

theorem wf_start (h : Host) : h.start.1.table.Wf :=
  start_induct (P := fun s => s.table.Wf) h (Table.wf_empty _ _)
    (fun _ name hs => wf_lockName hs name) (fun _ origin c hs => wf_defineAs hs origin c)
    (fun _ c hs => wf_define hs c) (fun _ name hs => hs.apply (.undefinePrivileged name))

/-- **Every table that a host can come to is well formed.** -/
theorem Reachable.wf (hs : Reachable h s) : s.table.Wf := by
  have hany : ∀ contents, DefinesFrom (fun _ => True) (Source.logicalLines contents) :=
    fun _ _ _ _ _ _ _ _ => trivial
  induction hs with
  | start => exact wf_start h
  | run hs name contents ih => exact (run_edited hany h _ name contents).wf ih
  | process hs name contents ih =>
    exact (processFile_edited hany (nestedProcess_edited hany h _) _ name contents).wf ih
  | directive hs levels pos line ih =>
    exact (directiveWith_edited (nestedProcess_edited hany h levels) _
      (fun _ _ _ => trivial)).wf ih
  | define hs text ih => exact wf_define ih _
  | defineAs hs origin text ih => exact wf_defineAs ih origin _
  | takeResync hs ih => exact ih
  | clear hs ih => exact ih.apply .clear
  | openFile hs name ih => exact ih
  | track hs line ih => exact ih
  | request hs requests ih => exact ih

end Reached

end Engine

end Preproc
