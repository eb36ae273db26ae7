import Mathlib.Logic.Relation
import Preproc.Proofs.Engine.Seams

set_option autoImplicit false

/-! # The stack of nested replacements

Here the tokens of a condition are resolved by a machine that goes through lists of tokens by index
and keeps the lists that wait for the body of a macro on a stack. Its only bounds are the ones that
replacement itself has: a macro is not replaced inside its own body, and bodies nest to a fixed
depth. Whatever the macros are, the machine comes to an end without having read outside a list, with
what `resolveCondition` gives, and the names that it leaves are those of no macro or of macros whose
bodies lead back to them (`replacement_ends_settled`). -/

namespace Preproc.Engine.Resolution

/-! ## The machine -/

/-- Why no tokens are left. -/
inductive Stop where
  | complaint (e : Located Complaint)
  /-- A token was read where the list has none. -/
  | outside

/-- The first index from `i` on with no whitespace. -/
def skipFrom (toks : List Token) (i : Nat) : Nat :=
  if h : i < toks.length then
    if toks[i].isSpace then skipFrom toks (i + 1) else i
  else i
termination_by toks.length - i

/-- The name after `defined` from index `i` on, and the index after it. All reads but that of the
    last token are guarded. -/
def operandAt (toks : List Token) (i : Nat) : Except Stop (Bytes × Nat) :=
  let i := skipFrom toks i
  match toks[i]? with
  | some t =>
    if t.isIdent then .ok (t.text, i + 1)
    else if t.is .leftParen then
      let j := skipFrom toks (i + 1)
      match toks[j]? with
      | some name =>
        if name.isIdent then
          let k := skipFrom toks (j + 1)
          match toks[k]? with
          | some close =>
            if close.is .rightParen then .ok (name.text, k + 1)
            else .error (.complaint ⟨name.pos, .unclosedDefined⟩)
          | none => .error (.complaint ⟨name.pos, .unclosedDefined⟩)
        else .error (.complaint ⟨t.pos, .definedNeedsName⟩)
      | none => .error (.complaint ⟨t.pos, .definedNeedsName⟩)
    else .error (.complaint ⟨t.pos, .definedNeedsName⟩)
  | none =>
    match toks[toks.length - 1]? with
    | some last => .error (.complaint ⟨last.pos, .definedNeedsName⟩)
    | none => .error .outside

/-- A list of tokens that is being gone through. -/
structure Call where
  toks : List Token
  /-- The macros whose bodies are being replaced, innermost first. -/
  active : List Bytes
  depth : Nat
  index : Nat := 0
  out : List Token := []

/-- A macro whose body is being gone through. -/
structure Waiting where
  /-- The call that waits for the body, at the token after the macro. -/
  call : Call
  replaced : Macro.Definition
  /-- Where the macro is used. -/
  pos : Position

/-- A call with the calls that wait for it, innermost first, or what came of them all. -/
inductive Config where
  | calls (current : Call) (waiting : List Waiting)
  | ended (result : Except Stop (List Token))

/-- Begin to go through a list of tokens, unless it is nested too deep. -/
def Call.enter (c : Call) (waiting : List Waiting) : Config :=
  if c.depth > maxReplacementDepth then
    match c.toks[0]? with
    | some t => .ended (.error (.complaint ⟨t.pos, .nestedReplacement⟩))
    | none => .ended (.error .outside)
  else .calls c waiting

/-- Leave the token at the index as it is. -/
def Call.keep (c : Call) (t : Token) : Call :=
  { c with index := c.index + 1, out := c.out ++ [t] }

/-- End a call: what it leaves goes, between blanks, to the call that waits for it. -/
def Config.leave (out : List Token) : List Waiting → Config
  | [] => .ended (.ok out)
  | w :: waiting =>
    .calls { w.call with out := w.call.out ++ (blankToken w.pos :: out ++ [blankToken w.pos]) }
      waiting

/-- The call for the body of a macro that is used in `c`. -/
def Call.inside (c : Call) (d : Macro.Definition) (pos : Position) : Call where
  toks := bodyTokens d pos
  active := d.name :: c.active
  depth := c.depth + 1

/-- Go through one token. -/
def Call.read (table : Macro.Table) (c : Call) (waiting : List Waiting) (t : Token) : Config :=
  if !t.isIdent then .calls (c.keep t) waiting
  else if t.text = ascii "defined" then
    match operandAt c.toks (c.index + 1) with
    | .error stop => .ended (.error stop)
    | .ok (name, next) =>
      .calls { c with index := next, out := c.out ++ [answer (table.defined name) t.pos] } waiting
  else match table.lookup t.text with
    | none => .calls (c.keep t) waiting
    | some d =>
      if c.active.contains t.text then .calls (c.keep t) waiting
      else if d.functionLike then
        .ended (.error (.complaint ⟨t.pos, .functionLikeInCondition t.text⟩))
      else if (bodyTokens d t.pos).isEmpty then .calls { c with index := c.index + 1 } waiting
      else (c.inside d t.pos).enter (⟨{ c with index := c.index + 1 }, d, t.pos⟩ :: waiting)

/-- One step: go through a token, or end a call. -/
def Config.step (table : Macro.Table) : Config → Option Config
  | .calls c waiting =>
    match c.toks[c.index]? with
    | some t => some (c.read table waiting t)
    | none => some (.leave c.out waiting)
  | .ended _ => none

/-- The configurations that the machine comes to. -/
def Config.Reaches (table : Macro.Table) : Config → Config → Prop :=
  Relation.ReflTransGen fun c c' => c.step table = some c'

/-- The configuration in which the tokens of a condition are still to be gone through. -/
def Config.start (toks : List Token) : Config :=
  Call.enter { toks, active := [], depth := 0 } []

/-! ## Reading by index -/

section Operand

variable {toks rest : List Token} {t : Token} {i : Nat}

theorem drop_eq_cons_iff :
    toks.drop i = t :: rest ↔ toks[i]? = some t ∧ toks.drop (i + 1) = rest := by
  constructor
  · intro hdrop
    have hhead : (toks.drop i).head? = toks[i]? := List.head?_drop
    have htail : (toks.drop i).tail = toks.drop (i + 1) := List.tail_drop
    rw [hdrop] at hhead htail
    exact ⟨hhead.symm, htail.symm⟩
  · rintro ⟨ht, rfl⟩
    obtain ⟨hi, rfl⟩ := List.getElem?_eq_some_iff.1 ht
    exact List.drop_eq_getElem_cons hi

theorem drop_eq_nil_iff : toks.drop i = [] ↔ toks[i]? = none := by
  rw [List.drop_eq_nil_iff, List.getElem?_eq_none_iff]

theorem drop_skipFrom (toks : List Token) (i : Nat) :
    toks.drop (skipFrom toks i) = (toks.drop i).dropWhile Token.isSpace := by
  fun_induction skipFrom toks i with
  | case1 i hi hspace ih => rw [ih, List.drop_eq_getElem_cons hi, List.dropWhile_cons_of_pos hspace]
  | case2 i hi hword => rw [List.drop_eq_getElem_cons hi, List.dropWhile_cons_of_neg hword]
  | case3 i hi => rw [List.drop_of_length_le (by omega), List.dropWhile_nil]

/-- A list that goes on after `i` has its last token there. -/
theorem last_of_drop (hdrop : toks.drop i = t :: rest) :
    toks[toks.length - 1]? = some (rest.getLastD t) := by
  have hlast : toks.getLast? = (toks.drop i).getLast? := by
    rw [List.getLast?_drop, if_neg]
    intro hlength
    rw [List.drop_of_length_le hlength] at hdrop
    cases hdrop
  rw [← List.getLast?_eq_getElem?, hlast, hdrop, List.getLast?_cons, List.getLastD_eq_getLast?]

/-- Reading by index finds the operand of `defined` that `definedOperand` gives. -/
theorem operandAt_eq (hdrop : toks.drop i = t :: rest) :
    match definedOperand (rest.getLastD t).pos rest with
    | .error e => operandAt toks (i + 1) = .error (.complaint e)
    | .ok (name, after) =>
      ∃ next, operandAt toks (i + 1) = .ok (name, next) ∧ toks.drop next = after := by
  have hread {i : Nat} {t : Token} {rest : List Token}
      (hskip : (toks.drop i).dropWhile Token.isSpace = t :: rest) :
      toks[skipFrom toks i]? = some t ∧ toks.drop (skipFrom toks i + 1) = rest :=
    drop_eq_cons_iff.1 ((drop_skipFrom toks i).trans hskip)
  have hend {i : Nat} (hskip : (toks.drop i).dropWhile Token.isSpace = []) :
      toks[skipFrom toks i]? = none :=
    drop_eq_nil_iff.1 ((drop_skipFrom toks i).trans hskip)
  obtain ⟨-, rfl⟩ := drop_eq_cons_iff.1 hdrop
  unfold definedOperand operandAt
  cases hfirst : (toks.drop (i + 1)).dropWhile Token.isSpace with
  | nil => simp only [hend hfirst, last_of_drop hdrop]
  | cons first after =>
    obtain ⟨hfirst, hafter⟩ := hread hfirst
    simp only [hfirst]
    by_cases hident : first.isIdent = true
    · simp only [hident, if_true]
      exact ⟨_, rfl, hafter⟩
    by_cases hopen : first.is .leftParen = true
    · simp only [hident, hopen, if_true, ← hafter]
      cases hsecond : (toks.drop (skipFrom toks (i + 1) + 1)).dropWhile Token.isSpace with
      | nil => simp only [hend hsecond, Bool.false_eq_true, if_false]
      | cons name after' =>
        obtain ⟨hsecond, hafter'⟩ := hread hsecond
        simp only [hsecond, ← hafter', Bool.false_eq_true, if_false]
        by_cases hname : name.isIdent = true
        · simp only [hname, if_true]
          cases hthird : (toks.drop (skipFrom toks (skipFrom toks (i + 1) + 1) + 1)).dropWhile
              Token.isSpace with
          | nil => simp only [hend hthird]
          | cons close after'' =>
            obtain ⟨hthird, hafter''⟩ := hread hthird
            simp only [hthird]
            by_cases hclose : close.is .rightParen = true
            · simp only [hclose, if_true]
              exact ⟨_, rfl, hafter''⟩
            · simp only [hclose, Bool.false_eq_true, if_false]
        · simp only [hname, Bool.false_eq_true, if_false]
    · simp only [hident, hopen, if_false, Bool.false_eq_true]

end Operand

/-! ## The machine resolves a condition -/

section Machine

variable {table : Macro.Table}

/-- What is to come of a call whose tokens are resolved to `result`. -/
def Config.after (c : Call) (waiting : List Waiting) :
    Except (Located Complaint) (List Token) → Config
  | .error e => .ended (.error (.complaint e))
  | .ok out => .leave (c.out ++ out) waiting

theorem Config.after_map {c : Call} (next : Call) {f : List Token → List Token}
    (hf : ∀ out, c.out ++ f out = next.out ++ out) (waiting : List Waiting)
    (result : Except (Located Complaint) (List Token)) :
    Config.after c waiting (result.map f) = Config.after next waiting result := by
  cases result with
  | error e => rfl
  | ok out => simp only [Except.map, Config.after, hf]

/-- Calls are run to their end when `levels` more bodies may be nested in them. -/
def RunsCalls (table : Macro.Table) (levels : Nat) : Prop :=
  ∀ (c : Call) (waiting : List Waiting), c.depth + levels = maxReplacementDepth →
    Config.Reaches table (.calls c waiting)
      (.after c waiting (resolve table (levels + 1) c.active (c.toks.drop c.index)))

/-- A body begins where its macro is used. -/
theorem body_eq_cons {d : Macro.Definition} {pos : Position} (hbody : bodyTokens d pos ≠ []) :
    ∃ t rest, bodyTokens d pos = t :: rest ∧ t.pos = pos := by
  obtain ⟨t, rest, htoks⟩ := List.exists_cons_of_ne_nil hbody
  have ht : t ∈ bodyTokens d pos := by simp [htoks]
  obtain ⟨scanned, -, rfl⟩ := List.mem_map.1 ht
  exact ⟨_, rest, htoks, rfl⟩

/-- A body that is nested too deep is an error, at the place of the macro. -/
theorem enter_too_deep {c : Call} {d : Macro.Definition} {pos : Position}
    (hbody : bodyTokens d pos ≠ []) (hfull : maxReplacementDepth ≤ c.depth)
    (waiting : List Waiting) :
    (c.inside d pos).enter waiting = .ended (.error (.complaint ⟨pos, .nestedReplacement⟩)) := by
  obtain ⟨t, rest, htoks, hpos⟩ := body_eq_cons hbody
  have hdeep : (c.inside d pos).depth > maxReplacementDepth := Nat.lt_succ_of_le hfull
  rw [Call.enter, if_pos hdeep]
  simp only [Call.inside, htoks, List.getElem?_cons_zero, hpos]

theorem enter_within {c : Call} (hroom : c.depth + 1 ≤ maxReplacementDepth)
    (d : Macro.Definition) (pos : Position) (waiting : List Waiting) :
    (c.inside d pos).enter waiting = .calls (c.inside d pos) waiting :=
  if_neg (Nat.not_lt.2 hroom)

/-- A body is gone through to its end, or is nested too deep. -/
theorem enter_reaches {levels : Nat} (hinner : ∀ inner, inner + 1 = levels → RunsCalls table inner)
    {c : Call} (hdepth : c.depth + levels = maxReplacementDepth) (d : Macro.Definition)
    (pos : Position) (hbody : bodyTokens d pos ≠ []) (waiting : List Waiting) :
    Config.Reaches table ((c.inside d pos).enter waiting)
      (.after (c.inside d pos) waiting
        (resolve table levels (d.name :: c.active) (bodyTokens d pos))) := by
  cases levels with
  | zero =>
    obtain ⟨t, rest, htoks, hpos⟩ := body_eq_cons hbody
    rw [enter_too_deep hbody (Nat.le_of_eq hdepth.symm), htoks, ← hpos]
    exact .refl
  | succ levels =>
    rw [enter_within (by omega)]
    exact hinner levels rfl (c.inside d pos) waiting (by simp only [Call.inside]; omega)

/-- A use of a macro becomes what `expandMacro` gives for it. -/
theorem use_reaches {levels : Nat} (hinner : ∀ inner, inner + 1 = levels → RunsCalls table inner)
    {c : Call} (hdepth : c.depth + levels = maxReplacementDepth) (next : Call)
    (d : Macro.Definition) (pos : Position) (waiting : List Waiting) :
    Config.Reaches table
      (if (bodyTokens d pos).isEmpty then .calls next waiting
        else (c.inside d pos).enter (⟨next, d, pos⟩ :: waiting))
      (match expandMacro table levels c.active d pos with
        | .error e => .ended (.error (.complaint e))
        | .ok body => .calls { next with out := next.out ++ body } waiting) := by
  by_cases hbody : bodyTokens d pos = []
  · simp only [expandMacro, hbody, List.isEmpty_nil, if_true, List.append_nil]
    exact .refl
  · have hrun := enter_reaches hinner hdepth d pos hbody (⟨next, d, pos⟩ :: waiting)
    have hexpand : expandMacro table levels c.active d pos =
        (resolve table levels (d.name :: c.active) (bodyTokens d pos)).map fun inner =>
          blankToken pos :: inner ++ [blankToken pos] := by
      unfold expandMacro
      split
      · next hempty => exact absurd hempty hbody
      · rfl
    rw [if_neg (by simpa using hbody), hexpand]
    cases hresult : resolve table levels (d.name :: c.active) (bodyTokens d pos) with
    | error e =>
      rw [hresult] at hrun
      exact hrun
    | ok inner =>
      rw [hresult] at hrun
      exact hrun

theorem reaches_of_read {c : Call} {waiting : List Waiting} {t : Token} {rest : List Token}
    {next result : Config} (htoks : c.toks.drop c.index = t :: rest)
    (hread : c.read table waiting t = next) (hmore : Config.Reaches table next result) :
    Config.Reaches table (.calls c waiting) result := by
  refine .head ?_ hmore
  simp only [Config.step, (drop_eq_cons_iff.1 htoks).1, hread]

theorem keep_reaches {c : Call} {waiting : List Waiting} {t : Token} {rest : List Token}
    {result : Except (Located Complaint) (List Token)} (htoks : c.toks.drop c.index = t :: rest)
    (hread : c.read table waiting t = .calls (c.keep t) waiting)
    (hmore : Config.Reaches table (.calls (c.keep t) waiting) (.after (c.keep t) waiting result)) :
    Config.Reaches table (.calls c waiting) (.after c waiting (result.map (t :: ·))) := by
  rw [Config.after_map (c.keep t) (by simp [Call.keep])]
  exact reaches_of_read htoks hread hmore

/-- **The machine runs calls to their end**, whatever the macros are. -/
theorem runsCalls (table : Macro.Table) (levels : Nat) : RunsCalls table levels := by
  -- on the levels, and for each of them on the tokens that are left: a body has one level less
  induction levels using Nat.strongRecOn with
  | ind levels ihLevels =>
    intro c waiting hdepth
    rw [resolve_succ]
    generalize htoks : c.toks.drop c.index = toks
    generalize hactive : c.active = active
    fun_induction resolveTokens table active (expandMacro table levels active) toks
      generalizing c with
    | case1 =>
      refine .single ?_
      simp only [Config.step, drop_eq_nil_iff.1 htoks, Config.after, List.append_nil]
    | case2 t rest hident ih =>
      refine keep_reaches htoks ?_ (ih _ hdepth (drop_eq_cons_iff.1 htoks).2 hactive)
      rw [Call.read, if_pos hident]
    | case3 t rest hident hword e hfound =>
      have hoperand := operandAt_eq htoks
      simp only [hfound] at hoperand
      refine reaches_of_read htoks ?_ .refl
      simp only [Call.read, if_neg hident, if_pos hword, hoperand, Config.after]
    | case4 t rest hident hword name after hfound value ih =>
      have hoperand := operandAt_eq htoks
      simp only [hfound] at hoperand
      obtain ⟨next, hnext, hafter⟩ := hoperand
      rw [Config.after_map
        { c with index := next, out := c.out ++ [answer (table.defined name) t.pos] }
        (by simp [answer, value])]
      refine reaches_of_read htoks ?_ (ih _ hdepth hafter hactive)
      simp only [Call.read, if_neg hident, if_pos hword, hnext]
    | case5 t rest hident hword hlookup ih =>
      refine keep_reaches htoks ?_ (ih _ hdepth (drop_eq_cons_iff.1 htoks).2 hactive)
      simp only [Call.read, if_neg hident, if_neg hword, hlookup]
    | case6 t rest hident hword d hlookup hseen ih =>
      refine keep_reaches htoks ?_ (ih _ hdepth (drop_eq_cons_iff.1 htoks).2 hactive)
      simp only [Call.read, if_neg hident, if_neg hword, hlookup, hactive, if_pos hseen]
    | case7 t rest hident hword d hlookup hseen hplain =>
      refine reaches_of_read htoks ?_ .refl
      simp only [Call.read, if_neg hident, if_neg hword, hlookup, hactive, if_neg hseen,
        if_pos hplain, Config.after]
    | case8 t rest hident hword d hlookup hseen hplain e hexpand =>
      have huse := use_reaches (fun inner hinner => ihLevels inner (by omega)) hdepth
        { c with index := c.index + 1 } d t.pos waiting
      rw [← hactive] at hexpand
      rw [hexpand] at huse
      refine reaches_of_read htoks ?_ huse
      simp only [Call.read, if_neg hident, if_neg hword, hlookup, hactive, if_neg hseen,
        if_neg hplain]
    | case9 t rest hident hword d hlookup hseen hplain body hexpand ih =>
      have huse := use_reaches (fun inner hinner => ihLevels inner (by omega)) hdepth
        { c with index := c.index + 1 } d t.pos waiting
      rw [← hactive] at hexpand
      rw [hexpand] at huse
      rw [Config.after_map { c with index := c.index + 1, out := c.out ++ body } (by simp)]
      refine reaches_of_read htoks ?_
        (huse.trans (ih _ hdepth (drop_eq_cons_iff.1 htoks).2 hactive))
      simp only [Call.read, if_neg hident, if_neg hword, hlookup, hactive, if_neg hseen,
        if_neg hplain]

/-- The machine ends with what `resolveCondition` gives. -/
theorem start_reaches (table : Macro.Table) (toks : List Token) :
    Config.Reaches table (.start toks)
      (.ended ((resolveCondition table toks).mapError .complaint)) := by
  have hrun := runsCalls table maxReplacementDepth { toks, active := [], depth := 0 } []
    (Nat.zero_add _)
  have hend : Config.after { toks, active := [], depth := 0 } [] (resolveCondition table toks) =
      .ended ((resolveCondition table toks).mapError .complaint) := by
    cases resolveCondition table toks with
    | error e => rfl
    | ok out => rfl
  rw [← hend]
  exact hrun

end Machine

/-! ## What the machine keeps -/

/-- The body of the macro `name`, which has no parameters, uses the identifier `used`. -/
def LeadsTo (table : Macro.Table) (name used : Bytes) : Prop :=
  ∃ d pos t rest, table.lookup name = some d ∧ d.functionLike = false ∧
    Visits (bodyTokens d pos) t rest ∧ ¬ IsDefined t ∧ t.isIdent = true ∧ t.text = used

/-- A token that may be left: not `defined`, and not the name of a macro, unless the macro's body
    leads back to it. -/
def Settled (table : Macro.Table) (t : Token) : Prop :=
  t.isIdent = true → t.text ≠ ascii "defined" ∧
    (table.lookup t.text = none ∨ Relation.TransGen (LeadsTo table) t.text t.text)

/-- What holds of a call at each of its tokens. -/
structure Call.Sound (table : Macro.Table) (c : Call) : Prop where
  depth : c.depth = c.active.length
  bounded : c.depth ≤ maxReplacementDepth
  distinct : c.active.Nodup
  ahead : ∀ t rest, Visits (c.toks.drop c.index) t rest → Visits c.toks t rest
  /-- Each macro whose body is being replaced leads to the identifiers of the call. -/
  leads : ∀ name ∈ c.active, ∀ t rest, Visits c.toks t rest → ¬ IsDefined t → t.isIdent = true →
    Relation.TransGen (LeadsTo table) name t.text
  settled : ∀ t ∈ c.out, Settled table t

/-- What holds of a macro whose body is being gone through. -/
structure Waiting.Sound (table : Macro.Table) (w : Waiting) : Prop where
  call : w.call.Sound table
  found : table.lookup w.replaced.name = some w.replaced
  plain : w.replaced.functionLike = false
  body : bodyTokens w.replaced w.pos ≠ []

/-- The active macros are those whose bodies are being gone through. -/
def Linked : List Bytes → List Waiting → Prop
  | active, [] => active = []
  | active, w :: waiting => active = w.replaced.name :: w.call.active ∧ Linked w.call.active waiting

/-- What holds of a configuration. No token is read outside a list. -/
def Config.Sound (table : Macro.Table) : Config → Prop
  | .calls c waiting =>
    c.Sound table ∧ Linked c.active waiting ∧ ∀ w ∈ waiting, w.Sound table
  | .ended (.ok out) => ∀ t ∈ out, Settled table t
  | .ended (.error (.complaint _)) => True
  | .ended (.error .outside) => False

section Sound

variable {table : Macro.Table} {c : Call} {waiting : List Waiting} {t : Token}
  {rest : List Token} {d : Macro.Definition}

theorem name_of_lookup {name : Bytes} (h : table.lookup name = some d) : d.name = name := by
  have hat : table.at? (table.findSlot name) = some d := (Option.filter_eq_some_iff.1 h).1
  unfold Macro.Table.at? at hat
  split at hat
  · next hexact =>
    unfold Macro.Table.findSlot at hexact hat
    dsimp only at hexact hat
    rw [hat] at hexact
    simpa using hexact
  · cases hat

theorem Linked.names {active : List Bytes} (h : Linked active waiting) :
    active = waiting.map (·.replaced.name) := by
  induction waiting generalizing active with
  | nil => exact h
  | cons w waiting ih => rw [h.1, ih h.2, List.map_cons]

theorem settled_of_not_ident (ht : t.isIdent = false) : Settled table t := by
  intro hident
  rw [ht] at hident
  cases hident

/-- A call goes on to a later token. -/
theorem Call.Sound.advance (hc : c.Sound table) {next : Nat} {more : List Token}
    (hahead : ∀ u after, Visits (c.toks.drop next) u after →
      Visits (c.toks.drop c.index) u after)
    (hmore : ∀ u ∈ more, Settled table u) :
    Call.Sound table { c with index := next, out := c.out ++ more } where
  depth := hc.depth
  bounded := hc.bounded
  distinct := hc.distinct
  ahead u after hvisits := hc.ahead u after (hahead u after hvisits)
  leads := hc.leads
  settled := List.forall_mem_append.2 ⟨hc.settled, hmore⟩

theorem visits_next (htoks : c.toks.drop c.index = t :: rest) (ht : ¬ IsDefined t) (u : Token)
    (after : List Token) (hvisits : Visits (c.toks.drop (c.index + 1)) u after) :
    Visits (c.toks.drop c.index) u after := by
  rw [(drop_eq_cons_iff.1 htoks).2] at hvisits
  rw [htoks]
  exact .next ht hvisits

/-- Going into the body of a macro, its name becomes active, and it leads to all that the body
    uses. -/
theorem inside_sound (hc : c.Sound table) (htoks : c.toks.drop c.index = t :: rest)
    (ht : ¬ IsDefined t) (hident : t.isIdent = true) (hlookup : table.lookup t.text = some d)
    (hfresh : t.text ∉ c.active) (hplain : d.functionLike = false)
    (hroom : c.depth + 1 ≤ maxReplacementDepth) : (c.inside d t.pos).Sound table := by
  have hname : d.name = t.text := name_of_lookup hlookup
  have hvisits : Visits c.toks t rest := hc.ahead t rest (htoks ▸ .here)
  refine ⟨congrArg Nat.succ hc.depth, hroom, ?_, fun u after hu => hu, ?_, by simp [Call.inside]⟩
  · exact List.nodup_cons.2 ⟨hname ▸ hfresh, hc.distinct⟩
  · intro name hmem u after hu hu' hident'
    have hlast : LeadsTo table t.text u.text :=
      ⟨d, t.pos, u, after, hlookup, hplain, hu, hu', hident', rfl⟩
    rcases List.mem_cons.1 hmem with rfl | hmem
    · rw [hname]
      exact .single hlast
    · exact (hc.leads name hmem t rest hvisits ht hident).tail hlast

theorem enter_sound (hc : c.Sound table) (hlinked : Linked c.active waiting)
    (hwaiting : ∀ w ∈ waiting, w.Sound table) (htoks : c.toks.drop c.index = t :: rest)
    (ht : ¬ IsDefined t) (hident : t.isIdent = true) (hlookup : table.lookup t.text = some d)
    (hfresh : t.text ∉ c.active) (hplain : d.functionLike = false)
    (hbody : bodyTokens d t.pos ≠ []) :
    ((c.inside d t.pos).enter (⟨{ c with index := c.index + 1 }, d, t.pos⟩ :: waiting)).Sound
      table := by
  by_cases hroom : c.depth + 1 ≤ maxReplacementDepth
  · have hnext : Call.Sound table { c with index := c.index + 1 } := by
      simpa using hc.advance (visits_next htoks ht) (List.forall_mem_nil _)
    have hw : Waiting.Sound table ⟨{ c with index := c.index + 1 }, d, t.pos⟩ :=
      ⟨hnext, (name_of_lookup hlookup).symm ▸ hlookup, hplain, hbody⟩
    rw [enter_within hroom]
    exact ⟨inside_sound hc htoks ht hident hlookup hfresh hplain hroom, ⟨rfl, hlinked⟩,
      List.forall_mem_cons.2 ⟨hw, hwaiting⟩⟩
  · rw [enter_too_deep hbody (by omega)]
    trivial

theorem leave_sound {active : List Bytes} {out : List Token} (hout : ∀ t ∈ out, Settled table t)
    (hlinked : Linked active waiting) (hwaiting : ∀ w ∈ waiting, w.Sound table) :
    (Config.leave out waiting).Sound table := by
  cases waiting with
  | nil => exact hout
  | cons w waiting =>
    obtain ⟨hw, hbelow⟩ := List.forall_mem_cons.1 hwaiting
    refine ⟨hw.call.advance (fun u after hvisits => hvisits) ?_, hlinked.2, hbelow⟩
    have hblank : Settled table (blankToken w.pos) := settled_of_not_ident rfl
    simp only [List.cons_append, List.forall_mem_cons, List.forall_mem_append]
    exact ⟨hblank, hout, hblank, by simp⟩

theorem ask_sound (hc : c.Sound table) (hlinked : Linked c.active waiting)
    (hwaiting : ∀ w ∈ waiting, w.Sound table) (htoks : c.toks.drop c.index = t :: rest)
    (ht : IsDefined t) : (c.read table waiting t).Sound table := by
  have hoperand := operandAt_eq htoks
  simp only [Call.read, ht.1, ht.2, Bool.not_true, Bool.false_eq_true, if_false, if_true]
  cases hfound : definedOperand (rest.getLastD t).pos rest with
  | error e =>
    simp only [hfound] at hoperand
    rw [hoperand]
    trivial
  | ok found =>
    obtain ⟨name, after⟩ := found
    simp only [hfound] at hoperand
    obtain ⟨next, hnext, hafter⟩ := hoperand
    rw [hnext]
    refine ⟨hc.advance (fun u after' hvisits => ?_) ?_, hlinked, hwaiting⟩
    · rw [htoks]
      exact .past ht hfound (hafter ▸ hvisits)
    · have hanswer : Settled table (answer (table.defined name) t.pos) := settled_of_not_ident rfl
      simpa using hanswer

/-- **One token** adds at most one macro to those whose bodies are being gone through. -/
theorem read_sound (hc : c.Sound table) (hlinked : Linked c.active waiting)
    (hwaiting : ∀ w ∈ waiting, w.Sound table) (ht : c.toks[c.index]? = some t) :
    (c.read table waiting t).Sound table := by
  obtain ⟨rest, htoks⟩ : ∃ rest, c.toks.drop c.index = t :: rest :=
    ⟨_, drop_eq_cons_iff.2 ⟨ht, rfl⟩⟩
  have hkeep (hother : ¬ IsDefined t) (hsettled : Settled table t) :
      (Config.calls (c.keep t) waiting).Sound table := by
    refine ⟨hc.advance (visits_next htoks hother) ?_, hlinked, hwaiting⟩
    simpa using hsettled
  by_cases hdefined : IsDefined t
  · exact ask_sound hc hlinked hwaiting htoks hdefined
  unfold Call.read
  by_cases hident : t.isIdent = true
  case neg =>
    rw [if_pos (by simpa using hident)]
    exact hkeep hdefined fun hident' => absurd hident' hident
  have hword : ¬ t.text = ascii "defined" := fun hword => hdefined ⟨hident, hword⟩
  rw [if_neg (by simpa using hident), if_neg hword]
  cases hlookup : table.lookup t.text with
  | none => exact hkeep hdefined fun _ => ⟨hword, Or.inl hlookup⟩
  | some d =>
    dsimp only
    by_cases hseen : t.text ∈ c.active
    case pos =>
      -- the macro is being replaced, so its body led here, to its own name
      rw [if_pos (List.contains_iff_mem.2 hseen)]
      have hvisits : Visits c.toks t rest := hc.ahead t rest (htoks ▸ .here)
      exact hkeep hdefined fun _ =>
        ⟨hword, Or.inr (hc.leads t.text hseen t rest hvisits hdefined hident)⟩
    rw [if_neg (by simpa using hseen)]
    by_cases hplain : d.functionLike = true
    case pos =>
      rw [if_pos hplain]
      trivial
    rw [if_neg hplain]
    by_cases hbody : bodyTokens d t.pos = []
    · rw [if_pos (by simp [hbody])]
      refine ⟨?_, hlinked, hwaiting⟩
      simpa using hc.advance (visits_next htoks hdefined) (List.forall_mem_nil _)
    · rw [if_neg (by simpa using hbody)]
      exact enter_sound hc hlinked hwaiting htoks hdefined hident hlookup hseen
        (by simpa using hplain) hbody

theorem step_sound {g g' : Config} (hg : g.Sound table) (hstep : g.step table = some g') :
    g'.Sound table := by
  cases g with
  | ended result => cases hstep
  | calls c waiting =>
    obtain ⟨hc, hlinked, hwaiting⟩ := hg
    simp only [Config.step] at hstep
    cases ht : c.toks[c.index]? with
    | some t =>
      rw [ht] at hstep
      obtain rfl := Option.some.inj hstep
      exact read_sound hc hlinked hwaiting ht
    | none =>
      rw [ht] at hstep
      obtain rfl := Option.some.inj hstep
      exact leave_sound hc.settled hlinked hwaiting

theorem start_sound (table : Macro.Table) (toks : List Token) :
    (Config.start toks).Sound table := by
  refine ⟨⟨rfl, Nat.zero_le _, .nil, fun t rest hvisits => hvisits, by simp, by simp⟩, rfl, by simp⟩

theorem reaches_sound {toks : List Token} {g : Config}
    (hreaches : Config.Reaches table (.start toks) g) : g.Sound table := by
  induction hreaches with
  | refl => exact start_sound table toks
  | tail _ hstep ih => exact step_sound ih hstep

end Sound

/-! ## Conditions -/

/-- **Every condition is resolved, and only macros that lead to themselves are left.** Whatever the
    macros are, the machine ends with what `resolveCondition` gives, and no configuration on the way
    has read outside its tokens. The macros whose bodies are nested in each other are pairwise
    distinct, have a body and no parameters, and are at most 64; one more is an error at its place.
    When tokens are left, none of them is `defined`, and an identifier among them is not the name of
    a macro that can be seen, unless it is one without parameters whose body leads back to it. So no
    name of a macro is left when no macro leads to itself. -/
theorem replacement_ends_settled (table : Macro.Table) (toks : List Token) :
    Config.Reaches table (.start toks)
      (.ended ((resolveCondition table toks).mapError .complaint)) ∧
    ¬ Config.Reaches table (.start toks) (.ended (.error .outside)) ∧
    (∀ c waiting, Config.Reaches table (.start toks) (.calls c waiting) →
      (waiting.map (·.replaced.name)).Nodup ∧ waiting.length ≤ 64 ∧
      (∀ w ∈ waiting, table.lookup w.replaced.name = some w.replaced ∧
        w.replaced.functionLike = false ∧ bodyTokens w.replaced w.pos ≠ []) ∧
      ∀ t d, waiting.length = 64 → c.toks[c.index]? = some t → t.isIdent = true →
        t.text ≠ ascii "defined" → table.lookup t.text = some d →
        t.text ∉ waiting.map (·.replaced.name) → d.functionLike = false →
        bodyTokens d t.pos ≠ [] →
        (Config.calls c waiting).step table =
          some (.ended (.error (.complaint ⟨t.pos, .nestedReplacement⟩)))) ∧
    (∀ resolved, resolveCondition table toks = .ok resolved →
      ∀ t ∈ resolved, t.isIdent = true → t.text ≠ ascii "defined" ∧
        (table.lookup t.text = none ∨ ∃ d, table.lookup t.text = some d ∧
          d.functionLike = false ∧ Relation.TransGen (LeadsTo table) t.text t.text)) ∧
    ((∀ name, ¬ Relation.TransGen (LeadsTo table) name name) →
      ∀ resolved, resolveCondition table toks = .ok resolved →
        ∀ t ∈ resolved, t.isIdent = true → table.lookup t.text = none) := by
  have hends := start_reaches table toks
  have hsettled : ∀ resolved, resolveCondition table toks = .ok resolved →
      ∀ t ∈ resolved, Settled table t := by
    intro resolved hresolved
    rw [hresolved] at hends
    exact reaches_sound hends
  refine ⟨hends, reaches_sound, ?_, ?_, ?_⟩
  · intro c waiting hreaches
    obtain ⟨hc, hlinked, hwaiting⟩ := reaches_sound hreaches
    have hlength : c.depth = waiting.length := by
      rw [hc.depth, hlinked.names, List.length_map]
    refine ⟨hlinked.names ▸ hc.distinct, hlength ▸ hc.bounded, fun w hw => ?_, ?_⟩
    · obtain ⟨-, hfound, hplain, hbody⟩ := hwaiting w hw
      exact ⟨hfound, hplain, hbody⟩
    · intro t d hfull ht hident hword hlookup hfresh hplain hbody
      rw [← hlinked.names] at hfresh
      simp only [Config.step, ht, Call.read, hident, Bool.not_true, Bool.false_eq_true, if_false,
        if_neg hword, hlookup, List.contains_iff_mem, if_neg hfresh, hplain, List.isEmpty_iff,
        if_neg hbody]
      rw [enter_too_deep hbody (by rw [hlength, hfull]; exact Nat.le_refl _)]
  · intro resolved hresolved t ht hident
    obtain ⟨hword, hnone | hcycle⟩ := hsettled resolved hresolved t ht hident
    · exact ⟨hword, Or.inl hnone⟩
    · obtain ⟨used, ⟨d, -, -, -, hlookup, hplain, -⟩, -⟩ := Relation.TransGen.head'_iff.1 hcycle
      exact ⟨hword, Or.inr ⟨d, hlookup, hplain, hcycle⟩⟩
  · intro hacyclic resolved hresolved t ht hident
    obtain ⟨-, hnone | hcycle⟩ := hsettled resolved hresolved t ht hident
    · exact hnone
    · exact absurd hcycle (hacyclic t.text)

/-- The macros `A` and `B`, each of which stands for the other. -/
def mutualTable : Macro.Table :=
  let table := (Macro.Table.empty 0 false).definePrivileged
    { name := ascii "A", body := [.literal (ascii "B")] }
  (table.1.definePrivileged { name := ascii "B", body := [.literal (ascii "A")] }).1

theorem replacement_ends_settled_mutual :
    let name : Token := ⟨.ident, ascii "A", {}⟩
    let blank := blankToken {}
    resolveCondition mutualTable [name] = .ok [blank, blank, name, blank, blank] ∧
      Config.Reaches mutualTable (.start [name]) (.ended (.ok [blank, blank, name, blank, blank])) ∧
      Relation.TransGen (LeadsTo mutualTable) (ascii "A") (ascii "A") := by
  intro name blank
  let inner : Token := ⟨.ident, ascii "B", {}⟩
  let a : Macro.Definition := { name := ascii "A", body := [.literal (ascii "B")] }
  let b : Macro.Definition := { name := ascii "B", body := [.literal (ascii "A")] }
  have ha : mutualTable.lookup (ascii "A") = some a := by decide +kernel
  have hb : mutualTable.lookup (ascii "B") = some b := by decide +kernel
  have habody : bodyTokens a {} = [inner] := by decide +kernel
  have hbbody : bodyTokens b {} = [name] := by decide +kernel
  have hword : ascii "A" ≠ ascii "defined" ∧ ascii "B" ≠ ascii "defined" := by decide
  have hresolved : resolveCondition mutualTable [name] =
      .ok [blank, blank, name, blank, blank] := by
    have hdistinct : ascii "A" ≠ ascii "B" := by decide
    simp [resolveCondition, maxReplacementDepth, resolve_succ, resolveTokens, expandMacro, name,
      inner, Token.isIdent, hword, ha, hb, habody, hbbody, hdistinct, hdistinct.symm, Except.map, a,
      b, blank]
  obtain ⟨hends, -, -, hleft, -⟩ := replacement_ends_settled mutualTable [name]
  refine ⟨hresolved, ?_, ?_⟩
  · rw [hresolved] at hends
    exact hends
  · obtain ⟨-, hnone | ⟨-, -, -, hcycle⟩⟩ := hleft _ hresolved name (by simp) rfl
    · exact absurd (ha.symm.trans hnone) (by simp)
    · exact hcycle

end Preproc.Engine.Resolution
