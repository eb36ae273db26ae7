import Preproc.Proofs.Engine.Accounting
import Preproc.Proofs.Engine.Seams
import Preproc.Proofs.Engine.SingleFile
import Preproc.Proofs.Macro.Parameters
import Preproc.Proofs.Token.LinePlaces

set_option autoImplicit false

/-! # Where a directive reports

Whatever is wrong with a directive is reported at a token of it or at its end
(`directiveWith_placed`): readers give their errors the places of the tokens that they read, and a
macro that a condition uses is read where it is used. Only the warning that there are too many
macros is given at the place that the state names. -/

namespace Preproc

theorem Token.plain_of_is {t : Token} {op : Operator} (h : t.is op = true)
    (hop : Operator.ofText (ascii "/") ≠ op) : t.Plain := by
  unfold Token.is at h
  obtain ⟨hkind, htext⟩ : t.kind = .punctuator ∧ Operator.ofText t.text = op := by simpa using h
  exact ⟨by simp [hkind], fun _ hslash => hop (hslash ▸ htext)⟩

theorem Token.plain_of_ident {t : Token} (h : t.isIdent = true) : t.Plain := by
  have hkind : t.kind = .ident := by simpa [Token.isIdent] using h
  exact plain_of_kind (by simp [hkind]) (by simp [hkind])

/-- What a reader gives: an answer as it should be, or an error at one of these places. -/
def Answers {ε α : Type} (Q : Position → Prop) (good : α → Prop) : Except (Located ε) α → Prop
  | .ok a => good a
  | .error e => Q e.pos

namespace Answers

variable {ε α β : Type} {Q : Position → Prop} {good : α → Prop} {result : Except (Located ε) α}

theorem of_ok (h : Answers Q good result) {a : α} (hok : result = .ok a) : good a := by
  rw [hok] at h
  exact h

theorem of_error (h : Answers Q good result) {e : Located ε} (herror : result = .error e) :
    Q e.pos := by
  rw [herror] at h
  exact h

theorem map {good : β → Prop} {f : α → β} (h : Answers Q (good <| f ·) result) :
    Answers Q good (result.map f) := by
  cases result <;> exact h

end Answers

theorem forall_mem_dropWhile {p : Token → Bool} {Q : Position → Prop} {toks : List Token}
    (h : ∀ t ∈ toks, Q t.pos) : ∀ t ∈ toks.dropWhile p, Q t.pos :=
  fun t ht => h t (List.dropWhile_subset _ ht)

/-! ## Definitions -/

namespace Macro

variable {Q : Position → Prop}

/-- A name is refused where it stands, and one that is accepted opens no comment. -/
theorem checkName_answers {t : Token} (ht : Q t.pos) (directive : Bytes) :
    Answers Q (fun _ => t.Plain) (checkName t directive) := by
  unfold checkName
  split
  · exact ht
  · split
    · exact ht
    · next hident =>
      have hkind : t.kind = .ident := not_not.1 hident
      have hplain : t.Plain := Token.plain_of_kind (by simp [hkind]) (by simp [hkind])
      split
      · exact ht
      · split
        · exact ht
        · exact hplain

/-- What a token of a parameter list does: it is refused, it ends the list, or it opens no comment
    and the list goes on after it. -/
theorem readParams_cons (limits : Limits) (name : Bytes) (eol : Token) (state : ParamState)
    (names : List Bytes) (t : Token) (rest : List Token) :
    let result := readParams limits name eol state names (t :: rest)
    (∃ cause, result = .error ⟨t.pos, cause⟩) ∨ (∃ ps, result = .ok ps) ∨
      t.Plain ∧ ∃ state' names', result = readParams limits name eol state' names' rest := by
  intro result
  have hplain : ∀ {op}, t.is op = true → op ≠ .other → t.Plain := fun his hop =>
    Token.plain_of_is his (fun hslash => hop (by rw [← hslash]; decide))
  cases hspace : t.isSpace with
  | true =>
    have hkind : t.kind = .space := by simpa [Token.isSpace] using hspace
    refine .inr (.inr ⟨Token.plain_of_kind (by simp [hkind]) (by simp [hkind]), state, names, ?_⟩)
    cases state <;> simp [result, readParams, hspace]
  | false =>
    -- a parameter is read in the same way at the start and after a comma
    have hparam : ∀ state', state' = .first ∨ state' = .next → state = state' →
        (∃ cause, result = .error ⟨t.pos, cause⟩) ∨ (∃ ps, result = .ok ps) ∨
          t.Plain ∧ ∃ state' names', result = readParams limits name eol state' names' rest := by
      rintro _ (rfl | rfl) rfl
      all_goals
        simp only [result, readParams, hspace, Bool.false_eq_true, if_false]
        split
        · exact .inr (.inl ⟨_, rfl⟩)
        · split
          · next his => exact .inr (.inr ⟨hplain his (by simp), _, _, rfl⟩)
          · split
            · exact .inl ⟨_, rfl⟩
            · next hident =>
              split
              · exact .inl ⟨_, rfl⟩
              · split
                · exact .inl ⟨_, rfl⟩
                · split
                  · exact .inl ⟨_, rfl⟩
                  · exact .inr (.inr ⟨Token.plain_of_ident (by simpa using hident), _, _, rfl⟩)
    cases state with
    | closing =>
      simp only [result, readParams, hspace, Bool.false_eq_true, if_false]
      split
      · exact .inr (.inl ⟨_, rfl⟩)
      · exact .inl ⟨_, rfl⟩
    | separator param =>
      simp only [result, readParams, hspace, Bool.false_eq_true, if_false]
      split
      · next his =>
        split
        · exact .inl ⟨_, rfl⟩
        · exact .inr (.inr ⟨hplain his (by simp), _, _, rfl⟩)
      · split
        · next his => exact .inr (.inr ⟨hplain his (by simp), _, _, rfl⟩)
        · split
          · exact .inr (.inl ⟨_, rfl⟩)
          · exact .inl ⟨_, rfl⟩
    | first => exact hparam .first (.inl rfl) rfl
    | next => exact hparam .next (.inr rfl) rfl

/-- A parameter list is refused at one of its tokens, or at the end of the line when only tokens
    come before it that open no comment. -/
theorem readParams_answers (limits : Limits) (name : Bytes) {eol : Token} (state : ParamState)
    (names : List Bytes) {toks : List Token} (htoks : ∀ t ∈ toks, Q t.pos)
    (heol : (∀ t ∈ toks, t.Plain) → Q eol.pos) :
    Answers Q (fun _ => True) (readParams limits name eol state names toks) := by
  induction toks generalizing state names with
  | nil =>
    have hend : Q eol.pos := heol (by simp)
    cases state <;> exact hend
  | cons t rest ih =>
    rcases readParams_cons limits name eol state names t rest with ⟨cause, herror⟩ | ⟨ps, hok⟩ |
      ⟨hplain, state', names', hmore⟩
    · rw [herror]
      exact htoks t List.mem_cons_self
    · rw [hok]
      trivial
    · rw [hmore]
      exact ih state' names' (List.forall_mem_cons.1 htoks).2
        fun hrest => heol (List.forall_mem_cons.2 ⟨hplain, hrest⟩)

/-- The places that a reader of a replacement list keeps. -/
structure BodyState.Located (Q : Position → Prop) (s : BodyState) : Prop where
  hash : ∀ pos, s.hash = some pos → Q pos
  lastPaste : s.items.head? = some .paste → Q s.lastPaste

theorem BodyState.Located.settleSpace {s : BodyState} (hs : s.Located Q) :
    s.settleSpace.Located Q := by
  unfold BodyState.settleSpace
  split
  · exact ⟨hs.hash, fun hpaste => absurd hpaste (by simp)⟩
  · exact ⟨hs.hash, hs.lastPaste⟩

/-- A token that is no operator is refused where it stands, and stands for no paste operator. -/
theorem itemOf_answers {t : Token} (ht : Q t.pos) (name : Bytes) (params : List Bytes) :
    Answers Q (· ≠ .paste) (itemOf name params t) := by
  unfold itemOf Answers
  grind

/-- **One token** of a replacement list is refused where it stands, or where the operator stands
    whose operand it is not. -/
theorem BodyState.step_answers {s : BodyState} (hs : s.Located Q) (d : Definition) {t : Token}
    (ht : Q t.pos) : Answers Q (·.Located Q) (s.step d t) := by
  unfold BodyState.step
  cases hhash : s.hash with
  | some hashPos =>
    dsimp only
    split
    · exact hs
    · split
      · exact ⟨fun pos h => absurd h (by simp), fun h => absurd h (by simp [push])⟩
      · exact hs.hash hashPos hhash
  | none =>
    dsimp only
    split
    · exact ⟨fun pos h => absurd h (by simp), hs.lastPaste⟩
    · split
      · split
        · exact ht
        · exact ht
        · exact ⟨hs.hash, fun _ => ht⟩
      · split
        · refine ⟨fun pos h => ?_, hs.settleSpace.lastPaste⟩
          obtain rfl := Option.some.inj h
          exact ht
        · have hitem := itemOf_answers ht d.name d.params
          split
          · next item hok =>
            have hne := hitem.of_ok hok
            exact ⟨hs.settleSpace.hash, fun h => absurd (by simpa [push] using h) hne⟩
          · next e herror => exact hitem.of_error herror

theorem BodyState.run_answers {s : BodyState} (hs : s.Located Q) (d : Definition)
    {toks : List Token} (htoks : ∀ t ∈ toks, Q t.pos) :
    Answers Q (·.Located Q) (s.run d toks) := by
  induction toks generalizing s with
  | nil => exact hs
  | cons t rest ih =>
    obtain ⟨ht, hrest⟩ := List.forall_mem_cons.1 htoks
    have hstep := BodyState.step_answers hs d ht
    rw [BodyState.run]
    split
    · next s' hok => exact ih (hstep.of_ok hok) hrest
    · next e herror => exact hstep.of_error herror

theorem readBody_answers (d : Definition) {toks : List Token} (htoks : ∀ t ∈ toks, Q t.pos) :
    Answers Q (fun _ => True) (readBody d toks) := by
  have hstart : BodyState.Located Q {} :=
    ⟨fun pos h => absurd h (by simp), fun h => absurd h (by simp)⟩
  have hrun := BodyState.run_answers hstart d htoks
  unfold readBody
  split
  · next e herror => exact hrun.of_error herror
  · next s hok =>
    have hs := hrun.of_ok hok
    split
    · next pos hhash => exact hs.hash pos hhash
    · split
      · next hpaste => exact hs.lastPaste hpaste
      · trivial

/-- The head of a definition is refused at its own tokens, and what it leaves is there too. -/
theorem readHead_answers (limits : Limits) {c : Cursor} (hc : c.Within Q) :
    Answers Q (fun head => Q head.1.definedAt ∧ ∀ t ∈ head.2, Q t.pos) (readHead limits c) := by
  have hname := hc.next_pos
  have hcheck := checkName_answers hname (ascii "define")
  unfold readHead
  dsimp only
  split
  · next e herror => exact hcheck.of_error herror
  · next hok =>
    have hnext := hc.next (hcheck.of_ok hok)
    split
    · exact ⟨hname, by simp⟩
    · next t rest hafter =>
      have htoks := hnext.token
      have heol := hnext.eol
      rw [hafter] at htoks heol
      split
      · next hparen =>
        have hplain : t.Plain := Token.plain_of_is hparen (by decide)
        have hparams := readParams_answers limits c.nextNonSpace.1.text .first []
          (List.forall_mem_cons.1 htoks).2
          fun hrest => heol (List.forall_mem_cons.2 ⟨hplain, hrest⟩)
        split
        · next e herror => exact hparams.of_error herror
        · next ps hread =>
          obtain ⟨-, -, hsuffix, -⟩ := readParams_lists hread
          exact ⟨hname, fun t ht => htoks t (List.mem_cons_of_mem _ (hsuffix.subset ht))⟩
      · split
        · exact ⟨hname, htoks⟩
        · split
          · exact htoks t List.mem_cons_self
          · exact ⟨hname, htoks⟩

theorem parse_answers (limits : Limits) {c : Cursor} (hc : c.Within Q) :
    Answers Q (fun parsed => Q parsed.definition.definedAt) (parse limits c) := by
  have hhead := readHead_answers limits hc
  unfold parse
  split
  · next e herror => exact hhead.of_error herror
  · next head toks hread =>
    obtain ⟨hat, htoks⟩ := hhead.of_ok hread
    have hbody := readBody_answers head htoks
    split
    · next e herror => exact hbody.of_error herror
    · exact hat

/-- A definition is refused by the table where it stands. -/
theorem define_answers {d : Definition} (hd : Q d.definedAt) (t : Table) :
    Answers Q (fun _ => True) (define t d) := by
  unfold define Answers
  grind

end Macro

/-! ## Operands -/

namespace Engine

open Macro (Definition)

variable {Q : Position → Prop}

/-- The operand of `defined` is refused at one of the tokens, or at `last` when there is none. -/
theorem definedOperand_answers {last : Position} (hlast : Q last) {toks : List Token}
    (htoks : ∀ t ∈ toks, Q t.pos) : Answers Q (fun _ => True) (definedOperand last toks) := by
  unfold definedOperand
  split
  · exact hlast
  · next t rest hfirst =>
    obtain ⟨ht, hrest⟩ := List.forall_mem_cons.1 (hfirst ▸ forall_mem_dropWhile htoks)
    split
    · trivial
    · split
      · split
        · exact ht
        · next name after hsecond =>
          obtain ⟨hname, -⟩ := List.forall_mem_cons.1 (hsecond ▸ forall_mem_dropWhile hrest)
          split
          · split
            · exact hname
            · split
              · trivial
              · exact hname
          · exact ht
      · exact ht

theorem resolveTokens_answers {table : Macro.Table} {active : List Bytes}
    {expand : Definition → Position → Except (Located Complaint) (List Token)}
    (hexpand : ∀ d pos, Q pos → Answers Q (fun _ => True) (expand d pos)) {toks : List Token}
    (htoks : ∀ t ∈ toks, Q t.pos) :
    Answers Q (fun _ => True) (resolveTokens table active expand toks) := by
  fun_induction resolveTokens table active expand toks with
  | case1 => trivial
  | case2 t rest hident ih => exact (ih (List.forall_mem_cons.1 htoks).2).map
  | case3 t rest hident hword e hfound =>
    have hlast : Q (rest.getLastD t).pos := htoks _ List.getLastD_mem_cons
    exact (definedOperand_answers hlast (List.forall_mem_cons.1 htoks).2).of_error hfound
  | case4 t rest hident hword name after hfound value ih =>
    have hsuffix := (definedOperand_suffix hfound).trans (List.suffix_cons t rest)
    exact (ih fun t' ht' => htoks t' (hsuffix.subset ht')).map
  | case5 t rest hident hword hlookup ih => exact (ih (List.forall_mem_cons.1 htoks).2).map
  | case6 t rest hident hword d hlookup hactive ih =>
    exact (ih (List.forall_mem_cons.1 htoks).2).map
  | case7 t rest => exact htoks t List.mem_cons_self
  | case8 t rest hident hword d hlookup hactive hplain e hfails =>
    exact (hexpand d t.pos (htoks t List.mem_cons_self)).of_error hfails
  | case9 t rest hident hword d hlookup hactive hplain body hbody ih =>
    exact (ih (List.forall_mem_cons.1 htoks).2).map

/-- A condition is refused at one of its tokens, also for what a macro in it stands for. -/
theorem resolve_answers (table : Macro.Table) (depth : Nat) (active : List Bytes)
    {toks : List Token} (hne : toks ≠ []) (htoks : ∀ t ∈ toks, Q t.pos) :
    Answers Q (fun _ => True) (resolve table depth active toks) := by
  induction depth generalizing active toks with
  | zero =>
    obtain ⟨t, rest, rfl⟩ := List.exists_cons_of_ne_nil hne
    exact htoks t List.mem_cons_self
  | succ depth ih =>
    rw [resolve_succ]
    refine resolveTokens_answers (fun d pos hpos => ?_) htoks
    unfold expandMacro
    split
    · trivial
    · next hbody =>
      -- the tokens of a body stand where the macro is used
      have hplaced : ∀ t ∈ bodyTokens d pos, Q t.pos := by
        intro t ht
        obtain ⟨t', -, rfl⟩ := List.mem_map.1 ht
        exact hpos
      exact (ih (d.name :: active) hbody hplaced).map

theorem remaining_located {c : Cursor} (hc : c.Within Q) : ∀ t ∈ c.remaining, Q t.pos :=
  fun t ht => hc.token t ((remaining_isInfix c).subset ht)

theorem bracketedName_answers {opening : Position} (hopening : Q opening) (name : Bytes)
    {toks : List Token} (htoks : ∀ t ∈ toks, Q t.pos) :
    Answers Q (fun _ => True) (bracketedName opening name toks) := by
  induction toks generalizing name with
  | nil => exact hopening
  | cons t rest ih =>
    obtain ⟨-, hrest⟩ := List.forall_mem_cons.1 htoks
    unfold bracketedName
    split
    · split
      · exact hrest _ List.mem_cons_self
      · split
        · exact hopening
        · trivial
    · exact ih _ hrest

theorem includeName_answers {pos : Position} (hpos : Q pos) {toks : List Token}
    (htoks : ∀ t ∈ toks, Q t.pos) : Answers Q (fun _ => True) (includeName pos toks) := by
  unfold includeName
  split
  · exact hpos
  · next first rest =>
    obtain ⟨hfirst, hrest⟩ := List.forall_mem_cons.1 htoks
    split
    · split
      · exact hrest _ List.mem_cons_self
      · trivial
    · split
      · exact (bracketedName_answers hfirst [] hrest).map
      · exact hfirst

/-- The operands of a line directive are refused at their tokens. -/
theorem lineOperands_answers {c : Cursor} (hc : c.Within Q) (name : Bytes) :
    Answers Q (fun asked => asked.2.2.Within Q) (lineOperands name c) := by
  have hnumber := hc.next_pos
  unfold lineOperands
  dsimp only
  split
  · exact hnumber
  · next hkind =>
    have hnext := hc.next (Token.plain_of_kind (by simp_all) (by simp_all))
    split
    · exact hnumber
    · split
      · exact hnumber
      · split
        · exact hnext.next_pos
        · next hfile =>
          refine hnext.next (Token.plain_of_kind ?_ ?_)
          · intro hstray
            exact hfile ⟨by simp [hstray], by simp [hstray]⟩
          · intro hpunctuator
            exact hfile ⟨by simp [hpunctuator], by simp [hpunctuator]⟩

/-! ## Reports -/

/-- Everything that is delivered between two reporters is as it should be. -/
def Tells (P : Diagnostic → Prop) (r r' : Reporter) : Prop :=
  ∃ told, r'.delivered = r.delivered ++ told ∧ ∀ d ∈ told, P d

namespace Tells

variable {P : Diagnostic → Prop} {r r' r'' : Reporter}

theorem refl (r : Reporter) : Tells P r r :=
  ⟨[], by simp, by simp⟩

theorem trans (h : Tells P r r') (h' : Tells P r' r'') : Tells P r r'' := by
  obtain ⟨told, hdelivered, hall⟩ := h
  obtain ⟨told', hdelivered', hall'⟩ := h'
  exact ⟨told ++ told', by rw [hdelivered', hdelivered, List.append_assoc],
    List.forall_mem_append.2 ⟨hall, hall'⟩⟩

theorem mono {P' : Diagnostic → Prop} (h : Tells P r r') (himp : ∀ d, P d → P' d) :
    Tells P' r r' := by
  obtain ⟨told, hdelivered, hall⟩ := h
  exact ⟨told, hdelivered, fun d hd => himp d (hall d hd)⟩

theorem error {pos : Position} {message : Bytes} (h : P ⟨pos, .error, .none, message⟩) :
    Tells P r (r.error pos message) :=
  ⟨[⟨pos, .error, .none, message⟩], rfl, by simpa using h⟩

theorem warn {classes : WarningSet} {pos : Position} {message : Bytes}
    (h : P ⟨pos, .warning, classes, message⟩) : Tells P r (r.warn classes pos message) := by
  unfold Reporter.warn
  split
  · exact ⟨[⟨pos, .warning, classes, message⟩], rfl, by simpa using h⟩
  · exact refl r

theorem fatal {f : Fatal} (h : P ⟨f.pos, .fatal, .none, f.message⟩) : Tells P r (r.fatal f) := by
  unfold Reporter.fatal
  split
  · exact refl r
  · exact ⟨[⟨f.pos, .fatal, .none, f.message⟩], rfl, by simpa using h⟩

end Tells

/-- The warning that there are too many macros, at a place. -/
def IsCeiling (place : Position) (d : Diagnostic) : Prop :=
  d.pos = place ∧ d.severity = .warning ∧
    ∃ count limit, d.message = (Caution.manyMacros count limit).message

/-- A report at one of the places that a directive has, or the warning about too many macros. -/
def ReportedIn (Q : Position → Prop) (place : Position) (d : Diagnostic) : Prop :=
  Q d.pos ∨ IsCeiling place d

section Reports

variable {h : Host} {s : State} {c : Cursor} {place pos : Position}

theorem Tells.complain (hpos : Q pos) (why : Complaint) :
    Tells (ReportedIn Q place) s.reporter (s.complain pos why).reporter :=
  .error (.inl hpos)

theorem Tells.caution (hpos : Q pos) (why : Caution) :
    Tells (ReportedIn Q place) s.reporter (s.caution pos why).reporter :=
  .warn (.inl hpos)

theorem Tells.notice (hpos : Q pos) (why : Option Macro.Notice) :
    Tells (ReportedIn Q place) s.reporter (s.notice pos why).reporter := by
  cases why with
  | none => exact .refl _
  | some why => exact .warn (.inl hpos)

theorem Tells.ceiling (hplace : s.position = place) (why : Option Macro.Ceiling) :
    Tells (ReportedIn Q place) s.reporter (s.ceiling why).reporter := by
  cases why with
  | none => exact .refl _
  | some why => exact .warn (.inr ⟨hplace, rfl, _, _, rfl⟩)

theorem Tells.checkTrailing (hc : c.Within Q) (kw : Keyword) :
    Tells (ReportedIn Q place) s.reporter (s.checkTrailing h c kw).reporter := by
  have hplaced := remaining_located hc
  unfold State.checkTrailing
  split
  · exact .refl _
  · next t rest hextra =>
    have ht := hplaced t (by simp [hextra])
    split
    · exact .complain ht _
    · exact .caution ht _

theorem Tells.checkLineRest (hc : c.Within Q) (name : Bytes) :
    Tells (ReportedIn Q place) s.reporter (s.checkLineRest h name c).reporter := by
  have hplaced := remaining_located hc
  unfold State.checkLineRest
  split
  · split
    · next t rest hextra => exact .caution (hplaced t (by simp [hextra])) _
    · exact .refl _
  · exact .checkTrailing hc .line

theorem Tells.checkDepth (hpos : Q pos) :
    Tells (ReportedIn Q place) s.reporter (s.checkDepth pos).reporter := by
  unfold State.checkDepth
  dsimp only
  split
  · exact .refl _
  · exact .caution (s := { s with depthWarned := true }) hpos _

theorem Tells.test (hpos : Q pos) (hc : c.Within Q) (kw : Keyword) :
    Tells (ReportedIn Q place) s.reporter (s.test pos kw c.remaining).1.reporter := by
  unfold State.test
  split
  · exact .complain hpos _
  · next hne =>
    have hresolve : Answers Q (fun _ => True) (resolveCondition s.table c.remaining) :=
      resolve_answers _ _ _ (by simpa using hne) (remaining_located hc)
    split
    · next e herror => exact .complain (hresolve.of_error herror) _
    · dsimp only
      split
      · exact .complain (s := { s with evaluations := _ }) hpos _
      · exact .refl _

theorem Tells.testDefined (hc : c.Within Q) (kw : Keyword) :
    Tells (ReportedIn Q place) s.reporter (s.testDefined h kw c).1.reporter := by
  have hcheck := Macro.checkName_answers hc.next_pos kw.name
  unfold State.testDefined
  dsimp only
  split
  · next e herror => exact .error (.inl (hcheck.of_error herror))
  · next hok => exact .checkTrailing (hc.next (hcheck.of_ok hok)) kw

end Reports

/-! ## Directives -/

/-- The places where the open groups start. -/
def groupPlaces (b : Branch.Stack) : List Position :=
  b.frames.map (·.ifPos)

/-- What a directive does to the open groups: it keeps them, closes the innermost one, or opens one
    at a place of its own. -/
inductive Regroups (Q : Position → Prop) (b b' : Branch.Stack) : Prop where
  | kept (h : groupPlaces b' = groupPlaces b)
  | closed (h : groupPlaces b' = (groupPlaces b).tail)
  | opened (pos : Position) (hpos : Q pos) (h : groupPlaces b' = pos :: groupPlaces b)

/-- A failure with a place is at one of these places. -/
def FailsIn (Q : Position → Prop) (failure : Failure) : Prop :=
  match failure.root with
  | .fatal f => Q f.pos
  | .recoverable pos _ => Q pos
  | _ => True

/-- A directive that reports at places of its own only. -/
structure Placed (Q : Position → Prop) (s : State) (out : Outcome) : Prop where
  told : Tells (ReportedIn Q s.position) s.reporter out.state.reporter
  failed : ∀ failure, out.failure = some failure → FailsIn Q failure
  groups : Regroups Q s.branches out.state.branches

section Directives

variable {h : Host} {nested : Option Nested} {s s' : State} {pos : Position} {c : Cursor}

theorem Placed.of_groups (htold : Tells (ReportedIn Q s.position) s.reporter s'.reporter)
    (hgroups : Regroups Q s.branches s'.branches) : Placed Q s { state := s' } :=
  ⟨htold, fun _ hnone => absurd hnone (by simp), hgroups⟩

theorem Placed.of_state (htold : Tells (ReportedIn Q s.position) s.reporter s'.reporter)
    (hbranches : s'.branches = s.branches) : Placed Q s { state := s' } :=
  .of_groups htold (.kept (by rw [hbranches]))

theorem Placed.of_failure (htold : Tells (ReportedIn Q s.position) s.reporter s'.reporter)
    (hbranches : s'.branches = s.branches) {failure : Failure} (hfails : FailsIn Q failure) :
    Placed Q s { state := s', failure := some failure } := by
  refine ⟨htold, fun failure' hsome => ?_, .kept (by rw [hbranches])⟩
  obtain rfl := Option.some.inj hsome
  exact hfails

theorem refusal_fails (why : Branch.Refusal) (hpos : Q pos) : FailsIn Q (why.failure pos) := by
  cases why <;> exact hpos

theorem failsIn_markReported {failure : Failure} (hfails : FailsIn Q failure) :
    FailsIn Q failure.markReported := by
  induction failure with
  | plain | recoverable | fatal => exact hfails
  | wrapped label inner ih => exact ih hfails

/-- The report of a failure at the end is at a place of the directive too. -/
theorem Placed.reported {out : Outcome} (hout : Placed Q s out) (hpos : Q pos) :
    Placed Q s (out.reported pos) := by
  have hgroups : Regroups Q s.branches (out.reported pos).state.branches := by
    rw [(reported_effect out pos).1.branches]
    exact hout.groups
  cases hfailure : out.failure with
  | none =>
    have hsame : out.reported pos = out := by simp only [Outcome.reported, hfailure]
    rw [hsame]
    exact hout
  | some failure =>
    have hfails := hout.failed failure hfailure
    obtain ⟨hreporter, hpassed⟩ := reported_of_some hfailure pos
    refine ⟨?_, fun failure' hsome => ?_, hgroups⟩
    · rw [hreporter]
      refine hout.told.trans ?_
      unfold Reporter.report
      unfold FailsIn at hfails
      cases hroot : failure.root with
      | fatal f =>
        rw [hroot] at hfails
        exact .fatal (.inl hfails)
      | recoverable place message =>
        rw [hroot] at hfails
        exact .error (.inl hfails)
      | plain message => exact .error (.inl hpos)
      | wrapped label inner => exact .error (.inl hpos)
    · rw [hpassed] at hsome
      split at hsome
      · obtain rfl := Option.some.inj hsome
        exact failsIn_markReported hfails
      · exact absurd hsome (by simp)

theorem Placed.noteSwitch {out : Outcome} (hout : Placed Q s out) (wasCompiling : Bool) :
    Placed Q s (out.noteSwitch wasCompiling) := by
  obtain ⟨resync, hnote⟩ := noteSwitch_effect out wasCompiling
  rw [hnote]
  exact ⟨hout.told, hout.failed, hout.groups⟩

/-! ### Groups -/

theorem enter_regroups {b b' : Branch.Stack} {file : Int} (hpos : Q pos)
    (hstep : (b.enter pos file).LeadsTo b') : Regroups Q b b' := by
  obtain ⟨taken, rfl⟩ := Branch.Stack.pushed_of_enter hstep
  exact .opened pos hpos rfl

theorem switched_regroups {b b' : Branch.Stack} {file : Int} (hswitched : b.Switched file b') :
    Regroups Q b b' := by
  obtain ⟨frame, frame', outer, hframes, -, hb', -, -, hplace⟩ := hswitched
  refine .kept ?_
  rw [hb']
  simp [groupPlaces, hframes, hplace]

theorem endif_regroups {b b' : Branch.Stack} {file : Int} (hstep : b.endif file = .ok b') :
    Regroups Q b b' := by
  obtain ⟨frame, outer, hframes, -, rfl⟩ := Branch.Stack.popped_of_endif hstep
  exact .closed (by simp [groupPlaces, hframes])

theorem branch_placed {step : Branch.Step} {test : State → State × Bool} (hpos : Q pos)
    (hstep : ∀ b', step.LeadsTo b' → Regroups Q s.branches b')
    (htest : Tells (ReportedIn Q s.position) s.reporter (test s).1.reporter) :
    Placed Q s (s.branch pos step test) := by
  cases step with
  | refused why => exact .of_failure (.refl _) rfl (refusal_fails why hpos)
  | settled branches =>
    exact .of_groups (Tells.refl (State.reporter { s with branches })) (hstep _ rfl)
  | asks resume => exact .of_groups htest (hstep _ ⟨_, rfl⟩)

theorem Placed.checkDepth {out : Outcome} (hout : Placed Q s out) (hpos : Q pos) :
    Placed Q s { out with state := out.state.checkDepth pos } := by
  refine ⟨hout.told.trans (.checkDepth hpos), hout.failed, ?_⟩
  rw [(Reported.checkDepth out.state pos).branches]
  exact hout.groups

theorem close_placed {kw : Keyword} {result : Except Branch.Refusal Branch.Stack} (hpos : Q pos)
    (hc : c.Within Q) (hstep : ∀ b', result = .ok b' → Regroups Q s.branches b') :
    Placed Q s (s.close h pos kw c result) := by
  cases result with
  | error why => exact .of_failure (.refl _) rfl (refusal_fails why hpos)
  | ok branches =>
    have hgroups := hstep branches rfl
    unfold State.close
    dsimp only
    split
    · refine .of_groups (.checkTrailing (s := { s with branches }) hc kw) ?_
      rw [(Reported.checkTrailing h { s with branches } c kw).branches]
      exact hgroups
    · exact .of_groups (Tells.refl (State.reporter { s with branches })) hgroups

/-! ### Definitions and lines -/

theorem defineDirective_placed (hc : c.Within Q) : Placed Q s (s.defineDirective h c) := by
  have hparse := Macro.parse_answers h.limits hc
  unfold State.defineDirective State.define
  cases hp : Macro.parse h.limits c with
  | error e => exact .of_failure (.refl _) rfl (hparse.of_error hp)
  | ok p =>
    have hat := hparse.of_ok hp
    have hnotice := Reported.notice s p.definition.definedAt p.notice
    have htold : Tells (ReportedIn Q s.position) s.reporter
        (s.notice p.definition.definedAt p.notice).reporter := .notice hat p.notice
    dsimp only
    cases hr : Macro.define (s.notice p.definition.definedAt p.notice).table p.definition with
    | error e =>
      exact .of_failure htold hnotice.branches ((Macro.define_answers hat _).of_error hr)
    | ok r =>
      have hagain := hnotice.trans (Reported.notice _ p.definition.definedAt r.notice)
      have hplace : ∀ table, State.position { State.notice
          (s.notice p.definition.definedAt p.notice) p.definition.definedAt r.notice with table } =
            s.position := by
        intro table
        rw [hagain]
        rfl
      refine .of_state (htold.trans ((Tells.notice hat r.notice).trans ?_)) ?_
      · exact .ceiling (hplace r.table) r.ceiling
      · exact (Reported.ceiling _ r.ceiling).branches.trans hagain.branches

theorem undefDirective_placed (hc : c.Within Q) : Placed Q s (s.undefDirective h c) := by
  have hcheck := Macro.checkName_answers hc.next_pos Keyword.undef.name
  unfold State.undefDirective
  dsimp only
  split
  · next e herror => exact .of_failure (.refl _) rfl (hcheck.of_error herror)
  · next hok =>
    split
    · exact .of_failure (.refl _) rfl hc.next_pos
    · exact .of_state (.checkTrailing (s := { s with table := _ })
        (hc.next (hcheck.of_ok hok)) .undef)
        (Reported.checkTrailing h { s with table := _ } _ _).branches

theorem lineDirective_placed (hpos : Q pos) (hc : c.Within Q) (name : Bytes) :
    Placed Q s (s.lineDirective h name pos c) := by
  have hanswers := lineOperands_answers hc name
  rw [lineDirective_eq]
  cases hoperands : lineOperands name c with
  | error e => exact .of_failure (.refl _) rfl (hanswers.of_error hoperands)
  | ok asked =>
    obtain ⟨n, file, rest⟩ := asked
    have hleft := Reported.checkLineRest h s name rest
    have htold : Tells (ReportedIn Q s.position) s.reporter
        (s.checkLineRest h name rest).reporter := .checkLineRest (hanswers.of_ok hoperands) name
    dsimp only
    split
    · exact .of_failure htold hleft.branches hpos
    · exact .of_state htold hleft.branches

/-- A directive that reports at places of its own only, unless it opens a file. -/
def PlacedOrOpens (Q : Position → Prop) (s : State) (out : Outcome) : Prop :=
  Placed Q s out ∨ s.opened < out.state.opened

theorem include_placed (hnested : NestedOpens nested) (find : Includer) (hpos : Q pos)
    (hc : c.Within Q) : PlacedOrOpens Q s (s.include h nested find pos c) := by
  have hout := include_outcome h nested find s pos c
  generalize s.include h nested find pos c = out at hout ⊢
  cases hout with
  | unnamed hname =>
    have hanswers := includeName_answers hpos (remaining_located hc)
    exact .inl (.of_failure (.refl _) rfl (hanswers.of_error hname))
  | tooDeep => exact .inl (.of_failure (.refl _) rfl hpos)
  | @notFound name reason system =>
    let asked : State := { s with requests := s.requests ++ [⟨name, s.file, system⟩] }
    have htold : Tells (ReportedIn Q s.position) s.reporter asked.reporter := .refl _
    have hbranches : asked.branches = s.branches := rfl
    exact .inl (.of_failure htold hbranches hpos)
  | @opened name path contents system process _ hsome =>
    let asked : State := { s with requests := s.requests ++ [⟨name, s.file, system⟩] }
    exact .inr (hnested process hsome asked path contents)

theorem external_placed (hnested : NestedOpens nested) (kw : Option Keyword) (name : Bytes)
    (hpos : Q pos) (hc : c.Within Q) :
    PlacedOrOpens Q s (s.external h nested kw name pos c) := by
  have hout := external_outcome h nested s kw name pos c
  generalize s.external h nested kw name pos c = out at hout ⊢
  cases hout with
  | included => exact include_placed hnested _ hpos hc
  | renumbered => exact .inl (lineDirective_placed hpos hc name)
  | ignored => exact .inl (.of_state (.refl _) rfl)
  | warned => exact .inl (.of_state (.caution hpos _) rfl)
  | failed => exact .inl (.of_failure (.refl _) rfl hpos)

/-! ### All directives -/

theorem dispatch_placed (hnested : NestedOpens nested) (kw : Option Keyword) {name : Token}
    (hname : Q name.pos) (hc : c.Within Q) :
    PlacedOrOpens Q s (s.dispatch h nested kw name c) := by
  unfold State.dispatch
  dsimp only
  split
  · exact .inl ((branch_placed hname (fun _ => enter_regroups hname)
      (.test hname hc .ifTrue)).checkDepth hname)
  · exact .inl ((branch_placed hname (fun _ => enter_regroups hname)
      (.testDefined hc .ifdef)).checkDepth hname)
  · exact .inl ((branch_placed hname (fun _ => enter_regroups hname)
      (.testDefined hc .ifndef)).checkDepth hname)
  · exact .inl (branch_placed hname
      (fun _ hstep => switched_regroups (Branch.Stack.switched_of_elif hstep))
      (.test hname hc .elif))
  · exact .inl (close_placed hname hc
      fun _ hstep => switched_regroups (Branch.Stack.switched_of_otherwise hstep))
  · exact .inl (close_placed hname hc fun _ => endif_regroups)
  · exact .inl (defineDirective_placed hc)
  · exact .inl (undefDirective_placed hc)
  · exact external_placed hnested _ name.text hname hc

theorem PlacedOrOpens.reported {out : Outcome} (hout : PlacedOrOpens Q s out) (hpos : Q pos) :
    PlacedOrOpens Q s (out.reported pos) := by
  refine hout.imp (·.reported hpos) fun hopens => ?_
  rw [(reported_effect out pos).1.opened]
  exact hopens

theorem PlacedOrOpens.noteSwitch {out : Outcome} (hout : PlacedOrOpens Q s out)
    (wasCompiling : Bool) : PlacedOrOpens Q s (out.noteSwitch wasCompiling) := by
  refine hout.imp (·.noteSwitch wasCompiling) fun hopens => ?_
  obtain ⟨resync, hnote⟩ := noteSwitch_effect out wasCompiling
  rw [hnote]
  exact hopens

/-- **A directive reports at its own tokens**, or at the end of its line when no comment starts on
    the line, unless it opens a file. -/
theorem directiveWith_placed (hnested : NestedOpens nested) {line : Bytes}
    (hline : (Cursor.ofText pos line).Within Q) :
    PlacedOrOpens Q s (s.directiveWith h nested pos line) := by
  have hafter {name : Token} {c : Cursor} (hsigned : Signed pos line name c) :
      Cursor.Within Q (Cursor.ofText pos line).nextNonSpace.2 :=
    hline.next (Token.plain_of_is hsigned.sign (by decide))
  have hname {name : Token} {c : Cursor} (hsigned : Signed pos line name c) : Q name.pos := by
    have hnext := (hafter hsigned).next_pos
    rwa [hsigned.read] at hnext
  have hout := directiveWith_outcome h nested s pos line
  generalize s.directiveWith h nested pos line = out at hout ⊢
  cases hout with
  | unsigned => exact .inl (.of_state (.complain hline.next_pos _) rfl)
  | ignored => exact .inl (.of_state (.refl _) rfl)
  | @named name c hsigned hident =>
    have hc : c.Within Q := by
      have hnext := (hafter hsigned).next (by
        rw [hsigned.read]
        exact Token.plain_of_kind (by simp [hident]) (by simp [hident]))
      rwa [hsigned.read] at hnext
    exact ((dispatch_placed hnested _ (hname hsigned) hc).noteSwitch _).reported (hname hsigned)
  | numbered hsigned =>
    exact (external_placed hnested _ _ (hname hsigned) (hafter hsigned)).reported (hname hsigned)
  | invalid hsigned => exact .inl (.of_state (.complain (hname hsigned) _) rfl)
  | skipped hsigned => exact .inl (.of_state (.caution (hname hsigned) _) rfl)

end Directives

end Engine

end Preproc
