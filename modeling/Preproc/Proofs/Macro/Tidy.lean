import Preproc.Macro.Parser
import Preproc.Proofs.Token.Locality

set_option autoImplicit false

/-! # Tidied replacement lists

Reading a replacement list forgets how its whitespace was written: a blank stays one blank, and none
stays at the two ends, around `##` and after the operator `#`. `Reads` says what a list of lexemes
is read as, together with the lexemes that are left of it, the tidied list. Its text is what the
items are written as (`Reads.source`), and it is read as the same items again (`Reads.again`). -/

namespace Preproc.Macro

open Lexer

/-! ## Modes -/

/-- What stands before the next token of a replacement list. -/
inductive Mode where
  | start
  /-- An item, perhaps with whitespace after it. -/
  | item (pending : Bool)
  /-- The operator `##`. -/
  | paste
  /-- The operator `#`, whose operand is still to come. -/
  | hash
  deriving DecidableEq

/-- The text of an operator. -/
def operatorText : Operator → Bytes
  | .hash => ascii "#"
  | .paste => ascii "##"
  | .ellipsis => ascii "..."
  | .leftParen => ascii "("
  | .rightParen => ascii ")"
  | .comma => ascii ","
  | .none | .other => []

theorem ofText_eq_iff {op : Operator} (hop : operatorText op ≠ []) (text : Bytes) :
    Operator.ofText text = op ↔ text = operatorText op := by
  constructor
  · intro h
    unfold Operator.ofText at h
    repeat' split at h
    all_goals subst h
    all_goals first | assumption | exact absurd rfl hop
  · rintro rfl
    cases op with
    | none | other => exact absurd rfl hop
    | _ => decide

/-- One blank. -/
def blankLexeme : TokenKind × Bytes := (.space, ascii " ")

/-- An operator as a lexeme. -/
def signLexeme (op : Operator) : TokenKind × Bytes := (.punctuator, operatorText op)

/-- Kind and text of a token. -/
def tokenShape (t : Token) : TokenKind × Bytes := (t.kind, t.text)

theorem is_iff (op : Operator) (hop : operatorText op ≠ []) (t : Token) :
    t.is op = true ↔ tokenShape t = signLexeme op := by
  simp [Token.is, tokenShape, signLexeme, ofText_eq_iff hop]

theorem shape_of_space {t : Token} (h : t.isSpace = true) : tokenShape t = (.space, t.text) := by
  simpa [tokenShape, Token.isSpace] using h

theorem shape_of_ident {t : Token} (h : t.isIdent = true) : tokenShape t = (.ident, t.text) := by
  simpa [tokenShape, Token.isIdent] using h

namespace Mode

/-- The mode after whitespace. -/
def afterSpace : Mode → Mode
  | item _ => item true
  | mode => mode

/-- The blank that is due before the next item. -/
def dueItems : Mode → List Item
  | item true => [.space]
  | _ => []

/-- The blank that is due before the next item, as a lexeme. -/
def dueLexemes : Mode → List (TokenKind × Bytes)
  | item true => [blankLexeme]
  | _ => []

theorem reverse_dueItems (mode : Mode) : mode.dueItems.reverse = mode.dueItems := by
  cases mode with
  | item pending => cases pending <;> rfl
  | _ => rfl

end Mode

/-! ## Reading -/

/-- One lexeme read in a mode of the macro `d`: the next mode, the items, and the tidied lexemes. -/
inductive Advances (d : Definition) :
    Mode → TokenKind × Bytes → Mode → List Item → List (TokenKind × Bytes) → Prop where
  | space (mode : Mode) (text : Bytes) : Advances d mode (.space, text) mode.afterSpace [] []
  | operand {text : Bytes} {index : Nat} (h : Definition.formal? d.params text = some index) :
    Advances d .hash (.ident, text) (.item false) [.stringize index] [(.ident, text)]
  | paste (pending : Bool) :
    Advances d (.item pending) (signLexeme .paste) .paste [.paste]
      [blankLexeme, signLexeme .paste, blankLexeme]
  | hash {mode : Mode} (hmode : mode ≠ .hash) (h : d.functionLike = true) :
    Advances d mode (signLexeme .hash) .hash mode.dueItems (mode.dueLexemes ++ [signLexeme .hash])
  | item {mode : Mode} {kind : TokenKind} {text : Bytes} {item : Item} (hmode : mode ≠ .hash)
      (hspace : kind ≠ .space) (hpaste : (kind, text) ≠ signLexeme .paste)
      (hhash : d.functionLike = true → (kind, text) ≠ signLexeme .hash)
      (h : itemOf d.name d.params ⟨kind, text, {}⟩ = .ok item) :
    Advances d mode (kind, text) (.item false) (mode.dueItems ++ [item])
      (mode.dueLexemes ++ [(kind, text)])

/-- A list of lexemes read to its end: the items and the tidied list. -/
inductive Reads (d : Definition) :
    Mode → List (TokenKind × Bytes) → List Item → List (TokenKind × Bytes) → Prop where
  | done {mode : Mode} (hpaste : mode ≠ .paste) (hhash : mode ≠ .hash) : Reads d mode [] [] []
  | step {mode mode' : Mode} {l : TokenKind × Bytes} {first : List Item}
      {tidied : List (TokenKind × Bytes)} {rest : List (TokenKind × Bytes)} {items : List Item}
      {out : List (TokenKind × Bytes)} (h : Advances d mode l mode' first tidied)
      (hrest : Reads d mode' rest items out) :
    Reads d mode (l :: rest) (first ++ items) (tidied ++ out)

/-! ## The reader -/

namespace BodyState

/-- The mode of a reader. -/
def mode (s : BodyState) : Mode :=
  if s.hash.isSome then .hash
  else match s.items.head? with
    | none => .start
    | some .paste => .paste
    | some _ => .item s.pendingSpace

/-- No whitespace is noted before the first item. -/
def Ready (s : BodyState) : Prop :=
  s.items = [] → s.pendingSpace = false

theorem settleSpace_items {s : BodyState} (hready : s.Ready) (hhash : s.hash = none) :
    s.settleSpace.items = s.mode.dueItems ++ s.items := by
  unfold settleSpace mode Ready at *
  rw [hhash]
  cases hitems : s.items with
  | nil => simp [hready hitems, Mode.dueItems]
  | cons item items =>
    cases item <;> cases s.pendingSpace <;> simp [Mode.dueItems]

theorem settleSpace_pending (s : BodyState) : s.settleSpace.pendingSpace = false := by
  unfold settleSpace
  split <;> rfl

theorem settleSpace_hash (s : BodyState) : s.settleSpace.hash = s.hash := by
  unfold settleSpace
  split <;> rfl

theorem mode_of_item {s : BodyState} (hhash : s.hash = none) {item : Item}
    (hitem : s.items.head? = some item) (h : item ≠ .paste) : s.mode = .item s.pendingSpace := by
  unfold mode
  rw [hhash, hitem]
  cases item <;> simp_all

theorem mode_of_hash {s : BodyState} {pos : Position} (h : s.hash = some pos) : s.mode = .hash := by
  simp [mode, h]

theorem hash_of_mode {s : BodyState} (h : s.mode = .hash) : ∃ pos, s.hash = some pos := by
  unfold mode at h
  cases hhash : s.hash with
  | some pos => exact ⟨pos, rfl⟩
  | none =>
    rw [hhash] at h
    cases hitems : s.items with
    | nil => simp [hitems] at h
    | cons item items => cases item <;> simp [hitems] at h

theorem item_of_mode {s : BodyState} {pending : Bool} (h : s.mode = .item pending) :
    s.hash = none ∧ ∃ item, s.items.head? = some item ∧ item ≠ .paste := by
  cases hhash : s.hash with
  | some pos => rw [mode_of_hash hhash] at h; exact absurd h (by simp)
  | none =>
    unfold mode at h
    rw [hhash] at h
    cases hitems : s.items with
    | nil => simp [hitems] at h
    | cons item items =>
      refine ⟨rfl, item, rfl, ?_⟩
      rintro rfl
      simp [hitems] at h

theorem mode_ne_hash {s : BodyState} (hhash : s.hash = none) : s.mode ≠ .hash := by
  intro hmode
  obtain ⟨pos, hpos⟩ := hash_of_mode hmode
  exact absurd hhash (by simp [hpos])

theorem hash_eq_none {s : BodyState} (h : s.mode ≠ .hash) : s.hash = none := by
  cases hhash : s.hash with
  | none => rfl
  | some pos => exact absurd (mode_of_hash hhash) h

theorem mode_eq_paste {s : BodyState} (hhash : s.hash = none) :
    s.mode = .paste ↔ s.items.head? = some .paste := by
  unfold mode
  rw [hhash]
  cases s.items with
  | nil => simp
  | cons item items => cases item <;> simp

theorem mode_push {s : BodyState} (hhash : s.hash = none) {item : Item} (h : item ≠ .paste) :
    (s.push item).mode = .item false := by
  unfold mode push
  cases item <;> simp_all

theorem mode_space {s : BodyState} (hhash : s.hash = none) :
    { s with pendingSpace := !s.items.isEmpty }.mode = s.mode.afterSpace := by
  unfold mode
  cases s.items with
  | nil => simp [hhash, Mode.afterSpace]
  | cons item items => cases item <;> simp [hhash, Mode.afterSpace]

/-- The item of a token does not depend on where the token stands. -/
theorem itemOf_ok {name : Bytes} {params : List Bytes} {t : Token} {item : Item}
    (h : itemOf name params t = .ok item) (pos : Position) :
    itemOf name params ⟨t.kind, t.text, pos⟩ = .ok item ∧ item ≠ .paste := by
  unfold itemOf Token.isIdent at *
  dsimp only
  split at h
  · next hkind =>
    rw [if_pos hkind]
    split at h
    · next index _ =>
      obtain rfl : Item.param index = item := by simpa using h
      simp
    · split at h
      · simp at h
      · next hvariadic =>
        rw [if_neg hvariadic]
        split at h
        · next hself =>
          rw [if_pos hself]
          obtain rfl : Item.selfRef t.text = item := by simpa using h
          simp
        · next hself =>
          rw [if_neg hself]
          obtain rfl : Item.literal t.text = item := by simpa using h
          simp
  · next hkind =>
    rw [if_neg hkind]
    obtain rfl : Item.literal t.text = item := by simpa using h
    simp

/-- The reader goes from `s` to `s'` over a token as its mode says. -/
def Follows (d : Definition) (s s' : BodyState) (t : Token) : Prop :=
  s'.Ready ∧ ∃ items out, Advances d s.mode (tokenShape t) s'.mode items out ∧
    s'.items = items.reverse ++ s.items

section Step

variable {d : Definition} {s s' : BodyState} {t : Token}

/-- After `#`, whitespace is passed over and only a parameter is taken. -/
theorem step_operand (hready : s.Ready) {pos : Position} (hhash : s.hash = some pos)
    (h : s.step d t = .ok s') : Follows d s s' t := by
  unfold step at h
  rw [hhash] at h
  unfold Follows
  rw [mode_of_hash hhash]
  dsimp only at h
  split at h
  · next hspace =>
    obtain rfl : s = s' := by simpa using h
    rw [shape_of_space hspace, mode_of_hash hhash]
    exact ⟨hready, [], [], .space .hash t.text, rfl⟩
  · split at h
    · next index hformal =>
      split at hformal
      · next hident =>
        obtain rfl : { s.push (.stringize index) with hash := none } = s' := by simpa using h
        rw [shape_of_ident hident]
        exact ⟨by simp [Ready, push], [.stringize index], _, .operand hformal, rfl⟩
      · exact absurd hformal (by simp)
    · exact absurd h (by simp)

/-- The operator `##` needs an item before it. -/
theorem step_paste (hhash : s.hash = none) (hspace : t.isSpace = false)
    (hpaste : t.is .paste = true) (h : s.step d t = .ok s') : Follows d s s' t := by
  unfold step at h
  rw [hhash, hspace, hpaste] at h
  dsimp only at h
  rw [if_neg Bool.false_ne_true, if_pos rfl] at h
  unfold Follows
  rw [(is_iff .paste (by decide) t).1 hpaste]
  split at h
  · exact absurd h (by simp)
  · exact absurd h (by simp)
  · next item hitem hnot =>
    obtain rfl : { s.push .paste with pastes := s.pastes + 1, lastPaste := t.pos } = s' := by
      simpa using h
    have hpasted : { s.push .paste with pastes := s.pastes + 1, lastPaste := t.pos }.mode =
        .paste := by simp [mode, push, hhash]
    rw [mode_of_item hhash hnot hitem, hpasted]
    exact ⟨by simp [Ready, push], [.paste], _, .paste _, rfl⟩

/-- What a step does to a reader that is ready, if it takes the token. -/
theorem step_advances (hready : s.Ready) (h : s.step d t = .ok s') : Follows d s s' t := by
  cases hhash : s.hash with
  | some pos => exact step_operand hready hhash h
  | none =>
    by_cases hspace : t.isSpace = true
    · unfold step at h
      rw [hhash, if_pos hspace] at h
      obtain rfl : { s with pendingSpace := !s.items.isEmpty } = s' := by simpa [hhash] using h
      unfold Follows
      rw [shape_of_space hspace, mode_space hhash]
      exact ⟨by simp +contextual [Ready], [], [], .space s.mode t.text, rfl⟩
    · by_cases hpaste : t.is .paste = true
      · exact step_paste hhash (by simpa using hspace) hpaste h
      · -- a blank that is due comes before the item or the operator
        have hmode := mode_ne_hash hhash
        unfold step at h
        rw [hhash, if_neg hspace, if_neg hpaste] at h
        dsimp only at h
        unfold Follows
        split at h
        · next hsign =>
          rw [Bool.and_eq_true] at hsign
          obtain rfl : { s.settleSpace with hash := some t.pos } = s' := by simpa using h
          rw [(is_iff .hash (by decide) t).1 hsign.1,
            mode_of_hash (s := { s.settleSpace with hash := some t.pos }) rfl]
          refine ⟨fun _ => settleSpace_pending s, _, _, .hash hmode hsign.2, ?_⟩
          rw [Mode.reverse_dueItems]
          exact settleSpace_items hready hhash
        · next hsign =>
          split at h
          · next item hitem =>
            obtain rfl : s.settleSpace.push item = s' := by simpa using h
            obtain ⟨hitem', hnot⟩ := itemOf_ok hitem {}
            rw [mode_push ((settleSpace_hash s).trans hhash) hnot]
            refine ⟨by simp [Ready, push], _, _, .item hmode
              (by simpa [Token.isSpace] using hspace)
              (fun hp => hpaste ((is_iff .paste (by decide) t).2 hp))
              (fun hlike hp => ?_) hitem', ?_⟩
            · exact hsign (by rw [(is_iff .hash (by decide) t).2 hp, hlike]; rfl)
            · simp [push, settleSpace_items hready hhash, Mode.reverse_dueItems]
          · exact absurd h (by simp)

end Step

/-- A step takes every token that the mode allows. -/
theorem advances_step {d d' : Definition} (hname : d'.name = d.name)
    (hparams : d'.params = d.params) (hlike : d'.functionLike = d.functionLike) {s : BodyState}
    {t : Token} (hready : s.Ready) {mode' : Mode} {items : List Item}
    {out : List (TokenKind × Bytes)} (h : Advances d s.mode (tokenShape t) mode' items out) :
    ∃ s', s.step d' t = .ok s' ∧ s'.Ready ∧ s'.mode = mode' ∧
      s'.items = items.reverse ++ s.items := by
  generalize hmode : s.mode = mode at h
  generalize hshape : tokenShape t = l at h
  cases h with
  | space =>
    obtain ⟨hkind, -⟩ := Prod.mk.inj hshape
    have hspace : t.isSpace = true := by simp [Token.isSpace, hkind]
    unfold step
    split
    · next pos hhash =>
      rw [mode_of_hash hhash] at hmode
      subst hmode
      exact ⟨s, by rw [if_pos hspace], hready, mode_of_hash hhash, rfl⟩
    · next hhash =>
      rw [if_pos hspace]
      exact ⟨_, rfl, by simp +contextual [Ready], by rw [mode_space hhash, hmode], rfl⟩
  | @operand text index hformal =>
    obtain ⟨hkind, htext⟩ := Prod.mk.inj hshape
    obtain ⟨pos, hhash⟩ := hash_of_mode hmode
    refine ⟨{ s.push (.stringize index) with hash := none }, ?_, by simp [Ready, push], ?_, rfl⟩
    · simp [step, hhash, Token.isSpace, Token.isIdent, hkind, htext, hparams, hformal]
    · rfl
  | paste pending =>
    obtain ⟨hhash, item, hitem, hnot⟩ := item_of_mode hmode
    have hpaste := (is_iff .paste (by decide) t).2 hshape
    obtain ⟨hkind, -⟩ := Prod.mk.inj hshape
    refine ⟨{ s.push .paste with pastes := s.pastes + 1, lastPaste := t.pos }, ?_,
      by simp [Ready, push], by simp [mode, push, hhash], rfl⟩
    unfold step
    rw [hhash, hitem]
    cases item <;> simp_all [Token.isSpace]
  | hash hnot hfl =>
    have hhash := hash_eq_none (hmode ▸ hnot)
    have hsign := (is_iff .hash (by decide) t).2 hshape
    have hpaste : t.is .paste = false := by
      rw [Bool.eq_false_iff]
      intro hpaste
      rw [is_iff .paste (by decide), hshape] at hpaste
      exact absurd hpaste (by decide)
    obtain ⟨hkind, -⟩ := Prod.mk.inj hshape
    refine ⟨{ s.settleSpace with hash := some t.pos }, ?_, fun _ => settleSpace_pending s,
      mode_of_hash rfl, ?_⟩
    · simp [step, hhash, Token.isSpace, hkind, hpaste, hsign, hlike, hfl]
    · rw [Mode.reverse_dueItems, ← hmode]
      exact settleSpace_items hready hhash
  | @item _ kind text item hnot hspace hpaste hsign hitem =>
    have hhash := hash_eq_none (hmode ▸ hnot)
    obtain ⟨rfl, rfl⟩ := Prod.mk.inj hshape
    obtain ⟨hitem', hplain⟩ := itemOf_ok hitem t.pos
    have hisSpace : t.isSpace = false := by simpa [Token.isSpace] using hspace
    have hisPaste : t.is .paste = false := by
      rw [Bool.eq_false_iff]
      intro h
      exact hpaste ((is_iff .paste (by decide) t).1 h)
    have hisSign : (t.is .hash && d'.functionLike) = false := by
      rw [Bool.eq_false_iff, Ne, Bool.and_eq_true, hlike]
      rintro ⟨h, hfl⟩
      exact hsign hfl ((is_iff .hash (by decide) t).1 h)
    refine ⟨s.settleSpace.push item, ?_, by simp [Ready, push],
      mode_push ((settleSpace_hash s).trans hhash) hplain, ?_⟩
    · unfold step
      rw [hhash, hisSpace, hisPaste, hisSign, hname, hparams]
      dsimp only
      rw [if_neg (by simp), if_neg (by simp), if_neg (by simp)]
      rw [show itemOf d.name d.params t = .ok item from hitem']
    · simp [push, settleSpace_items hready hhash, Mode.reverse_dueItems, hmode]

theorem run_reads {d : Definition} {toks : List Token} {s s' : BodyState} (hready : s.Ready)
    (h : run d s toks = .ok s') (hpaste : s'.mode ≠ .paste) (hhash : s'.mode ≠ .hash) :
    ∃ items out, Reads d s.mode (toks.map tokenShape) items out ∧
      s'.items = items.reverse ++ s.items := by
  induction toks generalizing s with
  | nil =>
    obtain rfl : s = s' := by simpa [run] using h
    exact ⟨[], [], .done hpaste hhash, rfl⟩
  | cons t toks ih =>
    rw [run] at h
    split at h
    · next s₁ hstep =>
      obtain ⟨hready₁, first, tidied, hadvances, hfirst⟩ := step_advances hready hstep
      obtain ⟨items, out, hreads, hitems⟩ := ih hready₁ h
      refine ⟨first ++ items, tidied ++ out, .step hadvances hreads, ?_⟩
      rw [hitems, hfirst, List.reverse_append, List.append_assoc]
    · exact absurd h (by simp)

end BodyState

theorem Reads.run {d d' : Definition} (hname : d'.name = d.name) (hparams : d'.params = d.params)
    (hlike : d'.functionLike = d.functionLike) {mode : Mode} {ls : List (TokenKind × Bytes)}
    {items : List Item} {out : List (TokenKind × Bytes)} (h : Reads d mode ls items out)
    {toks : List Token} {s : BodyState} (hshapes : toks.map tokenShape = ls) (hmode : s.mode = mode)
    (hready : s.Ready) :
    ∃ s', BodyState.run d' s toks = .ok s' ∧ s'.mode ≠ .paste ∧ s'.mode ≠ .hash ∧
      s'.items = items.reverse ++ s.items := by
  induction h generalizing toks s with
  | done hpaste hhash =>
    obtain rfl := List.map_eq_nil_iff.1 hshapes
    exact ⟨s, rfl, hmode ▸ hpaste, hmode ▸ hhash, rfl⟩
  | step hadvances _ ih =>
    obtain ⟨t, toks, rfl, rfl, hrest⟩ := List.map_eq_cons_iff.1 hshapes
    subst hmode
    obtain ⟨s₁, hstep, hready₁, hmode₁, hfirst⟩ :=
      BodyState.advances_step hname hparams hlike hready hadvances
    obtain ⟨s', hrun, hpaste, hhash, hitems⟩ := ih hrest hmode₁ hready₁
    refine ⟨s', ?_, hpaste, hhash, ?_⟩
    · rw [BodyState.run, hstep]
      exact hrun
    · rw [hitems, hfirst, List.reverse_append, List.append_assoc]

/-- A replacement list that is accepted can be read. -/
theorem readBody_reads {d : Definition} {toks : List Token} {body : Replacement} {pastes : Nat}
    (h : readBody d toks = .ok (body, pastes)) :
    ∃ out, Reads d .start (toks.map tokenShape) body out := by
  unfold readBody at h
  split at h
  · exact absurd h (by simp)
  · next s hrun =>
    split at h
    · exact absurd h (by simp)
    · next hhash =>
      split at h
      · exact absurd h (by simp)
      · next hpaste =>
        obtain ⟨rfl, -⟩ : s.items.reverse = body ∧ s.pastes = pastes := by simpa using h
        have hready : ({} : BodyState).Ready := fun _ => rfl
        obtain ⟨items, out, hreads, hitems⟩ := BodyState.run_reads hready hrun
          (fun hmode => hpaste ((BodyState.mode_eq_paste hhash).1 hmode))
          (BodyState.mode_ne_hash hhash)
        refine ⟨out, ?_⟩
        rw [hitems, List.append_nil, List.reverse_reverse]
        exact hreads

/-- What can be read is accepted. -/
theorem Reads.readBody {d d' : Definition} (hname : d'.name = d.name)
    (hparams : d'.params = d.params) (hlike : d'.functionLike = d.functionLike)
    {toks : List Token} {body : Replacement} {out : List (TokenKind × Bytes)}
    (h : Reads d .start (toks.map tokenShape) body out) :
    ∃ pastes, readBody d' toks = .ok (body, pastes) := by
  have hready : ({} : BodyState).Ready := fun _ => rfl
  obtain ⟨s, hrun, hpaste, hhash, hitems⟩ := h.run hname hparams hlike rfl rfl hready
  have hnone := BodyState.hash_eq_none hhash
  have hlast : s.items.head? ≠ some .paste := fun h => hpaste ((BodyState.mode_eq_paste hnone).2 h)
  refine ⟨s.pastes, ?_⟩
  unfold Macro.readBody
  rw [hrun]
  simp only [hnone]
  rw [if_neg hlast, hitems, List.append_nil, List.reverse_reverse]

/-! ## The tidied list -/

namespace Mode

/-- The sign that was read and belongs to an item that is still to come. -/
def owed : Mode → Bytes
  | hash => ascii "#"
  | _ => []

/-- The mode without whitespace after the last item. -/
def settled : Mode → Mode
  | item _ => item false
  | mode => mode

theorem settled_afterSpace (mode : Mode) : mode.afterSpace.settled = mode.settled := by
  cases mode <;> rfl

theorem source_dueItems (mode : Mode) (params : List Bytes) :
    Replacement.source params mode.dueItems = textOf mode.dueLexemes := by
  cases mode with
  | item pending => cases pending <;> rfl
  | _ => rfl

end Mode

theorem paramName_of_formal {params : List Bytes} {text : Bytes} {index : Nat}
    (h : Definition.formal? params text = some index) : Item.paramName params index = text := by
  unfold Definition.formal? at h
  obtain ⟨i, hi, rfl⟩ := Option.map_eq_some_iff.1 h
  obtain ⟨hlt, htext, -⟩ := List.findIdx?_eq_some_iff_getElem.1 hi
  have hindex : (1 : Int) ≤ (i + 1 : Nat) := by omega
  unfold Item.paramName
  rw [if_pos hindex]
  simp only [Int.toNat_natCast, Nat.add_sub_cancel, List.getElem?_eq_getElem hlt]
  simpa using htext

/-- An item is written as the token it was read from. -/
theorem itemOf_source {name : Bytes} {params : List Bytes} {t : Token} {item : Item}
    (h : itemOf name params t = .ok item) : item.source params = t.text := by
  unfold itemOf at h
  split at h
  · split at h
    · next index hformal =>
      obtain rfl : Item.param index = item := by simpa using h
      exact paramName_of_formal hformal
    · split at h
      · exact absurd h (by simp)
      · split at h
        · obtain rfl : Item.selfRef t.text = item := by simpa using h
          rfl
        · obtain rfl : Item.literal t.text = item := by simpa using h
          rfl
  · obtain rfl : Item.literal t.text = item := by simpa using h
    rfl

section Tidied

variable {d : Definition} {mode mode' : Mode} {l : TokenKind × Bytes} {first items : List Item}
  {ls tidied out rest : List (TokenKind × Bytes)}

theorem Advances.source (h : Advances d mode l mode' first tidied) :
    mode.owed ++ textOf tidied = Replacement.source d.params first ++ mode'.owed := by
  cases h with
  | space => cases mode <;> rfl
  | operand hformal =>
    simp [Mode.owed, Replacement.source, Item.source, paramName_of_formal hformal]
  | paste => rfl
  | hash hmode =>
    have howed : mode.owed = [] := by cases mode <;> first | rfl | exact absurd rfl hmode
    rw [howed, textOf_append, ← mode.source_dueItems d.params]
    rfl
  | item hmode _ _ _ hitem =>
    have howed : mode.owed = [] := by cases mode <;> first | rfl | exact absurd rfl hmode
    rw [howed, textOf_append, ← mode.source_dueItems d.params]
    simp [Replacement.source, Mode.owed, itemOf_source hitem]

/-- The items are written as the tidied list. -/
theorem Reads.source (h : Reads d mode ls items out) :
    mode.owed ++ textOf out = Replacement.source d.params items := by
  induction h with
  | @done mode _ hhash =>
    cases mode with
    | hash => exact absurd rfl hhash
    | _ => rfl
  | @step mode mode' l first tidied rest items out h hrest ih =>
    calc mode.owed ++ textOf (tidied ++ out)
        = mode.owed ++ textOf tidied ++ textOf out := by rw [textOf_append, List.append_assoc]
      _ = Replacement.source d.params first ++ (mode'.owed ++ textOf out) := by
        rw [h.source, List.append_assoc]
      _ = Replacement.source d.params (first ++ items) := by
        rw [ih, Replacement.source, Replacement.source, Replacement.source, List.flatMap_append]

/-- Whitespace only changes the mode. -/
theorem Reads.skip (text : Bytes) (h : Reads d mode.afterSpace ls items out) :
    Reads d mode ((.space, text) :: ls) items out :=
  .step (.space mode text) h

theorem Advances.again (h : Advances d mode l mode' first tidied)
    (hrest : Reads d mode'.settled rest items out) :
    Reads d mode.settled (tidied ++ rest) (first ++ items) (tidied ++ out) := by
  cases h with
  | space => rwa [Mode.settled_afterSpace] at hrest
  | operand hformal => exact .step (.operand hformal) hrest
  | paste =>
    -- the blanks around the operator leave no trace of their own
    have hblank : Reads d .paste (blankLexeme :: rest) items out := hrest.skip _
    have hpaste : Reads d (.item true) _ _ _ := .step (.paste true) hblank
    exact hpaste.skip _
  | hash hmode hlike =>
    cases mode with
    | hash => exact absurd rfl hmode
    | item pending =>
      cases pending with
      | false => exact .step (.hash hmode hlike) hrest
      | true =>
        have hnext : Reads d (.item true) _ _ _ := .step (.hash hmode hlike) hrest
        exact hnext.skip _
    | start | paste => exact .step (.hash hmode hlike) hrest
  | item hmode hspace hpaste hhash hitem =>
    cases mode with
    | hash => exact absurd rfl hmode
    | item pending =>
      cases pending with
      | false => exact .step (.item hmode hspace hpaste hhash hitem) hrest
      | true =>
        have hnext : Reads d (.item true) _ _ _ :=
          .step (.item hmode hspace hpaste hhash hitem) hrest
        exact hnext.skip _
    | start | paste => exact .step (.item hmode hspace hpaste hhash hitem) hrest

/-- A tidied list is read as the same items, and nothing of it is left to tidy. -/
theorem Reads.again (h : Reads d mode ls items out) : Reads d mode.settled out items out := by
  induction h with
  | @done mode hpaste hhash =>
    cases mode with
    | paste => exact absurd rfl hpaste
    | hash => exact absurd rfl hhash
    | start | item => exact .done (by simp [Mode.settled]) (by simp [Mode.settled])
  | step h _ ih => exact h.again ih

end Tidied

end Preproc.Macro
