import Mathlib.Data.List.Nodup
import Preproc.Proofs.Macro.Redefinition

set_option autoImplicit false

/-! # Definitions that an expansion can rely on

Whoever replaces a macro walks through its items and takes what they say for granted: the number of
a parameter is the number of one, what joins two items has an item on each side, and text that is
copied is no name that should have been recognised. Every definition that is read from a text is
well formed in this sense (`parse_wellFormed`). The parameters are so because each of them is
compared with those before it (`Lists.ready`), and the items because of what stands before each
token (`Reads.fitsIn`, `Reads.joined`). -/

namespace Preproc.Macro

open Lexer

/-! ## Well-formed definitions -/

/-- The items that only say how their neighbours are joined. -/
def Item.isJoint : Item → Bool
  | space | paste => true
  | _ => false

/-- What an item in the replacement list of the macro `d` may say. -/
def Item.FitsIn (d : Definition) : Item → Prop
  | space | paste => True
  | param index | stringize index => 1 ≤ index ∧ index ≤ d.params.length
  | selfRef text => text = d.name
  | literal text => text ∉ d.params ∧ text ≠ d.name ∧ text ≠ ascii "##" ∧ text ≠ variadicName ∧
      (d.functionLike = true → text ≠ ascii "#")
  | unknown _ => False

/-- Two items of which at most one is a joint. -/
def NotBothJoint (a b : Item) : Prop :=
  a.isJoint = false ∨ b.isJoint = false

/-- What an expansion can rely on. -/
structure Definition.WellFormed (d : Definition) : Prop where
  name : isIdent d.name = true ∧ d.name ≠ ascii "defined" ∧ d.name ≠ variadicName
  object : d.functionLike = false →
    d.params = [] ∧ ∀ index, .param index ∉ d.body ∧ .stringize index ∉ d.body
  distinct : d.params.Nodup
  /-- The name for an ellipsis stands for one, at the end of the list. -/
  ellipsis : ∀ before after, d.params = before ++ variadicName :: after →
    d.variadic = true ∧ after = []
  items : ∀ item ∈ d.body, item.FitsIn d
  first : ∀ item ∈ d.body.head?, item.isJoint = false
  last : ∀ item ∈ d.body.getLast?, item.isJoint = false
  apart : d.body.IsChain NotBothJoint

/-! ## Parameters -/

/-- The names that a parameter list may have when its reader is in a state. -/
structure ParamState.Ready (state : ParamState) (names : List Bytes) : Prop where
  distinct : names.Nodup
  ellipsis : ∀ before after, names = before ++ variadicName :: after →
    state = .closing ∧ after = []

theorem ParamState.Ready.not_mem {state : ParamState} {names : List Bytes}
    (h : state.Ready names) (hstate : state ≠ .closing) : variadicName ∉ names := by
  intro hmem
  obtain ⟨before, after, hnames⟩ := List.append_of_mem hmem
  exact hstate (h.ellipsis before after hnames).1

theorem ParamState.Ready.of_not_mem {names : List Bytes} (state : ParamState)
    (hdistinct : names.Nodup) (h : variadicName ∉ names) : state.Ready names := by
  refine ⟨hdistinct, ?_⟩
  rintro before after rfl
  exact absurd (by simp) h

theorem ParamState.Ready.concat {names : List Bytes} (hdistinct : names.Nodup)
    (h : variadicName ∉ names) : ParamState.closing.Ready (names ++ [variadicName]) := by
  refine ⟨List.concat_eq_append ▸ hdistinct.concat h, ?_⟩
  intro before after hnames
  refine ⟨rfl, ?_⟩
  -- a second one would stand among the names before
  rcases List.eq_nil_or_concat after with hnil | ⟨init, last, hafter⟩
  · exact hnil
  · rw [hafter, List.concat_eq_append, ← List.cons_append, ← List.append_assoc] at hnames
    obtain ⟨hinit, -⟩ := List.append_inj' hnames rfl
    exact absurd (by simp [hinit]) h

/-- **The parameters of a list** are distinct, and the name for an ellipsis is the last of them. -/
theorem Lists.ready {limits : Limits} {state : ParamState} {names all : List Bytes}
    {kept : List (TokenKind × Bytes)} {variadic : Bool}
    (h : Lists limits state names kept all variadic) (hready : state.Ready names) :
    all.Nodup ∧ ∀ before after, all = before ++ variadicName :: after →
      variadic = true ∧ after = [] := by
  induction h with
  | closed names =>
    refine ⟨hready.distinct, ?_⟩
    intro before after hnames
    exact ⟨rfl, (hready.ellipsis before after hnames).2⟩
  | ended | empty =>
    refine ⟨hready.distinct, ?_⟩
    intro before after hnames
    exact absurd (hready.ellipsis before after hnames).1 (by simp)
  | named _ _ ih => exact ih (.of_not_mem _ hready.distinct (hready.not_mem (by simp)))
  | comma _ ih => exact ih (.of_not_mem _ hready.distinct (hready.not_mem (by simp)))
  | anonymous hstate _ ih =>
    have hopen := hready.not_mem (by rcases hstate with rfl | rfl <;> simp)
    exact ih (.concat hready.distinct hopen)
  | @param state text names all variadic rest hstate hname hnew _ _ ih =>
    have hopen := hready.not_mem (by rcases hstate with rfl | rfl <;> simp)
    have hother : text ∉ names := by simpa using hnew
    refine ih (.of_not_mem _ (List.concat_eq_append ▸ hready.distinct.concat hother) ?_)
    rw [List.mem_append, not_or]
    exact ⟨hopen, by simpa using Ne.symm hname⟩

/-! ## Single items -/

theorem formal?_bounds {params : List Bytes} {text : Bytes} {index : Nat}
    (h : Definition.formal? params text = some index) :
    (1 : Int) ≤ index ∧ (index : Int) ≤ params.length := by
  unfold Definition.formal? at h
  obtain ⟨i, hi, rfl⟩ := Option.map_eq_some_iff.1 h
  obtain ⟨hlt, -⟩ := List.findIdx?_eq_some_iff_getElem.1 hi
  omega

theorem formal?_eq_none {params : List Bytes} {text : Bytes}
    (h : Definition.formal? params text = none) : text ∉ params := by
  intro hmem
  unfold Definition.formal? at h
  rw [Option.map_eq_none_iff, List.findIdx?_eq_none_iff] at h
  exact absurd (h text hmem) (by simp)

/-- What is known of a macro when its replacement list is read. -/
structure Definition.Named (d : Definition) : Prop where
  name : isIdent d.name = true
  params : ∀ p ∈ d.params, isIdent p = true

section Items

variable {d : Definition} {mode mode' : Mode} {l : TokenKind × Bytes} {first items : List Item}
  {ls tidied out : List (TokenKind × Bytes)}

/-- A token that is no operator is taken as what its text says. -/
theorem itemOf_fitsIn (hd : d.Named) (hspelt : Spelt l) (hpaste : l ≠ signLexeme .paste)
    (hhash : d.functionLike = true → l ≠ signLexeme .hash) {item : Item}
    (h : itemOf d.name d.params ⟨l.1, l.2, {}⟩ = .ok item) :
    item.FitsIn d ∧ item.isJoint = false := by
  have hpasteText : l.2 ≠ ascii "##" := by
    intro htext
    exact hpaste (Prod.ext (hspelt.sign (by rw [htext]; rfl)) htext)
  have hhashText : d.functionLike = true → l.2 ≠ ascii "#" := by
    intro hlike htext
    exact hhash hlike (Prod.ext (hspelt.sign (by rw [htext]; rfl)) htext)
  unfold itemOf Token.isIdent at h
  by_cases hident : l.1 = .ident
  · rw [if_pos (by simpa using hident)] at h
    dsimp only at h
    split at h
    · next index hformal =>
      obtain rfl := Except.ok.inj h
      exact ⟨formal?_bounds hformal, rfl⟩
    · next hformal =>
      by_cases hvariadic : l.2 = variadicName
      · rw [if_pos hvariadic] at h
        exact absurd h (by simp)
      · rw [if_neg hvariadic] at h
        by_cases hself : l.2 = d.name
        · rw [if_pos hself] at h
          obtain rfl := Except.ok.inj h
          exact ⟨hself, rfl⟩
        · rw [if_neg hself] at h
          obtain rfl := Except.ok.inj h
          exact ⟨⟨formal?_eq_none hformal, hself, hpasteText, hvariadic, hhashText⟩, rfl⟩
  · -- a text that is no identifier is no name of any kind
    rw [if_neg (by simpa using hident)] at h
    obtain rfl := Except.ok.inj h
    have hword : ∀ name, isIdent name = true → l.2 ≠ name := by
      intro name hname htext
      exact hident (hspelt.ident.1 (htext ▸ hname))
    refine ⟨⟨?_, hword _ hd.name, hpasteText, hword _ (by decide), hhashText⟩, rfl⟩
    intro hmem
    exact hword _ (hd.params _ hmem) rfl

theorem Mode.dueItems_fitsIn (mode : Mode) (d : Definition) :
    ∀ item ∈ mode.dueItems, item.FitsIn d := by
  cases mode with
  | item pending => cases pending <;> simp [Mode.dueItems, Item.FitsIn]
  | _ => simp [Mode.dueItems]

theorem Advances.fitsIn (hd : d.Named) (hspelt : l.1 ≠ .space → Spelt l)
    (h : Advances d mode l mode' first tidied) : ∀ item ∈ first, item.FitsIn d := by
  cases h with
  | space => simp
  | operand hformal => simpa [Item.FitsIn] using formal?_bounds hformal
  | paste => simp [Item.FitsIn]
  | hash => exact mode.dueItems_fitsIn d
  | item _ hspace hpaste hhash hitem =>
    have hfits := (itemOf_fitsIn hd (hspelt hspace) hpaste hhash hitem).1
    exact List.forall_mem_append.2 ⟨mode.dueItems_fitsIn d, by simpa using hfits⟩

/-- Every item that is read says what it may. -/
theorem Reads.fitsIn (hd : d.Named) (h : Reads d mode ls items out)
    (hspelt : ∀ l ∈ ls, l.1 ≠ .space → Spelt l) : ∀ item ∈ items, item.FitsIn d := by
  induction h with
  | done => simp
  | step hadvances _ ih =>
    obtain ⟨hl, hrest⟩ := List.forall_mem_cons.1 hspelt
    exact List.forall_mem_append.2 ⟨hadvances.fitsIn hd hl, ih hrest⟩

/-! ## Neighbours -/

/-- How the items that are read in a mode may begin and end: after an item anything may follow, else
    no joint, and after an operator something has to. -/
structure Joined (mode : Mode) (items : List Item) : Prop where
  first : (∀ pending, mode ≠ .item pending) → ∀ item ∈ items.head?, item.isJoint = false
  some : mode = .paste ∨ mode = .hash → items ≠ []
  last : ∀ item ∈ items.getLast?, item.isJoint = false
  apart : items.IsChain NotBothJoint

/-- One more item, which is no joint. -/
theorem Joined.cons {item : Item} (hitem : item.isJoint = false) (h : Joined mode' items)
    (mode : Mode) : Joined mode (item :: items) where
  first _ := by simpa using hitem
  some _ := by simp
  last := by
    intro last hlast
    cases items with
    | nil =>
      obtain rfl : item = last := by simpa using hlast
      exact hitem
    | cons next rest => exact h.last last (by simpa using hlast)
  apart := h.apart.cons fun _ _ => Or.inl hitem

/-- A joint after an item, with something that is no joint after it. -/
theorem Joined.joint {joint : Item} (hfirst : ∀ item ∈ items.head?, item.isJoint = false)
    (hsome : items ≠ []) (h : Joined mode' items) (pending : Bool) :
    Joined (.item pending) (joint :: items) where
  first hmode := absurd rfl (hmode pending)
  some := by simp
  last := by
    intro last hlast
    obtain ⟨next, rest, rfl⟩ := List.exists_cons_of_ne_nil hsome
    exact h.last last (by simpa using hlast)
  apart := h.apart.cons fun next hnext => Or.inr (hfirst next hnext)

/-- The blank that is due before items that do not begin with a joint. -/
theorem Joined.due (hfirst : ∀ item ∈ items.head?, item.isJoint = false) (hsome : items ≠ [])
    (h : Joined mode' items) (mode : Mode) : Joined mode (mode.dueItems ++ items) := by
  have hplain : Joined mode items := ⟨fun _ => hfirst, fun _ => hsome, h.last, h.apart⟩
  cases mode with
  | item pending =>
    cases pending with
    | true => exact .joint hfirst hsome h true
    | false => exact hplain
  | start | paste | hash => exact hplain

theorem Advances.joined (hd : d.Named) (hspelt : l.1 ≠ .space → Spelt l)
    (h : Advances d mode l mode' first tidied) (hitems : Joined mode' items) :
    Joined mode (first ++ items) := by
  cases h with
  | space =>
    cases mode with
    | item pending => exact ⟨fun hmode => absurd rfl (hmode pending), by simp, hitems.last,
        hitems.apart⟩
    | start | paste | hash => exact hitems
  | operand => exact hitems.cons rfl _
  | paste pending =>
    exact .joint (hitems.first (by simp)) (hitems.some (Or.inl rfl)) hitems pending
  | hash => exact .due (hitems.first (by simp)) (hitems.some (Or.inr rfl)) hitems mode
  | item _ hspace hpaste hhash hitem =>
    have hplain := (itemOf_fitsIn hd (hspelt hspace) hpaste hhash hitem).2
    have hnext : Joined mode (_ :: items) := hitems.cons hplain mode
    rw [List.append_assoc]
    exact .due (by simpa using hplain) (by simp) hnext mode

/-- **The items that are read** are joined as their mode allows. -/
theorem Reads.joined (hd : d.Named) (h : Reads d mode ls items out)
    (hspelt : ∀ l ∈ ls, l.1 ≠ .space → Spelt l) : Joined mode items := by
  induction h with
  | done hpaste hhash =>
    refine ⟨by simp, ?_, by simp, .nil⟩
    rintro (hmode | hmode)
    · exact absurd hmode hpaste
    · exact absurd hmode hhash
  | step hadvances _ ih =>
    obtain ⟨hl, hrest⟩ := List.forall_mem_cons.1 hspelt
    exact hadvances.joined hd hl (ih hrest)

end Items

/-! ## Definitions -/

/-- What a head says: a name that a macro can have, and parameters only if it has a list. -/
theorem Heads.params {limits : Limits} {d : Definition} {head : List (TokenKind × Bytes)}
    (h : Heads limits d head) : CanName d.name ∧ (d.functionLike = false → d.params = []) ∧
      d.params.Nodup ∧ ∀ before after, d.params = before ++ variadicName :: after →
        d.variadic = true ∧ after = [] := by
  cases h with
  | object hname _ _ hparams =>
    refine ⟨hname, fun _ => hparams, by simp [hparams], ?_⟩
    intro before after h
    rw [hparams] at h
    exact absurd h (by simp)
  | function hname hlike hlists =>
    obtain ⟨hdistinct, hellipsis⟩ := hlists.ready (.of_not_mem _ List.nodup_nil (by simp))
    exact ⟨hname, fun h => absurd hlike (by simp [h]), hdistinct, hellipsis⟩

theorem Heads.named {limits : Limits} {d : Definition} {head : List (TokenKind × Bytes)}
    (h : Heads limits d head) (hident : ∀ t, (.ident, t) ∈ head → isIdent t = true) : d.Named := by
  cases h with
  | object _ _ _ hparams => exact ⟨hident _ (by simp), by simp [hparams]⟩
  | function _ _ hlists =>
    exact ⟨hident _ (by simp), hlists.idents (fun t ht => hident t (by simp [ht])) (by simp)⟩

/-- **Every definition that is read is well formed**, whatever the text and the settings are. -/
theorem parse_wellFormed {limits : Limits} {pos : Position} {text : Bytes} {p : Parsed}
    (h : parse limits (Cursor.ofText pos text) = .ok p) : p.definition.WellFormed := by
  obtain ⟨d, toks, head, body, out, -, hheads, hsubset, hsuffix, hreads, hp⟩ := parse_parts rfl h
  obtain ⟨hcut, -⟩ := wellCut_lexemes text
  rw [shapes_ofText] at hsuffix hsubset
  have hspelt : ∀ l ∈ toks.map tokenShape, l.1 ≠ .space → Spelt l := by
    intro l hl hkind
    exact spelt_of_wellCut hcut (hsuffix.subset hl) hkind
  have hnamed : d.Named := hheads.named fun t ht => hcut.isIdent (hsubset ht)
  obtain ⟨⟨hdefined, hreserved⟩, hobject, hdistinct, hellipsis⟩ := hheads.params
  have hfits := hreads.fitsIn hnamed hspelt
  have hjoined := hreads.joined hnamed hspelt
  rw [hp]
  refine ⟨⟨hnamed.name, hdefined, hreserved⟩, ?_, hdistinct, hellipsis, hfits,
    hjoined.first (by simp), hjoined.last, hjoined.apart⟩
  intro hlike
  -- without parameters there is no number of one
  have hnone := hobject hlike
  refine ⟨hnone, ?_⟩
  intro index
  refine ⟨fun hmem => ?_, fun hmem => ?_⟩ <;>
  · have hbounds := hfits _ hmem
    simp only [Item.FitsIn, hnone, List.length_nil, Int.natCast_zero] at hbounds
    omega

/-- A macro with a parameter of its own name. -/
def shadowed : Definition where
  name := ascii "f"
  functionLike := true
  variadic := true
  params := [ascii "f", ascii "rest"]
  body := [.stringize 2, .paste, .param 1, .space, .literal (ascii "g"), .literal (ascii "["),
    .literal (ascii "\"f\""), .literal (ascii "]")]
  definedAt := { offset := 1, column := 2 }

theorem parse_wellFormed_shadowed :
    (∃ p, parse ⟨false, 0⟩ (Cursor.ofText {}
        (ascii " f( f, rest... ) # /* all */ rest ## f g[\"f\"] ")) = .ok p ∧
      p.definition = shadowed) ∧
    shadowed.WellFormed := by
  obtain ⟨p, hparse, hp⟩ := exists_parsed (d := shadowed) (r := parse ⟨false, 0⟩ (Cursor.ofText {}
    (ascii " f( f, rest... ) # /* all */ rest ## f g[\"f\"] "))) (by decide +kernel)
  exact ⟨⟨p, hparse, hp⟩, hp ▸ parse_wellFormed hparse⟩

end Preproc.Macro
