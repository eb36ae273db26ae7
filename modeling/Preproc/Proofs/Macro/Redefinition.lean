import Preproc.Proofs.Macro.FiniteMap
import Preproc.Proofs.Macro.Printed

set_option autoImplicit false

/-! # When a definition is the same again

Two definitions of a name are the same when they are written alike: the same parameters and, up to
whitespace that says nothing, the same texts in the replacement list (`WrittenAlike`). What is
compared are two encodings of this, the parameter list as one text and the replacement list as
items. Neither loses anything of a definition that was read: the list is split at its commas again
(`splitOn_joinWith`), and items and texts determine each other (`Spells.write`, `Spells.read`). -/

namespace Preproc.Macro

open Lexer

/-! ## The texts of a replacement list -/

/-- Whether whitespace between two lexemes is kept as a blank: it is dropped at the two ends, next to
    `##`, and between `#` and its operand in a macro that has parameters. -/
def keepsBlank (functionLike : Bool) :
    Option (TokenKind × Bytes) → Option (TokenKind × Bytes) → Bool
  | some before, some after =>
    before ≠ signLexeme .paste && !(functionLike && before = signLexeme .hash) &&
      after ≠ signLexeme .paste && after.1 ≠ .space
  | _, _ => false

/-- The texts of lexemes that follow another one, if any, with one blank for each run of whitespace
    that is kept. -/
def normalTexts (functionLike : Bool) :
    Option (TokenKind × Bytes) → List (TokenKind × Bytes) → List Bytes
  | _, [] => []
  | before, l :: rest =>
    if l.1 = .space then
      if keepsBlank functionLike before rest.head? then
        ascii " " :: normalTexts functionLike before rest
      else normalTexts functionLike before rest
    else l.2 :: normalTexts functionLike (some l) rest

/-- What follows the name of a macro and its parameter list, which has no parentheses inside. -/
def afterHead (functionLike : Bool) (ls : List (TokenKind × Bytes)) : List (TokenKind × Bytes) :=
  let rest := (ls.dropWhile (·.1 = .space)).tail
  if functionLike then (rest.dropWhile (· ≠ signLexeme .rightParen)).tail else rest

/-- The texts of the replacement list in the text of a definition. -/
def replacementTexts (functionLike : Bool) (text : Bytes) : List Bytes :=
  normalTexts functionLike none (afterHead functionLike (mergeSpaces (lexemes text)))

/-- Two texts, read as the given definitions, define a macro in the same words. -/
structure WrittenAlike (d₁ : Definition) (text₁ : Bytes) (d₂ : Definition) (text₂ : Bytes) :
    Prop where
  name : d₁.name = d₂.name
  functionLike : d₁.functionLike = d₂.functionLike
  params : d₁.params = d₂.params
  variadic : d₁.variadic = d₂.variadic
  replacement : replacementTexts d₁.functionLike text₁ = replacementTexts d₂.functionLike text₂

/-! ## What the text of a lexeme tells -/

/-- What a reader asks about a lexeme can be told from its text. -/
structure Spelt (l : TokenKind × Bytes) : Prop where
  ident : isIdent l.2 = true ↔ l.1 = .ident
  sign : l.2.head? = some (byte '#') → l.1 = .punctuator
  solid : l.2 ≠ ascii " "

theorem spelt_of_stands {kind : TokenKind} {t following : Bytes} (h : Stands kind t following)
    (hkind : kind ≠ .space) : Spelt (kind, t) := by
  have hstops := h.stops hkind []
  obtain ⟨b, t, rfl⟩ := List.exists_cons_of_ne_nil h.nonempty
  have hlexeme := h.lexeme
  rw [List.cons_append, lexeme_eq] at hlexeme
  refine ⟨⟨fun hident => ?_, ?_⟩, fun hhead => ?_, ?_⟩
  · have hstart : isIdentStart b = true := (Bool.and_eq_true_iff.1 hident).1
    obtain ⟨hslash, hblank, -⟩ := isIdentStart_excludes b hstart
    rw [comment_eq_zero hslash, blanks_eq_zero hblank] at hlexeme
    simp only [Nat.lt_irrefl, if_false, identifier, hstart, if_true, Nat.succ_pos] at hlexeme
    exact (Prod.mk.inj hlexeme).1.symm
  · rintro rfl
    exact h.isIdent
  · obtain rfl : b = byte '#' := by simpa using hhead
    rw [comment_eq_zero (by decide), blanks_eq_zero (by decide), identifier_eq_zero (by decide),
      number_eq_zero (by decide) (by decide), quotation_eq_zero (by decide),
      quotation_eq_zero (by decide)] at hlexeme
    simp only [Nat.lt_irrefl, if_false] at hlexeme
    split at hlexeme
    · exact (Prod.mk.inj hlexeme).1.symm
    · obtain rfl : .stray = kind := (Prod.mk.inj hlexeme).1
      exact absurd (by decide) (h.stray_first _ rfl).2.2
  · intro hblank
    obtain ⟨rfl, -⟩ := List.cons_eq_cons.1 hblank
    exact absurd (hstops _ rfl) (by decide)

theorem spelt_of_wellCut {ls : List (TokenKind × Bytes)} (h : WellCut ls) {l : TokenKind × Bytes}
    (hl : l ∈ ls) (hkind : l.1 ≠ .space) : Spelt l := by
  obtain ⟨before, after, rfl⟩ := List.append_of_mem hl
  have hcut := h.suffix (List.suffix_append before (l :: after))
  exact spelt_of_stands (hcut.stands hkind) hkind

/-! ## Items and texts -/

/-- The item for a text that is neither an operator nor a blank. -/
def plainItem (d : Definition) (t : Bytes) : Item :=
  if isIdent t then
    match Definition.formal? d.params t with
    | some index => .param index
    | none => if t = d.name then .selfRef t else .literal t
  else .literal t

/-- The texts that stand for other items than the plain ones. -/
def IsMark (d : Definition) (t : Bytes) : Prop :=
  t = ascii " " ∨ t = operatorText .paste ∨ d.functionLike = true ∧ t = operatorText .hash

/-- The items of a replacement list and the texts they are written in. -/
inductive Spells (d : Definition) : List Item → List Bytes → Prop where
  | nil : Spells d [] []
  | space {items : List Item} {texts : List Bytes} (h : Spells d items texts) :
    Spells d (.space :: items) (ascii " " :: texts)
  | paste {items : List Item} {texts : List Bytes} (h : Spells d items texts) :
    Spells d (.paste :: items) (operatorText .paste :: texts)
  | stringize {name : Bytes} {index : Nat} {items : List Item} {texts : List Bytes}
      (hlike : d.functionLike = true) (hformal : Definition.formal? d.params name = some index)
      (h : Spells d items texts) :
    Spells d (.stringize index :: items) (operatorText .hash :: name :: texts)
  | plain {t : Bytes} {items : List Item} {texts : List Bytes} (hmark : ¬ IsMark d t)
      (h : Spells d items texts) : Spells d (plainItem d t :: items) (t :: texts)

/-- The texts of one item. -/
def Item.texts (params : List Bytes) : Item → List Bytes
  | stringize index => [operatorText .hash, paramName params index]
  | paste => [operatorText .paste]
  | item => [item.source params]

theorem texts_plainItem (d : Definition) (t : Bytes) :
    (plainItem d t).texts d.params = [t] := by
  unfold plainItem
  split
  · split
    · next index hformal => simp [Item.texts, Item.source, paramName_of_formal hformal]
    · split <;> rfl
  · rfl

/-- Items determine their texts. -/
theorem Spells.write {d : Definition} {items : List Item} {texts : List Bytes}
    (h : Spells d items texts) : items.flatMap (Item.texts d.params) = texts := by
  induction h with
  | nil => rfl
  | space _ ih | paste _ ih => simp [Item.texts, Item.source, ih]
  | stringize _ hformal _ ih => simp [Item.texts, paramName_of_formal hformal, ih]
  | plain _ _ ih => rw [List.flatMap_cons, texts_plainItem, ih, List.singleton_append]

/-- The items that texts stand for, read after the operator `#` or not. -/
def itemsOf (d : Definition) : Bool → List Bytes → List Item
  | _, [] => []
  | true, t :: rest => .stringize ((Definition.formal? d.params t).getD 0) :: itemsOf d false rest
  | false, t :: rest =>
    if t = ascii " " then .space :: itemsOf d false rest
    else if t = operatorText .paste then .paste :: itemsOf d false rest
    else if d.functionLike = true ∧ t = operatorText .hash then itemsOf d true rest
    else plainItem d t :: itemsOf d false rest

/-- Texts determine their items. -/
theorem Spells.read {d : Definition} {items : List Item} {texts : List Bytes}
    (h : Spells d items texts) : itemsOf d false texts = items := by
  have hsigns : operatorText .paste ≠ ascii " " ∧ operatorText .hash ≠ ascii " " ∧
      operatorText .hash ≠ operatorText .paste := by decide
  induction h with
  | nil => rfl
  | space _ ih => simp [itemsOf, ih]
  | paste _ ih => simp [itemsOf, hsigns, ih]
  | stringize hlike hformal _ ih => simp [itemsOf, hsigns, hlike, hformal, ih]
  | plain hmark _ ih =>
    obtain ⟨hblank, hpaste, hhash⟩ : _ ∧ _ ∧ _ := by simpa only [IsMark, not_or] using hmark
    rw [itemsOf, if_neg hblank, if_neg hpaste, if_neg hhash, ih]

/-- The replacement list of the macro itself plays no part. -/
theorem Spells.with_body {d : Definition} {items : List Item} {texts : List Bytes}
    (h : Spells d items texts) (body : Replacement) : Spells { d with body } items texts := by
  induction h with
  | nil => exact .nil
  | space _ ih => exact .space ih
  | paste _ ih => exact .paste ih
  | stringize hlike hformal _ ih => exact .stringize hlike hformal ih
  | plain hmark _ ih => exact .plain hmark ih

/-! ## What is read spells what is written -/

namespace Mode

/-- The lexeme before the next one, if any, in a mode of the macro `d`. -/
def Follows (d : Definition) : Mode → Option (TokenKind × Bytes) → Prop
  | start, before => before = none
  | item _, before => ∃ l, before = some l ∧ l ≠ signLexeme .paste ∧
      ¬ (d.functionLike = true ∧ l = signLexeme .hash)
  | paste, before => before = some (signLexeme .paste)
  | hash, before => d.functionLike = true ∧ before = some (signLexeme .hash)

/-- The blank that was seen before the next lexeme and will be kept. -/
def dueTexts (functionLike : Bool) (mode : Mode) (before after : Option (TokenKind × Bytes)) :
    List Bytes :=
  if mode = item true ∧ keepsBlank functionLike before after = true then [ascii " "] else []

/-- The operator that was read and belongs to an item that is still to come. -/
def owedTexts : Mode → List Bytes
  | hash => [operatorText .hash]
  | _ => []

end Mode

section Reading

variable {d : Definition} {mode mode' : Mode} {l : TokenKind × Bytes} {first items : List Item}
  {ls tidied out rest : List (TokenKind × Bytes)} {before : Option (TokenKind × Bytes)}

theorem plainItem_of_itemOf (hspelt : Spelt l) {item : Item}
    (h : itemOf d.name d.params ⟨l.1, l.2, {}⟩ = .ok item) : item = plainItem d l.2 := by
  unfold itemOf Token.isIdent at h
  unfold plainItem
  by_cases hident : l.1 = .ident
  · rw [if_pos (by simpa using hident)] at h
    rw [if_pos (hspelt.ident.2 hident)]
    split at h
    · next index hformal =>
      simp only [hformal]
      exact (Except.ok.inj h).symm
    · next hformal =>
      simp only [hformal]
      split at h
      · exact absurd h (by simp)
      · split at h
        · next hself => rw [if_pos hself]; exact (Except.ok.inj h).symm
        · next hself => rw [if_neg hself]; exact (Except.ok.inj h).symm
  · rw [if_neg (by simpa using hident)] at h
    rw [if_neg (fun htext => hident (hspelt.ident.1 htext))]
    exact (Except.ok.inj h).symm

/-- A blank is due in the texts when it is due in the items. -/
theorem Spells.due {texts : List Bytes} (h : Spells d items texts) (hfollows : mode.Follows d before)
    (hspace : l.1 ≠ .space) (hpaste : l ≠ signLexeme .paste) :
    Spells d (mode.dueItems ++ items) (mode.dueTexts d.functionLike before (some l) ++ texts) := by
  cases mode with
  | item pending =>
    obtain ⟨b, rfl, hbefore, hhash⟩ := hfollows
    cases pending with
    | false => simpa [Mode.dueItems, Mode.dueTexts] using h
    | true =>
      have hkeeps : keepsBlank d.functionLike (some b) (some l) = true := by
        cases hlike : d.functionLike <;> simp_all [keepsBlank]
      simpa [Mode.dueItems, Mode.dueTexts, hkeeps] using h.space
  | start | paste | hash => simpa [Mode.dueItems, Mode.dueTexts] using h

/-- Whitespace is kept after an item only. -/
theorem Mode.Follows.dueTexts_afterSpace (h : mode.Follows d before)
    (after : Option (TokenKind × Bytes)) :
    mode.afterSpace.dueTexts d.functionLike before after =
      if keepsBlank d.functionLike before after = true then [ascii " "] else [] := by
  cases mode with
  | item pending => simp [Mode.dueTexts, Mode.afterSpace]
  | start =>
    obtain rfl : before = none := h
    rfl
  | paste =>
    obtain rfl : before = some (signLexeme .paste) := h
    cases after <;> simp [Mode.dueTexts, Mode.afterSpace, keepsBlank]
  | hash =>
    obtain ⟨hlike, rfl⟩ := h
    cases after <;> simp [Mode.dueTexts, Mode.afterSpace, keepsBlank, hlike]

theorem Mode.Follows.afterSpace (h : mode.Follows d before) : mode.afterSpace.Follows d before := by
  cases mode <;> exact h

theorem Mode.dueTexts_none (functionLike : Bool) (mode : Mode)
    (before : Option (TokenKind × Bytes)) : mode.dueTexts functionLike before none = [] := by
  cases before <;> simp [Mode.dueTexts, keepsBlank]

theorem Mode.dueTexts_skipped (functionLike : Bool) (mode : Mode)
    (before : Option (TokenKind × Bytes)) (h : l.1 = .space ∨ l = signLexeme .paste) :
    mode.dueTexts functionLike before (some l) = [] := by
  cases before with
  | none => simp [Mode.dueTexts, keepsBlank]
  | some b => rcases h with h | rfl <;> simp_all [Mode.dueTexts, keepsBlank]

theorem Mode.owedTexts_of_ne (h : mode ≠ .hash) : mode.owedTexts = [] := by
  cases mode <;> first | rfl | exact absurd rfl h

/-- What is read from a replacement list spells its texts. -/
theorem Reads.spells (h : Reads d mode ls items out) (hspelt : ∀ l ∈ ls, l.1 ≠ .space → Spelt l)
    (hfollows : mode.Follows d before) :
    Spells d items (mode.owedTexts ++ (mode.dueTexts d.functionLike before ls.head? ++
      normalTexts d.functionLike before ls)) := by
  induction h generalizing before with
  | @done mode _ hhash =>
    rw [mode.owedTexts_of_ne hhash, List.head?_nil, mode.dueTexts_none]
    exact .nil
  | @step mode mode' l first tidied rest items out h _ ih =>
    obtain ⟨hl, hrest⟩ := List.forall_mem_cons.1 hspelt
    rw [List.head?_cons]
    cases h with
    | space _ text =>
      have hnext := ih hrest hfollows.afterSpace
      rw [hfollows.dueTexts_afterSpace] at hnext
      rw [mode.dueTexts_skipped _ _ (Or.inl rfl), normalTexts, if_pos rfl]
      have howed : mode.afterSpace.owedTexts = mode.owedTexts := by cases mode <;> rfl
      rw [howed] at hnext
      split at hnext
      · next hkeeps => rw [if_pos hkeeps]; exact hnext
      · next hkeeps => rw [if_neg hkeeps]; exact hnext
    | @operand text index hformal =>
      have hoperand : Mode.Follows d (.item false) (some (.ident, text)) :=
        ⟨_, rfl, by simp [signLexeme], by simp [signLexeme]⟩
      have hnext := ih hrest hoperand
      obtain ⟨hlike, rfl⟩ := hfollows
      exact .stringize hlike hformal (by simpa [Mode.owedTexts, Mode.dueTexts] using hnext)
    | paste pending =>
      have hsign : Mode.Follows d .paste (some (signLexeme .paste)) := rfl
      have hnext := ih hrest hsign
      rw [Mode.dueTexts_skipped _ _ _ (Or.inr rfl), normalTexts, if_neg (by decide)]
      exact .paste (by simpa [Mode.owedTexts, Mode.dueTexts] using hnext)
    | hash hmode hlike =>
      have hsign : Mode.Follows d .hash (some (signLexeme .hash)) := ⟨hlike, rfl⟩
      have hnext := ih hrest hsign
      rw [mode.owedTexts_of_ne hmode, normalTexts, if_neg (by decide)]
      refine Spells.due ?_ hfollows (by decide) (by decide)
      simpa [Mode.owedTexts, Mode.dueTexts, signLexeme] using hnext
    | @item _ kind text item hmode hspace hpaste hhash hitem =>
      have hread : Mode.Follows d (.item false) (some (kind, text)) :=
        ⟨_, rfl, hpaste, fun h => hhash h.1 h.2⟩
      have hnext := ih hrest hread
      have htext := hl hspace
      have hmark : ¬ IsMark d text := by
        rintro (rfl | rfl | ⟨hlike, rfl⟩)
        · exact htext.solid rfl
        · exact hpaste (by rw [signLexeme, ← htext.sign rfl])
        · exact hhash hlike (by rw [signLexeme, ← htext.sign rfl])
      rw [mode.owedTexts_of_ne hmode, normalTexts, if_neg hspace, List.append_assoc,
        plainItem_of_itemOf htext hitem]
      refine Spells.due (.plain hmark ?_) hfollows hspace hpaste
      simpa [Mode.owedTexts, Mode.dueTexts] using hnext

end Reading

/-! ## Parameter lists -/

theorem splitOn_of_not_mem {sep : UInt8} {t : Bytes} (h : sep ∉ t) : splitOn sep t = [t] := by
  induction t with
  | nil => rfl
  | cons b t ih =>
    obtain ⟨hb, ht⟩ := List.ne_and_not_mem_of_not_mem_cons h
    rw [splitOn, if_neg (by simpa using Ne.symm hb), ih ht]

theorem splitOn_append_sep {sep : UInt8} {t : Bytes} (h : sep ∉ t) (rest : Bytes) :
    splitOn sep (t ++ sep :: rest) = t :: splitOn sep rest := by
  induction t with
  | nil => simp [splitOn]
  | cons b t ih =>
    obtain ⟨hb, ht⟩ := List.ne_and_not_mem_of_not_mem_cons h
    rw [List.cons_append, splitOn, if_neg (by simpa using Ne.symm hb), ih ht]

/-- Splitting undoes joining. -/
theorem splitOn_joinWith {sep : UInt8} {ts : List Bytes} (hne : ts ≠ []) (h : ∀ t ∈ ts, sep ∉ t) :
    splitOn sep (joinWith [sep] ts) = ts := by
  induction ts with
  | nil => exact absurd rfl hne
  | cons t ts ih =>
    obtain ⟨ht, hts⟩ := List.forall_mem_cons.1 h
    cases ts with
    | nil => exact splitOn_of_not_mem ht
    | cons t' ts =>
      rw [joinWith, List.append_assoc, List.singleton_append, splitOn_append_sep ht,
        ih (by simp) hts]
      simp

/-- A text that can stand between commas: it is not empty and has no comma. -/
def Piece (t : Bytes) : Prop :=
  t ≠ [] ∧ byte ',' ∉ t

theorem joinWith_comma_inj {ts ts' : List Bytes} (hts : ∀ t ∈ ts, Piece t)
    (hts' : ∀ t ∈ ts', Piece t) (h : joinWith (ascii ",") ts = joinWith (ascii ",") ts') :
    ts = ts' := by
  -- only the empty list is joined to the empty text
  have hempty : ∀ {ts : List Bytes}, (∀ t ∈ ts, Piece t) → ts ≠ [] →
      joinWith (ascii ",") ts ≠ [] := by
    intro ts hts hne hjoin
    obtain ⟨t, rest, rfl⟩ := List.exists_cons_of_ne_nil hne
    refine (hts t (by simp)).1 ?_
    cases rest with
    | nil => exact hjoin
    | cons t' rest => simp_all [joinWith]
  by_cases hne : ts = []
  · subst hne
    by_contra hne'
    exact hempty hts' (Ne.symm hne') h.symm
  · by_cases hne' : ts' = []
    · subst hne'
      exact absurd h (hempty hts hne)
    · have hsplit := congrArg (splitOn (byte ',')) h
      rwa [show ascii "," = [byte ','] from rfl, splitOn_joinWith hne fun t ht => (hts t ht).2,
        splitOn_joinWith hne' fun t ht => (hts' t ht).2] at hsplit

theorem piece_of_isIdent {t : Bytes} (h : isIdent t = true) : Piece t := by
  cases t with
  | nil => exact absurd h (by decide)
  | cons b t =>
    rw [isIdent, Bool.and_eq_true, List.all_eq_true] at h
    refine ⟨by simp, fun hmem => ?_⟩
    rcases List.mem_cons.1 hmem with rfl | hmem
    · exact absurd h.1 (by decide)
    · exact absurd (h.2 _ hmem) (by decide)

/-- The last parameter as it is written before the end of a list. -/
theorem writtenParams_last (variadic : Bool) {p : Bytes} (hp : isIdent p = true) :
    ∃ w, Definition.writtenParams variadic [p] = [w] ∧ Piece w := by
  obtain ⟨hne, hcomma⟩ := piece_of_isIdent hp
  have hdots : byte ',' ∉ ascii "..." := by decide
  unfold Definition.writtenParams
  split
  · exact ⟨_, rfl, by decide, hdots⟩
  · split
    · refine ⟨_, rfl, by simp [hne], ?_⟩
      rw [List.mem_append, not_or]
      exact ⟨hcomma, hdots⟩
    · exact ⟨_, rfl, hne, hcomma⟩

theorem writtenParams_last_inj {variadic : Bool} {p q : Bytes} (hp : isIdent p = true)
    (hq : isIdent q = true)
    (h : Definition.writtenParams variadic [p] = Definition.writtenParams variadic [q]) :
    p = q := by
  have hpne := (piece_of_isIdent hp).1
  have hqne := (piece_of_isIdent hq).1
  cases variadic with
  | false => simpa [Definition.writtenParams] using h
  | true =>
    by_cases hp' : p = variadicName <;> by_cases hq' : q = variadicName <;>
      simp_all [Definition.writtenParams]

section Params

variable {variadic : Bool} {ps qs : List Bytes}

theorem writtenParams_pieces (hps : ∀ p ∈ ps, isIdent p = true) :
    ∀ t ∈ Definition.writtenParams variadic ps, Piece t := by
  rcases List.eq_nil_or_concat ps with rfl | ⟨init, last, rfl⟩
  · simp [Definition.writtenParams]
  · rw [List.concat_eq_append, List.forall_mem_append] at hps
    obtain ⟨w, hw, hpiece⟩ := writtenParams_last variadic (hps.2 last (by simp))
    rw [List.concat_eq_append, writtenParams_concat, hw]
    exact List.forall_mem_append.2
      ⟨fun t ht => piece_of_isIdent (hps.1 t ht), by simpa using hpiece⟩

theorem length_writtenParams (variadic : Bool) (ps : List Bytes) :
    (Definition.writtenParams variadic ps).length = ps.length := by
  rcases List.eq_nil_or_concat ps with rfl | ⟨init, last, rfl⟩
  · rfl
  · rw [List.concat_eq_append, writtenParams_concat, List.length_append, List.length_append]
    congr 1
    unfold Definition.writtenParams
    repeat' split
    all_goals rfl

theorem writtenParams_inj (hps : ∀ p ∈ ps, isIdent p = true) (hqs : ∀ q ∈ qs, isIdent q = true)
    (h : Definition.writtenParams variadic ps = Definition.writtenParams variadic qs) :
    ps = qs := by
  have hlength : ps.length = qs.length := by
    rw [← length_writtenParams variadic ps, h, length_writtenParams]
  rcases List.eq_nil_or_concat ps with rfl | ⟨init, p, rfl⟩ <;>
    rcases List.eq_nil_or_concat qs with rfl | ⟨init', q, rfl⟩
  · rfl
  · simp at hlength
  · simp at hlength
  · rw [List.concat_eq_append, List.concat_eq_append] at *
    rw [List.forall_mem_append] at hps hqs
    rw [writtenParams_concat, writtenParams_concat] at h
    obtain ⟨rfl, hlast⟩ := List.append_inj' h (by simp only [length_writtenParams]; rfl)
    rw [writtenParams_last_inj (hps.2 p (by simp)) (hqs.2 q (by simp)) hlast]

end Params

theorem Lists.idents {limits : Limits} {state : ParamState} {names all : List Bytes}
    {kept : List (TokenKind × Bytes)} {variadic : Bool}
    (h : Lists limits state names kept all variadic)
    (hident : ∀ t, (.ident, t) ∈ kept → isIdent t = true) (hnames : ∀ p ∈ names, isIdent p = true) :
    ∀ p ∈ all, isIdent p = true := by
  induction h with
  | closed | ended | empty => exact hnames
  | named _ _ ih | comma _ ih => exact ih (fun t ht => hident t (List.mem_cons_of_mem _ ht)) hnames
  | anonymous _ _ ih =>
    refine ih (fun t ht => hident t (List.mem_cons_of_mem _ ht)) ?_
    exact List.forall_mem_append.2 ⟨hnames, by decide⟩
  | param _ _ _ _ _ ih =>
    refine ih (fun t ht => hident t (List.mem_cons_of_mem _ ht)) ?_
    exact List.forall_mem_append.2 ⟨hnames, by simpa using hident _ List.mem_cons_self⟩

/-! ## Definitions that were read -/

/-- What reading a text as a definition guarantees. -/
structure ReadFrom (d : Definition) (text : Bytes) : Prop where
  params : ∀ p ∈ d.params, isIdent p = true
  object : d.functionLike = false → d.params = []
  spells : Spells d d.body (replacementTexts d.functionLike text)

/-- What is left after a head is the replacement list. -/
theorem readHead_rest {limits : Limits} {c : Cursor} (heol : c.eol.kind = .endOfLine)
    {d : Definition} {toks : List Token} (h : readHead limits c = .ok (d, toks)) :
    toks.map tokenShape = afterHead d.functionLike (c.after.map tokenShape) := by
  obtain ⟨blanks, t, rest, hafter, hblanks, hkind, -, hcases⟩ := readHead_cases heol h
  have hskip : ((c.after.map tokenShape).dropWhile (·.1 = .space)).tail = rest.map tokenShape := by
    rw [hafter, List.map_append, List.dropWhile_append_of_pos]
    · simp [tokenShape, hkind]
    · simpa [tokenShape, Token.isSpace] using hblanks
  unfold afterHead
  rw [hskip]
  rcases hcases with ⟨rfl, rfl⟩ | ⟨t', rest', ps, eol, rfl, hparen, hps, rfl, rfl⟩
  · rfl
  · obtain ⟨used, close, rfl, hclose, hused⟩ := readParams_used hps
    have hopen : ∀ l ∈ (t' :: used).map tokenShape, decide (l ≠ signLexeme .rightParen) = true := by
      have hnot : ∀ t ∈ t' :: used, t.is .rightParen = false :=
        List.forall_mem_cons.2 ⟨not_is_of_is hparen (by decide), fun t ht => (hused t ht).2⟩
      rintro _ hl
      obtain ⟨t, ht, rfl⟩ := List.mem_map.1 hl
      rw [decide_eq_true_iff]
      intro hshape
      exact absurd ((is_iff .rightParen (by decide) t).2 hshape) (by simp [hnot t ht])
    have hlast := (is_iff .rightParen (by decide) close).1 hclose
    rw [← List.cons_append, List.map_append]
    dsimp only
    rw [if_pos rfl, List.dropWhile_append_of_pos hopen]
    simp [hlast]

theorem readFrom_of_parse {limits : Limits} {pos : Position} {text : Bytes} {p : Parsed}
    (h : parse limits (Cursor.ofText pos text) = .ok p) : ReadFrom p.definition text := by
  obtain ⟨d, toks, head, body, out, hhead, hheads, hsubset, hsuffix, hreads, hp⟩ :=
    parse_parts rfl h
  obtain ⟨hcut, -⟩ := wellCut_lexemes text
  have hrest := readHead_rest rfl hhead
  rw [shapes_ofText] at hsuffix hsubset hrest
  have hident : ∀ t, (.ident, t) ∈ head → isIdent t = true := fun t ht => hcut.isIdent (hsubset ht)
  have hstart : Mode.Follows d .start none := rfl
  have hspells := hreads.spells
    (fun l hl hkind => spelt_of_wellCut hcut (hsuffix.subset hl) hkind) hstart
  rw [hrest] at hspells
  rw [hp]
  refine ⟨?_, ?_, hspells.with_body body⟩
  · cases hheads with
    | object _ _ _ hparams => simp [hparams]
    | function _ _ hlists =>
      exact hlists.idents (fun t ht => hident t (by simp [ht])) (by simp)
  · cases hheads with
    | object _ _ _ hparams => exact fun _ => hparams
    | function _ hlike => exact fun h => absurd hlike (by simp_all)

section Same

variable {d₁ d₂ : Definition} {text₁ text₂ : Bytes}

theorem ReadFrom.params_eq (h₁ : ReadFrom d₁ text₁) (h₂ : ReadFrom d₂ text₂)
    (hlike : d₁.functionLike = d₂.functionLike) (hvariadic : d₁.variadic = d₂.variadic)
    (h : d₁.signature = d₂.signature) : d₁.params = d₂.params := by
  unfold Definition.signature at h
  cases hlike₁ : d₁.functionLike with
  | false => rw [h₁.object hlike₁, h₂.object (hlike ▸ hlike₁)]
  | true =>
    rw [if_pos hlike₁, if_pos (hlike ▸ hlike₁), ← hvariadic] at h
    have hjoin := List.append_cancel_left (List.append_cancel_right h)
    exact writtenParams_inj h₁.params h₂.params
      (joinWith_comma_inj (writtenParams_pieces h₁.params) (writtenParams_pieces h₂.params) hjoin)

/-- Two definitions that were read are the same when all that was read is. -/
theorem ReadFrom.sameAs_iff (h₁ : ReadFrom d₁ text₁) (h₂ : ReadFrom d₂ text₂) :
    d₁.sameAs d₂ = true ↔ d₁.name = d₂.name ∧ d₁.functionLike = d₂.functionLike ∧
      d₁.variadic = d₂.variadic ∧ d₁.params = d₂.params ∧ d₁.body = d₂.body := by
  simp only [Definition.sameAs, Bool.and_eq_true, decide_eq_true_eq, and_assoc]
  constructor
  · rintro ⟨hname, hlike, hvariadic, hsignature, hbody⟩
    exact ⟨hname, hlike, hvariadic, h₁.params_eq h₂ hlike hvariadic hsignature, hbody⟩
  · rintro ⟨hname, hlike, hvariadic, hparams, hbody⟩
    refine ⟨hname, hlike, hvariadic, ?_, hbody⟩
    rw [Definition.signature, Definition.signature, hlike, hvariadic, hparams]

theorem itemsOf_congr (hname : d₁.name = d₂.name) (hlike : d₁.functionLike = d₂.functionLike)
    (hparams : d₁.params = d₂.params) : itemsOf d₁ = itemsOf d₂ := by
  have hplain : plainItem d₁ = plainItem d₂ := by
    funext t
    rw [plainItem, plainItem, hname, hparams]
  funext hash texts
  induction texts generalizing hash with
  | nil => cases hash <;> rfl
  | cons t rest ih => cases hash <;> simp only [itemsOf, ih, hlike, hparams, hplain]

/-- Two definitions that were read are the same when they are written alike. -/
theorem ReadFrom.sameAs_iff_writtenAlike (h₁ : ReadFrom d₁ text₁) (h₂ : ReadFrom d₂ text₂) :
    d₁.sameAs d₂ = true ↔ WrittenAlike d₁ text₁ d₂ text₂ := by
  rw [h₁.sameAs_iff h₂]
  constructor
  · rintro ⟨hname, hlike, hvariadic, hparams, hbody⟩
    refine ⟨hname, hlike, hparams, hvariadic, ?_⟩
    rw [← h₁.spells.write, ← h₂.spells.write, hbody, hparams]
  · rintro ⟨hname, hlike, hparams, hvariadic, htexts⟩
    refine ⟨hname, hlike, hvariadic, hparams, ?_⟩
    rw [← h₁.spells.read, ← h₂.spells.read, htexts, itemsOf_congr hname hlike hparams]

end Same

/-! ## Defining a macro again -/

/-- What defining a macro does when another definition of the name can be seen and is not locked. -/
theorem define_visible {t : Table} {old d : Definition} (hseen : t.lookup d.name = some old)
    (hlocked : old.origin ≠ .locked) :
    define t d = .ok (if old.sameAs d then { table := t, definition := old, isNew := false }
      else { table := t.replace (t.findSlot d.name) d, definition := d, isNew := true,
             notice := some (.redefined d.name old.definedAt) }) := by
  have hfilter : (t.at? (t.findSlot d.name)).filter t.visible = some old := hseen
  have hstored : t.at? (t.findSlot d.name) = some old := (Option.filter_eq_some_iff.1 hfilter).1
  unfold define
  simp only [hfilter]
  simp only [if_neg hlocked, Table.install?, hstored]
  split <;> rfl

/-- The definitions that can be read. -/
def Accepted (limits : Limits) (d : Definition) : Prop :=
  ∃ start text p, parse limits (Cursor.ofText start text) = .ok p ∧ p.definition = d

theorem sameAs_equivalence : Equivalence fun d₁ d₂ : Definition => d₁.sameAs d₂ = true where
  refl d := by simp [Definition.sameAs]
  symm h := by simp_all [Definition.sameAs]
  trans h h' := by simp_all [Definition.sameAs]

/-- **Redefinition is judged on what is written.** Two definitions that were read are the same
    exactly when they are written alike, and then all that was read of them is equal. Defining a
    macro again, where a definition of the name can be seen that is not locked, keeps the old
    definition without a word exactly when the two are written alike. Otherwise there is one notice,
    and the new definition takes the place of the old one and of nothing else. -/
theorem redefinition_by_texts {limits : Limits} {start₁ start₂ : Position} {text₁ text₂ : Bytes}
    {p₁ p₂ : Parsed} (h₁ : parse limits (Cursor.ofText start₁ text₁) = .ok p₁)
    (h₂ : parse limits (Cursor.ofText start₂ text₂) = .ok p₂) :
    let d₁ := p₁.definition
    let d₂ := p₂.definition
    (d₁.sameAs d₂ = true ↔ WrittenAlike d₁ text₁ d₂ text₂) ∧
    (d₁.sameAs d₂ = true ↔ d₁.name = d₂.name ∧ d₁.functionLike = d₂.functionLike ∧
      d₁.variadic = d₂.variadic ∧ d₁.params = d₂.params ∧ d₁.body = d₂.body) ∧
    (Equivalence fun a b : { d // Accepted limits d } => a.val.sameAs b.val = true) ∧
    ∀ (maxMacros : Int) (strict : Bool) (ops : List TableOp) (origin₁ origin₂ : Origin),
      let t := ops.foldl Table.apply (.empty maxMacros strict)
      let old := { d₁ with origin := origin₁ }
      let new := { d₂ with origin := origin₂ }
      t.lookup new.name = some old → old.origin ≠ .locked →
      (WrittenAlike d₁ text₁ d₂ text₂ ↔
        define t new = .ok { table := t, definition := old, isNew := false }) ∧
      (¬ WrittenAlike d₁ text₁ d₂ text₂ → ∃ table,
        define t new = .ok { table, definition := new, isNew := true,
                             notice := some (.redefined new.name old.definedAt) } ∧
        table.count = t.count ∧
        ∀ name, table.stored name = if name = new.name then some new else t.stored name) := by
  intro d₁ d₂
  have hread₁ : ReadFrom d₁ text₁ := readFrom_of_parse h₁
  have hread₂ : ReadFrom d₂ text₂ := readFrom_of_parse h₂
  have halike := hread₁.sameAs_iff_writtenAlike hread₂
  refine ⟨halike, hread₁.sameAs_iff hread₂, sameAs_equivalence.comap Subtype.val, ?_⟩
  intro maxMacros strict ops origin₁ origin₂ t old new hseen hlocked
  have hdefine := define_visible hseen hlocked
  have hsame : old.sameAs new = d₁.sameAs d₂ := rfl
  rw [hsame] at hdefine
  rw [← halike, hdefine]
  refine ⟨⟨fun h => by rw [if_pos h], fun h => ?_⟩, fun h =>
    ⟨t.replace (t.findSlot new.name) new, by rw [if_neg h], rfl, ?_⟩⟩
  · by_contra hnot
    rw [if_neg hnot] at h
    simp at h
  · have hwf : t.Wf := ((Represents.of_empty maxMacros strict).run ops).wf
    have hstored : t.stored new.name = some old := (Option.filter_eq_some_iff.1 hseen).1
    have hexact : (t.findSlot new.name).exact = true := by
      rw [Table.exact_eq_isSome hwf, hstored]
      rfl
    exact (Table.replace_stored hwf new hexact).2

/-- A macro whose replacement list has an item of every kind. -/
def everyItem : Definition where
  name := ascii "F"
  functionLike := true
  variadic := true
  params := [ascii "a", variadicName]
  body := [.param 1, .space, .stringize 2, .paste, .selfRef (ascii "F"), .space,
    .literal (ascii "b")]
  definedAt := { line := 1, column := 1 }

theorem exists_parsed {ε : Type} {r : Except ε Parsed} {d : Definition}
    (h : r.toOption.map (·.definition) = some d) : ∃ p, r = .ok p ∧ p.definition = d := by
  cases r with
  | error e => exact absurd h (by simp [Except.toOption])
  | ok p => exact ⟨p, rfl, by simpa [Except.toOption] using h⟩

/-- The macro written again with other whitespace, and then without its last blank. -/
theorem redefinition_by_texts_respaced :
    let t := Table.apply (.empty 0 false) (.define everyItem)
    let again := { everyItem with definedAt := { line := 2, column := 1 } }
    let glued := { everyItem with
      body := [.param 1, .space, .stringize 2, .paste, .literal (ascii "Fb")] }
    (∃ p₁ p₂ p₃,
      parse ⟨false, 0⟩ (Cursor.ofText { line := 1, column := 1 }
        (ascii "F( a, /* rest */ ... )a  # __VA_ARGS__/**/##F b")) = .ok p₁ ∧
      parse ⟨false, 0⟩ (Cursor.ofText { line := 2, column := 1 }
        (ascii "F(a,...) a #__VA_ARGS__ ## F/* */b ")) = .ok p₂ ∧
      parse ⟨false, 0⟩ (Cursor.ofText { line := 1, column := 1 }
        (ascii "F(a,...) a #__VA_ARGS__ ## Fb")) = .ok p₃ ∧
      p₁.definition = everyItem ∧ p₂.definition = again ∧ p₃.definition = glued) ∧
    define t again = .ok { table := t, definition := everyItem, isNew := false } ∧
    ∃ table, define t glued = .ok { table, definition := glued, isNew := true,
                                    notice := some (.redefined (ascii "F") everyItem.definedAt) } ∧
      table.stored (ascii "F") = some glued := by
  intro t again glued
  obtain ⟨p₁, h₁, hd₁⟩ : ∃ p, parse ⟨false, 0⟩ (Cursor.ofText { line := 1, column := 1 }
      (ascii "F( a, /* rest */ ... )a  # __VA_ARGS__/**/##F b")) = .ok p ∧
      p.definition = everyItem := exists_parsed (by decide +kernel)
  obtain ⟨p₂, h₂, hd₂⟩ : ∃ p, parse ⟨false, 0⟩ (Cursor.ofText { line := 2, column := 1 }
      (ascii "F(a,...) a #__VA_ARGS__ ## F/* */b ")) = .ok p ∧ p.definition = again :=
    exists_parsed (by decide +kernel)
  obtain ⟨p₃, h₃, hd₃⟩ : ∃ p, parse ⟨false, 0⟩ (Cursor.ofText { line := 1, column := 1 }
      (ascii "F(a,...) a #__VA_ARGS__ ## Fb")) = .ok p ∧ p.definition = glued :=
    exists_parsed (by decide +kernel)
  have hseen : t.lookup (ascii "F") = some everyItem := by decide +kernel
  have hsame : everyItem.sameAs again = true ∧ everyItem.sameAs glued = false := by decide +kernel
  obtain ⟨halike₂, -, -, htable₂⟩ := redefinition_by_texts h₁ h₂
  obtain ⟨halike₃, -, -, htable₃⟩ := redefinition_by_texts h₁ h₃
  rw [hd₁, hd₂] at halike₂ htable₂
  rw [hd₁, hd₃] at halike₃ htable₃
  have hkept := htable₂ 0 false [.define everyItem] .user .user hseen (by decide)
  have hreplaced := htable₃ 0 false [.define everyItem] .user .user hseen (by decide)
  obtain ⟨table, hdefine, -, hstored⟩ := hreplaced.2 fun h =>
    absurd (halike₃.2 h) (by simp [hsame.2])
  refine ⟨⟨p₁, p₂, p₃, h₁, h₂, h₃, hd₁, hd₂, hd₃⟩, hkept.1.1 (halike₂.1 hsame.1), table, hdefine, ?_⟩
  rw [hstored]
  rfl

end Preproc.Macro
