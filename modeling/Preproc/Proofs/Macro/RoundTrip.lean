import Preproc.Proofs.Macro.Parameters
import Preproc.Proofs.Macro.Recut

set_option autoImplicit false

/-! # Writing a definition and reading it again

A definition that was read from a line is written in a tidied form: one blank wherever whitespace
matters and none elsewhere. Reading that form gives the same definition (`parse_source`). The form
is a head (`Heads`) and a tidied replacement list (`Reads`); each is cut again into the lexemes it
was written from, and each is read as before. -/

namespace Preproc.Macro

open Lexer

/-! ## Heads -/

/-- The texts that can name a macro. -/
def CanName (name : Bytes) : Prop :=
  name ≠ ascii "defined" ∧ name ≠ variadicName

theorem checkName_eq_ok (t : Token) (directive : Bytes) :
    checkName t directive = .ok () ↔ t.kind = .ident ∧ CanName t.text := by
  unfold checkName CanName
  grind

/-- What is read of a head that is accepted: a name, and a parameter list if it has one. -/
theorem readHead_cases {limits : Limits} {c : Cursor} (heol : c.eol.kind = .endOfLine)
    {d : Definition} {toks : List Token} (h : readHead limits c = .ok (d, toks)) :
    ∃ blanks t rest, c.after = blanks ++ t :: rest ∧ (∀ b ∈ blanks, b.isSpace = true) ∧
      t.kind = .ident ∧ CanName t.text ∧
      (d = { name := t.text, definedAt := t.pos } ∧ toks = rest ∨
        ∃ t' rest' ps eol, rest = t' :: rest' ∧ t'.is .leftParen = true ∧
          readParams limits t.text eol .first [] rest' = .ok ps ∧
          d = { name := t.text, definedAt := t.pos, functionLike := true, params := ps.names,
                variadic := ps.variadic } ∧
          toks = ps.rest) := by
  have hafter := List.takeWhile_append_dropWhile (p := Token.isSpace) (l := c.after)
  cases hdrop : c.after.dropWhile Token.isSpace with
  | nil =>
    -- there is no name
    simp [readHead, Cursor.nextNonSpace, Cursor.next, Cursor.skipSpace, hdrop, checkName, heol] at h
  | cons t rest =>
    rw [hdrop] at hafter
    have ht : t.isSpace = false := by
      have hhead := List.head?_dropWhile_not Token.isSpace c.after
      simpa [hdrop] using hhead
    have hblanks : ∀ b ∈ c.after.takeWhile Token.isSpace, b.isSpace = true :=
      fun b hb => List.mem_takeWhile_imp hb
    obtain ⟨hname, hrest, -⟩ := Cursor.nextNonSpace_of_after hafter.symm hblanks ht
    unfold readHead at h
    simp only [hname, hrest] at h
    split at h
    · exact absurd h (by simp)
    · next hcheck =>
      obtain ⟨hkind, hcan⟩ := (checkName_eq_ok t _).1 hcheck
      refine ⟨_, t, rest, hafter.symm, hblanks, hkind, hcan, ?_⟩
      split at h
      · obtain ⟨rfl, rfl⟩ := Prod.mk.inj (Except.ok.inj h)
        exact Or.inl ⟨rfl, rfl⟩
      · split at h
        · next hparen =>
          split at h
          · exact absurd h (by simp)
          · next ps hps =>
            obtain ⟨rfl, rfl⟩ := Prod.mk.inj (Except.ok.inj h)
            exact Or.inr ⟨_, _, ps, _, rfl, hparen, hps, rfl, rfl⟩
        · split at h
          · obtain ⟨rfl, rfl⟩ := Prod.mk.inj (Except.ok.inj h)
            exact Or.inl ⟨rfl, rfl⟩
          · split at h
            · exact absurd h (by simp)
            · obtain ⟨rfl, rfl⟩ := Prod.mk.inj (Except.ok.inj h)
              exact Or.inl ⟨rfl, rfl⟩

/-- The lexemes that name and parameter list of a definition are written as. -/
inductive Heads (limits : Limits) (d : Definition) : List (TokenKind × Bytes) → Prop where
  | object (hname : CanName d.name) (hlike : d.functionLike = false)
      (hvariadic : d.variadic = false) (hparams : d.params = []) :
    Heads limits d [(.ident, d.name)]
  | function {kept : List (TokenKind × Bytes)} (hname : CanName d.name)
      (hlike : d.functionLike = true) (h : Lists limits .first [] kept d.params d.variadic) :
    Heads limits d ((.ident, d.name) :: signLexeme .leftParen :: kept)

/-- A head that is accepted can be written, and what is left follows it. -/
theorem readHead_heads {limits : Limits} {c : Cursor} (heol : c.eol.kind = .endOfLine)
    {d : Definition} {toks : List Token} (h : readHead limits c = .ok (d, toks)) :
    ∃ head, Heads limits d head ∧ toks <:+ c.after ∧ head ⊆ c.after.map tokenShape := by
  obtain ⟨blanks, t, rest, hafter, -, hkind, hcan, hcases⟩ := readHead_cases heol h
  have hsuffix : t :: rest <:+ c.after := ⟨blanks, hafter.symm⟩
  have hshape : tokenShape t = (.ident, t.text) := by rw [tokenShape, hkind]
  have hsubset := (hsuffix.map tokenShape).subset
  rw [List.map_cons, hshape] at hsubset
  have hrest : rest <:+ c.after := (List.suffix_cons t rest).trans hsuffix
  rcases hcases with ⟨rfl, rfl⟩ | ⟨t', rest', ps, eol, rfl, hparen, hps, rfl, rfl⟩
  · refine ⟨_, .object hcan rfl rfl rfl, hrest, fun l hl => hsubset ?_⟩
    rw [List.mem_singleton.1 hl]
    exact List.mem_cons_self
  · obtain ⟨kept, hlists, hkept, hsub⟩ := readParams_lists hps
    refine ⟨_, .function hcan rfl hlists, ?_, fun l hl => hsubset ?_⟩
    · exact hkept.trans ((List.suffix_cons t' rest').trans hrest)
    · rw [List.map_cons, (is_iff .leftParen (by decide) t').1 hparen]
      exact List.cons_subset_cons _ (List.cons_subset_cons _ hsub) hl

/-- What may follow a head: nothing, or a replacement list after a blank. -/
def Spaced (more : List (TokenKind × Bytes)) : Prop :=
  more = [] ∨ ∃ rest, more = blankLexeme :: rest

section Heads

variable {limits : Limits} {d : Definition} {head more : List (TokenKind × Bytes)}

/-- A head is accepted with what follows it. -/
theorem Heads.readHead (h : Heads limits d head) (hmore : Spaced more) {c : Cursor}
    (hshapes : c.after.map tokenShape = head ++ more) :
    ∃ pos toks, Macro.readHead limits c =
        .ok ({ d with body := [], definedAt := pos, origin := .user }, toks) ∧
      toks.map tokenShape = more := by
  obtain ⟨name, functionLike, variadic, params, body, definedAt, origin⟩ := d
  cases h with
  | object hcan hlike hvariadic hparams =>
    dsimp only at hlike hvariadic hparams hcan hshapes
    subst hlike hvariadic hparams
    obtain ⟨t, rest, hafter, ht, hrest⟩ := List.map_eq_cons_iff.1 hshapes
    obtain ⟨hkind, rfl⟩ := Prod.mk.inj ht
    obtain ⟨hfirst, hnext, -⟩ := Cursor.nextNonSpace_of_cons hafter (by simp [hkind])
    have hcheck := (checkName_eq_ok t (ascii "define")).2 ⟨hkind, hcan⟩
    refine ⟨t.pos, rest, ?_, hrest⟩
    unfold Macro.readHead
    simp only [hfirst, hnext, hcheck]
    rcases hmore with rfl | ⟨more, rfl⟩
    · obtain rfl := List.map_eq_nil_iff.1 hrest
      rfl
    · obtain ⟨t', rest', rfl, ht', -⟩ := List.map_eq_cons_iff.1 hrest
      obtain ⟨hkind', -⟩ := Prod.mk.inj ht'
      simp [Token.is, Token.isSpace, hkind']
  | function hcan hlike hlists =>
    dsimp only at hlike hcan hlists hshapes
    subst hlike
    obtain ⟨t, rest, hafter, ht, hrest⟩ := List.map_eq_cons_iff.1 hshapes
    obtain ⟨t', rest', rfl, ht', hrest'⟩ := List.map_eq_cons_iff.1 hrest
    obtain ⟨hkind, rfl⟩ := Prod.mk.inj ht
    obtain ⟨hfirst, hnext, heol⟩ := Cursor.nextNonSpace_of_cons hafter (by simp [hkind])
    have hcheck := (checkName_eq_ok t (ascii "define")).2 ⟨hkind, hcan⟩
    obtain ⟨toks, hread, htoks⟩ := hlists.readParams t.text c.eol hrest'
    refine ⟨t.pos, toks, ?_, htoks⟩
    have hparen := (is_iff .leftParen (by decide) t').2 ht'
    unfold Macro.readHead
    simp only [hfirst, hnext, heol, hcheck, hparen, if_true, hread]

theorem Heads.source (h : Heads limits d head) : textOf head = d.name ++ d.signature := by
  cases h with
  | object _ hlike => simp [Definition.signature, hlike]
  | function _ hlike hlists =>
    have hwritten := hlists.written rfl
    rw [textOf_cons, signLexeme, textOf_cons, Definition.signature, if_pos hlike, List.append_assoc,
      ← hwritten]
    rfl

theorem Heads.not_space (h : Heads limits d head) : ∀ l ∈ head, l.1 ≠ .space := by
  cases h with
  | object => simp
  | function _ _ hlists => simpa [signLexeme] using hlists.not_space

theorem Spaced.stops (h : Spaced more) : StopsAt isIdentPart (textOf more) := by
  rcases h with rfl | ⟨rest, rfl⟩
  · simp [StopsAt]
  · exact stops_cons (by decide) _

/-- A head is cut into its lexemes again, with what follows it. -/
theorem Heads.stood (h : Heads limits d head)
    (hident : ∀ t, (.ident, t) ∈ head → isIdent t = true) (hmore : Spaced more)
    (hstood : Stood more) : Stood (head ++ more) := by
  cases h with
  | object => exact ⟨stands_ident (hident _ (by simp)) hmore.stops, hstood⟩
  | function _ _ hlists =>
    exact ⟨stands_ident (hident _ (by simp)) (stops_cons (by decide) _), stands_mark (by decide) _,
      hlists.stood (fun t ht => hident t (by simp [ht])) hstood⟩

end Heads

/-! ## Definitions -/

/-- A tidied replacement list as it follows a head. -/
def spaced : List (TokenKind × Bytes) → List (TokenKind × Bytes)
  | [] => []
  | l :: out => blankLexeme :: l :: out

theorem spaced_spaced (out : List (TokenKind × Bytes)) : Spaced (spaced out) := by
  cases out with
  | nil => exact Or.inl rfl
  | cons l out => exact Or.inr ⟨_, rfl⟩

theorem stood_spaced {out : List (TokenKind × Bytes)} (h : Stood out)
    (hstops : StopsAt isSeparator (textOf out)) : Stood (spaced out) := by
  cases out with
  | nil => trivial
  | cons l out => exact ⟨stands_blank hstops, h⟩

section Spaced

variable {d : Definition} {ls out : List (TokenKind × Bytes)} {items : List Item}

theorem Reads.spaced_blanks (h : Reads d .start ls items out) :
    ∀ t, (.space, t) ∈ spaced out → t = ascii " " := by
  intro t ht
  cases out with
  | nil => simp [Macro.spaced] at ht
  | cons l out =>
    rcases List.mem_cons.1 ht with ht | ht
    · exact (Prod.mk.inj ht).2
    · exact h.blanks t ht

theorem Reads.spaced (h : Reads d .start ls items out) :
    Reads d .start (Macro.spaced out) items out := by
  have hagain : Reads d .start out items out := h.again
  cases out with
  | nil => exact hagain
  | cons l out => exact hagain.skip _

end Spaced

/-- A definition is written as its head and its tidied replacement list. -/
theorem Heads.definition {limits : Limits} {d : Definition} {head ls out : List (TokenKind × Bytes)}
    {body : Replacement} (h : Heads limits d head) (hreads : Reads d .start ls body out)
    (hstood : Stood out) : textOf (head ++ spaced out) = { d with body }.source := by
  have hbody : textOf out = Replacement.source d.params body := hreads.source
  have hhead : textOf head = d.name ++ { d with body }.signature := h.source
  rw [textOf_append, hhead]
  cases out with
  | nil => simp [Definition.source, ← hbody, spaced]
  | cons l out =>
    have hne : textOf (l :: out) ≠ [] := by simp [textOf, hstood.1.nonempty]
    have hblank : textOf (blankLexeme :: l :: out) = ascii " " ++ textOf (l :: out) :=
      textOf_cons ..
    simp [Definition.source, ← hbody, spaced, hne, hblank]

theorem shapes_tokens (pos : Position) (text : Bytes) :
    (tokens pos text).map tokenShape = mergeSpaces (lexemes text) :=
  map_place _ _

theorem shapes_ofText (pos : Position) (text : Bytes) :
    (Cursor.ofText pos text).after.map tokenShape = mergeSpaces (lexemes text) :=
  shapes_tokens pos text

/-- How a definition is written: the lexemes of its head and of a tidied replacement list, which are
    cut out of the text of the two together. -/
structure Written (limits : Limits) (d : Definition) (ls : List (TokenKind × Bytes)) : Prop where
  parts : ∃ d' read head out, d = { d' with body := d.body } ∧ Heads limits d' head ∧
    Reads d' .start read d.body out ∧ ls = head ++ spaced out
  stood : Stood ls
  source : textOf ls = d.source

section Written

variable {limits : Limits} {d : Definition} {ls : List (TokenKind × Bytes)}

theorem Written.blanks (h : Written limits d ls) : ∀ t, (.space, t) ∈ ls → t = ascii " " := by
  obtain ⟨d', read, head, out, -, hheads, hreads, rfl⟩ := h.parts
  intro t ht
  rcases List.mem_append.1 ht with ht | ht
  · exact absurd rfl (hheads.not_space _ ht)
  · exact hreads.spaced_blanks t ht

/-- The text is cut into the lexemes that it was written from. -/
theorem Written.lexemes (h : Written limits d ls) : mergeSpaces (Lexer.lexemes d.source) = ls := by
  rw [← h.source, lexemes_textOf h.stood, mergeSpaces_of_stood h.stood h.blanks]

/-- The lexemes are read as the same definition, at the place where they stand. -/
theorem Written.parse (h : Written limits d ls) {c : Cursor}
    (hshapes : c.after.map tokenShape = ls) :
    ∃ pos notice, Macro.parse limits c =
      .ok { definition := { d with definedAt := pos, origin := .user }, notice } := by
  obtain ⟨d', read, head, out, hd, hheads, hreads, rfl⟩ := h.parts
  obtain ⟨pos, toks, hhead, htoks⟩ := hheads.readHead (spaced_spaced out) hshapes
  have hagain : Reads d' .start (toks.map tokenShape) d.body out := htoks ▸ hreads.spaced
  obtain ⟨pastes, hbody⟩ : ∃ pastes,
      readBody { d' with body := [], definedAt := pos, origin := .user } toks =
        .ok (d.body, pastes) := by
    refine Reads.readBody ?_ ?_ ?_ hagain <;> rfl
  unfold Macro.parse
  simp only [hhead, hbody]
  exact ⟨pos, _, by rw [hd]⟩

end Written

/-- A definition that is accepted has a head and a replacement list that are. -/
theorem parse_cases {limits : Limits} {c : Cursor} {p : Parsed} (h : parse limits c = .ok p) :
    ∃ d toks body pastes, readHead limits c = .ok (d, toks) ∧
      readBody d toks = .ok (body, pastes) ∧ p.definition = { d with body } := by
  unfold parse at h
  split at h
  · exact absurd h (by simp)
  · next d toks hhead =>
    split at h
    · exact absurd h (by simp)
    · next body pastes hbody =>
      obtain rfl := Except.ok.inj h
      exact ⟨d, toks, body, pastes, hhead, hbody, rfl⟩

/-- What a definition that is accepted was read from: lexemes of a head, and then those of a
    replacement list. -/
theorem parse_parts {limits : Limits} {c : Cursor} (heol : c.eol.kind = .endOfLine) {p : Parsed}
    (h : parse limits c = .ok p) :
    ∃ d toks head body out, readHead limits c = .ok (d, toks) ∧ Heads limits d head ∧
      head ⊆ c.after.map tokenShape ∧ toks.map tokenShape <:+ c.after.map tokenShape ∧
      Reads d .start (toks.map tokenShape) body out ∧ p.definition = { d with body } := by
  obtain ⟨d, toks, body, pastes, hhead, hbody, hp⟩ := parse_cases h
  obtain ⟨head, hheads, hsuffix, hsubset⟩ := readHead_heads heol hhead
  obtain ⟨out, hreads⟩ := readBody_reads hbody
  exact ⟨d, toks, head, body, out, hhead, hheads, hsubset, hsuffix.map tokenShape, hreads, hp⟩

/-- A definition that is accepted can be written. -/
theorem parse_written {limits : Limits} {c : Cursor} (heol : c.eol.kind = .endOfLine)
    (hcut : WellCut (c.after.map tokenShape)) (hsealed : Sealed (c.after.map tokenShape))
    {p : Parsed} (h : parse limits c = .ok p) : ∃ ls, Written limits p.definition ls := by
  obtain ⟨d, toks, head, body, out, -, hheads, hsubset, hsuffix, hreads, hp⟩ := parse_parts heol h
  -- what is left after the head is cut as well as the whole line
  have hstood := hreads.stood (hcut.suffix hsuffix) (hsealed.suffix hsuffix)
  have hstops := hreads.stops (hcut.suffix hsuffix) (by simp)
  rw [hp]
  exact ⟨_, ⟨d, _, head, out, rfl, hheads, hreads, rfl⟩,
    hheads.stood (fun t ht => hcut.isIdent (hsubset ht)) (spaced_spaced out)
      (stood_spaced hstood hstops),
    hheads.definition hreads hstood⟩

/-- Writing a definition that was read from one line and reading it again, wherever the two lines
    stand, gives the same definition. -/
theorem parse_source {limits : Limits} {text : Bytes} (hlines : newline ∉ text)
    {pos : Position} {p : Parsed} (h : parse limits (Cursor.ofText pos text) = .ok p)
    (pos' : Position) :
    ∃ p', parse limits (Cursor.ofText pos' p.definition.source) = .ok p' ∧
      p'.definition.name = p.definition.name ∧
      p'.definition.functionLike = p.definition.functionLike ∧
      p'.definition.variadic = p.definition.variadic ∧
      p'.definition.params = p.definition.params ∧
      p'.definition.body = p.definition.body := by
  obtain ⟨hcut, htext⟩ := wellCut_lexemes text
  have hshapes := shapes_ofText pos text
  obtain ⟨ls, hwritten⟩ := parse_written rfl (hshapes ▸ hcut)
    (sealed_of_lines (by rwa [hshapes, htext])) h
  obtain ⟨at', notice, hparse⟩ := hwritten.parse (c := Cursor.ofText pos' p.definition.source)
    ((shapes_ofText _ _).trans hwritten.lexemes)
  exact ⟨_, hparse, rfl, rfl, rfl, rfl, rfl⟩

/-- A definition whose whitespace is anything but tidy, with quotes and a comment that are not
    closed. -/
def carelessText : Bytes :=
  ascii " LOG( fmt /* a */, args... )fmt  # args/**/##x 'a \" /*b"

theorem parse_source_careless :
    newline ∉ carelessText ∧
      ∃ p p', parse ⟨false, 0⟩ (Cursor.ofText {} carelessText) = .ok p ∧
        p.definition.source = ascii "LOG(fmt,args...) fmt #args ## x 'a \" /*b" ∧
        parse ⟨false, 0⟩ (Cursor.ofText {} p.definition.source) = .ok p' ∧
        p'.definition.name = p.definition.name ∧
        p'.definition.functionLike = p.definition.functionLike ∧
        p'.definition.variadic = p.definition.variadic ∧
        p'.definition.params = p.definition.params ∧
        p'.definition.body = p.definition.body := by
  have hlines : newline ∉ carelessText := by decide +kernel
  have hsource :
      (parse ⟨false, 0⟩ (Cursor.ofText {} carelessText)).toOption.map (·.definition.source) =
        some (ascii "LOG(fmt,args...) fmt #args ## x 'a \" /*b") := by decide +kernel
  cases hp : parse ⟨false, 0⟩ (Cursor.ofText {} carelessText) with
  | error e => exact absurd hsource (by simp [hp, Except.toOption])
  | ok p =>
    obtain ⟨p', hparse, hsame⟩ := parse_source hlines hp {}
    exact ⟨hlines, p, p', rfl, by simpa [hp, Except.toOption] using hsource, hparse, hsame⟩

end Preproc.Macro
