import Preproc.Proofs.Macro.RoundTrip

set_option autoImplicit false

/-! # What the printed form of a definition leaves open

A definition is read from the tokens of a directive, in which line ends stand inside block comments
only. If all these comments are closed, its printed form is read as the same definition. If the last
one is not, its opening is printed too, and the printed form ends inside a comment
(`parse_written_or_open`). -/

namespace Preproc.Macro

open Lexer
open Source (Region isCalm)

/-! ## Openings in replacement lists -/

section Reads

variable {d : Definition} {mode : Mode} {items : List Item} {ls out : List (TokenKind × Bytes)}

/-- A comment that is opened and not closed in a list is not closed in the tidied list. -/
theorem Reads.after_slash {kind : TokenKind} (hstands : Stands kind (ascii "/") (textOf ls))
    (h : Reads d (.item false) ls items out) (hcut : WellCut ls)
    (hstar : (textOf ls).head? = some (byte '*')) :
    Region.code.after (byte '/' :: textOf out) = .blockComment := by
  have hstar' := ((h.agree hcut).head (by decide)).2 hstar
  have hkept :=
    @Reads.misses d (.item false) items ls out commentFinder .opening .opening h hcut rfl
  obtain ⟨rest, hrest⟩ := List.head?_eq_some_iff.1 hstar
  obtain ⟨rest', hrest'⟩ := List.head?_eq_some_iff.1 hstar'
  rw [hrest] at hstands hkept
  rw [hrest'] at hkept ⊢
  refine (after_opening rest').trans (after_commentEnd_none ?_)
  exact (commentEnd?_eq_none rest').2 (hkept ((commentEnd?_eq_none rest).1 hstands.not_closed))

/-- An item that opens nothing leaves code as it is, also where what follows it was tidied. -/
theorem Reads.after_item {kind : TokenKind} {t : Bytes} (hstands : Stands kind t (textOf ls))
    (hkind : kind ≠ .space) (hquote : ¬ LoneQuote t) (h : Reads d (.item false) ls items out)
    (hcut : WellCut ls) (hstar : t = ascii "/" → (textOf ls).head? ≠ some (byte '*')) :
    Region.code.after (t ++ textOf out) = Region.code.after (textOf out) := by
  rcases hstands.calm hkind hquote with hcalm | rfl | ⟨quote, hq, hrule⟩
  · exact Region.after_calm hcalm _
  · have hslash : (textOf ls).head? ≠ some (byte '/') := by
      intro hhead
      obtain ⟨rest, hrest⟩ := List.head?_eq_some_iff.1 hhead
      have hcomment := (hstands.rules hkind).1
      rw [hrest] at hcomment
      simp [comment, ascii, byte] at hcomment
    have hagree := h.agree hcut
    exact Region.after_cons (by decide) fun _ => ⟨hagree.head_slash hslash,
      fun hhead => hstar rfl ((hagree.head (by decide)).1 hhead)⟩
  · exact after_quotation hq hstands.nonempty hrule _

theorem Mode.after_due (mode : Mode) (rest : Bytes) :
    Region.code.after (textOf mode.dueLexemes ++ rest) = Region.code.after rest := by
  refine Region.after_calm ?_ rest
  cases mode with
  | item pending => cases pending <;> decide +kernel
  | _ => decide +kernel

/-- An opening that comes before all lone quotes is found in the tidied list. -/
theorem Reads.after_opens (h : Reads d mode ls items out) (hcut : WellCut ls) (hopens : Opens ls) :
    Region.code.after (textOf out) = .blockComment := by
  induction h with
  | done => exact hopens.elim
  | @step mode mode' l first tidied rest items out h hrest ih =>
    obtain ⟨kind, t⟩ := l
    -- a lexeme that is no slash passes the opening on
    have hpass : (kind, t) ≠ slashLexeme → Region.code.after (textOf out) = .blockComment :=
      fun hne => ih hcut.2 (Or.resolve_left hopens fun h => hne h.1).2
    cases h with
    | space => exact ih hcut.2 hopens.of_space
    | operand =>
      have hident := hcut.stands (by decide)
      have hquote : ¬ LoneQuote t := by
        rintro (rfl | rfl) <;> exact absurd hident.isIdent (by decide)
      rw [List.singleton_append, textOf_cons,
        Reads.after_item hident (by decide) hquote hrest hcut.2]
      · exact hpass (by simp [slashLexeme])
      · rintro rfl
        exact absurd hident.isIdent (by decide)
    | paste =>
      rw [textOf_append, Region.after_calm (by decide +kernel)]
      exact hpass (by decide)
    | hash =>
      rw [textOf_append, textOf_append, List.append_assoc, mode.after_due,
        Region.after_calm (by decide +kernel)]
      exact hpass (by decide)
    | item _ hspace =>
      have hstands := hcut.stands hspace
      rw [textOf_append, textOf_append, List.append_assoc, mode.after_due, textOf_cons, textOf_nil,
        List.append_nil]
      by_cases hstar : t = ascii "/" ∧ (textOf rest).head? = some (byte '*')
      · obtain ⟨rfl, hstar⟩ := hstar
        exact hrest.after_slash hstands hcut.2 hstar
      · obtain ⟨hquote, hopens⟩ := Or.resolve_left hopens fun h =>
          hstar ⟨(Prod.mk.inj h.1).2, h.2⟩
        rw [Reads.after_item hstands hspace (hquote hspace) hrest hcut.2 fun ht h => hstar ⟨ht, h⟩]
        exact ih hcut.2 hopens

end Reads

/-! ## Heads -/

/-- The signs of a head. -/
def headSigns : List (TokenKind × Bytes) :=
  [.leftParen, .rightParen, .comma, .ellipsis].map signLexeme

theorem Lists.signs {limits : Limits} {state : ParamState} {names all : List Bytes}
    {kept : List (TokenKind × Bytes)} {variadic : Bool}
    (h : Lists limits state names kept all variadic) :
    ∀ l ∈ kept, l.1 = .ident ∨ l ∈ headSigns := by
  induction h with
  | closed | ended | empty => simp [headSigns]
  | named _ _ ih | comma _ ih | anonymous _ _ ih =>
    exact List.forall_mem_cons.2 ⟨Or.inr (by simp [headSigns]), ih⟩
  | param _ _ _ _ _ ih => exact List.forall_mem_cons.2 ⟨Or.inl rfl, ih⟩

theorem Heads.signs {limits : Limits} {d : Definition} {head : List (TokenKind × Bytes)}
    (h : Heads limits d head) : ∀ l ∈ head, l.1 = .ident ∨ l ∈ headSigns := by
  cases h with
  | object => simp
  | function _ _ hlists =>
    exact List.forall_mem_cons.2 ⟨Or.inl rfl,
      List.forall_mem_cons.2 ⟨Or.inr (by simp [headSigns]), hlists.signs⟩⟩

theorem headSigns_calm : ∀ l ∈ headSigns, ∀ b ∈ l.2, isCalm b = true := by
  decide +kernel

/-- The bytes of a head open nothing. -/
theorem Heads.calm {limits : Limits} {d : Definition} {head : List (TokenKind × Bytes)}
    (h : Heads limits d head) (hident : ∀ t, (.ident, t) ∈ head → isIdent t = true) :
    ∀ b ∈ textOf head, isCalm b = true := by
  intro b hb
  obtain ⟨⟨kind, t⟩, hl, hb⟩ := List.mem_flatMap.1 hb
  rcases h.signs _ hl with rfl | hsign
  · exact isNumberByte_calm b (isNumberByte_of_isIdent (hident t hl) b hb)
  · exact headSigns_calm _ hsign b hb

/-- The tokens that a head can be made of. -/
def InHead (t : Token) : Prop :=
  t.isSpace = true ∨ t.isIdent = true ∨ tokenShape t ∈ headSigns

theorem InHead.not_slash {t : Token} (h : InHead t) : tokenShape t ≠ slashLexeme := by
  rcases h with hspace | hident | hsign
  · rw [shape_of_space hspace]
    simp [slashLexeme]
  · rw [shape_of_ident hident]
    simp [slashLexeme]
  · intro heq
    rw [heq] at hsign
    exact absurd hsign (by decide)

theorem inHead_of_is {t : Token} {op : Operator} (h : t.is op = true)
    (hop : op ∈ [.leftParen, .rightParen, .comma, .ellipsis]) : InHead t := by
  have hne : ∀ op ∈ [Operator.leftParen, .rightParen, .comma, .ellipsis], operatorText op ≠ [] := by
    decide
  refine Or.inr (Or.inr ?_)
  rw [(is_iff op (hne op hop) t).1 h]
  exact List.mem_map_of_mem hop

theorem not_is_of_is {t : Token} {op op' : Operator} (h : t.is op = true) (hne : op ≠ op') :
    t.is op' = false := by
  simp_all [Token.is]

/-- The tokens of a parameter list that do not end it. -/
def InList (t : Token) : Prop :=
  InHead t ∧ t.is .rightParen = false

/-- A parameter list ends at its first closing parenthesis. -/
theorem readParams_used {limits : Limits} {name : Bytes} {eol : Token} {state : ParamState}
    {names : List Bytes} {toks : List Token} {ps : Params}
    (h : readParams limits name eol state names toks = .ok ps) :
    ∃ used close, toks = used ++ close :: ps.rest ∧ close.is .rightParen = true ∧
      ∀ t ∈ used, InList t := by
  have hcons : ∀ {t : Token} {rest : List Token}, InList t →
      (∃ used close, rest = used ++ close :: ps.rest ∧ close.is .rightParen = true ∧
        ∀ t ∈ used, InList t) →
      ∃ used close, t :: rest = used ++ close :: ps.rest ∧ close.is .rightParen = true ∧
        ∀ t ∈ used, InList t := by
    rintro t _ ht ⟨used, close, rfl, hclose, hused⟩
    exact ⟨t :: used, close, rfl, hclose, List.forall_mem_cons.2 ⟨ht, hused⟩⟩
  fun_induction readParams limits name eol state names toks with
  | case3 state names t rest hspace ih =>
    have hkind : t.kind = .space := by simpa [Token.isSpace] using hspace
    exact hcons ⟨Or.inl hspace, by simp [Token.is, hkind]⟩ (ih h)
  | case4 names t rest hspace hsign =>
    obtain rfl : ⟨names, true, rest⟩ = ps := by simpa using h
    exact ⟨[], t, rfl, hsign, by simp⟩
  | case7 names t rest hspace name hsign hstrict ih
  | case8 names t rest hspace name hellipsis hsign ih =>
    exact hcons ⟨inHead_of_is hsign (by simp), not_is_of_is hsign (by simp)⟩ (ih h)
  | case9 names t rest hspace name hellipsis hcomma hsign =>
    obtain rfl : ⟨names, false, rest⟩ = ps := by simpa using h
    exact ⟨[], t, rfl, hsign, by simp⟩
  | case11 names t rest hspace hsign =>
    rw [if_pos hsign] at h
    obtain rfl : ⟨names, false, rest⟩ = ps := by simpa using h
    exact ⟨[], t, rfl, (Bool.and_eq_true_iff.1 hsign).1, by simp⟩
  | case12 names t rest hspace hsign hend ih | case19 names t rest hspace hsign hend ih =>
    rw [if_neg hend, if_pos hsign] at h
    exact hcons ⟨inHead_of_is hsign (by simp), not_is_of_is hsign (by simp)⟩ (ih h)
  | case17 names t rest hspace hellipsis hident hname hnew hlimit hend ih
  | case24 names t rest hspace hellipsis hident hname hnew hlimit hend ih =>
    rw [if_neg hend, if_neg hellipsis, if_neg hident, if_neg hname, if_neg hnew, if_neg hlimit] at h
    have hkind : t.kind = .ident := by simpa [Token.isIdent] using hident
    exact hcons ⟨Or.inr (Or.inl (by simpa using hident)), by simp [Token.is, hkind]⟩ (ih h)
  -- everything else is refused
  | _ => clear hcons; simp_all

/-- What is left after a head follows the tokens of the head. -/
theorem readHead_used {limits : Limits} {c : Cursor} (heol : c.eol.kind = .endOfLine)
    {d : Definition} {toks : List Token} (h : readHead limits c = .ok (d, toks)) :
    ∃ used, c.after = used ++ toks ∧ ∀ t ∈ used, InHead t := by
  obtain ⟨blanks, t, rest, hafter, hblanks, hkind, -, hcases⟩ := readHead_cases heol h
  have hname : InHead t := Or.inr (Or.inl (by simp [Token.isIdent, hkind]))
  have hbefore : ∀ b ∈ blanks, InHead b := fun b hb => Or.inl (hblanks b hb)
  rcases hcases with ⟨-, rfl⟩ | ⟨t', rest', ps, eol, rfl, hparen, hps, -, rfl⟩
  · refine ⟨blanks ++ [t], by rw [hafter, List.append_assoc]; rfl, ?_⟩
    exact List.forall_mem_append.2 ⟨hbefore, by simpa using hname⟩
  · obtain ⟨used, close, rfl, hclose, hused⟩ := readParams_used hps
    refine ⟨blanks ++ t :: t' :: (used ++ [close]), by rw [hafter]; simp, ?_⟩
    have hlist : ∀ t ∈ used ++ [close], InHead t := List.forall_mem_append.2
      ⟨fun t ht => (hused t ht).1, by simpa using inHead_of_is hclose (by simp)⟩
    exact List.forall_mem_append.2 ⟨hbefore, List.forall_mem_cons.2 ⟨hname,
      List.forall_mem_cons.2 ⟨inHead_of_is hparen (by simp), hlist⟩⟩⟩

/-! ## Definitions -/

/-- The printed form of a definition whose replacement list opens a comment. -/
theorem Heads.after_source {limits : Limits} {d : Definition}
    {head ls out : List (TokenKind × Bytes)} {body : Replacement} (h : Heads limits d head)
    (hident : ∀ t, (.ident, t) ∈ head → isIdent t = true) (hreads : Reads d .start ls body out)
    (hopen : Region.code.after (textOf out) = .blockComment) :
    Region.code.after { d with body }.source = .blockComment := by
  have hbody : textOf out = Replacement.source d.params body := hreads.source
  have hhead : textOf head = d.name ++ { d with body }.signature := h.source
  have hne : (Replacement.source d.params body).isEmpty = false := by
    rw [← hbody]
    cases htext : textOf out with
    | nil => simp [htext, Region.after] at hopen
    | cons b rest => rfl
  have hsource : { d with body }.source = textOf head ++ ascii " " ++ textOf out := by
    unfold Definition.source
    dsimp only
    rw [hne, if_neg (by simp), hbody, hhead]
  rw [hsource, List.append_assoc, Region.after_calm (h.calm hident),
    Region.after_calm (by decide +kernel)]
  exact hopen

/-- The tokens of a directive: the line reader has joined no lines but inside block comments. -/
structure Gathered (c : Cursor) : Prop where
  eol : c.eol.kind = .endOfLine
  cut : WellCut (c.after.map tokenShape)
  unclosed : Sealed (c.after.map tokenShape) ∨ Opens (c.after.map tokenShape)

/-- **The printed form of a definition is read again, or it ends inside a comment.** -/
theorem parse_written_or_open {limits : Limits} {c : Cursor} (hc : Gathered c) {p : Parsed}
    (h : parse limits c = .ok p) :
    (∃ ls, Written limits p.definition ls) ∨
      Source.endsInComment false p.definition.source = true := by
  rcases hc.unclosed with hsealed | hopens
  · exact Or.inl (parse_written hc.eol hc.cut hsealed h)
  · obtain ⟨d, toks, head, body, out, hhead, hheads, hsubset, hsuffix, hreads, hp⟩ :=
      parse_parts hc.eol h
    obtain ⟨used, hused, hinHead⟩ := readHead_used hc.eol hhead
    -- the head has no slash in it, so the comment is opened in the replacement list
    rw [hused, List.map_append] at hopens
    have hopens := hopens.of_append fun hmem => by
      obtain ⟨t, ht, hslash⟩ := List.mem_map.1 hmem
      exact (hinHead t ht).not_slash hslash
    have hopen := hreads.after_opens (hc.cut.suffix hsuffix) hopens
    have hsource := hheads.after_source (fun t ht => hc.cut.isIdent (hsubset ht)) hreads hopen
    rw [hp]
    exact Or.inr (by simpa [Source.endsInComment] using hsource)

/-! ## Lines -/

section Written

variable {limits : Limits} {d : Definition} {ls : List (TokenKind × Bytes)}

/-- The lexemes of a printed form: single blanks, and lexemes without line ends that do not end with
    a blank. -/
theorem Written.lexeme_bytes (h : Written limits d ls) :
    ∀ l ∈ ls, newline ∉ l.2 ∧ l.2.getLast? ≠ some 13 := by
  rintro ⟨kind, t⟩ hl
  by_cases hkind : kind = .space
  · subst hkind
    rw [h.blanks t hl]
    decide
  · obtain ⟨following, hstands⟩ := exists_stands_of_mem h.stood _ hl
    refine ⟨hstands.unbroken hkind, fun hlast => ?_⟩
    exact absurd (hstands.last_stops hkind 13 hlast) (by decide)

theorem Written.lines (h : Written limits d ls) : newline ∉ d.source := by
  rw [← h.source]
  intro hmem
  obtain ⟨l, hl, hmem⟩ := List.mem_flatMap.1 hmem
  exact (h.lexeme_bytes l hl).1 hmem

/-- No printed form ends with a carriage return, which would belong to the line break. -/
theorem Written.last (h : Written limits d ls) : d.source.getLast? ≠ some 13 := by
  rw [← h.source]
  exact getLast?_textOf fun l hl => (h.lexeme_bytes l hl).2

/-- A macro without a parameter list has no parameters. -/
theorem Written.params (h : Written limits d ls) (hlike : d.functionLike = false) :
    d.params = [] := by
  obtain ⟨d', read, head, out, hd, hheads, -⟩ := h.parts
  rw [hd] at hlike ⊢
  cases hheads with
  | object _ _ _ hparams => exact hparams
  | function _ hfunction => exact absurd (hfunction.symm.trans hlike) (by simp)

/-- A printed form begins with the name of the macro. -/
theorem Written.named (h : Written limits d ls) : ∃ rest, ls = (.ident, d.name) :: rest := by
  obtain ⟨d', read, head, out, hd, hheads, -, rfl⟩ := h.parts
  have hname : d.name = d'.name := by rw [hd]
  rw [hname]
  cases hheads with
  | object => exact ⟨_, rfl⟩
  | function => exact ⟨_, rfl⟩

/-! ## Directives -/

/-- The directive that defines a macro. -/
def Definition.directive (d : Definition) : Bytes :=
  ascii "#define " ++ d.source

theorem getLast?_directive {b : UInt8} (hb : b ≠ 32) (hlast : d.source.getLast? ≠ some b) :
    d.directive.getLast? ≠ some b := by
  have hblank : (ascii "#define ").getLast? = some 32 := by decide
  rw [Definition.directive, List.getLast?_append, hblank]
  cases hsource : d.source.getLast? with
  | none => simpa using Ne.symm hb
  | some c => simpa [hsource] using hlast

theorem Written.dropCarriageReturn (h : Written limits d ls) :
    Source.dropCarriageReturn d.directive = d.directive := by
  rw [Source.dropCarriageReturn, if_neg (getLast?_directive (by decide) h.last)]

/-- A directive is read alone, unless its printed form says that the next line belongs to it. -/
theorem Written.closedLine (h : Written limits d ls) (hended : d.source.getLast? ≠ some backslash)
    (hclosed : Source.endsInComment false d.source = false) : Source.ClosedLine d.directive := by
  refine ⟨?_, ?_, ?_⟩
  · have hkeyword : newline ∉ ascii "#define " := by decide
    rw [Definition.directive, List.mem_append, not_or]
    exact ⟨hkeyword, h.lines⟩
  · rw [h.dropCarriageReturn]
    exact getLast?_directive (by decide) hended
  · rw [h.dropCarriageReturn, Definition.directive]
    simp only [Source.endsInComment, Bool.false_eq_true, if_false] at hclosed ⊢
    rwa [Region.after_calm (by decide +kernel)]

/-- The lexemes before a printed form in its directive. -/
def defineLexemes : List (TokenKind × Bytes) :=
  [signLexeme .hash, (.ident, ascii "define"), blankLexeme]

theorem Written.shapes (h : Written limits d ls) :
    mergeSpaces (Lexer.lexemes d.directive) = defineLexemes ++ ls := by
  have htext : d.directive = textOf (defineLexemes ++ ls) := by
    rw [textOf_append, h.source]
    rfl
  have hstops : StopsAt isSeparator (textOf ls) := by
    obtain ⟨rest, rfl⟩ := h.named
    rw [textOf_cons]
    exact stops_ident (fun b hb => (isIdentStart_excludes b hb).2.1) h.stood.1.isIdent
  have hstood : Stood (defineLexemes ++ ls) :=
    ⟨stands_hash (stops_cons (by decide) _), stands_ident (by decide) (stops_cons (by decide) _),
      stands_blank hstops, h.stood⟩
  have hkeyword : ∀ l ∈ defineLexemes, l.1 = .space → l.2 = ascii " " := by decide
  rw [htext, lexemes_textOf hstood, mergeSpaces_of_stood hstood fun t ht => ?_]
  rcases List.mem_append.1 ht with ht | ht
  · exact hkeyword _ ht rfl
  · exact h.blanks t ht

/-- Blanks before a definition do not matter. -/
theorem parse_skipSpace (limits : Limits) (c : Cursor) :
    parse limits c.skipSpace = parse limits c := by
  have hhead := List.head?_dropWhile_not Token.isSpace c.after
  have hskip : c.skipSpace.skipSpace = c.skipSpace := by
    unfold Cursor.skipSpace
    cases hdrop : c.after.dropWhile Token.isSpace with
    | nil => rfl
    | cons t rest =>
      rw [hdrop] at hhead
      simp [show t.isSpace = false by simpa using hhead]
  unfold parse readHead Cursor.nextNonSpace
  rw [hskip]

/-- A definition as a directive at some place makes it. -/
def Definition.placedAt (d : Definition) (pos : Position) : Definition :=
  { d with definedAt := pos, origin := .user }

/-- The operands of a directive are read as the definition. -/
theorem Written.parse_operands (h : Written limits d ls) {c : Cursor}
    (hshapes : c.after.map tokenShape = blankLexeme :: ls) :
    ∃ pos notice, Macro.parse limits c = .ok { definition := d.placedAt pos, notice } := by
  obtain ⟨blank, rest, hafter, hblank, hrest⟩ := List.map_eq_cons_iff.1 hshapes
  have hskip : c.skipSpace.after.map tokenShape = ls := by
    obtain ⟨more, hls⟩ := h.named
    obtain ⟨name, rest', rfl, hname, -⟩ := List.map_eq_cons_iff.1 (hrest.trans hls)
    have hspace : blank.isSpace = true := by
      simp [Token.isSpace, show blank.kind = .space from congrArg Prod.fst hblank]
    have hident : name.isSpace = false := by
      simp [Token.isSpace, show name.kind = .ident from congrArg Prod.fst hname]
    rw [← hrest]
    simp [Cursor.skipSpace, hafter, hspace, hident]
  rw [← parse_skipSpace]
  exact h.parse hskip

end Written

end Preproc.Macro
