import Mathlib.Data.List.DropRight
import Preproc.Proofs.Engine.IncludeStack
import Preproc.Proofs.Token.Unclosed

set_option autoImplicit false

/-! # Names between angle brackets

An include directive puts the name between angle brackets together again from the tokens of its
line. The line is cut as any other one, so the closing bracket is a token of its own only when
nothing in the name takes it: `//` begins a comment that runs to the end of the line, and a minus
that is a token by itself becomes `->`. Every other name is the first thing that is asked for, as it
is written, and with these two nothing is asked for (`bracket_include_asks_iff`). -/

namespace Preproc

/-! ## Cutting a name before the closing bracket -/

namespace Lexer

/-- The bytes of names that need no quotes: letters, digits, and `_ . / - +`. -/
def isNameByte (b : UInt8) : Bool :=
  isIdentPart b || (ascii "./-+").contains b

/-- The closing bracket as a lexeme. -/
def closing : TokenKind × Bytes := (.punctuator, ascii ">")

/-- A minus by itself, which is no part of a number or a `--`. -/
def minus : TokenKind × Bytes := (.punctuator, ascii "-")

/-- The last lexeme of a name is a minus by itself. -/
def EndsInMinus (name : Bytes) : Prop :=
  (lexemes name).getLast? = some minus

instance (name : Bytes) : Decidable (EndsInMinus name) :=
  inferInstanceAs (Decidable (_ = _))

theorem EndsInMinus.last {name : Bytes} (h : EndsInMinus name) :
    name.getLast? = some (byte '-') := by
  obtain ⟨ls, hls⟩ := List.getLast?_eq_some_iff.1 h
  rw [← (stood_lexemes name).2, hls, textOf_append]
  exact List.getLast?_concat

theorem isNameByte_excludes : ∀ b, isNameByte b = true →
    isSeparator b = false ∧ b ≠ doubleQuote ∧ b ≠ singleQuote ∧ b < 0x80 :=
  forall_byte (by decide +kernel)

/-- Only a minus makes a long punctuator with the closing bracket. -/
theorem longPunctuators_closing : ∀ p ∈ longPunctuators, p.getLast? = some (byte '>') →
    byte '>' ∉ p.dropLast → p = ascii "->" := by
  decide +kernel

theorem comment_name {text : Bytes} (hstar : byte '*' ∉ text) (hline : ¬ ascii "//" <+: text) :
    comment text = 0 := by
  fun_cases comment text with
  | case1 a b rest h =>
    obtain ⟨rfl, rfl⟩ := h
    exact absurd ⟨rest, rfl⟩ hline
  | case2 a b rest h h' => exact absurd (by simp [h'.2]) hstar
  | case3 | case4 => rfl

/-- The first lexeme of a name is the same before the closing bracket. -/
theorem lexeme_closed {name : Bytes} (hne : name ≠ []) (hname : ∀ b ∈ name, isNameByte b = true)
    (hline : ¬ ascii "//" <+: name) (hminus : name ≠ ascii "-") :
    lexeme (name ++ ascii ">") = lexeme name := by
  have hstop : StopsAt isNumberByte (ascii ">") := by decide +kernel
  have hstar : byte '*' ∉ name := fun hmem => absurd (hname _ hmem) (by decide)
  have hcomment : comment (name ++ ascii ">") = 0 := by
    refine comment_name ?_ fun hinitial => hline ?_
    · rw [List.mem_append, not_or]
      exact ⟨hstar, by decide⟩
    · rcases List.prefix_concat_iff.1 hinitial with hsame | hinitial
      · exact absurd (congrArg List.getLast? hsame) (by simp; decide)
      · exact hinitial
  have hpunctuator : punctuator (name ++ ascii ">") = punctuator name := by
    refine punctuator_append hne fun p hp hinitial => ?_
    rcases List.prefix_concat_iff.1 hinitial with rfl | hinitial
    · -- the punctuator takes the bracket
      have hnone : byte '>' ∉ name := fun hmem => absurd (hname _ hmem) (by decide)
      have harrow := longPunctuators_closing _ hp List.getLast?_concat
        (by rwa [List.dropLast_concat])
      exact absurd (List.append_inj' harrow rfl).1 hminus
    · exact hinitial
  obtain ⟨b, rest, rfl⟩ := List.exists_cons_of_ne_nil hne
  obtain ⟨hblank, hdouble, hsingle, hascii⟩ := isNameByte_excludes b (hname b List.mem_cons_self)
  have hidentifier := identifier_local hstop (b :: rest)
  have hnumber := number_local hstop (b :: rest)
  rw [lexeme_eq, lexeme_eq, hcomment, comment_name hstar hline, hidentifier, hnumber, hpunctuator,
    List.cons_append, blanks_eq_zero hblank, blanks_eq_zero hblank, quotation_eq_zero hdouble,
    quotation_eq_zero hdouble, quotation_eq_zero hsingle, quotation_eq_zero hsingle,
    runeWidth_ascii hascii, runeWidth_ascii hascii]

/-- Of the lexemes of a name, comments are the only whitespace. -/
theorem Stands.name_space {t following : Bytes} (h : Stands .space t following)
    (hname : ∀ b ∈ t, isNameByte b = true) :
    ascii "//" <+: t ∧ (following = [] ∨ following.head? = some newline) := by
  rcases h.space_forms with ⟨rest, rfl, -, hends⟩ | ⟨rest, rfl, -⟩ | hblanks
  · exact ⟨List.prefix_append _ _, hends⟩
  · exact absurd (hname (byte '*') (by simp [ascii, byte])) (by decide)
  · obtain ⟨b, t, rfl⟩ := List.exists_cons_of_ne_nil h.nonempty
    have hblank := hblanks b List.mem_cons_self
    rw [(isNameByte_excludes b (hname b List.mem_cons_self)).1] at hblank
    exact absurd hblank (by simp)

theorem no_lineComment {text : Bytes} (hcomment : comment text = 0) : ¬ ascii "//" <+: text := by
  rintro ⟨rest, rfl⟩
  simp [comment, ascii, byte] at hcomment

/-- The lexemes that stand before the rest of a name and the bracket are those that stand before the
    rest of the name, but for comments and a last minus. -/
theorem stands_closed_iff {kind : TokenKind} {t following : Bytes}
    (hname : ∀ b ∈ t ++ following, isNameByte b = true) :
    Stands kind t (following ++ ascii ">") ↔
      Stands kind t following ∧ kind ≠ .space ∧ t ++ following ≠ ascii "-" := by
  have hcut (hne : t ≠ []) (hline : ¬ ascii "//" <+: t ++ following)
      (hminus : t ++ following ≠ ascii "-") :
      lexeme (t ++ (following ++ ascii ">")) = lexeme (t ++ following) := by
    rw [← List.append_assoc]
    exact lexeme_closed (by simp [hne]) hname hline hminus
  constructor
  · intro h
    have hkind : kind ≠ .space := by
      rintro rfl
      obtain ⟨-, hempty | hbreak⟩ := h.name_space fun b hb => hname b (List.mem_append_left _ hb)
      · exact absurd hempty (by simp [ascii])
      · rcases List.mem_append.1 (List.mem_of_mem_head? hbreak) with hmem | hmem
        · exact absurd (hname _ (List.mem_append_right _ hmem)) (by decide)
        · exact absurd hmem (by decide)
    have hline : ¬ ascii "//" <+: t ++ following := by
      have hnone := no_lineComment (h.rules hkind).1
      rw [← List.append_assoc] at hnone
      exact fun hinitial => hnone (hinitial.trans (List.prefix_append _ _))
    have hminus : t ++ following ≠ ascii "-" := by
      -- the lexeme would be longer than the name
      intro hsame
      have harrow : lexeme (ascii "-" ++ ascii ">") = (.punctuator, 2) := by decide +kernel
      rw [← hsame, List.append_assoc, h.lexeme] at harrow
      have hlength := congrArg List.length hsame
      rw [List.length_append] at hlength
      have hone : (ascii "-").length = 1 := rfl
      have htwo := (Prod.mk.inj harrow).2
      omega
    exact ⟨⟨h.nonempty, by rw [← h.lexeme, hcut h.nonempty hline hminus]⟩, hkind, hminus⟩
  · rintro ⟨h, hkind, hminus⟩
    exact ⟨h.nonempty, by rw [hcut h.nonempty (no_lineComment (h.rules hkind).1) hminus, h.lexeme]⟩

theorem getLast?_minus_iff {kind : TokenKind} {t : Bytes} {rest : List (TokenKind × Bytes)}
    (h : Stands kind t (textOf rest)) (hrest : Stood rest) :
    ((kind, t) :: rest).getLast? = some minus ↔
      t ++ textOf rest = ascii "-" ∨ rest.getLast? = some minus := by
  cases rest with
  | nil =>
    have hkind : t = ascii "-" → kind = .punctuator := by
      rintro rfl
      have hminus : lexeme (ascii "-" ++ textOf []) = (.punctuator, 1) := by decide +kernel
      exact (Prod.mk.inj (h.lexeme.symm.trans hminus)).1
    simp only [List.getLast?_singleton, Option.some.injEq, minus, Prod.mk.injEq, textOf_nil,
      List.append_nil, List.getLast?_nil, reduceCtorEq, or_false]
    exact ⟨And.right, fun ht => ⟨hkind ht, ht⟩⟩
  | cons l more =>
    obtain ⟨kind', t'⟩ := l
    -- two lexemes are longer than a minus
    have hlong : t ++ textOf ((kind', t') :: more) ≠ ascii "-" := by
      intro hsame
      have hlength := congrArg List.length hsame
      have hfirst := List.length_pos_iff.2 h.nonempty
      have hsecond := List.length_pos_iff.2 hrest.1.nonempty
      simp only [textOf_cons, List.length_append] at hlength
      have hone : (ascii "-").length = 1 := rfl
      omega
    rw [List.getLast?_cons_cons, or_iff_right hlong]

/-- A name is cut in the same way before the closing bracket, unless it holds a comment or ends in a
    minus by itself. -/
theorem stood_closed_iff {ls : List (TokenKind × Bytes)}
    (hname : ∀ b ∈ textOf ls, isNameByte b = true) :
    Stood (ls ++ [closing]) ↔
      Stood ls ∧ (∀ l ∈ ls, l.1 ≠ .space) ∧ ls.getLast? ≠ some minus := by
  induction ls with
  | nil =>
    have hclosing : Stands .punctuator (ascii ">") [] := ⟨by decide, by decide +kernel⟩
    simpa [Stood, closing] using hclosing
  | cons l rest ih =>
    obtain ⟨kind, t⟩ := l
    rw [textOf_cons] at hname
    have ih := ih fun b hb => hname b (List.mem_append_right _ hb)
    have hfirst : Stands kind t (textOf rest ++ ascii ">") ↔ _ := stands_closed_iff hname
    have htext : textOf (rest ++ [closing]) = textOf rest ++ ascii ">" := by simp [closing]
    simp only [List.cons_append, Stood, htext, ih, hfirst, List.forall_mem_cons]
    constructor
    · rintro ⟨⟨hstands, hkind, hwhole⟩, hstood, hspaces, hlast⟩
      refine ⟨⟨hstands, hstood⟩, ⟨hkind, hspaces⟩, ?_⟩
      rw [ne_eq, getLast?_minus_iff hstands hstood]
      exact not_or.2 ⟨hwhole, hlast⟩
    · rintro ⟨⟨hstands, hstood⟩, ⟨hkind, hspaces⟩, hlast⟩
      rw [ne_eq, getLast?_minus_iff hstands hstood] at hlast
      obtain ⟨hwhole, hlast⟩ := not_or.1 hlast
      exact ⟨⟨hstands, hkind, hwhole⟩, hstood, hspaces, hlast⟩

/-- A slash in a lexeme of a name is all of it. -/
theorem Stands.name_slash {kind : TokenKind} {t following : Bytes} (h : Stands kind t following)
    (hkind : kind ≠ .space) (hname : ∀ b ∈ t, isNameByte b = true) (hslash : byte '/' ∈ t) :
    t = ascii "/" := by
  have hquote : ¬ LoneQuote t := by
    rintro (rfl | rfl) <;> exact absurd (hname _ List.mem_cons_self) (by decide)
  rcases h.calm hkind hquote with hcalm | hsame | ⟨quote, hopen, hrule⟩
  · exact absurd (hcalm _ hslash) (by decide)
  · exact hsame
  · obtain ⟨body, rfl, -⟩ := quotation_closed h.nonempty hrule
    rcases hopen with rfl | rfl <;> exact absurd (hname _ List.mem_cons_self) (by decide)

/-- A name holds no comment exactly when no two slashes stand next to each other in it. -/
theorem no_space_iff {ls : List (TokenKind × Bytes)} (h : Stood ls)
    (hname : ∀ b ∈ textOf ls, isNameByte b = true) :
    (∀ l ∈ ls, l.1 ≠ .space) ↔ ¬ ascii "//" <:+: textOf ls := by
  induction ls with
  | nil => simp [ascii]
  | cons l rest ih =>
    obtain ⟨kind, t⟩ := l
    obtain ⟨hstands, hstood⟩ := h
    rw [textOf_cons] at hname ⊢
    have hhead : ∀ b ∈ t, isNameByte b = true := fun b hb => hname b (List.mem_append_left _ hb)
    rw [List.forall_mem_cons, ih hstood fun b hb => hname b (List.mem_append_right _ hb)]
    constructor
    · rintro ⟨hkind, hrest⟩ hcomment
      by_cases hslash : byte '/' ∈ t
      · -- the first slash is a lexeme by itself, and no comment begins with it
        obtain rfl := hstands.name_slash hkind hhead hslash
        rcases List.infix_cons_iff.1 hcomment with hinitial | hcomment
        · exact no_lineComment (hstands.rules hkind).1 hinitial
        · exact hrest hcomment
      · obtain ⟨before, after, hsplit⟩ := hcomment
        rw [List.append_assoc] at hsplit
        rcases List.append_eq_append_iff.1 hsplit with ⟨c, rfl, hc⟩ | ⟨c, rfl, hc⟩
        · cases c with
          | nil => exact hrest ⟨[], after, hc⟩
          | cons b c =>
            obtain rfl : byte '/' = b := (List.cons.inj hc).1
            exact hslash (by simp)
        · exact hrest ⟨c, after, by rw [hc, List.append_assoc]⟩
    · intro hnone
      refine ⟨?_, fun hcomment => hnone (hcomment.trans (List.suffix_append _ _).isInfix)⟩
      rintro rfl
      exact hnone ((hstands.name_space hhead).1.isInfix.trans (List.prefix_append _ _).isInfix)

/-- **The closing bracket is a token of its own** when the name holds no two slashes next to each
    other and does not end in a minus by itself, and the name is then cut as it is by itself. -/
theorem mergeSpaces_closed {name : Bytes} (hname : ∀ b ∈ name, isNameByte b = true)
    (hline : ¬ ascii "//" <:+: name) (hminus : ¬ EndsInMinus name) :
    mergeSpaces (lexemes (name ++ ascii ">")) = lexemes name ++ [closing] := by
  obtain ⟨hstood, htext⟩ := stood_lexemes name
  rw [← htext] at hname hline
  have hspaces := (no_space_iff hstood hname).2 hline
  have hclosed := (stood_closed_iff hname).2 ⟨hstood, hspaces, hminus⟩
  have hwhole : textOf (lexemes name ++ [closing]) = name ++ ascii ">" := by
    rw [textOf_append, htext]
    rfl
  rw [← hwhole, lexemes_textOf hclosed]
  refine mergeSpaces_of_stood hclosed fun t ht => ?_
  rcases List.mem_append.1 ht with ht | ht
  · exact absurd rfl (hspaces _ ht)
  · simp [closing] at ht

/-- Otherwise no token of the line is the closing bracket. -/
theorem closing_not_mem {name : Bytes} (hname : ∀ b ∈ name, isNameByte b = true)
    (h : ascii "//" <:+: name ∨ EndsInMinus name) : closing ∉ lexemes (name ++ ascii ">") := by
  intro hmem
  obtain ⟨hstood, htext⟩ := stood_lexemes (name ++ ascii ">")
  obtain ⟨ls, more, hsplit⟩ := List.append_of_mem hmem
  rw [hsplit] at hstood htext
  -- the bracket is the last byte of the text, so it is the last lexeme
  obtain rfl : more = [] := by
    have hnone : textOf more = [] := by
      rcases List.eq_nil_or_concat (textOf more) with hnone | ⟨init, last, hlast⟩
      · exact hnone
      · have hwhole : (textOf ls ++ ascii ">" ++ init) ++ [last] = name ++ ascii ">" := by
          rw [← htext, textOf_append, closing, textOf_cons, hlast]
          simp
        have hwithin := (List.append_inj' hwhole rfl).1
        have hbracket : byte '>' ∈ name := by simp [← hwithin, ascii, byte]
        exact absurd (hname _ hbracket) (by decide)
    refine List.eq_nil_iff_forall_not_mem.2 fun l hl => ?_
    obtain ⟨_, hstands⟩ := exists_stands_of_mem hstood l (by simp [hl])
    exact hstands.nonempty (List.flatMap_eq_nil_iff.1 hnone l hl)
  have htext : textOf ls = name := by
    rw [textOf_append] at htext
    exact List.append_cancel_right htext
  subst htext
  obtain ⟨hcut, hspaces, hlast⟩ := (stood_closed_iff hname).1 hstood
  rcases h with hline | hminus
  · exact (no_space_iff hcut hname).1 hspaces hline
  · rw [EndsInMinus, lexemes_textOf hcut] at hminus
    exact hlast hminus

end Lexer

namespace Engine

open Lexer (Stood textOf mergeSpaces lexemes isNameByte closing EndsInMinus)
open Macro (signLexeme blankLexeme tokenShape)

/-! ## The line of an include directive -/

/-- The line that asks for a name between angle brackets. -/
def bracketLine (name : Bytes) : Bytes :=
  ascii "#include <" ++ name ++ ascii ">"

/-- The lexemes of such a line, given those of the name and the closing bracket. -/
def bracketLexemes (ls : List (TokenKind × Bytes)) : List (TokenKind × Bytes) :=
  signLexeme .hash :: (.ident, Keyword.includeFile.name) :: blankLexeme ::
    (.punctuator, ascii "<") :: ls

/-- The opening bracket stands before every name. -/
theorem stands_opening {b : UInt8} (hb : isNameByte b = true) (rest : Bytes) :
    Lexer.Stands .punctuator (ascii "<") (b :: rest) := by
  have hlong : ∀ p ∈ Lexer.longPunctuators, p.head? = some (byte '<') →
      p[1]? = some (byte '<') ∨ p[1]? = some (byte '=') := by decide +kernel
  have hpunctuator : Lexer.punctuator (ascii "<" ++ b :: rest) = 1 := by
    refine (Lexer.punctuator_append (by decide) fun p hp hinitial => ?_).trans (by decide)
    obtain ⟨more, hmore⟩ := hinitial
    rcases p with _ | ⟨first, _ | ⟨second, p⟩⟩
    · exact List.nil_prefix
    · obtain rfl : first = byte '<' := (List.cons.inj hmore).1
      exact List.prefix_refl _
    · obtain ⟨hfirst, hrest⟩ := List.cons.inj hmore
      obtain rfl : first = byte '<' := hfirst
      obtain rfl : second = b := (List.cons.inj hrest).1
      rcases hlong _ hp rfl with h | h
      · exact absurd (Option.some.inj h ▸ hb) (by decide)
      · exact absurd (Option.some.inj h ▸ hb) (by decide)
  exact Lexer.stands_punctuator (b := byte '<') (t := []) (by decide) (by decide) (by decide)
    (Lexer.number_eq_zero (by decide) (by decide) _) (by decide) (by decide) hpunctuator

/-- The line is cut into the directive, the opening bracket, and the name with the closing one. -/
theorem mergeSpaces_bracketLine {name : Bytes} (hne : name ≠ [])
    (hname : ∀ b ∈ name, isNameByte b = true) :
    mergeSpaces (lexemes (bracketLine name)) =
      bracketLexemes (mergeSpaces (lexemes (name ++ ascii ">"))) := by
  obtain ⟨hstood, htext⟩ := Lexer.stood_lexemes (name ++ ascii ">")
  have hline : bracketLine name = textOf (bracketLexemes (lexemes (name ++ ascii ">"))) := by
    have hhead : ascii "#include <" =
        ascii "#" ++ (Keyword.includeFile.name ++ (ascii " " ++ ascii "<")) := by decide
    simp only [bracketLexemes, signLexeme, blankLexeme, Macro.operatorText, Lexer.textOf_cons,
      htext, bracketLine, hhead, List.append_assoc]
  have hopening : Lexer.Stands .punctuator (ascii "<") (textOf (lexemes (name ++ ascii ">"))) := by
    rw [htext]
    obtain ⟨b, rest, rfl⟩ := List.exists_cons_of_ne_nil hne
    exact stands_opening (hname b List.mem_cons_self) _
  have hall : Stood (bracketLexemes (lexemes (name ++ ascii ">"))) := by
    refine ⟨Lexer.stands_hash (Lexer.stops_cons (by decide) _),
      Lexer.stands_ident (by decide) (Lexer.stops_cons (by decide) _),
      Lexer.stands_blank (Lexer.stops_cons (by decide) _), hopening, hstood⟩
  rw [hline, Lexer.lexemes_textOf hall, bracketLexemes, signLexeme,
    Lexer.mergeSpaces_cons (by simp), Lexer.mergeSpaces_cons (by simp)]
  exact congrArg (fun ls => signLexeme .hash :: (.ident, Keyword.includeFile.name) :: ls)
    (Lexer.mergeSpaces_spaces (by simp) (ascii " ") (ascii "<") _)

/-! ## The name that is read -/

theorem bracketedName_open (opening : Position) {toks : List Token}
    (h : ∀ t ∈ toks, tokenShape t ≠ closing) (name : Bytes) :
    bracketedName opening name toks = .error ⟨opening, .includeUnclosed⟩ := by
  induction toks generalizing name with
  | nil => rfl
  | cons t rest ih =>
    obtain ⟨ht, hrest⟩ := List.forall_mem_cons.1 h
    rw [bracketedName.eq_def]
    exact (if_neg fun hshape => ht (Prod.ext hshape.1 hshape.2)).trans (ih hrest _)

theorem bracketedName_closed (opening : Position) {toks : List Token} {last : Token}
    (h : ∀ t ∈ toks, tokenShape t ≠ closing) (hlast : tokenShape last = closing) (name : Bytes)
    (hne : name ++ toks.flatMap (·.text) ≠ []) :
    bracketedName opening name (toks ++ [last]) = .ok (name ++ toks.flatMap (·.text)) := by
  induction toks generalizing name with
  | nil =>
    rw [List.flatMap_nil, List.append_nil] at hne ⊢
    rw [List.nil_append, bracketedName.eq_def]
    refine (if_pos ⟨congrArg Prod.fst hlast, congrArg Prod.snd hlast⟩).trans ?_
    simp [hne]
  | cons t rest ih =>
    obtain ⟨ht, hrest⟩ := List.forall_mem_cons.1 h
    rw [List.flatMap_cons, ← List.append_assoc] at hne ⊢
    rw [List.cons_append, bracketedName.eq_def]
    exact (if_neg fun hshape => ht (Prod.ext hshape.1 hshape.2)).trans (ih hrest _ hne)

theorem not_isSpace {t : Token} {text : Bytes} (h : tokenShape t = (.punctuator, text)) :
    ¬ t.isSpace = true := by
  rw [Token.isSpace, show t.kind = .punctuator from congrArg Prod.fst h]
  decide

/-- What is left at a cursor that stands before a blank and the opening bracket. -/
theorem remaining_bracket {c : Cursor} {ls : List (TokenKind × Bytes)}
    (hshapes : c.after.map tokenShape = blankLexeme :: (.punctuator, ascii "<") :: ls) :
    ∃ opening toks, tokenShape opening = (.punctuator, ascii "<") ∧ toks.map tokenShape = ls ∧
      c.remaining = (opening :: toks).rdropWhile Token.isSpace := by
  obtain ⟨blank, rest, hafter, hblank, hrest⟩ := List.map_eq_cons_iff.1 hshapes
  obtain ⟨opening, toks, rfl, hopening, htoks⟩ := List.map_eq_cons_iff.1 hrest
  have hspace : blank.isSpace = true := by
    rw [Token.isSpace, show blank.kind = .space from congrArg Prod.fst hblank]
    rfl
  refine ⟨opening, toks, hopening, htoks, ?_⟩
  rw [Cursor.remaining, hafter, List.dropWhile_cons_of_pos hspace,
    List.dropWhile_cons_of_neg (not_isSpace hopening)]
  rfl

/-- A directive that begins with the opening bracket has its name between brackets. -/
theorem includeName_bracket {opening : Token}
    (hopening : tokenShape opening = (.punctuator, ascii "<")) (pos : Position)
    (toks : List Token) :
    includeName pos (opening :: toks) = (bracketedName opening.pos [] toks).map (·, true) := by
  have hkind : opening.kind = .punctuator := congrArg Prod.fst hopening
  have htext : opening.text = ascii "<" := congrArg Prod.snd hopening
  unfold includeName
  dsimp only
  rw [if_neg (by simp [hkind]), if_pos ⟨hkind, htext⟩]

theorem includeName_closed {c : Cursor} {ls : List (TokenKind × Bytes)}
    (hshapes : c.after.map tokenShape =
      blankLexeme :: (.punctuator, ascii "<") :: (ls ++ [closing]))
    (hnone : closing ∉ ls) (hne : textOf ls ≠ []) (pos : Position) :
    includeName pos c.remaining = .ok (textOf ls, true) := by
  obtain ⟨opening, toks, hopening, htoks, hremaining⟩ := remaining_bracket hshapes
  obtain ⟨names, lasts, rfl, rfl, hlast⟩ := List.map_eq_append_iff.1 htoks
  obtain ⟨last, rfl, hbracket⟩ := List.map_eq_singleton_iff.1 hlast
  have htext : textOf (names.map tokenShape) = names.flatMap (·.text) := by
    rw [textOf, List.flatMap_map]
    rfl
  rw [htext] at hne ⊢
  rw [hremaining, ← List.cons_append, List.rdropWhile_concat_neg _ _ _ (not_isSpace hbracket),
    List.cons_append, includeName_bracket hopening, bracketedName_closed opening.pos
      (fun t ht hshape => hnone (hshape ▸ List.mem_map_of_mem ht)) hbracket [] hne]
  rfl

theorem includeName_open {c : Cursor} {ls : List (TokenKind × Bytes)}
    (hshapes : c.after.map tokenShape = blankLexeme :: (.punctuator, ascii "<") :: ls)
    (hnone : closing ∉ ls) (pos : Position) :
    ∃ opening, includeName pos c.remaining = .error ⟨opening, .includeUnclosed⟩ := by
  obtain ⟨opening, toks, hopening, rfl, hremaining⟩ := remaining_bracket hshapes
  have hinitial := List.rdropWhile_prefix Token.isSpace (opening :: toks)
  rw [← hremaining] at hinitial
  cases hleft : c.remaining with
  | nil =>
    rw [hremaining, List.rdropWhile_eq_nil_iff] at hleft
    exact absurd (hleft opening List.mem_cons_self) (not_isSpace hopening)
  | cons first rest =>
    rw [hleft, List.cons_prefix_cons] at hinitial
    obtain ⟨rfl, hrest⟩ := hinitial
    refine ⟨first.pos, ?_⟩
    rw [includeName_bracket hopening, bracketedName_open first.pos
      (fun t ht hshape => hnone (hshape ▸ List.mem_map_of_mem (hrest.subset ht))) []]
    rfl

/-! ## Requests -/

/-- The requests of `s` come first in `s'`. -/
def Asks (s s' : State) : Prop :=
  s.requests <+: s'.requests

theorem Asks.of_eq {s s' : State} (h : s'.requests = s.requests) : Asks s s' := by
  rw [Asks, h]

theorem Asks.trans {s s' s'' : State} (h : Asks s s') (h' : Asks s' s'') : Asks s s'' :=
  List.IsPrefix.trans h h'

/-- Processing of included files that adds to the requests. -/
def NestedAsks (nested : Option Nested) : Prop :=
  ∀ process, nested = some process → ∀ s path contents, Asks s (process s path contents).state

theorem reported_requests (out : Outcome) (wasCompiling : Bool) (pos : Position) :
    ((out.noteSwitch wasCompiling).reported pos).state.requests = out.state.requests := by
  obtain ⟨resync, hnote⟩ := noteSwitch_effect out wasCompiling
  rw [(reported_effect _ pos).1.requests, hnote]

section Asks

variable {h : Host} {nested : Option Nested} (hnested : NestedAsks nested)

include hnested

theorem include_asks (find : Includer) (s : State) (pos : Position) (c : Cursor) :
    Asks s (s.include h nested find pos c).state := by
  have hout := include_outcome h nested find s pos c
  generalize s.include h nested find pos c = out at hout ⊢
  cases hout with
  | unnamed | tooDeep => exact .of_eq rfl
  | notFound => exact List.prefix_append _ _
  | opened _ hsome =>
    refine Asks.trans ?_ (hnested _ hsome _ _ _)
    exact List.prefix_append _ _

theorem external_asks (s : State) (kw : Option Keyword) (name : Bytes) (pos : Position)
    (c : Cursor) : Asks s (s.external h nested kw name pos c).state := by
  have hout := external_outcome h nested s kw name pos c
  generalize s.external h nested kw name pos c = out at hout ⊢
  cases hout with
  | included => exact include_asks hnested _ s pos c
  | renumbered =>
    obtain ⟨tracker, hreported⟩ := lineDirective_reported h s name pos c
    exact .of_eq hreported.requests
  | ignored | warned | failed => exact .of_eq rfl

theorem dispatch_asks (s : State) (kw : Option Keyword) (name : Token) (c : Cursor) :
    Asks s (s.dispatch h nested kw name c).state := by
  have hbranch {test : State → State × Bool} (htest : Harmless test) (step : Branch.Step) :
      (s.branch name.pos step test).state.requests = s.requests := by
    obtain ⟨branches, evaluations, hreported⟩ := branch_reported htest name.pos step
    exact hreported.requests
  have hclose (kw : Keyword) (result : Except Branch.Refusal Branch.Stack) :
      (s.close h name.pos kw c result).state.requests = s.requests := by
    obtain ⟨branches, hreported⟩ := close_reported h s name.pos kw c result
    exact hreported.requests
  unfold State.dispatch
  dsimp only
  split
  · exact .of_eq ((Reported.checkDepth _ _).requests.trans (hbranch (harmless_test _ _ _) _))
  · exact .of_eq ((Reported.checkDepth _ _).requests.trans (hbranch (harmless_testDefined h _ _) _))
  · exact .of_eq ((Reported.checkDepth _ _).requests.trans (hbranch (harmless_testDefined h _ _) _))
  · exact .of_eq (hbranch (harmless_test _ _ _) _)
  · exact .of_eq (hclose _ _)
  · exact .of_eq (hclose _ _)
  · exact .of_eq (defineDirective_effect h s c).1.requests
  · exact .of_eq (undefDirective_effect h s c).1.requests
  · exact external_asks hnested s _ _ _ _

/-- **One directive** adds to the requests. -/
theorem directiveWith_asks (s : State) (pos : Position) (line : Bytes) :
    Asks s (s.directiveWith h nested pos line).state := by
  have hout := directiveWith_outcome h nested s pos line
  generalize s.directiveWith h nested pos line = out at hout ⊢
  cases hout with
  | unsigned | ignored | invalid | skipped => exact .of_eq rfl
  | named => exact (dispatch_asks hnested s _ _ _).trans (.of_eq (reported_requests _ _ _))
  | numbered =>
    exact (external_asks hnested s _ _ _ _).trans (.of_eq (reported_effect _ _).1.requests)

theorem processLines_asks (lines : List Source.LogicalLine) (place : OutputPlace) (s : State) :
    Asks s (s.processLines h nested place lines).state := by
  refine processLines_trans (R := Asks) (fun _ _ _ => .trans) ?_ ?_ ?_ place s
  · intro s
    obtain ⟨t, hreported, hclosed⟩ := closeGroups_reported s
    refine .of_eq ?_
    rw [hclosed]
    exact hreported.requests
  · intro s l
    exact .of_eq rfl
  · intro s l _ _
    exact directiveWith_asks hnested (s.track l) _ l.text

end Asks

theorem nestedProcess_asks (h : Host) (levels : Nat) : NestedAsks (nestedProcess h levels) := by
  refine nestedProcess_induct ?_ levels
  intro levels hnested (s : State) path contents
  exact processLines_asks hnested (Source.logicalLines contents) {} (s.openFile path)

/-! ## Main theorem -/

section Bracket

variable {h : Host} {find : Includer} {s : State} {name : Bytes}

/-- A name that is read is asked for first. -/
theorem directive_asks (hfind : h.includer = some find) (hs : s.compiling = true)
    (hroom : s.hasRoom h = true) {pos : Position} {line : Bytes} {token : Token} {c : Cursor}
    (ha : Announces .includeFile pos line token c)
    (hread : includeName token.pos c.remaining = .ok (name, true)) :
    ∃ more, (s.directive h pos line).state.requests =
      s.requests ++ ⟨name, s.file, true⟩ :: more := by
  obtain ⟨levels, hlevels⟩ := levelsLeft_of_hasRoom hroom
  have hasked : s.requests ++ [⟨name, s.file, true⟩] <+:
      (s.directive h pos line).state.requests := by
    rw [State.directive, ha.directiveWith h _ hs, reported_requests, hlevels, nestedProcess]
    simp only [State.dispatch, State.external, hfind, State.include, hread]
    split
    · exact List.prefix_refl _
    · next path contents _ =>
      exact nestedProcess_asks h (levels + 1) _ rfl
        { s with requests := s.requests ++ [⟨name, s.file, true⟩] } path contents
  obtain ⟨more, hmore⟩ := hasked
  exact ⟨more, by rw [← hmore, List.append_assoc]; rfl⟩

/-- A line whose name cannot be read is one error. -/
theorem directive_refuses (hfind : h.includer = some find) (hs : s.compiling = true)
    {pos : Position} {line : Bytes} {token : Token} {c : Cursor}
    (ha : Announces .includeFile pos line token c) {e : Located Complaint}
    (hread : includeName token.pos c.remaining = .error e) :
    s.directive h pos line = { state := s.complain e.pos e.cause } := by
  rw [State.directive, ha.directiveWith h _ hs]
  simp only [State.dispatch, State.external, hfind, State.include, hread]
  rw [Outcome.noteSwitch, if_pos hs]
  rfl

/-- **The file that is written between angle brackets is asked for**, before anything else, exactly
    when its name holds no two slashes next to each other and does not end in a minus by itself. So
    it is for every name without such slashes that ends in no minus at all. Any other name is one
    error about a missing bracket, which changes nothing else. -/
theorem bracket_include_asks_iff (hfind : h.includer = some find) (hs : s.compiling = true)
    (hroom : s.hasRoom h = true) (hne : name ≠ []) (hname : ∀ b ∈ name, isNameByte b = true)
    (pos : Position) :
    let out := s.directive h pos (bracketLine name)
    ((∃ more, out.state.requests = s.requests ++ ⟨name, s.file, true⟩ :: more) ↔
      ¬ ascii "//" <:+: name ∧ ¬ EndsInMinus name) ∧
    (name.getLast? ≠ some (byte '-') → ¬ EndsInMinus name) ∧
    (ascii "//" <:+: name ∨ EndsInMinus name →
      ∃ opening, out = { state := s.complain opening .includeUnclosed }) := by
  intro out
  obtain ⟨token, c, ha, -, hshapes⟩ :=
    announces_of_lexemes .includeFile (mergeSpaces_bracketLine hne hname) pos
  have hrefused (h' : ascii "//" <:+: name ∨ EndsInMinus name) :
      ∃ opening, out = { state := s.complain opening .includeUnclosed } := by
    have hnone : closing ∉ mergeSpaces (lexemes (name ++ ascii ">")) := fun hmem =>
      Lexer.closing_not_mem hname h' ((Lexer.mem_mergeSpaces _ hmem).resolve_left (by decide))
    obtain ⟨opening, hread⟩ := includeName_open hshapes hnone token.pos
    exact ⟨opening, directive_refuses hfind hs ha hread⟩
  refine ⟨⟨fun hasked => ?_, fun hplain => ?_⟩, fun hlast hends => hlast hends.last, hrefused⟩
  · by_contra hnot
    obtain ⟨opening, hout⟩ := hrefused (by tauto)
    obtain ⟨more, hmore⟩ := hasked
    rw [hout] at hmore
    exact absurd hmore (by simp [State.complain])
  · rw [Lexer.mergeSpaces_closed hname hplain.1 hplain.2] at hshapes
    have htext : textOf (lexemes name) = name := (Lexer.stood_lexemes name).2
    have hnone : closing ∉ lexemes name := by
      intro hmem
      have hbracket : byte '>' ∈ textOf (lexemes name) :=
        List.mem_flatMap.2 ⟨closing, hmem, by decide⟩
      rw [htext] at hbracket
      exact absurd (hname _ hbracket) (by decide)
    have hread := includeName_closed hshapes hnone (by rwa [htext]) token.pos
    rw [htext] at hread
    exact directive_asks hfind hs hroom ha hread

end Bracket

/-- A host for which every file is there, and empty. -/
def emptyFilesHost : Host where
  settings := {}
  includer := some fun name _ _ => .ok (name, [])

theorem bracket_include_asks_iff_arrow :
    let s := emptyFilesHost.start.1
    let out := s.directive emptyFilesHost {} (ascii "#include <x->")
    (¬ ∃ more, out.state.requests = s.requests ++ ⟨ascii "x-", s.file, true⟩ :: more) ∧
      ∃ opening, out = { state := s.complain opening .includeUnclosed } := by
  intro s out
  have hminus : EndsInMinus (ascii "x-") := by decide +kernel
  obtain ⟨hiff, -, hrefused⟩ := bracket_include_asks_iff (h := emptyFilesHost) rfl (s := s)
    (by decide +kernel) (by decide +kernel) (show ascii "x-" ≠ [] by decide) (by decide +kernel) {}
  exact ⟨fun hasked => (hiff.1 hasked).2 hminus, hrefused (Or.inr hminus)⟩

end Engine

end Preproc
