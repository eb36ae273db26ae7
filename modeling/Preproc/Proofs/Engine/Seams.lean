import Preproc.Proofs.Condition.Meaning
import Preproc.Proofs.Engine.Agreement
import Preproc.Proofs.Macro.RoundTrip

set_option autoImplicit false

/-! # Where the tokens of a condition run into each other

Tokens that are neighbours on a line do not run into each other when they are written out again, and
neither does the body of a macro, which stands between blanks. What is left are the places where
something is taken out: after the 0 or 1 for `defined (NAME)`, and where a macro without a body
stood. A condition without such places, and without tokens that the two cuts take differently, is
cut in the same way twice (`cuts_agree_iff`). -/

namespace Preproc.Lexer

/-- Neighbours on a line: the first lexeme stands before the second, or one of them is
    whitespace. -/
def Adjoins (l l' : TokenKind × Bytes) : Prop :=
  l.1 = .space ∨ l'.1 = .space ∨ ∃ following, Stands l.1 l.2 (l'.2 ++ following)

theorem Stood.adjoins {ls : List (TokenKind × Bytes)} (h : Stood ls) : ls.IsChain Adjoins := by
  induction ls with
  | nil => exact .nil
  | cons l rest ih =>
    refine (ih h.2).cons fun l' hl' => ?_
    obtain ⟨more, rfl⟩ := List.head?_eq_some_iff.1 hl'
    have hstands := h.1
    rw [textOf_cons] at hstands
    exact Or.inr (Or.inr ⟨textOf more, hstands⟩)

theorem adjoins_mergeSpaces {ls : List (TokenKind × Bytes)} (h : ls.IsChain Adjoins) :
    (mergeSpaces ls).IsChain Adjoins ∧
      ∀ l' ∈ (mergeSpaces ls).head?, l'.1 = .space ∨ ls.head? = some l' := by
  induction ls with
  | nil => exact ⟨.nil, by simp [mergeSpaces]⟩
  | cons l rest ih =>
    obtain ⟨hchain, hhead⟩ := ih h.of_cons
    rcases mergeSpaces_cons_cases l rest with hsame | ⟨t, more, -, hrest, hmerged⟩
    · rw [hsame]
      refine ⟨hchain.cons fun l' hl' => ?_, by simp⟩
      rcases hhead l' hl' with hspace | hfirst
      · exact Or.inr (Or.inl hspace)
      · exact h.rel_head? hfirst
    · rw [hmerged]
      rw [hrest] at hchain
      exact ⟨hchain.of_cons.cons fun l' _ => Or.inl rfl, by simp⟩

end Preproc.Lexer

namespace Preproc.Engine

open Condition (symbols symbols_excludes)
open Lexer (StopsAt Stands Adjoins)
open Macro (tokenShape)

/-! ## Neighbours on a line -/

/-- A token that does not run into the one after it, whatever becomes of that one. -/
structure Fits (a b : Token) : Prop where
  apart : glues (shown a) (shown b) = false
  word : b.isIdent = true → ∀ x ∈ (shown a).getLast?, isIdentPart x = false

theorem glues_blank_left (b : Bytes) : glues (ascii " ") b = false := by
  refine glues_eq_false (fun x hx hpart => ?_) fun y _ e he hspelled => ?_
  · obtain rfl : 32 = x := by simpa [ascii] using hx
    exact absurd hpart (by decide)
  · obtain ⟨-, hblank, -⟩ := symbols_excludes he (by simp [hspelled, ascii] : 32 ∈ e.1)
    exact absurd hblank (by decide)

theorem glues_blank_right (a : Bytes) : glues a (ascii " ") = false := by
  refine glues_eq_false (fun x _ _ => by decide) fun y hy e he hspelled => ?_
  obtain rfl : 32 = y := by simpa [ascii] using hy
  obtain ⟨-, hblank, -⟩ := symbols_excludes he (by simp [hspelled] : 32 ∈ e.1)
  exact absurd hblank (by decide)

/-- A symbol of two bytes is one lexeme on a line, too, and begins no comment. -/
theorem symbols_long : ∀ e ∈ symbols, e.1.length = 2 → e.1 ∈ Lexer.longPunctuators ∧
    e.1.head? ≠ some (byte '/') := by
  decide +kernel

theorem two_le_punctuator {p : Bytes} (hp : p ∈ Lexer.longPunctuators) (f : Bytes) :
    2 ≤ Lexer.punctuator (p ++ f) := by
  unfold Lexer.punctuator
  split
  · next q hq => exact (Lexer.longPunctuators_bytes q (List.mem_of_find?_eq_some hq)).1
  · next hnone =>
    have hnot := List.find?_eq_none.1 hnone p hp
    exact absurd (List.isPrefixOf_iff_prefix.2 (List.prefix_append p f)) hnot

theorem not_symbol_of_stands {kind : TokenKind} {a f : Bytes} {y : UInt8}
    (h : Stands kind a (y :: f)) : ∀ e ∈ symbols, e.1 ≠ a ++ [y] := by
  intro e he hspelled
  have hshort := symbols_short e he
  have hpos := List.length_pos_iff.2 h.nonempty
  rw [hspelled, List.length_append, List.length_singleton] at hshort
  obtain ⟨x, rfl⟩ := List.length_eq_one_iff.1 (by omega : a.length = 1)
  obtain ⟨hlong, hslash⟩ := symbols_long e he (by rw [hspelled]; rfl)
  rw [hspelled] at hlong hslash
  have hx : x ∈ e.1 := by simp [hspelled]
  obtain ⟨hpart, hblank, hdouble, hsingle⟩ := symbols_excludes he hx
  have hpoint := (Condition.symbols_bytes e he x hx).2.1
  rw [isIdentPart, Bool.or_eq_false_iff] at hpart
  have hpunctuator := two_le_punctuator hlong f
  have hlexeme := h.lexeme
  simp only [List.cons_append, List.nil_append] at hlexeme hpunctuator
  rw [Lexer.lexeme_eq, Lexer.comment_eq_zero (by simpa using hslash), Lexer.blanks_eq_zero hblank,
    Lexer.identifier_eq_zero hpart.1, Lexer.number_eq_zero hpart.2 hpoint,
    Lexer.quotation_eq_zero hdouble, Lexer.quotation_eq_zero hsingle, if_neg (by omega),
    if_neg (by omega), if_neg (by omega), if_neg (by omega), if_neg (by omega), if_neg (by omega),
    if_pos (by omega)] at hlexeme
  have hone := (Prod.mk.inj hlexeme).2
  simp at hone
  omega

theorem fits_of_space_left {a : Token} (ha : a.isSpace = true) (b : Token) : Fits a b := by
  have hshown : shown a = ascii " " := by simp [shown, ha]
  refine ⟨by rw [hshown, glues_blank_left], fun _ x hx => ?_⟩
  rw [hshown] at hx
  obtain rfl : 32 = x := by simpa [ascii] using hx
  decide

/-- Neighbours on a line do not run into each other. -/
theorem fits_of_adjoins {a b : Token} (hb : b.Formed)
    (h : Adjoins (tokenShape a) (tokenShape b)) : Fits a b := by
  cases hspace : a.isSpace with
  | true => exact fits_of_space_left hspace b
  | false =>
    cases hspace' : b.isSpace with
    | true =>
      refine ⟨by simp [shown, hspace', glues_blank_right], fun hident => ?_⟩
      simp_all [Token.isSpace, Token.isIdent]
    | false =>
      have hkind : a.kind ≠ .space := by simpa [Token.isSpace] using hspace
      obtain ⟨f, hstands⟩ : ∃ f, Stands a.kind a.text (b.text ++ f) := by
        rcases h with h | h | h
        · exact absurd h hkind
        · exact absurd h (by simpa [Token.isSpace, tokenShape] using hspace')
        · exact h
      obtain ⟨g, hstands'⟩ : ∃ g, Stands b.kind b.text g :=
        hb.resolve_left (by simp [hspace'])
      obtain ⟨y, rest, htext⟩ := List.exists_cons_of_ne_nil hstands'.nonempty
      have hshown : shown a = a.text := by simp [shown, hspace]
      have hshown' : shown b = y :: rest := by simp [shown, hspace', htext]
      rw [htext] at hstands
      refine ⟨?_, fun hident x hx => ?_⟩
      · rw [hshown, hshown']
        refine glues_eq_false (fun x hx hpart z hz => ?_) fun z hz => ?_
        · exact hstands.stops_word hkind hx hpart z (by simpa using hz)
        · obtain rfl : y = z := by simpa using hz
          exact not_symbol_of_stands hstands
      · rw [hshown] at hx
        by_contra hpart
        rw [Bool.not_eq_false] at hpart
        have hident' : b.kind = .ident := by simpa [Token.isIdent] using hident
        rw [hident', htext] at hstands'
        have hstart := hstands'.isIdent
        rw [isIdent, Bool.and_eq_true] at hstart
        have hstops := hstands.stops_word hkind hx hpart y rfl
        simp [isIdentPart, hstart.1] at hstops

/-- What is known of the tokens of a line, or of a stretch of them. -/
structure Scanned (toks : List Token) : Prop where
  formed : ∀ t ∈ toks, t.Formed
  fits : toks.IsChain Fits

theorem scanned_tokens (start : Position) (text : Bytes) : Scanned (Lexer.tokens start text) := by
  have hshapes := Macro.shapes_tokens start text
  have hstood := (Lexer.stood_lexemes text).1
  have hformed : ∀ t ∈ Lexer.tokens start text, t.Formed := by
    intro t ht
    have hmem : tokenShape t ∈ Lexer.mergeSpaces (Lexer.lexemes text) :=
      hshapes ▸ List.mem_map_of_mem ht
    rcases Lexer.mem_mergeSpaces _ hmem with hspace | hmem
    · exact Or.inl (by simpa [Token.isSpace, tokenShape] using hspace)
    · exact Or.inr (Lexer.exists_stands_of_mem hstood _ hmem)
  have hchain := (Lexer.adjoins_mergeSpaces hstood.adjoins).1
  rw [← hshapes, List.isChain_map] at hchain
  exact ⟨hformed, hchain.imp_of_mem_imp fun a b _ hb h => fits_of_adjoins (hformed b hb) h⟩

/-- A stretch of the tokens of a line. -/
theorem Scanned.stretch {toks toks' : List Token} (h : Scanned toks) (hsub : toks' <:+: toks) :
    Scanned toks' := by
  refine ⟨fun t ht => h.formed t (hsub.mem ht), ?_⟩
  obtain ⟨before, after, rfl⟩ := hsub
  exact (List.isChain_append.1 (List.isChain_append.1 h.fits).1).2.1

theorem remaining_isInfix (c : Cursor) : c.remaining <:+: c.after := by
  unfold Cursor.remaining
  have hend :=
    List.dropWhile_suffix Token.isSpace (l := (c.after.dropWhile Token.isSpace).reverse)
  rw [← List.reverse_prefix, List.reverse_reverse] at hend
  exact hend.isInfix.trans (List.dropWhile_suffix Token.isSpace).isInfix

/-- The tokens of a body are those of a line, but all at one place. -/
theorem scanned_body (d : Macro.Definition) (pos : Position) : Scanned (bodyTokens d pos) := by
  obtain ⟨hformed, hfits⟩ := (scanned_tokens pos (Macro.Replacement.source [] d.body)).stretch
    (remaining_isInfix (Cursor.ofText pos (Macro.Replacement.source [] d.body)))
  unfold bodyTokens
  refine ⟨fun t ht => ?_, ?_⟩
  · obtain ⟨t', ht', rfl⟩ := List.mem_map.1 ht
    exact hformed t' ht'
  · rw [List.isChain_map]
    exact hfits.imp fun a b h => ⟨h.apart, h.word⟩

/-! ## Replacement -/

theorem definedOperand_suffix {last : Position} {toks rest : List Token} {name : Bytes}
    (h : definedOperand last toks = .ok (name, rest)) : rest <:+ toks := by
  have hdrop : ∀ {toks : List Token} {t rest}, toks.dropWhile Token.isSpace = t :: rest →
      rest <:+ toks := by
    intro toks t rest hdrop
    exact (List.suffix_cons t rest).trans (hdrop ▸ List.dropWhile_suffix Token.isSpace)
  unfold definedOperand at h
  split at h
  · cases h
  · next t after hfirst =>
    split at h
    · cases h
      exact hdrop hfirst
    · split at h
      · split at h
        · cases h
        · next name' after' hsecond =>
          split at h
          · split at h
            · cases h
            · next close after'' hthird =>
              split at h
              · cases h
                exact (hdrop hthird).trans ((hdrop hsecond).trans (hdrop hfirst))
              · cases h
          · cases h
      · cases h

/-- The operator that asks for a macro. -/
def IsDefined (t : Token) : Prop :=
  t.isIdent = true ∧ t.text = ascii "defined"

/-- The number that stands for `defined NAME`. -/
def answer (value : Bool) (pos : Position) : Token :=
  ⟨.number, ascii (if value then "1" else "0"), pos⟩

/-- What replacement does to a list of tokens: a token stays, `defined` and its operand become a
    number, or a name becomes what stands for its macro. -/
inductive Resolves (table : Macro.Table)
    (expand : Macro.Definition → Position → Except (Located Complaint) (List Token)) :
    List Token → List Token → Prop where
  | nil : Resolves table expand [] []
  | kept {t : Token} {rest out : List Token} (other : ¬ IsDefined t)
      (more : Resolves table expand rest out) : Resolves table expand (t :: rest) (t :: out)
  | tested {t : Token} {rest after out : List Token} {last : Position} {name : Bytes}
      (asks : IsDefined t) (operand : definedOperand last rest = .ok (name, after))
      (more : Resolves table expand after out) :
      Resolves table expand (t :: rest) (answer (table.defined name) t.pos :: out)
  | replaced {t : Token} {rest body out : List Token} {d : Macro.Definition} (other : ¬ IsDefined t)
      (ident : t.isIdent = true) (found : table.lookup t.text = some d)
      (stands : expand d t.pos = .ok body) (more : Resolves table expand rest out) :
      Resolves table expand (t :: rest) (body ++ out)

theorem resolves_of_resolveTokens {table : Macro.Table} {active : List Bytes}
    {expand : Macro.Definition → Position → Except (Located Complaint) (List Token)}
    {toks resolved : List Token} (h : resolveTokens table active expand toks = .ok resolved) :
    Resolves table expand toks resolved := by
  have hmap : ∀ {f : List Token → List Token} {result : Except (Located Complaint) (List Token)}
      {out}, result.map f = .ok out → ∃ out', result = .ok out' ∧ f out' = out := by
    intro f result out hresult
    cases result with
    | error e => cases hresult
    | ok out' => exact ⟨out', rfl, Except.ok.inj hresult⟩
  fun_induction resolveTokens table active expand toks generalizing resolved with
  | case1 =>
    cases h
    exact .nil
  | case2 t rest hident ih =>
    obtain ⟨out, hout, rfl⟩ := hmap h
    exact .kept (fun hdefined => by simp [hdefined.1] at hident) (ih hout)
  | case3 => cases h
  | case4 t rest hident hword name after hfound =>
    rename_i ih
    obtain ⟨out, hout, rfl⟩ := hmap h
    exact .tested ⟨by simpa using hident, hword⟩ hfound (ih hout)
  | case5 t rest hident hword hlookup ih =>
    obtain ⟨out, hout, rfl⟩ := hmap h
    exact .kept (fun hdefined => hword hdefined.2) (ih hout)
  | case6 t rest hident hword d hlookup hactive ih =>
    obtain ⟨out, hout, rfl⟩ := hmap h
    exact .kept (fun hdefined => hword hdefined.2) (ih hout)
  | case7 => cases h
  | case8 => cases h
  | case9 t rest hident hword d hlookup hactive hplain body hexpand ih =>
    obtain ⟨out, hout, rfl⟩ := hmap h
    exact .replaced (fun hdefined => hword hdefined.2) (by simpa using hident) hlookup hexpand
      (ih hout)

theorem resolveTokens_defined {table : Macro.Table} {active : List Bytes}
    {expand : Macro.Definition → Position → Except (Located Complaint) (List Token)} {t : Token}
    {rest after : List Token} {name : Bytes} (ht : IsDefined t)
    (hoperand : definedOperand (rest.getLastD t).pos rest = .ok (name, after)) :
    resolveTokens table active expand (t :: rest) =
      (resolveTokens table active expand after).map (answer (table.defined name) t.pos :: ·) := by
  rw [resolveTokens, if_neg (by simp [ht.1]), if_pos ht.2]
  split
  · next e herror => rw [hoperand] at herror; cases herror
  · next name' after' hfound =>
    rw [hoperand] at hfound
    cases hfound
    rfl

/-- Going through a list of tokens as replacement does, one comes to a token, with the rest after
    it. The operand of `defined` is passed over. -/
inductive Visits : List Token → Token → List Token → Prop where
  | here {t : Token} {rest : List Token} : Visits (t :: rest) t rest
  | next {t t' : Token} {rest rest' : List Token} (other : ¬ IsDefined t)
      (more : Visits rest t' rest') : Visits (t :: rest) t' rest'
  | past {t t' : Token} {rest after rest' : List Token} {last : Position} {name : Bytes}
      (asks : IsDefined t) (operand : definedOperand last rest = .ok (name, after))
      (more : Visits after t' rest') : Visits (t :: rest) t' rest'

/-- A token whose macro is put in its place. -/
def Uses (table : Macro.Table) (toks : List Token) (t : Token) (d : Macro.Definition) : Prop :=
  (∃ rest, Visits toks t rest) ∧ ¬ IsDefined t ∧ t.isIdent = true ∧ table.lookup t.text = some d

theorem Uses.next {table : Macro.Table} {t t' : Token} {toks : List Token} {d : Macro.Definition}
    (ht : ¬ IsDefined t) (h : Uses table toks t' d) : Uses table (t :: toks) t' d := by
  obtain ⟨⟨rest, hvisits⟩, huse⟩ := h
  exact ⟨⟨rest, .next ht hvisits⟩, huse⟩

theorem Uses.past {table : Macro.Table} {t t' : Token} {rest after : List Token}
    {d : Macro.Definition} {last : Position} {name : Bytes} (ht : IsDefined t)
    (hoperand : definedOperand last rest = .ok (name, after)) (h : Uses table after t' d) :
    Uses table (t :: rest) t' d := by
  obtain ⟨⟨rest', hvisits⟩, huse⟩ := h
  exact ⟨⟨rest', .past ht hoperand hvisits⟩, huse⟩

/-- An answer is a number. -/
theorem formed_answer (value : Bool) (pos : Position) : (answer value pos).Formed := by
  have hzero : Stands .number (ascii "0") [] := ⟨by decide, by decide +kernel⟩
  have hone : Stands .number (ascii "1") [] := ⟨by decide, by decide +kernel⟩
  cases value
  · exact Or.inr ⟨[], hzero⟩
  · exact Or.inr ⟨[], hone⟩

section Replacement

variable {table : Macro.Table}
  {expand : Macro.Definition → Position → Except (Located Complaint) (List Token)}
  {toks out : List Token}

/-- What holds of the tokens of a line, of answers and of what stands for macros holds of all that
    is left. -/
theorem Resolves.forall_mem {p : Token → Prop} (h : Resolves table expand toks out)
    (hanswer : ∀ value pos, p (answer value pos))
    (hexpand : ∀ t d body, Uses table toks t d → expand d t.pos = .ok body → ∀ t ∈ body, p t)
    (htoks : ∀ t ∈ toks, p t) : ∀ t ∈ out, p t := by
  induction h with
  | nil => simp
  | kept other more ih =>
    obtain ⟨ht, hrest⟩ := List.forall_mem_cons.1 htoks
    exact List.forall_mem_cons.2 ⟨ht, ih (fun t d body huse => hexpand t d body (huse.next other))
      hrest⟩
  | tested asks operand more ih =>
    obtain ⟨-, hrest⟩ := List.forall_mem_cons.1 htoks
    exact List.forall_mem_cons.2 ⟨hanswer _ _,
      ih (fun t d body huse => hexpand t d body (huse.past asks operand))
        fun t ht => hrest t ((definedOperand_suffix operand).mem ht)⟩
  | replaced other ident found stands more ih =>
    obtain ⟨-, hrest⟩ := List.forall_mem_cons.1 htoks
    refine List.forall_mem_append.2 ⟨?_, ?_⟩
    · exact hexpand _ _ _ ⟨⟨_, .here⟩, other, ident, found⟩ stands
    · exact ih (fun t d body huse => hexpand t d body (huse.next other)) hrest

/-- No `defined (NAME)` is directly followed by a word. -/
def DefinedSpaced (toks : List Token) : Prop :=
  ∀ t after last name rest, Visits toks t after → IsDefined t →
    definedOperand last after = .ok (name, rest) → StopsAt isIdentPart (Token.textOf rest)

/-- An answer is one digit. -/
theorem shown_answer (value : Bool) (pos : Position) :
    ∃ c, shown (answer value pos) = [c] ∧ isIdentPart c = true := by
  cases value
  · exact ⟨byte '0', rfl, by decide⟩
  · exact ⟨byte '1', rfl, by decide⟩

/-- A digit runs into nothing before it that is no word. -/
theorem glues_digit {a : Bytes} {c : UInt8} (ha : ∀ x ∈ a.getLast?, isIdentPart x = false)
    (hc : isIdentPart c = true) : glues a [c] = false := by
  refine glues_eq_false (fun x hx hpart => ?_) fun y hy e he hspelled => ?_
  · exact absurd hpart (by simp [ha x hx])
  · obtain rfl : c = y := by simpa using hy
    have hnot := (symbols_excludes he (by simp [hspelled] : c ∈ e.1)).1
    exact absurd hc (by simp [hnot])

/-- A digit does not run into what begins as no word. -/
theorem fits_digit {a b : Token} {c : UInt8} (ha : shown a = [c]) (hc : isIdentPart c = true)
    (hb : b.Formed) (hstop : StopsAt isIdentPart (shown b)) : Fits a b := by
  refine ⟨?_, fun hident => ?_⟩
  · rw [ha]
    refine glues_eq_false (fun _ _ _ => hstop) fun y hy e he hspelled => ?_
    have hnot := (symbols_excludes he (by simp [hspelled] : c ∈ e.1)).1
    exact absurd hc (by simp [hnot])
  · -- an identifier begins as a word
    have hkind : b.kind = .ident := by simpa [Token.isIdent] using hident
    have hspace : b.isSpace = false := by simp [Token.isSpace, hkind]
    obtain ⟨g, hstands⟩ := hb.resolve_left (by simp [hspace])
    rw [hkind] at hstands
    obtain ⟨x, rest, htext, hstart, -⟩ := isIdent_bytes hstands.isIdent
    have hx := hstop x (by simp [shown, hspace, htext])
    simp [isIdentPart, hstart] at hx

/-- What stands for a macro begins and ends with a blank, and its tokens do not run into each
    other. -/
structure Enclosed (body : List Token) : Prop where
  nonempty : body ≠ []
  first : ∀ t ∈ body.head?, t.isSpace = true
  last : ∀ t ∈ body.getLast?, t.isSpace = true
  apart : body.IsChain (fun a b => glues (shown a) (shown b) = false)

theorem Resolves.apart (h : Resolves table expand toks out)
    (hexpand : ∀ t d body, Uses table toks t d → expand d t.pos = .ok body → Enclosed body)
    (htoks : Scanned toks) (hspaced : DefinedSpaced toks) :
    out.IsChain (fun a b => glues (shown a) (shown b) = false) ∧
      ∀ a, (∀ b ∈ toks.head?, Fits a b) → ∀ b ∈ out.head?, glues (shown a) (shown b) = false := by
  induction h with
  | nil => exact ⟨.nil, by simp⟩
  | @kept t rest out other more ih =>
    obtain ⟨hchain, hnext⟩ := ih (fun t d body huse => hexpand t d body (huse.next other))
      (htoks.stretch (List.suffix_cons t rest).isInfix)
      fun t after last name rest hvisits => hspaced t after last name rest (.next other hvisits)
    refine ⟨hchain.cons (hnext t fun b hb => htoks.fits.rel_head? hb), fun a ha b hb => ?_⟩
    obtain rfl : t = b := by simpa using hb
    exact (ha t rfl).apart
  | @tested t rest after out last name asks operand more ih =>
    have hsuffix := (definedOperand_suffix operand).trans (List.suffix_cons t rest)
    obtain ⟨hchain, hnext⟩ := ih (fun t d body huse => hexpand t d body (huse.past asks operand))
      (htoks.stretch hsuffix.isInfix) fun t after last name rest hvisits =>
        hspaced t after last name rest (.past asks operand hvisits)
    have hstop := hspaced t rest last name after .here asks operand
    obtain ⟨c, hshown, hc⟩ := shown_answer (table.defined name) t.pos
    refine ⟨hchain.cons (hnext _ fun b hb => ?_), fun a ha b hb => ?_⟩
    · obtain ⟨more, rfl⟩ := List.head?_eq_some_iff.1 hb
      have hb' : b.Formed := htoks.formed b (hsuffix.mem (by simp))
      refine fits_digit hshown hc hb' fun x hx => hstop x ?_
      rw [textOf_cons, List.head?_append, hx]
      rfl
    · obtain rfl : _ = b := by simpa using hb
      rw [hshown]
      exact glues_digit ((ha t rfl).word asks.1) hc
  | @replaced t rest body out d other ident found stands more ih =>
    obtain ⟨hchain, -⟩ := ih (fun t d body huse => hexpand t d body (huse.next other))
      (htoks.stretch (List.suffix_cons t rest).isInfix)
      fun t after last name rest hvisits => hspaced t after last name rest (.next other hvisits)
    have hbody := hexpand _ _ _ ⟨⟨_, .here⟩, other, ident, found⟩ stands
    refine ⟨List.isChain_append.2 ⟨hbody.apart, hchain, fun a ha b _ => ?_⟩, fun a _ b hb => ?_⟩
    · exact (fits_of_space_left (hbody.last a ha) b).apart
    · rw [List.head?_append_of_ne_nil _ hbody.nonempty] at hb
      simp [shown, hbody.first b hb, glues_blank_right]

end Replacement

/-- The blank before and after a body. -/
def blankToken (pos : Position) : Token :=
  ⟨.space, ascii " ", pos⟩

/-- What stands for a macro: nothing, or its resolved body between blanks. -/
def expandMacro (table : Macro.Table) (depth : Nat) (active : List Bytes) (d : Macro.Definition)
    (pos : Position) : Except (Located Complaint) (List Token) :=
  match bodyTokens d pos with
  | [] => .ok []
  | body => (resolve table depth (d.name :: active) body).map fun inner =>
      blankToken pos :: inner ++ [blankToken pos]

theorem resolve_succ (table : Macro.Table) (depth : Nat) (active : List Bytes)
    (toks : List Token) :
    resolve table (depth + 1) active toks =
      resolveTokens table active (expandMacro table depth active) toks := rfl

theorem expandMacro_cases {table : Macro.Table} {depth : Nat} {active : List Bytes}
    {d : Macro.Definition} {pos : Position} {body : List Token}
    (h : expandMacro table depth active d pos = .ok body) :
    (bodyTokens d pos = [] ∧ body = []) ∨
      ∃ inner, resolve table depth (d.name :: active) (bodyTokens d pos) = .ok inner ∧
        body = blankToken pos :: inner ++ [blankToken pos] := by
  unfold expandMacro at h
  split at h
  · next hempty => exact Or.inl ⟨hempty, (Except.ok.inj h).symm⟩
  · cases hinner : resolve table depth (d.name :: active) (bodyTokens d pos) with
    | error e =>
      rw [hinner] at h
      cases h
    | ok inner =>
      rw [hinner] at h
      exact Or.inr ⟨inner, rfl, (Except.ok.inj h).symm⟩

/-- Blanks around a list of tokens run into nothing. -/
theorem enclosed_blanks {pos : Position} {inner : List Token}
    (h : inner.IsChain (fun a b => glues (shown a) (shown b) = false)) :
    Enclosed (blankToken pos :: inner ++ [blankToken pos]) := by
  have hspace : (blankToken pos).isSpace = true := rfl
  refine ⟨by simp, by simp [hspace], ?_, ?_⟩
  · rw [List.getLast?_concat]
    simp [hspace]
  refine List.isChain_append.2 ⟨h.cons fun b _ => ?_, .singleton _, fun a _ b hb => ?_⟩
  · exact (fits_of_space_left hspace b).apart
  · obtain rfl : _ = b := by simpa using hb
    exact glues_blank_right _

/-! ## Seams -/

/-- The lines that replacement goes through: the tokens it begins with, and the bodies of macros
    that are used in such a line. -/
inductive Reaches (table : Macro.Table) (toks : List Token) : List Token → Prop where
  | line : Reaches table toks toks
  | body {line : List Token} {t : Token} {d : Macro.Definition} (reached : Reaches table toks line)
      (use : Uses table line t d) : Reaches table toks (bodyTokens d t.pos)

theorem Reaches.of_body {table : Macro.Table} {toks line : List Token} {t : Token}
    {d : Macro.Definition} (huse : Uses table toks t d)
    (h : Reaches table (bodyTokens d t.pos) line) : Reaches table toks line := by
  induction h with
  | line => exact .body .line huse
  | body _ use ih => exact .body ih use

/-- What holds of the tokens of the lines, of answers and of blanks holds of all that is left. -/
theorem resolve_forall_mem {p : Token → Prop} {table : Macro.Table} {depth : Nat}
    {active : List Bytes} {toks resolved : List Token}
    (hanswer : ∀ value pos, p (answer value pos)) (hblank : ∀ pos, p (blankToken pos))
    (hlines : ∀ line, Reaches table toks line → ∀ t ∈ line, p t)
    (h : resolve table depth active toks = .ok resolved) : ∀ t ∈ resolved, p t := by
  induction depth generalizing active toks resolved with
  | zero => cases h
  | succ depth ih =>
    rw [resolve_succ] at h
    refine (resolves_of_resolveTokens h).forall_mem hanswer (fun t d body huse hbody => ?_)
      (hlines toks .line)
    rcases expandMacro_cases hbody with ⟨-, rfl⟩ | ⟨inner, hinner, rfl⟩
    · simp
    · have hinner := ih (fun line hline => hlines line (hline.of_body huse)) hinner
      simp only [List.cons_append, List.forall_mem_cons, List.forall_mem_append]
      exact ⟨hblank t.pos, hinner, hblank t.pos, by simp⟩

/-- Tokens of a line that leave no seam: no `defined (NAME)` is directly followed by a word, each
    macro that is used has a body, and each token is clear by itself. -/
structure SeamlessLine (table : Macro.Table) (toks : List Token) : Prop where
  spaced : DefinedSpaced toks
  bodies : ∀ t d, Uses table toks t d → bodyTokens d t.pos ≠ []
  clear : ∀ t ∈ toks, Clear t

/-- A condition that leaves no seam, in its line or in the body of a macro. -/
def Seamless (table : Macro.Table) (toks : List Token) : Prop :=
  ∀ line, Reaches table toks line → SeamlessLine table line

theorem resolve_apart {table : Macro.Table} {depth : Nat} {active : List Bytes}
    {toks resolved : List Token} (htoks : Scanned toks) (hseamless : Seamless table toks)
    (h : resolve table depth active toks = .ok resolved) :
    resolved.IsChain (fun a b => glues (shown a) (shown b) = false) := by
  induction depth generalizing active toks resolved with
  | zero => cases h
  | succ depth ih =>
    rw [resolve_succ] at h
    have hline := hseamless toks .line
    refine ((resolves_of_resolveTokens h).apart (fun t d body huse hbody => ?_) htoks
      hline.spaced).1
    rcases expandMacro_cases hbody with ⟨hempty, -⟩ | ⟨inner, hinner, rfl⟩
    · exact absurd hempty (hline.bodies t d huse)
    · exact enclosed_blanks (ih (scanned_body d t.pos)
        (fun line hreached => hseamless line (hreached.of_body huse)) hinner)

theorem resolve_toldApart {table : Macro.Table} {depth : Nat} {active : List Bytes}
    {toks resolved : List Token} (htoks : Scanned toks) (hseamless : Seamless table toks)
    (h : resolve table depth active toks = .ok resolved) : ToldApart resolved where
  apart := resolve_apart htoks hseamless h
  clear := by
    refine resolve_forall_mem (fun value pos => ?_) (fun pos => ?_)
      (fun line hline => (hseamless line hline).clear) h
    · -- one digit has no room for a sign and a name
      refine ⟨by simp [answer], fun _ => ?_⟩
      rintro ⟨before, sign, first, after, htext, -⟩
      have hlength := congrArg List.length htext
      cases value <;> simp [answer, ascii] at hlength <;> omega
    · exact ⟨by simp [blankToken], by simp [blankToken]⟩

theorem Reaches.formed {table : Macro.Table} {toks line : List Token} (htoks : Scanned toks)
    (h : Reaches table toks line) : ∀ t ∈ line, t.Formed := by
  cases h with
  | line => exact htoks.formed
  | body reached use => exact (scanned_body _ _).formed

/-- **When the two cuts of a condition agree.** The lexemes of a condition that is resolved and has
    a value each lie inside one token, and its names are whole identifiers, exactly when its tokens
    are told apart. They are when neither the line nor the body of a macro leaves a seam. -/
theorem cuts_agree_iff {table : Macro.Table} {start : Position} {line : Bytes}
    {toks resolved : List Token} {value : Int} (hscanned : toks <:+: Lexer.tokens start line)
    (hresolved : resolveCondition table toks = .ok resolved)
    (hvalue : Condition.evaluate (Token.textOf resolved) = .ok value) :
    ∃ spans, Condition.spansFrom 0 (Token.textOf resolved) = some spans ∧
      Condition.lexemes? (Token.textOf resolved) = some (spans.map Condition.Span.lexeme) ∧
      (Agree resolved spans ↔ ToldApart resolved) ∧
      (Seamless table toks → Agree resolved spans) := by
  obtain ⟨spans, hspans, hchain⟩ := Condition.spans_of_evaluate hvalue
  have htoks := (scanned_tokens start line).stretch hscanned
  have hformed : ∀ t ∈ resolved, t.Formed :=
    resolve_forall_mem formed_answer (fun pos => Or.inl rfl)
      (fun line hline => hline.formed htoks) hresolved
  have hcut := Condition.spanned_of_spansFrom hspans
  have hiff : Agree resolved spans ↔ ToldApart resolved :=
    ⟨toldApart_of_agree hformed hcut hchain, fun h => agree_of_toldApart hformed h hcut hchain⟩
  refine ⟨spans, hspans, ?_, hiff, fun h => hiff.2 (resolve_toldApart htoks h hresolved)⟩
  rw [← Condition.map_spansFrom 0, hspans]
  rfl

/-- The condition `defined(NOPE)x1` leaves a seam: 0 and `x1` become one number, which is 1. -/
theorem cuts_agree_iff_hexadecimal :
    let toks := (Lexer.tokens {} (ascii "#if defined(NOPE)x1")).drop 3
    ∃ resolved spans, resolveCondition (Macro.Table.empty 0 false) toks = .ok resolved ∧
      Token.textOf resolved = ascii "0x1" ∧
      Condition.evaluate (Token.textOf resolved) = .ok 1 ∧
      Condition.spansFrom 0 (Token.textOf resolved) = some spans ∧ ¬ Agree resolved spans := by
  intro toks
  let pos (column : Int) : Position := ⟨[], column - 1, 0, column⟩
  let zero : Token := ⟨.number, ascii "0", pos 5⟩
  let name : Token := ⟨.ident, ascii "x1", pos 18⟩
  have htoks : toks = [⟨.ident, ascii "defined", pos 5⟩, ⟨.punctuator, ascii "(", pos 12⟩,
      ⟨.ident, ascii "NOPE", pos 13⟩, ⟨.punctuator, ascii ")", pos 17⟩, name] := by
    decide +kernel
  have hresolved : resolveCondition (Macro.Table.empty 0 false) toks = .ok [zero, name] := by
    have habsent : (Macro.Table.empty 0 false).defined (ascii "NOPE") = false := by decide +kernel
    have hplain : (Macro.Table.empty 0 false).lookup (ascii "x1") = none := by decide +kernel
    have hword : ascii "x1" ≠ ascii "defined" := by decide
    rw [htoks, resolveCondition, resolve_succ, resolveTokens_defined ⟨rfl, rfl⟩ rfl, habsent]
    simp [resolveTokens, name, Token.isIdent, hword, hplain, Except.map, answer, zero]
  have htext : Token.textOf [zero, name] = ascii "0x1" := by decide
  have hvalue : Condition.evaluate (Token.textOf [zero, name]) = .ok 1 := by
    have hparse : Condition.parse (ascii "0x1") = .ok (.number (ascii "0x1")) :=
      Condition.parse_eq_ok.2 ⟨[.number (ascii "0x1")], by decide +kernel,
        Condition.Expr.ofLexemes?_lexemes
          (.plain ((Condition.Level.number (ascii "0x1")).raise 10))⟩
    rw [htext, Condition.evaluate, hparse]
    decide +kernel
  obtain ⟨spans, hspans, -, hiff, -⟩ :=
    cuts_agree_iff (List.drop_suffix 3 _).isInfix hresolved hvalue
  refine ⟨[zero, name], spans, hresolved, htext, hvalue, hspans, fun hagree => ?_⟩
  have hapart := (hiff.1 hagree).apart.rel
  exact absurd hapart (by decide)

end Preproc.Engine
