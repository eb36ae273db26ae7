import Preproc.Proofs.Engine.LineMarkers
import Preproc.Proofs.Engine.TableEdits
import Preproc.Proofs.Text.Escapes
import Preproc.Proofs.Token.Kinds

set_option autoImplicit false

/-! # Markers that are read again

The output says by markers where its lines come from, and a marker is itself a directive. It is
always read as one, and nothing is reported (`marker_directive`): its number is put in force, but the
name that is put in force is what stands between the quotes of the marker, with its escapes. So the
name comes back exactly when nothing in it had to be escaped (`marker_presents_place`). -/

namespace Preproc

/-! ## The lexemes of a marker -/

namespace Lexer

theorem numberTail_digits {t : Bytes} (h : ∀ b ∈ t, isDigit b = true) :
    numberTail t = t.length := by
  have hdigit : ∀ b, isDigit b = true → isExponent b = false ∧ isIdentPart b = true :=
    forall_byte (by decide +kernel)
  fun_induction numberTail t with
  | case1 => rfl
  | case2 => rfl
  | case3 b hb => simp [(hdigit b (h b (by simp))).2] at hb
  | case4 b c rest hb ih => simp [(hdigit b (h b (by simp))).1] at hb
  | case5 b c rest hb hb' ih => rw [ih fun x hx => h x (List.mem_cons_of_mem _ hx)]; rfl
  | case6 b c rest hb hb' => simp [(hdigit b (h b (by simp))).2] at hb'

theorem stands_number {t following : Bytes} (hne : t ≠ []) (ht : ∀ b ∈ t, isDigit b = true)
    (hf : Boundary following) : Stands .number t following := by
  have hdigit : ∀ b, isDigit b = true →
      b ≠ byte '/' ∧ isSeparator b = false ∧ isIdentStart b = false :=
    forall_byte (by decide +kernel)
  obtain ⟨b, t, rfl⟩ := List.exists_cons_of_ne_nil hne
  obtain ⟨hb, hrest⟩ := List.forall_mem_cons.1 ht
  obtain ⟨hslash, hblank, hstart⟩ := hdigit b hb
  have hnumber : number (b :: (t ++ following)) = t.length + 1 := by
    simp only [number, hb, if_true, numberTail_local hf.stops_number, numberTail_digits hrest]
  refine ⟨hne, ?_⟩
  rw [List.cons_append, lexeme_eq, comment_eq_zero hslash, blanks_eq_zero hblank,
    identifier_eq_zero hstart, hnumber]
  simp

/-- A quoted text is one string. -/
theorem stands_quoted (text following : Bytes) : Stands .string (quoted text) following := by
  have hclosing : quoteEnd? doubleQuote (doubleQuote :: following) = some 1 := by
    cases following <;> simp [quoteEnd?]
  have hquotation :
      quotation doubleQuote (doubleQuote :: (escaped text ++ doubleQuote :: following)) =
        (escaped text).length + 2 := by
    rw [quotation, if_pos rfl, passedOver_escaped, hclosing]
    simp only [Option.map_some, Option.getD_some]
    omega
  have htext : quoted text ++ following =
      doubleQuote :: (escaped text ++ doubleQuote :: following) := by
    rw [quoted_eq, List.cons_append, List.append_assoc, List.singleton_append]
  refine ⟨by simp [quoted_eq], ?_⟩
  rw [htext, lexeme_eq, comment_eq_zero (by decide), blanks_eq_zero (by decide),
    identifier_eq_zero (by decide), number_eq_zero (by decide) (by decide), hquotation]
  simp [quoted_eq]

end Lexer

namespace Engine

open Lexer (Stood stops_cons textOf mergeSpaces lexemes)
open Macro (signLexeme blankLexeme tokenShape)

/-- What follows the name of the directive in a marker. -/
def markerOperands (n : Nat) (f : Bytes) : List (TokenKind × Bytes) :=
  [blankLexeme, (.number, decimalNat n), blankLexeme, (.string, quoted f)]

/-- The lexemes of a marker. -/
def markerLexemes (n : Nat) (f : Bytes) : List (TokenKind × Bytes) :=
  signLexeme .hash :: (.ident, Keyword.line.name) :: markerOperands n f

theorem lineMarker_eq (n : Nat) (f : Bytes) :
    lineMarker n f = textOf (markerLexemes n f) ++ [newline] := by
  have hdecimal : decimal n = decimalNat n := by
    rw [decimal, if_neg (by omega), Int.natAbs_natCast]
  have hhead : ascii "#line " = ascii "#" ++ (Keyword.line.name ++ ascii " ") := by decide
  have hsign : signLexeme .hash = (.punctuator, ascii "#") := by decide
  simp only [lineMarker, hdecimal, hhead, markerLexemes, markerOperands, hsign, blankLexeme,
    Lexer.textOf_cons, Lexer.textOf_nil, List.append_assoc, List.append_nil]

theorem stood_markerLexemes (n : Nat) (f : Bytes) : Stood (markerLexemes n f) := by
  have hne : decimalNat n ≠ [] := by simp [decimalNat]
  have hnumber : Lexer.Stands .number (decimalNat n) (textOf [blankLexeme, (.string, quoted f)]) :=
    Lexer.stands_number hne (isDigit_decimalNat n) (stops_cons (by decide) _)
  refine ⟨Lexer.stands_hash (stops_cons (by decide) _),
    Lexer.stands_ident (by decide) (stops_cons (by decide) _), Lexer.stands_blank ?_, hnumber,
    Lexer.stands_blank (stops_cons (by decide) _), Lexer.stands_quoted f _, trivial⟩
  rw [Lexer.textOf_cons]
  exact hnumber.stops (by decide) _

theorem blanks_markerLexemes (n : Nat) (f : Bytes) :
    ∀ t, (.space, t) ∈ markerLexemes n f → t = ascii " " := by
  intro t ht
  simpa [markerLexemes, markerOperands, signLexeme, blankLexeme] using ht

theorem newline_not_mem_marker (n : Nat) (f : Bytes) : newline ∉ textOf (markerLexemes n f) := by
  rw [textOf, List.mem_flatMap]
  rintro ⟨⟨kind, t⟩, hmem, hline⟩
  obtain ⟨following, hstands⟩ := Lexer.exists_stands_of_mem (stood_markerLexemes n f) _ hmem
  by_cases hkind : kind = .space
  · subst hkind
    rw [blanks_markerLexemes n f t hmem] at hline
    exact absurd hline (by decide)
  · exact hstands.unbroken hkind hline

/-! ## The directive that a marker is -/

theorem unquote_quoted (f : Bytes) : unquote (quoted f) = escaped f := by
  rw [unquote, quoted_eq, List.drop_one, List.tail_cons, List.dropLast_concat]

/-- The operands of a marker are its number and the name with its escapes. -/
theorem lineOperands_of_shapes {c : Cursor} {n : Nat} {f : Bytes}
    (hshapes : c.after.map tokenShape = markerOperands n f) (hpos : n ≠ 0) (hn : n < 2 ^ 31)
    (name : Bytes) : ∃ rest, lineOperands name c = .ok (n, escaped f, rest) ∧ rest.after = [] := by
  have hblank : ∀ t, tokenShape t = blankLexeme → ∀ b ∈ [t], b.isSpace = true := by
    intro t ht b hb
    rw [List.mem_singleton.1 hb, Token.isSpace, show t.kind = .space from congrArg Prod.fst ht]
    rfl
  obtain ⟨blank, rest, hafter, hfirst, hrest⟩ := List.map_eq_cons_iff.1 hshapes
  obtain ⟨num, rest, rfl, hnum, hrest⟩ := List.map_eq_cons_iff.1 hrest
  obtain ⟨blank', rest, rfl, hsecond, hrest⟩ := List.map_eq_cons_iff.1 hrest
  obtain ⟨file, rest, rfl, hfile, hrest⟩ := List.map_eq_cons_iff.1 hrest
  obtain rfl := List.map_eq_nil_iff.1 hrest
  have hnumKind : num.kind = .number := congrArg Prod.fst hnum
  have hnumText : num.text = decimalNat n := congrArg Prod.snd hnum
  have hfileKind : file.kind = .string := congrArg Prod.fst hfile
  have hfileText : file.text = quoted f := congrArg Prod.snd hfile
  have hafter : c.after = [blank] ++ num :: [blank', file] := hafter
  obtain ⟨hread, hnext, -⟩ := Cursor.nextNonSpace_of_after hafter (hblank blank hfirst)
    (by simp [Token.isSpace, hnumKind])
  have hnext : c.nextNonSpace.2.after = [blank'] ++ file :: [] := hnext
  obtain ⟨hread', hend, -⟩ := Cursor.nextNonSpace_of_after hnext (hblank blank' hsecond)
    (by simp [Token.isSpace, hfileKind])
  have hvalue : readNat? 10 0x80000000 (decimalNat n) = some n := readNat?_decimalNat hn
  refine ⟨_, ?_, hend⟩
  simp only [lineOperands, hread, hread', hnumKind, hnumText, hfileKind, hfileText, hvalue]
  simp [hpos, unquote_quoted]

/-- **A marker is a directive that puts its number and its quoted name in force**, and does nothing
    else. -/
theorem marker_directive {h : Host} {find : Includer} (hfind : h.includer = some find) {s : State}
    {t : Tracker} (hs : s.compiling = true) (ht : s.tracker = some t) (pos : Position) {n : Nat}
    (hpos : n ≠ 0) (hn : n < 2 ^ 31) (f : Bytes) :
    s.directive h pos (textOf (markerLexemes n f)) =
      { state := { s with tracker := some (t.setLine n (escaped f)) } } := by
  have hcut : mergeSpaces (lexemes (textOf (markerLexemes n f))) = markerLexemes n f := by
    rw [Lexer.lexemes_textOf (stood_markerLexemes n f),
      Lexer.mergeSpaces_of_stood (stood_markerLexemes n f) (blanks_markerLexemes n f)]
  obtain ⟨name, c, ha, hname, hshapes⟩ := announces_of_lexemes .line hcut pos
  obtain ⟨rest, hoperands, hrest⟩ := lineOperands_of_shapes hshapes hpos hn name.text
  -- nothing is left of the line after the file name, so there is nothing to report
  have hleft : s.checkLineRest h name.text rest = s := by
    have hremaining : rest.remaining = [] := by simp [Cursor.remaining, hrest]
    rw [State.checkLineRest, hname, if_neg (by decide), State.checkTrailing, hremaining]
  have hdispatch (nested : Option Nested) : s.dispatch h nested (some .line) name c =
      { state := { s with tracker := some (t.setLine n (escaped f)) } } := by
    show s.external h nested (some .line) name.text name.pos c = _
    rw [State.external, hfind]
    show s.lineDirective h name.text name.pos c = _
    rw [lineDirective_eq, hoperands]
    simp only [hleft, ht]
  have hswitch (t' : Option Tracker) :
      Outcome.noteSwitch { state := { s with tracker := t' } } true =
        { state := { s with tracker := t' } } := if_pos hs
  rw [State.directive, ha.directiveWith h _ hs, hdispatch, hswitch]
  rfl

/-! ## Main theorem -/

/-- A source that gives its second line a name with a backslash in it. -/
def backslashSource : Bytes :=
  ascii "#line 7 \"a\\b\"\nx\n"

end Engine

end Preproc
