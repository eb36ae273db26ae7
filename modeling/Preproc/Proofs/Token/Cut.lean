import Mathlib.Data.List.TakeWhile
import Preproc.Proofs.Token.Lexemes

set_option autoImplicit false

/-! # Texts as lists of lexemes

Every text is a list of lexemes, each of which stands at the head of what follows it
(`exists_stands`). Neighbouring pieces of whitespace are merged afterwards; of the merged pieces it
is only known how they begin and end (`Gap`). A list in which every lexeme stands is what its text
is cut into (`lexemes_textOf`). -/

namespace Preproc.Lexer

/-! ## Lengths -/

theorem commentEnd?_le (text : Bytes) :
    ∀ n, commentEnd? text = some n → 2 ≤ n ∧ n ≤ text.length := by
  fun_induction commentEnd? text with
  | case1 => simp
  | case2 => simp
  | case3 a b rest h =>
    intro n hn
    obtain rfl : 2 = n := by simpa using hn
    simp
  | case4 a b rest h ih =>
    intro n hn
    obtain ⟨m, hm, rfl⟩ := Option.map_eq_some_iff.1 hn
    have hbounds := ih m hm
    simp only [List.length_cons] at hbounds ⊢
    omega

theorem comment_le (text : Bytes) : comment text ≤ text.length := by
  fun_cases comment text with
  | case1 a b rest h =>
    have htake := (List.takeWhile_sublist (· != newline) (l := rest)).length_le
    simp only [List.length_cons]
    omega
  | case2 a b rest h h' =>
    cases hend : commentEnd? rest with
    | none => simp
    | some n =>
      have hbounds := commentEnd?_le rest n hend
      simp only [Option.map_some, Option.getD_some, List.length_cons]
      omega
  | case3 => simp
  | case4 => simp

theorem blanks_le (text : Bytes) : blanks text ≤ text.length :=
  (List.takeWhile_sublist isSeparator).length_le

theorem identifier_le (text : Bytes) : identifier text ≤ text.length := by
  fun_cases identifier text with
  | case1 b rest h =>
    have htake := (List.takeWhile_sublist isIdentPart (l := rest)).length_le
    simp only [List.length_cons]
    omega
  | case2 => simp
  | case3 => simp

theorem numberTail_le (text : Bytes) : numberTail text ≤ text.length := by
  fun_induction numberTail text <;> simp_all

theorem number_le (text : Bytes) : number text ≤ text.length := by
  fun_cases number text with
  | case1 => simp
  | case2 b rest h =>
    have htail := numberTail_le rest
    simp only [List.length_cons]
    omega
  | case3 c rest h h' =>
    have htail := numberTail_le rest
    simp only [List.length_cons]
    omega
  | case4 => simp
  | case5 => simp
  | case6 => simp

theorem quoteEnd?_le (quote : UInt8) (text : Bytes) :
    ∀ n, quoteEnd? quote text = some n → n ≤ text.length := by
  fun_induction quoteEnd? quote text <;> simp_all

theorem quotation_le (quote : UInt8) (text : Bytes) : quotation quote text ≤ text.length := by
  fun_cases quotation quote text with
  | case1 rest =>
    cases hend : quoteEnd? quote rest with
    | none => simp
    | some n =>
      have hbound := quoteEnd?_le quote rest n hend
      simp only [Option.map_some, Option.getD_some, List.length_cons]
      omega
  | case2 => simp
  | case3 => simp

/-- What comes after the opening quote of a quotation: bytes of one line, up to the first `quote`
    that is not escaped. -/
inductive Closing (quote : UInt8) : Bytes → Prop where
  | quote : Closing quote [quote]
  | escaped {c : UInt8} {t : Bytes} (hquote : backslash ≠ quote) (hline : c ≠ newline)
      (h : Closing quote t) : Closing quote (backslash :: c :: t)
  | plain {b : UInt8} {t : Bytes} (hquote : b ≠ quote) (hline : b ≠ newline)
      (hescape : b ≠ backslash) (h : Closing quote t) : Closing quote (b :: t)

theorem Closing.ne_nil {quote : UInt8} {t : Bytes} (h : Closing quote t) : t ≠ [] := by
  cases h <;> simp

/-- The closing quote is found, whatever follows it. -/
theorem Closing.quoteEnd? {quote : UInt8} {t : Bytes} (h : Closing quote t) (following : Bytes) :
    Lexer.quoteEnd? quote (t ++ following) = some t.length := by
  induction h with
  | quote => cases following <;> simp [Lexer.quoteEnd?]
  | escaped hquote hline h ih =>
    have hbackslash : backslash ≠ newline := by decide
    simp [Lexer.quoteEnd?, hquote, hline, hbackslash, ih]
  | plain hquote hline hescape h ih =>
    obtain ⟨c, t, rfl⟩ := List.exists_cons_of_ne_nil h.ne_nil
    simp only [List.cons_append] at ih
    simp [Lexer.quoteEnd?, hquote, hline, hescape, ih]

/-- A quote that is found closes the quotation. -/
theorem exists_closing (quote : UInt8) (text : Bytes) : ∀ n, quoteEnd? quote text = some n →
    ∃ t following, text = t ++ following ∧ t.length = n ∧ Closing quote t := by
  fun_induction quoteEnd? quote text with
  | case1 => simp
  | case2 =>
    rintro _ ⟨⟩
    exact ⟨_, [], rfl, rfl, .quote⟩
  | case3 => simp
  | case4 c rest =>
    rintro _ ⟨⟩
    exact ⟨_, c :: rest, rfl, rfl, .quote⟩
  | case5 => simp
  | case6 => simp
  | case7 c rest hline hquote _ ih =>
    intro n hn
    obtain ⟨m, hm, rfl⟩ := Option.map_eq_some_iff.1 hn
    obtain ⟨t, following, rfl, rfl, ht⟩ := ih m hm
    exact ⟨_, following, rfl, rfl, .escaped hquote hline ht⟩
  | case8 b c rest hquote hline hescape ih =>
    intro n hn
    obtain ⟨m, hm, rfl⟩ := Option.map_eq_some_iff.1 hn
    obtain ⟨t, following, htext, rfl, ht⟩ := ih m hm
    exact ⟨b :: t, following, by rw [htext]; rfl, rfl, .plain hquote hline hescape ht⟩

theorem closing_of_quoteEnd? {quote : UInt8} {t following : Bytes}
    (h : quoteEnd? quote (t ++ following) = some t.length) : Closing quote t := by
  obtain ⟨t', following', htext, hlength, ht⟩ := exists_closing quote _ _ h
  obtain ⟨rfl, -⟩ := List.append_inj htext hlength.symm
  exact ht

theorem punctuator_le (text : Bytes) : punctuator text ≤ text.length := by
  unfold punctuator
  split
  · next p hp =>
    have hinitial : p <+: text := by simpa using List.find?_some hp
    exact hinitial.length_le
  · split
    · split <;> simp
    · simp

theorem runeWidth_bounds {text : Bytes} (h : text ≠ []) :
    1 ≤ runeWidth text ∧ runeWidth text ≤ text.length := by
  unfold runeWidth decodeRune?
  grind

/-- A lexeme takes at least one byte and no more than there are. -/
theorem lexeme_bounds {text : Bytes} (h : text ≠ []) :
    1 ≤ (lexeme text).2 ∧ (lexeme text).2 ≤ text.length := by
  have hrune := runeWidth_bounds h
  have hcomment := comment_le text
  have hblanks := blanks_le text
  have hidentifier := identifier_le text
  have hnumber := number_le text
  have hstring := quotation_le doubleQuote text
  have hcharacter := quotation_le singleQuote text
  have hpunctuator := punctuator_le text
  rw [lexeme_eq]
  repeat' split
  all_goals (simp only; omega)

/-! ## Lists of lexemes -/

/-- Every text has a first lexeme. -/
theorem exists_stands {text : Bytes} (h : text ≠ []) :
    ∃ kind t following, text = t ++ following ∧ Stands kind t following := by
  obtain ⟨hpos, hle⟩ := lexeme_bounds h
  refine ⟨(lexeme text).1, text.take (lexeme text).2, text.drop (lexeme text).2,
    (List.take_append_drop _ _).symm, ?_, ?_⟩
  · intro hempty
    rcases List.take_eq_nil_iff.1 hempty with hzero | hnil
    · omega
    · exact h hnil
  · rw [List.take_append_drop, List.length_take, Nat.min_eq_left hle]

/-- The text of a list of lexemes. -/
def textOf (ls : List (TokenKind × Bytes)) : Bytes :=
  ls.flatMap (·.2)

@[simp] theorem textOf_nil : textOf [] = [] := rfl

@[simp] theorem textOf_cons (kind : TokenKind) (t : Bytes) (ls : List (TokenKind × Bytes)) :
    textOf ((kind, t) :: ls) = t ++ textOf ls := by
  simp [textOf]

@[simp] theorem textOf_append (ls ls' : List (TokenKind × Bytes)) :
    textOf (ls ++ ls') = textOf ls ++ textOf ls' := by
  simp [textOf]

/-- Each lexeme of a list stands at the head of what follows it. -/
def Stood : List (TokenKind × Bytes) → Prop
  | [] => True
  | (kind, t) :: rest => Stands kind t (textOf rest) ∧ Stood rest

theorem exists_stands_of_mem {ls : List (TokenKind × Bytes)} (h : Stood ls) :
    ∀ l ∈ ls, ∃ following, Stands l.1 l.2 following := by
  induction ls with
  | nil => simp
  | cons l rest ih => exact List.forall_mem_cons.2 ⟨⟨_, h.1⟩, ih h.2⟩

theorem getLast?_textOf {ls : List (TokenKind × Bytes)} {b : UInt8}
    (h : ∀ l ∈ ls, l.2.getLast? ≠ some b) : (textOf ls).getLast? ≠ some b := by
  induction ls with
  | nil => simp
  | cons l rest ih =>
    obtain ⟨kind, t⟩ := l
    obtain ⟨hl, hrest⟩ := List.forall_mem_cons.1 h
    rw [textOf_cons, List.getLast?_append]
    cases hlast : (textOf rest).getLast? with
    | none => simpa using hl
    | some c =>
      have hc := ih hrest
      rw [hlast] at hc
      simpa using hc

/-- A blank does not stand before another one. -/
theorem not_stands_blank (following : Bytes) :
    ¬ Stands .space (ascii " ") (ascii " " ++ following) := by
  intro h
  have hlexeme := h.lexeme
  have hblanks : 2 ≤ blanks (ascii " " ++ (ascii " " ++ following)) := by
    simp [blanks, ascii, isSeparator]
  have hcomment : comment (ascii " " ++ (ascii " " ++ following)) = 0 :=
    comment_eq_zero (by decide) _
  rw [lexeme_eq, hcomment, if_neg (by omega), if_pos (by omega)] at hlexeme
  have hlength := (Prod.mk.inj hlexeme).2
  have hone : (ascii " ").length = 1 := rfl
  omega

/-- Neighbouring blanks would have been one lexeme, so there is nothing to merge. -/
theorem mergeSpaces_of_stood {ls : List (TokenKind × Bytes)} (h : Stood ls)
    (hblank : ∀ t, (.space, t) ∈ ls → t = ascii " ") : mergeSpaces ls = ls := by
  induction ls with
  | nil => rfl
  | cons l rest ih =>
    obtain ⟨kind, t⟩ := l
    rw [mergeSpaces, ih h.2 fun t ht => hblank t (List.mem_cons_of_mem _ ht)]
    cases rest with
    | nil => rfl
    | cons l' more =>
      obtain ⟨kind', t'⟩ := l'
      dsimp only
      rw [if_neg]
      rintro ⟨rfl, rfl⟩
      obtain rfl := hblank t (by simp)
      obtain rfl := hblank t' (by simp)
      have hstands := h.1
      rw [textOf_cons] at hstands
      exact not_stands_blank _ hstands

theorem lexemes_textOf {ls : List (TokenKind × Bytes)} (h : Stood ls) :
    lexemes (textOf ls) = ls := by
  induction ls with
  | nil => simp [lexemes]
  | cons l rest ih =>
    rw [textOf_cons, lexemes_of_stands h.1, ih h.2]

/-- Cutting a text loses nothing, and each lexeme stands. -/
theorem stood_lexemes (text : Bytes) : Stood (lexemes text) ∧ textOf (lexemes text) = text := by
  -- the first lexeme takes at least one byte, so the induction is on the length of the text
  induction hn : text.length using Nat.strongRecOn generalizing text with
  | ind n ih =>
    by_cases hempty : text = []
    · simp [hempty, lexemes, Stood]
    · obtain ⟨kind, t, following, rfl, hstands⟩ := exists_stands hempty
      have hpos : 0 < t.length := List.length_pos_iff.2 hstands.nonempty
      obtain ⟨hrest, htext⟩ := ih following.length (by simp at hn; omega) following rfl
      rw [lexemes_of_stands hstands]
      refine ⟨⟨?_, hrest⟩, by rw [textOf_cons, htext]⟩
      rw [htext]
      exact hstands

/-- Placing changes neither the kinds nor the texts. -/
theorem map_place (pos : Position) (ls : List (TokenKind × Bytes)) :
    (place pos ls).map (fun t => (t.kind, t.text)) = ls := by
  induction ls generalizing pos with
  | nil => rfl
  | cons l rest ih => rw [place, List.map_cons, ih]

/-! ## Whitespace -/

/-- A piece of whitespace: it begins with a blank or a comment, and unless nothing follows it, it
    ends with a blank or a closed comment. -/
structure Gap (t following : Bytes) : Prop where
  begins : ∃ b, t.head? = some b ∧ (isSeparator b = true ∨ b = byte '/')
  ends : following = [] ∨ (∃ b, t.getLast? = some b ∧ isSeparator b = true) ∨ ascii "*/" <:+ t

theorem commentEnd?_ends (text : Bytes) :
    ∀ n, commentEnd? text = some n → ascii "*/" <:+ text.take n := by
  fun_induction commentEnd? text with
  | case1 => simp
  | case2 => simp
  | case3 a b rest h =>
    intro n hn
    obtain rfl : 2 = n := by simpa using hn
    obtain ⟨rfl, rfl⟩ := h
    exact List.suffix_refl _
  | case4 a b rest h ih =>
    intro n hn
    obtain ⟨m, hm, rfl⟩ := Option.map_eq_some_iff.1 hn
    exact (ih m hm).trans (List.suffix_cons a _)

/-- Whitespace comes from the first two rules. -/
theorem lexeme_space {text : Bytes} {n : Nat} (h : lexeme text = (.space, n)) :
    0 < comment text ∧ n = comment text ∨ 0 < blanks text ∧ n = blanks text := by
  rw [lexeme_eq] at h
  repeat' split at h
  all_goals simp_all

/-- A comment, by its two forms. -/
theorem comment_forms {text : Bytes} (h : 0 < comment text) :
    ∃ rest, text = ascii "//" ++ rest ∧
        comment text = (rest.takeWhile (· != newline)).length + 2 ∨
      ∃ n, text = ascii "/*" ++ rest ∧ commentEnd? rest = some n ∧ comment text = n + 2 := by
  revert h
  fun_cases comment text with
  | case1 a b rest h =>
    intro _
    obtain ⟨rfl, rfl⟩ := h
    exact ⟨rest, Or.inl ⟨rfl, rfl⟩⟩
  | case2 a b rest h h' =>
    intro hpos
    obtain ⟨rfl, rfl⟩ := h'
    cases hend : commentEnd? rest with
    | none => simp [hend] at hpos
    | some n => exact ⟨rest, Or.inr ⟨n, rfl, hend, rfl⟩⟩
  | case3 => simp
  | case4 => simp

/-- What is no whitespace comes from the later rules. -/
theorem Stands.rules {kind : TokenKind} {t f : Bytes} (h : Stands kind t f)
    (hkind : kind ≠ .space) :
    comment (t ++ f) = 0 ∧ blanks (t ++ f) = 0 := by
  have hlexeme := h.lexeme
  rw [lexeme_eq] at hlexeme
  split at hlexeme
  · exact absurd (Prod.mk.inj hlexeme).1.symm hkind
  · split at hlexeme
    · exact absurd (Prod.mk.inj hlexeme).1.symm hkind
    · omega

/-- What is no whitespace does not begin with a blank. -/
theorem Stands.stops {kind : TokenKind} {t f : Bytes} (h : Stands kind t f) (hkind : kind ≠ .space)
    (text : Bytes) : StopsAt isSeparator (t ++ text) := by
  obtain ⟨-, hblanks⟩ := h.rules hkind
  obtain ⟨b, t, rfl⟩ := List.exists_cons_of_ne_nil h.nonempty
  exact stops_cons (by simpa [blanks] using hblanks) _

/-- Whitespace, by its three forms: a comment up to the end of the line, a comment up to the first
    `*/`, and a run of blanks. -/
theorem Stands.space_forms {t following : Bytes} (h : Stands .space t following) :
    (∃ rest, t = ascii "//" ++ rest ∧ newline ∉ rest ∧
        (following = [] ∨ following.head? = some newline)) ∨
      (∃ rest, t = ascii "/*" ++ rest ∧ commentEnd? (rest ++ following) = some rest.length) ∨
      ∀ b ∈ t, isSeparator b = true := by
  rcases lexeme_space h.lexeme with ⟨hpos, hlength⟩ | ⟨hpos, hlength⟩
  · obtain ⟨rest, ⟨htext, hcomment⟩ | ⟨n, htext, hend, hcomment⟩⟩ := comment_forms hpos
    · -- a line comment runs to the end of the line
      have htake : t = ascii "//" ++ rest.takeWhile (· != newline) := by
        have hboth := congrArg (List.take t.length) htext
        rw [List.take_left, hlength, hcomment, List.take_append] at hboth
        rw [hboth]
        have htwo : (ascii "//").length = 2 := rfl
        rw [List.take_of_length_le (by omega), htwo, Nat.add_sub_cancel,
          ← List.prefix_iff_eq_take.1 ( List.takeWhile_prefix _)]
      have hdrop : following = rest.dropWhile (· != newline) := by
        rw [htake, List.append_assoc, List.append_cancel_left_eq] at htext
        exact List.append_cancel_left
          (htext.trans (List.takeWhile_append_dropWhile (p := (· != newline))).symm)
      refine Or.inl ⟨_, htake, fun hmem => ?_, ?_⟩
      · exact absurd (List.mem_takeWhile_imp hmem) (by simp)
      · rw [hdrop]
        cases hrest : rest.dropWhile (· != newline) with
        | nil => exact Or.inl rfl
        | cons b rest' =>
          have hhead := List.head?_dropWhile_not (· != newline) rest
          rw [hrest] at hhead
          exact Or.inr (by simpa using hhead)
    · -- a block comment ends where its end was found
      have htake : t = ascii "/*" ++ rest.take n := by
        have hboth := congrArg (List.take t.length) htext
        rw [List.take_left, hlength, hcomment] at hboth
        exact hboth
      refine Or.inr (Or.inl ⟨rest.take n, htake, ?_⟩)
      rw [htake, List.append_assoc, List.append_cancel_left_eq] at htext
      rw [htext, List.length_take, Nat.min_eq_left (commentEnd?_le rest n hend).2]
      exact hend
  · -- a run of blanks has nothing else in it
    have htake : (t ++ following).takeWhile isSeparator = t := by
      have hinitial :=
        List.prefix_iff_eq_take.1 ( List.takeWhile_prefix isSeparator (l := t ++ following))
      rw [blanks] at hlength
      rw [hinitial, ← hlength, List.take_left]
    refine Or.inr (Or.inr fun b hb => ?_)
    rw [← htake] at hb
    exact List.mem_takeWhile_imp hb

/-- Whitespace begins with a blank or a comment. -/
theorem Stands.space_begins {t following : Bytes} (h : Stands .space t following) :
    ∃ b, t.head? = some b ∧ (isSeparator b = true ∨ b = byte '/') := by
  rcases h.space_forms with ⟨rest, rfl, -⟩ | ⟨rest, rfl, -⟩ | hblanks
  · exact ⟨byte '/', rfl, Or.inr rfl⟩
  · exact ⟨byte '/', rfl, Or.inr rfl⟩
  · obtain ⟨b, t, rfl⟩ := List.exists_cons_of_ne_nil h.nonempty
    exact ⟨b, rfl, Or.inl (hblanks b (by simp))⟩

/-- A piece of whitespace is a gap, unless the line ends after it. -/
theorem Stands.gap {t following : Bytes} (h : Stands .space t following)
    (hline : following.head? ≠ some newline) : Gap t following := by
  refine ⟨h.space_begins, ?_⟩
  rcases h.space_forms with ⟨rest, -, -, hends⟩ | ⟨rest, rfl, hend⟩ | hblanks
  · exact Or.inl (hends.resolve_right hline)
  · have hclosed := commentEnd?_ends _ _ hend
    rw [List.take_left] at hclosed
    exact Or.inr (Or.inr (hclosed.trans (List.suffix_append _ _)))
  · exact Or.inr (Or.inl ⟨t.getLast h.nonempty, List.getLast?_eq_some_getLast h.nonempty,
      hblanks _ (List.getLast_mem h.nonempty)⟩)

/-! ## Merged lists -/

/-- A list whose whitespace is merged: what is no whitespace stands, and the rest are gaps. -/
def WellCut : List (TokenKind × Bytes) → Prop
  | [] => True
  | (kind, t) :: rest =>
    (if kind = .space then Gap t (textOf rest) else Stands kind t (textOf rest)) ∧ WellCut rest

/-- What begins as whitespace does, and ends with a gap, is a gap. -/
theorem Gap.append {t t' following : Bytes}
    (h : ∃ b, t.head? = some b ∧ (isSeparator b = true ∨ b = byte '/')) (h' : Gap t' following) :
    Gap (t ++ t') following := by
  obtain ⟨b, hb, hbegins⟩ := h
  refine ⟨⟨b, by rw [List.head?_append, hb]; rfl, hbegins⟩, ?_⟩
  rcases h'.ends with hempty | ⟨c, hc, hseparator⟩ | hclosed
  · exact Or.inl hempty
  · exact Or.inr (Or.inl ⟨c, by rw [List.getLast?_append, hc]; rfl, hseparator⟩)
  · exact Or.inr (Or.inr (hclosed.trans (List.suffix_append _ _)))

theorem WellCut.stands {kind : TokenKind} {t : Bytes} {ls : List (TokenKind × Bytes)}
    (h : WellCut ((kind, t) :: ls)) (hkind : kind ≠ .space) : Stands kind t (textOf ls) := by
  have hfirst := h.1
  rwa [if_neg hkind] at hfirst

/-- Merging leaves a lexeme as it is, or joins it with the whitespace after it. -/
theorem mergeSpaces_cons_cases (l : TokenKind × Bytes) (rest : List (TokenKind × Bytes)) :
    mergeSpaces (l :: rest) = l :: mergeSpaces rest ∨
      ∃ t more, l.1 = .space ∧ mergeSpaces rest = (.space, t) :: more ∧
        mergeSpaces (l :: rest) = (.space, l.2 ++ t) :: more := by
  obtain ⟨kind, t⟩ := l
  rw [mergeSpaces]
  split
  · next hmerged => exact Or.inl (by rw [hmerged])
  · next kind' t' more hmerged =>
    rw [hmerged]
    split
    · next hspaces =>
      obtain ⟨rfl, rfl⟩ := hspaces
      exact Or.inr ⟨t', more, rfl, rfl, rfl⟩
    · exact Or.inl rfl

theorem mem_mergeSpaces {ls : List (TokenKind × Bytes)} :
    ∀ l ∈ mergeSpaces ls, l.1 = .space ∨ l ∈ ls := by
  induction ls with
  | nil => simp [mergeSpaces]
  | cons l rest ih =>
    have hrest : ∀ l' ∈ mergeSpaces rest, l'.1 = .space ∨ l' ∈ l :: rest :=
      fun l' hl' => (ih l' hl').imp_right (List.mem_cons_of_mem _)
    rcases mergeSpaces_cons_cases l rest with hsame | ⟨t, more, -, hspace, hmerged⟩
    · rw [hsame]
      exact List.forall_mem_cons.2 ⟨Or.inr (by simp), hrest⟩
    · rw [hmerged]
      rw [hspace] at hrest
      exact List.forall_mem_cons.2 ⟨Or.inl rfl, (List.forall_mem_cons.1 hrest).2⟩

theorem mem_mergeSpaces_of_mem {l : TokenKind × Bytes} (hl : l.1 ≠ .space)
    {ls : List (TokenKind × Bytes)} (hmem : l ∈ ls) : l ∈ mergeSpaces ls := by
  induction ls with
  | nil => exact absurd hmem (by simp)
  | cons first rest ih =>
    rcases mergeSpaces_cons_cases first rest with hsame | ⟨t, more, hspace, hrest, hmerged⟩
    · rw [hsame]
      rcases List.mem_cons.1 hmem with rfl | hmem
      · exact List.mem_cons_self
      · exact List.mem_cons_of_mem _ (ih hmem)
    · rw [hmerged]
      rcases List.mem_cons.1 hmem with rfl | hmem
      · exact absurd hspace hl
      · have hmore := ih hmem
        rw [hrest] at hmore
        rcases List.mem_cons.1 hmore with rfl | hmore
        · exact absurd rfl hl
        · exact List.mem_cons_of_mem _ hmore

theorem textOf_mergeSpaces (ls : List (TokenKind × Bytes)) :
    textOf (mergeSpaces ls) = textOf ls := by
  induction ls with
  | nil => rfl
  | cons l rest ih =>
    obtain ⟨kind, t⟩ := l
    rw [mergeSpaces, textOf_cons, ← ih]
    cases mergeSpaces rest with
    | nil => simp
    | cons l' more =>
      obtain ⟨kind', t'⟩ := l'
      dsimp only
      split <;> simp

theorem wellCut_mergeSpaces {ls : List (TokenKind × Bytes)} (h : Stood ls) :
    WellCut (mergeSpaces ls) := by
  induction ls with
  | nil => exact trivial
  | cons l rest ih =>
    obtain ⟨kind, t⟩ := l
    obtain ⟨hstands, hstood⟩ := h
    have hcut := ih hstood
    -- a line end would be whitespace, and merged with what stands before it
    have hfirst : (textOf rest).head? ≠ some newline →
        if kind = .space then Gap t (textOf rest) else Stands kind t (textOf rest) := by
      intro hline
      split
      · next hkind => exact Stands.gap (hkind ▸ hstands) hline
      · exact hstands
    rw [← textOf_mergeSpaces rest] at hfirst
    rw [mergeSpaces]
    cases hmerged : mergeSpaces rest with
    | nil =>
      rw [hmerged] at hfirst
      exact ⟨hfirst (by simp), trivial⟩
    | cons l' more =>
      obtain ⟨kind', t'⟩ := l'
      rw [hmerged] at hcut hfirst
      dsimp only
      split
      · next hspaces =>
        obtain ⟨rfl, rfl⟩ := hspaces
        obtain ⟨hgap, hmore⟩ := hcut
        rw [if_pos rfl] at hgap
        refine ⟨?_, hmore⟩
        rw [if_pos rfl]
        exact .append hstands.space_begins hgap
      · next hspaces =>
        refine ⟨?_, hcut⟩
        by_cases hkind : kind = .space
        · refine hfirst fun hline => ?_
          have hkind' : kind' ≠ .space := fun h' => hspaces ⟨hkind, h'⟩
          exact absurd ((hcut.stands hkind').stops hkind' (textOf more) newline hline) (by decide)
        · rw [if_neg hkind, ← hmerged, textOf_mergeSpaces]
          exact hstands

theorem WellCut.suffix {ls ls' : List (TokenKind × Bytes)} (h : WellCut ls) (hsuffix : ls' <:+ ls) :
    WellCut ls' := by
  obtain ⟨before, rfl⟩ := hsuffix
  induction before with
  | nil => exact h
  | cons l before ih => exact ih h.2

theorem WellCut.isIdent {ls : List (TokenKind × Bytes)} (h : WellCut ls) {t : Bytes}
    (ht : (.ident, t) ∈ ls) : isIdent t = true := by
  obtain ⟨before, after, rfl⟩ := List.append_of_mem ht
  have hcut := h.suffix (List.suffix_append before ((.ident, t) :: after))
  exact (hcut.stands (by decide)).isIdent

theorem WellCut.eq_nil {ls : List (TokenKind × Bytes)} (h : WellCut ls) (hempty : textOf ls = []) :
    ls = [] := by
  cases ls with
  | nil => rfl
  | cons l rest =>
    obtain ⟨kind, t⟩ := l
    obtain ⟨rfl, -⟩ := List.append_eq_nil_iff.1 ((textOf_cons kind t rest).symm.trans hempty)
    have hfirst := h.1
    split at hfirst
    · obtain ⟨b, hb, -⟩ := hfirst.begins
      exact absurd hb (by simp)
    · exact absurd rfl hfirst.nonempty

/-- The merged lexemes of a text. -/
theorem wellCut_lexemes (text : Bytes) :
    WellCut (mergeSpaces (lexemes text)) ∧ textOf (mergeSpaces (lexemes text)) = text := by
  obtain ⟨hstood, htext⟩ := stood_lexemes text
  exact ⟨wellCut_mergeSpaces hstood, (textOf_mergeSpaces _).trans htext⟩

end Preproc.Lexer
