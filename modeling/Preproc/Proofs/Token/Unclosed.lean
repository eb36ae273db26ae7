import Preproc.Proofs.Source.Joined
import Preproc.Proofs.Token.Kinds

set_option autoImplicit false

/-! # What is not closed on a line

The cutter and the line reader follow quotes and comments each in its own way. They go together up
to the first quote or comment that is not closed: every lexeme before it leaves code as it is
(`Stands.after_code`). So in a text that the line reader has joined, either no line ends after a
lone quote (`Sealed`), or the opening of a comment comes before all lone quotes (`Opens`). -/

namespace Preproc.Lexer

open Source (Region Joined isCalm)

/-! ## Searches and regions -/

/-- A quotation that is closed leads back to code. -/
theorem Closing.after {quote : UInt8} (hquote : quote ≠ backslash) {t : Bytes}
    (h : Closing quote t) (following : Bytes) :
    (Region.quotation quote).after (t ++ following) = Region.code.after following := by
  induction h with
  | quote => cases following <;> simp [Region.after, hquote]
  | escaped _ _ h ih => simp [Region.after, ih]
  | plain hne _ hescape h ih =>
    obtain ⟨c, t, rfl⟩ := List.exists_cons_of_ne_nil h.ne_nil
    simp only [List.cons_append] at ih
    simp [Region.after, hne, hescape, ih]

/-- A quotation that is not closed goes on to the end of the line. -/
theorem after_quoteEnd_none {quote : UInt8} {text : Bytes} (hlines : newline ∉ text)
    (h : quoteEnd? quote text = none) :
    (Region.quotation quote).after text = .quotation quote := by
  fun_induction quoteEnd? quote text with
  | case1 => simp [Region.after]
  | case2 => simp at h
  | case3 b hb => simp [Region.after, hb]
  | case4 => simp at h
  | case5 => simp at hlines
  | case6 => simp at hlines
  | case7 c rest h₁ h₂ h₃ ih =>
    simp only [List.mem_cons, not_or] at hlines
    rw [Region.after, if_pos rfl]
    exact ih hlines.2.2 (Option.map_eq_none_iff.1 h)
  | case8 b c rest h₁ h₂ h₃ ih =>
    rw [Region.after, if_neg h₃, if_neg h₁]
    exact ih (fun hmem => hlines (List.mem_cons_of_mem _ hmem)) (Option.map_eq_none_iff.1 h)

/-- A comment that is closed leads back to code. -/
theorem after_commentEnd (text : Bytes) : ∀ n, commentEnd? text = some n →
    Region.blockComment.after text = Region.code.after (text.drop n) := by
  fun_induction commentEnd? text with
  | case1 => simp
  | case2 => simp
  | case3 a b rest h =>
    intro n hn
    obtain rfl : 2 = n := by simpa using hn
    simp [Region.after, h]
  | case4 a b rest h ih =>
    intro n hn
    obtain ⟨m, hm, rfl⟩ := Option.map_eq_some_iff.1 hn
    rw [Region.after, if_neg h, ih m hm]
    rfl

/-- A comment that is not closed goes on. -/
theorem after_commentEnd_none {text : Bytes} (h : commentEnd? text = none) :
    Region.blockComment.after text = .blockComment := by
  fun_induction commentEnd? text with
  | case1 => simp [Region.after]
  | case2 => simp [Region.after]
  | case3 => simp at h
  | case4 a b rest hab ih =>
    rw [Region.after, if_neg hab]
    exact ih (Option.map_eq_none_iff.1 h)

/-- The end of a comment that is found in a text is found whatever follows the text. -/
theorem commentEnd?_within {a f : Bytes} (f' : Bytes)
    (hend : commentEnd? (a ++ f) = some a.length) : commentEnd? (a ++ f') = some a.length := by
  induction a with
  | nil => exact absurd (commentEnd?_le _ _ hend).1 (by simp)
  | cons b a ih =>
    cases a with
    | nil => exact absurd (commentEnd?_le _ _ hend).1 (by simp)
    | cons c a =>
      simp only [List.cons_append, commentEnd?, List.length_cons] at hend ih ⊢
      split
      · next h =>
        rw [if_pos h] at hend
        exact hend
      · next h =>
        rw [if_neg h] at hend
        rw [ih (by simpa using hend)]
        rfl

/-! ## Lexemes in code -/

theorem isSeparator_calm : ∀ b, isSeparator b = true → isCalm b = true :=
  forall_byte (by decide +kernel)

theorem isNumberByte_calm : ∀ b, isNumberByte b = true → isCalm b = true :=
  forall_byte (by decide +kernel)

theorem isContinuation_calm : ∀ b, isContinuation b = true → isCalm b = true :=
  forall_byte (by decide +kernel)

theorem punctuators_calm :
    (∀ p ∈ longPunctuators, ∀ b ∈ p, isCalm b = true) ∧
      ∀ b ∈ shortPunctuators, isCalm b = true ∨ b = byte '/' := by
  decide +kernel

/-- A stray code point of one byte is a lexeme of one byte. -/
theorem Stands.stray_ascii {b : UInt8} {t following : Bytes} (h : Stands .stray (b :: t) following)
    (hb : b < 0x80) : t = [] := by
  obtain ⟨-, -, -, -, hwidth⟩ := h.rule
  rw [List.cons_append, runeWidth_ascii hb] at hwidth
  simpa using hwidth.symm

/-- Of the lexemes that are no whitespace, only quotations, lone quotes and the slash have bytes
    that begin something. -/
theorem Stands.calm {kind : TokenKind} {t following : Bytes} (h : Stands kind t following)
    (hkind : kind ≠ .space) (hquote : ¬ LoneQuote t) :
    (∀ b ∈ t, isCalm b = true) ∨ t = ascii "/" ∨
      ∃ quote, (quote = doubleQuote ∨ quote = singleQuote) ∧
        quotation quote (t ++ following) = t.length := by
  cases kind with
  | endOfLine => exact absurd h.rule id
  | space => exact absurd rfl hkind
  | ident => exact Or.inl fun b hb => isNumberByte_calm b (isNumberByte_of_isIdent h.isIdent b hb)
  | number => exact Or.inl fun b hb => isNumberByte_calm b (h.number_bytes.2 b hb)
  | string => exact Or.inr (Or.inr ⟨doubleQuote, Or.inl rfl, h.rule⟩)
  | character => exact Or.inr (Or.inr ⟨singleQuote, Or.inr rfl, h.rule⟩)
  | punctuator =>
    rcases h.punctuator_spelling with hlong | ⟨b, hb, rfl⟩
    · exact Or.inl (punctuators_calm.1 t hlong)
    · rcases punctuators_calm.2 b hb with hcalm | rfl
      · exact Or.inl (by simpa using hcalm)
      · exact Or.inr (Or.inl rfl)
  | stray =>
    obtain ⟨-, -, -, -, hwidth⟩ := h.rule
    obtain ⟨b, t, rfl⟩ := List.exists_cons_of_ne_nil h.nonempty
    obtain ⟨-, -, hpunctuator⟩ := h.stray_first b rfl
    have hbytes := runeWidth_bytes b (t ++ following)
    rw [← List.cons_append, hwidth, List.take_left] at hbytes
    have hfirst : isCalm b = true := by
      have hdouble : b ≠ doubleQuote := by
        rintro rfl
        exact hquote (Or.inl (by rw [h.stray_ascii (by decide)]))
      have hsingle : b ≠ singleQuote := by
        rintro rfl
        exact hquote (Or.inr (by rw [h.stray_ascii (by decide)]))
      have hslash : b ≠ byte '/' := by
        rintro rfl
        exact hpunctuator (by decide)
      simp [isCalm, hdouble, hsingle, hslash]
    refine Or.inl fun c hc => ?_
    rcases hbytes c hc with rfl | hcontinues
    · exact hfirst
    · exact isContinuation_calm c hcontinues

theorem after_quotation {quote : UInt8} (hquote : quote = doubleQuote ∨ quote = singleQuote)
    {t following : Bytes} (hne : t ≠ []) (h : quotation quote (t ++ following) = t.length)
    (u : Bytes) : Region.code.after (t ++ u) = Region.code.after u := by
  have hbackslash : quote ≠ backslash := by rcases hquote with rfl | rfl <;> decide
  obtain ⟨body, rfl, hclosed⟩ := quotation_closed hne h
  rw [List.cons_append, Region.after_quote hquote, hclosed.after hbackslash u]

theorem after_opening (rest : Bytes) :
    Region.code.after (ascii "/*" ++ rest) = Region.blockComment.after rest := by
  have hquotes : ¬ (byte '/' = doubleQuote ∨ byte '/' = singleQuote) := by decide
  have hline : ¬ (byte '/' = byte '/' ∧ byte '*' = byte '/') := by decide
  show Region.code.after (byte '/' :: byte '*' :: rest) = _
  rw [Region.after, if_neg hquotes, if_neg hline, if_pos ⟨rfl, rfl⟩]

theorem after_blockComment {body following : Bytes}
    (h : commentEnd? (body ++ following) = some body.length) (u : Bytes) :
    Region.code.after (ascii "/*" ++ body ++ u) = Region.code.after u := by
  rw [List.append_assoc, after_opening, after_commentEnd _ _ (commentEnd?_within u h),
    List.drop_left]

theorem after_lineComment (rest : Bytes) :
    Region.code.after (ascii "//" ++ rest) = .lineComment := by
  have hquotes : ¬ (byte '/' = doubleQuote ∨ byte '/' = singleQuote) := by decide
  show Region.code.after (byte '/' :: byte '/' :: rest) = _
  rw [Region.after, if_neg hquotes, if_pos ⟨rfl, rfl⟩]

/-- A lexeme that opens nothing for good leaves code as it is, at any beginning of what follows. -/
theorem Stands.after_code {kind : TokenKind} {t following : Bytes} (h : Stands kind t following)
    (hquote : kind ≠ .space → ¬ LoneQuote t) (hline : ¬ ascii "//" <+: t)
    (hopen : t = ascii "/" → following.head? ≠ some (byte '*')) {u : Bytes} (hu : u <+: following) :
    Region.code.after (t ++ u) = Region.code.after u := by
  by_cases hkind : kind = .space
  · subst hkind
    rcases h.space_forms with ⟨rest, rfl, -⟩ | ⟨rest, rfl, hend⟩ | hblanks
    · exact absurd (List.prefix_append _ _) hline
    · exact after_blockComment hend u
    · exact Region.after_calm (fun b hb => isSeparator_calm b (hblanks b hb)) u
  · rcases h.calm hkind (hquote hkind) with hcalm | rfl | ⟨quote, hq, hrule⟩
    · exact Region.after_calm hcalm u
    · -- a slash before a slash would be a comment
      have hslash : following.head? ≠ some (byte '/') := by
        intro hhead
        obtain ⟨rest, rfl⟩ := List.head?_eq_some_iff.1 hhead
        have hcomment := (h.rules hkind).1
        simp [comment, ascii, byte] at hcomment
      have hbegins : ∀ b, u.head? = some b → following.head? = some b := by
        intro b hb
        obtain ⟨rest, rfl⟩ := hu
        rw [List.head?_append, hb]
        rfl
      show Region.code.after (byte '/' :: u) = _
      refine Region.after_cons (by decide) fun _ => ⟨fun hhead => ?_, fun hhead => ?_⟩
      · exact hslash (hbegins _ hhead)
      · exact hopen rfl (hbegins _ hhead)
    · exact after_quotation hq h.nonempty hrule u

/-! ## Lists of lexemes -/

/-- A list in which no line ends after a lone quote. -/
def Sealed : List (TokenKind × Bytes) → Prop
  | [] => True
  | l :: rest => (l.1 ≠ .space → LoneQuote l.2 → newline ∉ textOf rest) ∧ Sealed rest

/-- The slash as a lexeme. -/
def slashLexeme : TokenKind × Bytes := (.punctuator, ascii "/")

/-- A list in which the opening of a comment comes before all lone quotes. -/
def Opens : List (TokenKind × Bytes) → Prop
  | [] => False
  | l :: rest =>
    l = slashLexeme ∧ (textOf rest).head? = some (byte '*') ∨
      (l.1 ≠ .space → ¬ LoneQuote l.2) ∧ Opens rest

theorem sealed_of_lines {ls : List (TokenKind × Bytes)} (h : newline ∉ textOf ls) : Sealed ls := by
  induction ls with
  | nil => trivial
  | cons l rest ih =>
    obtain ⟨kind, t⟩ := l
    rw [textOf_cons, List.mem_append, not_or] at h
    exact ⟨fun _ _ => h.2, ih h.2⟩

theorem Sealed.suffix {ls ls' : List (TokenKind × Bytes)} (h : Sealed ls) (hsuffix : ls' <:+ ls) :
    Sealed ls' := by
  obtain ⟨before, rfl⟩ := hsuffix
  induction before with
  | nil => exact h
  | cons l before ih => exact ih h.2

/-- An opening that is not in the first part of a list is in the rest. -/
theorem Opens.of_append {before ls : List (TokenKind × Bytes)} (h : Opens (before ++ ls))
    (hbefore : slashLexeme ∉ before) : Opens ls := by
  induction before with
  | nil => exact h
  | cons l before ih =>
    simp only [List.mem_cons, not_or] at hbefore
    rcases h with ⟨rfl, -⟩ | ⟨-, h⟩
    · exact absurd rfl hbefore.1
    · exact ih h hbefore.2

theorem Opens.of_space {t : Bytes} {ls : List (TokenKind × Bytes)}
    (h : Opens ((.space, t) :: ls)) : Opens ls :=
  (Or.resolve_left h (by simp [slashLexeme])).2

theorem sealed_mergeSpaces {ls : List (TokenKind × Bytes)} (h : Sealed ls) :
    Sealed (mergeSpaces ls) := by
  induction ls with
  | nil => trivial
  | cons l rest ih =>
    obtain ⟨kind, t⟩ := l
    obtain ⟨hfirst, hrest⟩ := h
    have hmerged := ih hrest
    rw [← textOf_mergeSpaces] at hfirst
    rw [mergeSpaces]
    cases hm : mergeSpaces rest with
    | nil =>
      rw [hm] at hfirst
      exact ⟨hfirst, trivial⟩
    | cons l' more =>
      obtain ⟨kind', t'⟩ := l'
      rw [hm] at hmerged hfirst
      dsimp only
      split
      · exact ⟨fun hspace => absurd rfl hspace, hmerged.2⟩
      · exact ⟨hfirst, hmerged⟩

theorem opens_mergeSpaces {ls : List (TokenKind × Bytes)} (h : Opens ls) :
    Opens (mergeSpaces ls) := by
  induction ls with
  | nil => exact h
  | cons l rest ih =>
    obtain ⟨kind, t⟩ := l
    have hfirst : (kind, t) = slashLexeme ∧ (textOf (mergeSpaces rest)).head? = some (byte '*') ∨
        (kind ≠ .space → ¬ LoneQuote t) ∧ Opens (mergeSpaces rest) := by
      rw [textOf_mergeSpaces]
      exact h.imp_right fun h => ⟨h.1, ih h.2⟩
    rw [mergeSpaces]
    cases hm : mergeSpaces rest with
    | nil =>
      rw [hm] at hfirst
      exact hfirst
    | cons l' more =>
      obtain ⟨kind', t'⟩ := l'
      rw [hm] at hfirst
      dsimp only
      split
      · next hspaces =>
        obtain ⟨rfl, rfl⟩ := hspaces
        obtain ⟨-, hopens⟩ := hfirst.resolve_left (by simp [slashLexeme])
        exact Or.inr ⟨fun hspace => absurd rfl hspace, hopens.of_space⟩
      · exact hfirst

/-! ## Joined texts -/

/-- A lone slash is a punctuator. -/
theorem Stands.slash_kind {kind : TokenKind} {following : Bytes}
    (h : Stands kind (ascii "/") following) : kind = .punctuator := by
  have hspace : kind ≠ .space := by
    rintro rfl
    rcases h.space_forms with ⟨rest, heq, -⟩ | ⟨rest, heq, -⟩ | hblanks
    · simp [ascii] at heq
    · simp [ascii] at heq
    · exact absurd (hblanks (byte '/') (by simp [ascii, byte])) (by decide)
  have hlexeme := h.lexeme
  obtain ⟨hcomment, hblanks⟩ := h.rules hspace
  have hpunctuator : punctuator (byte '/' :: following) = 1 :=
    (punctuator_of_head (by decide) following).trans (by decide)
  change Lexer.lexeme (byte '/' :: following) = _ at hlexeme
  rw [lexeme_eq, show comment (byte '/' :: following) = 0 from hcomment,
    show blanks (byte '/' :: following) = 0 from hblanks, identifier_eq_zero (by decide),
    number_eq_zero (by decide) (by decide), quotation_eq_zero (by decide),
    quotation_eq_zero (by decide), hpunctuator] at hlexeme
  exact (Prod.mk.inj hlexeme).1.symm

/-- A star directly after a lone slash opens a comment that is not closed. -/
theorem Stands.not_closed {kind : TokenKind} {rest : Bytes}
    (h : Stands kind (ascii "/") (byte '*' :: rest)) : commentEnd? rest = none := by
  have hkind : kind ≠ .space := by
    rw [h.slash_kind]
    simp
  have hcomment := (h.rules hkind).1
  cases hend : commentEnd? rest with
  | none => rfl
  | some n => simp [comment, hend, ascii, byte] at hcomment

/-- A lone quote is not closed on its line. -/
theorem Stands.lone_quote {kind : TokenKind} {t following : Bytes} (h : Stands kind t following)
    (hlone : LoneQuote t) :
    ∃ quote, (quote = doubleQuote ∨ quote = singleQuote) ∧ t = [quote] ∧
      quoteEnd? quote following = none := by
  obtain ⟨quote, hquote, rfl⟩ : ∃ quote, (quote = doubleQuote ∨ quote = singleQuote) ∧
      t = [quote] := by
    rcases hlone with rfl | rfl
    · exact ⟨_, Or.inl rfl, rfl⟩
    · exact ⟨_, Or.inr rfl, rfl⟩
  refine ⟨quote, hquote, rfl, ?_⟩
  have hlength := lexeme_quote hquote following
  rw [← List.singleton_append, h.lexeme] at hlength
  cases hend : quoteEnd? quote following with
  | none => rfl
  | some n =>
    have hzero := quoteEnd?_ne_zero quote following
    simp_all

/-- After a lone quote, a joined text has no line end: it would stand in a quotation. -/
theorem lines_after_quote {kind : TokenKind} {t following : Bytes} (h : Stands kind t following)
    (hlone : LoneQuote t) (hjoined : Joined (t ++ following)) : newline ∉ following := by
  obtain ⟨quote, hquote, rfl, hnone⟩ := h.lone_quote hlone
  intro hmem
  obtain ⟨u, v, rfl, hu⟩ := List.eq_append_cons_of_mem hmem
  have hinside : quoteEnd? quote u = none := by
    cases hend : quoteEnd? quote u with
    | none => rfl
    | some n =>
      -- a quote that is closed before the line end would be closed
      obtain ⟨t, rest, rfl, -, hclosed⟩ := exists_closing quote u n hend
      have hfound := hclosed.quoteEnd? (rest ++ newline :: v)
      rw [← List.append_assoc, hnone] at hfound
      exact absurd hfound (by simp)
  have hopen := hjoined (quote :: u) v rfl
  rw [Region.after_quote hquote, after_quoteEnd_none hu hinside] at hopen
  exact absurd hopen (by simp)

/-- **The two ways in which a joined text can go on to its end.** -/
theorem sealed_or_opens {ls : List (TokenKind × Bytes)} (h : Stood ls)
    (hjoined : Joined (textOf ls)) : Sealed ls ∨ Opens ls := by
  induction ls with
  | nil => exact Or.inl trivial
  | cons l rest ih =>
    obtain ⟨kind, t⟩ := l
    obtain ⟨hstands, hstood⟩ := h
    rw [textOf_cons] at hjoined
    have hsealed : newline ∉ textOf rest → Sealed ((kind, t) :: rest) ∨ Opens ((kind, t) :: rest) :=
      fun hlines => Or.inl ⟨fun _ _ => hlines, sealed_of_lines hlines⟩
    by_cases hquote : LoneQuote t
    · exact hsealed (lines_after_quote hstands hquote hjoined)
    · by_cases hline : ascii "//" <+: t
      · -- a comment to the end of the line hides all line ends
        refine hsealed fun hmem => ?_
        obtain ⟨u, v, hrest, -⟩ := List.eq_append_cons_of_mem hmem
        obtain ⟨t, rfl⟩ := hline
        have hopen := hjoined (ascii "//" ++ t ++ u) v (by rw [hrest, List.append_assoc _ u])
        rw [List.append_assoc, after_lineComment] at hopen
        exact absurd hopen (by simp)
      · by_cases hopen : t = ascii "/" ∧ (textOf rest).head? = some (byte '*')
        · obtain ⟨rfl, hstar⟩ := hopen
          exact Or.inr (Or.inl ⟨by rw [hstands.slash_kind]; rfl, hstar⟩)
        · have hrest : Joined (textOf rest) := by
            intro u v heq
            have hbefore := hjoined (t ++ u) v (by rw [heq, List.append_assoc])
            rwa [hstands.after_code (fun _ => hquote) hline (fun ht hstar => hopen ⟨ht, hstar⟩)
              (heq ▸ List.prefix_append u _)] at hbefore
          refine (ih hstood hrest).imp (fun hsealed => ⟨fun _ h => absurd h hquote, hsealed⟩)
            fun hopens => Or.inr ⟨fun _ => hquote, hopens⟩

/-- The merged lexemes of a joined text. -/
theorem lexemes_sealed_or_opens {text : Bytes} (h : Joined text) :
    Sealed (mergeSpaces (lexemes text)) ∨ Opens (mergeSpaces (lexemes text)) := by
  obtain ⟨hstood, htext⟩ := stood_lexemes text
  exact (sealed_or_opens hstood (htext.symm ▸ h)).imp sealed_mergeSpaces opens_mergeSpaces

end Preproc.Lexer
