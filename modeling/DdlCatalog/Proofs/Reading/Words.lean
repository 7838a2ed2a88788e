import DdlCatalog.Proofs.Composition.Lexing
import DdlCatalog.Proofs.Reading.Runs
import Mathlib.Data.List.TakeWhile

/-!
Names without quotes. A run of the characters that words are made of may start with digits. It is read as one word
unless it is a number, or starts as a number with an exponent does; behind the point that follows the name of a schema,
no name starts with a digit.
-/

namespace DdlCatalog.Sql

/-- Zero, a letter and digits of its base. -/
def RadixLiteral (w : List Char) : Prop := ∃ letter digits, w = '0' :: letter :: digits ∧
  (letter = 'x' ∨ letter = 'b') ∧ digits ≠ [] ∧ ∀ c ∈ digits, isRadixDigit (letter = 'x') c = true

/-- Digits and the letter of an exponent, whatever follows it. -/
def StartsExponent (w : List Char) : Prop := ∃ digits letter more, w = digits ++ letter :: more ∧
  digits ≠ [] ∧ (∀ c ∈ digits, isDigit c = true) ∧ (letter = 'e' ∨ letter = 'E')

/-- The runs of word characters that are read as words. -/
structure Bare (w : List Char) : Prop where
  not_digits : ¬ ∀ c ∈ w, isDigit c = true
  not_radix : ¬ RadixLiteral w
  not_exponent : ¬ StartsExponent w

variable {w z r digits more : List Char} {c letter : Char} {offset : Nat} {l : Lexeme} {s : String}

/-! ### Runs that are not words -/

theorem radixLiteral_iff : RadixLiteral w ↔ (w.take 2 = ['0', 'x'] ∨ w.take 2 = ['0', 'b']) ∧ w.drop 2 ≠ [] ∧
    (w.drop 2).all (isRadixDigit (w.take 2 = ['0', 'x'])) = true := by
  constructor
  · rintro ⟨letter, digits, rfl, hletter, hne, hdigits⟩
    rcases hletter with rfl | rfl
    · exact ⟨.inl rfl, hne, List.all_eq_true.2 hdigits⟩
    · exact ⟨.inr rfl, hne, List.all_eq_true.2 hdigits⟩
  · rintro ⟨htake, hne, hdigits⟩
    have hsplit := List.take_append_drop 2 w
    rcases htake with htake | htake <;> rw [htake] at hsplit hdigits
    · exact ⟨'x', w.drop 2, hsplit.symm, .inl rfl, hne, List.all_eq_true.1 hdigits⟩
    · exact ⟨'b', w.drop 2, hsplit.symm, .inr rfl, hne, List.all_eq_true.1 hdigits⟩

theorem startsExponent_iff : StartsExponent w ↔ w.takeWhile isDigit ≠ [] ∧
    ((w.dropWhile isDigit).head? = some 'e' ∨ (w.dropWhile isDigit).head? = some 'E') := by
  constructor
  · rintro ⟨digits, letter, more, rfl, hne, hdigits, hletter⟩
    have hstop : ∀ c ∈ (letter :: more).head?, isDigit c = false := by
      rintro c ⟨⟩
      rcases hletter with rfl | rfl <;> rfl
    rw [takeWhile_run hdigits hstop, dropWhile_run hdigits hstop]
    exact ⟨hne, hletter.imp (congrArg some) (congrArg some)⟩
  · rintro ⟨hne, hhead⟩
    have hdigits : ∀ c ∈ w.takeWhile isDigit, isDigit c = true := fun _ hc => List.mem_takeWhile_imp hc
    have hsplit (letter : Char) (h : (w.dropWhile isDigit).head? = some letter) :
        ∃ more, w = w.takeWhile isDigit ++ letter :: more := by
      obtain ⟨more, hmore⟩ := List.head?_eq_some_iff.1 h
      exact ⟨more, by rw [← hmore, List.takeWhile_append_dropWhile]⟩
    rcases hhead with h | h
    · obtain ⟨more, hw⟩ := hsplit 'e' h
      exact ⟨_, 'e', more, hw, hne, hdigits, .inl rfl⟩
    · obtain ⟨more, hw⟩ := hsplit 'E' h
      exact ⟨_, 'E', more, hw, hne, hdigits, .inr rfl⟩

instance : DecidablePred RadixLiteral := fun _ => decidable_of_iff _ radixLiteral_iff.symm

instance : DecidablePred StartsExponent := fun _ => decidable_of_iff _ startsExponent_iff.symm

instance : DecidablePred Bare := fun w =>
  decidable_of_iff (¬ w.all isDigit = true ∧ ¬ RadixLiteral w ∧ ¬ StartsExponent w)
    ⟨fun ⟨hdigits, hradix, hexponent⟩ => ⟨fun hall => hdigits (List.all_eq_true.2 hall), hradix, hexponent⟩,
      fun h => ⟨fun hall => h.not_digits (List.all_eq_true.1 hall), h.not_radix, h.not_exponent⟩⟩

/-! ### Numbers and words -/

theorem isWordChar_of_isDigit (h : isDigit c = true) : isWordChar c = true := by simp [isWordChar, h]

theorem word_run (hw : ∀ c ∈ w, isWordChar c = true) (hz : Spaced z) :
    word (w ++ z) = ⟨.word (String.ofList w), w, z⟩ := by
  rw [word, takeWhile_run hw hz.not_wordChar, dropWhile_run hw hz.not_wordChar]

/-- Digits that run into a word are a part of it. -/
theorem number_word (hw : ∀ c ∈ w, isWordChar c = true) (hdigit : ∀ c ∈ w.head?, isDigit c = true)
    (hall : ¬ ∀ c ∈ w, isDigit c = true) (hexponent : ¬ StartsExponent w) (hz : Spaced z) (offset : Nat) :
    number offset (w ++ z) = .ok ⟨.word (String.ofList w), w, z⟩ := by
  have hsplit : w.takeWhile isDigit ++ w.dropWhile isDigit = w := List.takeWhile_append_dropWhile
  have hrun : ∀ c ∈ w.takeWhile isDigit, isDigit c = true := fun _ hc => List.mem_takeWhile_imp hc
  cases hafter : w.dropWhile isDigit with
  | nil =>
      rw [hafter, List.append_nil] at hsplit
      rw [hsplit] at hrun
      exact absurd hrun hall
  | cons c r =>
      have hstop := List.head?_dropWhile_not isDigit w
      rw [hafter] at hsplit hstop
      have hchar : isWordChar c = true := hw c (by rw [← hsplit]; simp)
      have hstarted : w.takeWhile isDigit ≠ [] := by
        intro hnil
        rw [hnil, List.nil_append] at hsplit
        rw [← hsplit] at hdigit
        have hc : isDigit c = false := by simpa using hstop
        exact absurd (hdigit c rfl) (by rw [hc]; decide)
      have hletter (d : Char) (hd : d = 'e' ∨ d = 'E') : (c :: (r ++ z)).head? ≠ some d := by
        rintro ⟨⟩
        exact hexponent ⟨_, c, r, hsplit.symm, hstarted, hrun, hd⟩
      have hpoint : (c :: (r ++ z)).head? ≠ some '.' := by
        rintro ⟨⟩
        exact absurd hchar (by decide)
      have hexponentText := exponentText_other (hletter 'e' (.inl rfl)) (hletter 'E' (.inr rfl))
      rw [← word_run hw hz]
      unfold number
      simp only [takeWhile_append_of_head hz.not_digit, dropWhile_append_of_head hz.not_digit, hafter, List.cons_append,
        fractionText_other hpoint, hexponentText]
      simp [hchar]

/-- A number with an exponent is taken for one as soon as its letter is there. -/
theorem number_exponent (hdigits : ∀ c ∈ digits, isDigit c = true) (hletter : letter = 'e' ∨ letter = 'E')
    (hmore : ∀ c ∈ more, isWordChar c = true) (hz : Spaced z) (offset : Nat) :
    number offset (digits ++ letter :: more ++ z) =
      if more.takeWhile isDigit = [] then
        .error ⟨.invalidNumber (String.ofList (digits ++ [letter])) offset, more ++ z, digits ++ [letter]⟩
      else
        .ok ⟨.real (Decimal.nearest (Decimal.valueOf digits) (Decimal.valueOf (more.takeWhile isDigit))),
          digits ++ letter :: more.takeWhile isDigit, more.dropWhile isDigit ++ z⟩ := by
  have hstop : ∀ c ∈ (letter :: (more ++ z)).head?, isDigit c = false := by
    rintro c ⟨⟩
    rcases hletter with rfl | rfl <;> rfl
  have hpoint : (letter :: (more ++ z)).head? ≠ some '.' := by
    rintro ⟨⟩
    rcases hletter with h | h <;> cases h
  have hsign : signText (more ++ z) = ([], more ++ z) := by
    refine signText_other fun c hc => ?_
    have hchar : isWordChar c = true ∨ isSpace c = true := by
      cases more with
      | nil => exact .inr (hz c hc)
      | cons d more => cases hc; exact .inl (hmore c List.mem_cons_self)
    refine ⟨?_, ?_⟩ <;> rintro rfl <;> exact absurd hchar (by decide)
  have hexponent : exponentText (letter :: (more ++ z)) =
      (⟨[letter], [], more.takeWhile isDigit⟩, more.dropWhile isDigit ++ z) := by
    have hcond : (decide (letter = 'e') || decide (letter = 'E')) = true := by simpa using hletter
    simp only [exponentText, hcond, if_true, hsign, takeWhile_append_of_head hz.not_digit,
      dropWhile_append_of_head hz.not_digit]
  unfold number
  simp only [List.append_assoc, List.cons_append, takeWhile_run hdigits hstop, dropWhile_run hdigits hstop,
    fractionText_other hpoint, hexponent]
  by_cases hnone : more.takeWhile isDigit = []
  · have hall : more.dropWhile isDigit = more := by
      have hsplit := List.takeWhile_append_dropWhile (p := isDigit) (l := more)
      rwa [hnone] at hsplit
    simp [hnone, hall, ExponentText.text]
  · simp [hnone, ExponentText.text, ExponentText.value]

/-! ### The first token of a run -/

theorem lexeme_zero (h : letter = 'x' ∨ letter = 'b') (offset : Nat) (r : List Char) :
    lexeme offset '0' (letter :: r) = radixDigits offset letter r := by
  rcases h with rfl | rfl <;> rfl

theorem lexeme_radix (hletter : letter = 'x' ∨ letter = 'b') (hne : digits ≠ [])
    (hdigits : ∀ c ∈ digits, isRadixDigit (letter = 'x') c = true) (hz : Spaced z) (offset : Nat) :
    lexeme offset '0' (letter :: (digits ++ z)) =
      .ok ⟨digitsKind (letter = 'x') digits, '0' :: letter :: digits, z⟩ := by
  have hends : z.head?.any isWordChar = false := by
    cases z with
    | nil => rfl
    | cons c z => exact hz.not_wordChar c rfl
  rw [lexeme_zero hletter]
  unfold radixDigits
  simp only [takeWhile_run hdigits (hz.not_radixDigit _), dropWhile_run hdigits (hz.not_radixDigit _), hne, hends]
  rfl

theorem radixDigits_of_not_literal (hr : ∀ c ∈ r, isWordChar c = true) (hletter : letter = 'x' ∨ letter = 'b')
    (h : ¬ RadixLiteral ('0' :: letter :: r)) (hz : Spaced z) (offset : Nat) :
    radixDigits offset letter (r ++ z) = number offset ('0' :: letter :: (r ++ z)) := by
  have hrun : ∀ c ∈ r.takeWhile (isRadixDigit (letter = 'x')), isRadixDigit (letter = 'x') c = true :=
    fun _ hc => List.mem_takeWhile_imp hc
  have hsplit : r.takeWhile (isRadixDigit (letter = 'x')) ++ r.dropWhile (isRadixDigit (letter = 'x')) = r :=
    List.takeWhile_append_dropWhile
  unfold radixDigits
  simp only [takeWhile_append_of_head (hz.not_radixDigit _), dropWhile_append_of_head (hz.not_radixDigit _)]
  refine if_pos ?_
  rw [Bool.or_eq_true, decide_eq_true_eq, or_iff_not_imp_left]
  intro hne
  cases hafter : r.dropWhile (isRadixDigit (letter = 'x')) with
  | nil =>
      rw [hafter, List.append_nil] at hsplit
      rw [hsplit] at hrun hne
      exact absurd ⟨letter, r, rfl, hletter, hne, hrun⟩ h
  | cons c after =>
      have hc : c ∈ r := by rw [← hsplit, hafter]; simp
      exact hr c hc

theorem lexeme_digit (hw : ∀ d ∈ c :: r, isWordChar d = true) (hc : isDigit c = true) (h : ¬ RadixLiteral (c :: r))
    (hz : Spaced z) (offset : Nat) : lexeme offset c (r ++ z) = number offset (c :: (r ++ z)) := by
  cases r with
  | nil => exact lexeme_eq_number hc fun _ => ⟨hz.head?_ne rfl, hz.head?_ne rfl⟩
  | cons d r =>
      by_cases hradix : c = '0' ∧ (d = 'x' ∨ d = 'b')
      · obtain ⟨rfl, hletter⟩ := hradix
        rw [List.cons_append, lexeme_zero hletter]
        exact radixDigits_of_not_literal (fun e he => hw e (by simp [he])) hletter h hz offset
      · refine lexeme_eq_number hc fun hzero => ?_
        obtain ⟨hx, hb⟩ := not_or.1 fun hd => hradix ⟨hzero, hd⟩
        exact ⟨fun he => hx (Option.some.inj he), fun he => hb (Option.some.inj he)⟩

theorem isWordStart_of_not_digit (h : isWordChar c = true) (hc : isDigit c = false) : isWordStart c = true := by
  simpa [isWordChar, hc] using h

theorem lexeme_bare (hw : ∀ d ∈ c :: r, isWordChar d = true) (h : Bare (c :: r)) (hz : Spaced z) (offset : Nat) :
    lexeme offset c (r ++ z) = .ok ⟨.word (String.ofList (c :: r)), c :: r, z⟩ := by
  cases hc : isDigit c with
  | true =>
      rw [lexeme_digit hw hc h.not_radix hz]
      exact number_word hw (by rintro d ⟨⟩; exact hc) h.not_digits h.not_exponent hz offset
  | false =>
      exact lexeme_word offset (isWordStart_of_not_digit (hw c List.mem_cons_self) hc)
        (fun d hd => hw d (List.mem_cons_of_mem _ hd)) hz.ends_word

/-- The name that a token gives. -/
def TokenKind.name? : TokenKind → Option String
  | .word s | .quoted s => some s
  | _ => none

theorem name?_integerKind (digits : List Char) : (integerKind digits).name? = none := by
  unfold integerKind
  dsimp only
  split <;> rfl

theorem name?_digitsKind (hexadecimal : Bool) (digits : List Char) : (digitsKind hexadecimal digits).name? = none := by
  cases hexadecimal <;> rfl

/-- Any other run is read as a number, or as one that is not complete. -/
theorem lexeme_not_bare (hw : ∀ d ∈ c :: r, isWordChar d = true) (h : ¬ Bare (c :: r)) (hz : Spaced z)
    (hl : lexeme offset c (r ++ z) = .ok l) : l.kind.name? = none := by
  by_cases hradix : RadixLiteral (c :: r)
  · obtain ⟨letter, digits, he, hletter, hne, hdigits⟩ := hradix
    cases he
    rw [List.cons_append, lexeme_radix hletter hne hdigits hz] at hl
    cases hl
    exact name?_digitsKind _ digits
  by_cases hall : ∀ d ∈ c :: r, isDigit d = true
  · have hnumber := lexeme_digit hw (hall c List.mem_cons_self) hradix hz offset
    rw [hnumber, ← List.cons_append, number_integer offset hall hz.ends_number] at hl
    cases hl
    exact name?_integerKind (c :: r)
  · have hexponent : StartsExponent (c :: r) := by
      by_contra hnot
      exact h ⟨hall, hradix, hnot⟩
    obtain ⟨digits, letter, more, he, hne, hdigits, hletter⟩ := hexponent
    obtain ⟨d, digits, rfl⟩ := List.exists_cons_of_ne_nil hne
    obtain ⟨rfl, -⟩ := List.cons.inj he
    have hmore : ∀ e ∈ more, isWordChar e = true := fun e hmem => hw e (by rw [he]; simp [hmem])
    rw [lexeme_digit hw (hdigits c List.mem_cons_self) hradix hz, ← List.cons_append, he,
      number_exponent hdigits hletter hmore hz] at hl
    split at hl
    · cases hl
    · cases hl
      rfl

/-- A run of word characters is read as one word if and only if it is bare. -/
theorem standsFirst_word_iff (hne : w ≠ []) (hw : ∀ c ∈ w, isWordChar c = true) (hz : Spaced z) :
    StandsFirst (.word (String.ofList w)) w z ↔ Bare w := by
  obtain ⟨c, r, rfl⟩ := List.exists_cons_of_ne_nil hne
  have hc := hw c List.mem_cons_self
  rw [standsFirst_iff List.cons_append (gapItem?_wordChar hc _) (ne_of_isWordChar hc (by decide))]
  refine ⟨fun h => ?_, fun h => lexeme_bare hw h hz⟩
  by_contra hnot
  cases lexeme_not_bare hw hnot hz (h 0)

/-! ### Names of tables -/

namespace Parser

variable {ts rest : Tokens} {t : Token} {name : String}

theorem identifier_eq : identifier = expect "identifier" TokenKind.name? := rfl

theorem identifier_run (h : t.kind.name? = some s) (ts : Tokens) : identifier.run (.ok t :: ts) = .ok (s, ts) :=
  expect_run h ts

/-- The part after a point replaces the name before it. -/
def qualified (_ : String) (t : Token) : Option (Parser (Round String)) :=
  if t.kind = .dot then some (do return .again (← identifier)) else none

theorem tableName_eq : tableName = identifier >>= loop qualified := rfl

theorem tableName_run (h : t.kind.name? = some name) (ts : Tokens) :
    tableName.run (.ok t :: ts) = loopRun qualified name ts := by
  rw [tableName_eq, run_bind_of_ok (identifier_run h ts)]
  rfl

theorem tableName_single (h : t.kind.name? = some s) : tableName.run [.ok t] = .ok (s, []) := by
  rw [tableName_run h, loopRun]

/-- A name has a first token that gives one. -/
theorem exists_name_of_tableName (h : tableName.run ts = .ok (s, rest)) :
    ∃ t ts' first, ts = .ok t :: ts' ∧ t.kind.name? = some first := by
  rw [tableName_eq, run_bind] at h
  split at h
  · cases h
  · rename_i first ts' hfirst
    rw [identifier_eq] at hfirst
    obtain ⟨t, rfl, ht⟩ := expect_run_eq_ok_iff.1 hfirst
    exact ⟨t, ts', first, rfl, ht⟩

theorem tableName_qualified {schema point last : Token} (hschema : schema.kind.name? = some name)
    (hpoint : point.kind = .dot) (hlast : last.kind.name? = some s) :
    tableName.run [.ok schema, .ok point, .ok last] = .ok (s, []) := by
  have hround : qualified name point = some (do return .again (← identifier)) := if_pos hpoint
  have hpart : (do return Round.again (← identifier) : Parser (Round String)).run [.ok last] = .ok (.again s, []) := by
    rw [run_bind_of_ok (identifier_run hlast [])]
    rfl
  rw [tableName_run hschema, loopRun_round hround, hpart]
  change loopRun qualified s [] = _
  rw [loopRun]

/-- Without a point the name ends. -/
theorem eq_of_tableName (ht : t.kind.name? = some name) (hnext : ∀ u, ts.head? = some (.ok u) → u.kind ≠ .dot)
    (h : tableName.run (.ok t :: ts) = .ok (s, rest)) : s = name := by
  rw [tableName_run ht] at h
  rcases ts with _ | ⟨e | u, ts⟩
  · rw [loopRun] at h
    cases h
    rfl
  · rw [loopRun] at h
    cases h
  · have hends : qualified name u = none := if_neg (hnext u rfl)
    rw [loopRun, hends] at h
    cases h
    rfl

end Parser

theorem number_point {cs : List Char} (h : number offset ('.' :: cs) = .ok l) : ∃ x, l.kind = .real x := by
  unfold number at h
  simp only [List.takeWhile_cons_of_neg (show ¬ isDigit '.' = true by decide),
    List.dropWhile_cons_of_neg (show ¬ isDigit '.' = true by decide), fractionText] at h
  split at h
  · rename_i hinteger
    simp at hinteger
  · split at h
    · cases h
    · cases h
      exact ⟨_, rfl⟩

theorem bare_of_head (hne : w ≠ []) (h : ∀ c ∈ w.head?, isDigit c = false) : Bare w where
  not_digits hall := by
    obtain ⟨c, r, rfl⟩ := List.exists_cons_of_ne_nil hne
    exact absurd (hall c List.mem_cons_self) (by rw [h c rfl]; decide)
  not_radix := by
    rintro ⟨letter, digits, rfl, -⟩
    cases h '0' rfl
  not_exponent := by
    rintro ⟨digits, letter, more, rfl, hdigits, hall, -⟩
    obtain ⟨d, digits, rfl⟩ := List.exists_cons_of_ne_nil hdigits
    exact absurd (hall d List.mem_cons_self) (by rw [h d rfl]; decide)

theorem tableName_run_iff (hne : w ≠ []) (hw : ∀ c ∈ w, isWordChar c = true) :
    Parser.tableName.run (tokens (String.ofList w)) = .ok (String.ofList w, []) ↔ Bare w := by
  have hfirst := standsFirst_word_iff hne hw spaced_nil
  constructor
  · intro h
    obtain ⟨t, ts, name, hts, ht⟩ := Parser.exists_name_of_tableName h
    by_contra hnot
    obtain ⟨c, r, rfl⟩ := List.exists_cons_of_ne_nil hne
    rw [tokens, String.toList_ofList] at hts
    obtain ⟨b, hnext, -⟩ := scan_eq_cons hts
    obtain ⟨before, c', r', l, hgap, -, hl, rfl, -⟩ := next_eq_token_iff.1 hnext
    cases (gap_of_gapItem?_eq_none (gapItem?_wordChar (hw c List.mem_cons_self) r)).symm.trans hgap
    have hnone := lexeme_not_bare hw hnot spaced_nil (by rwa [List.append_nil])
    cases hnone.symm.trans ht
  · intro h
    rw [(hfirst.2 h).tokens_eq]
    exact Parser.tableName_single rfl

theorem standsFirst_schema {schema : List Char} (hne : schema ≠ []) (hschema : ∀ c ∈ schema, isLetter c = true)
    (w : List Char) : StandsFirst (.word (String.ofList schema)) schema ('.' :: w) := by
  obtain ⟨c, r, rfl⟩ := List.exists_cons_of_ne_nil hne
  have hstart : ∀ d ∈ c :: r, isWordStart d = true := fun d hd => by simp [isWordStart, hschema d hd]
  have hchar : ∀ d ∈ c :: r, isWordChar d = true := fun d hd => by simp [isWordChar, hstart d hd]
  have hc := hchar c List.mem_cons_self
  rw [standsFirst_iff List.cons_append (gapItem?_wordChar hc _) (ne_of_isWordChar hc (by decide))]
  exact fun offset => lexeme_word offset (hstart c List.mem_cons_self)
    (fun d hd => hchar d (List.mem_cons_of_mem _ hd)) (by rintro d ⟨⟩; decide)

theorem standsFirst_dot (h : ∀ c ∈ w.head?, isDigit c = false) : StandsFirst .dot ['.'] w := by
  have hnone : w.head?.any isDigit = false := by
    cases w with
    | nil => rfl
    | cons c w => exact h c rfl
  rw [standsFirst_iff (List.singleton_append) (gapItem?_eq_none (by decide) fun h => absurd h (by decide)) (by decide)]
  intro offset
  change (if w.head?.any isDigit then number offset ('.' :: w) else .ok ⟨.dot, ['.'], w⟩) = _
  rw [hnone]
  rfl

/-- A point before a digit belongs to a number. -/
theorem kind_of_point {t : Token} {ts : Tokens} (h : ∃ c ∈ w.head?, isDigit c = true)
    (hscan : (scan ⟨offset, '.' :: w⟩).1 = .ok t :: ts) : ∃ x, t.kind = .real x := by
  obtain ⟨c, hhead, hc⟩ := h
  obtain ⟨b, hnext, -⟩ := scan_eq_cons hscan
  obtain ⟨before, c', r', l, hgap, -, hl, rfl, -⟩ := next_eq_token_iff.1 hnext
  have hitem : gapItem? ('.' :: w) = none := gapItem?_eq_none (by decide) fun h => absurd h (by decide)
  cases (gap_of_gapItem?_eq_none hitem).symm.trans hgap
  change (if w.head?.any isDigit then number _ ('.' :: w) else .ok ⟨.dot, ['.'], w⟩) = _ at hl
  rw [hhead, Option.any_some, hc, if_pos rfl] at hl
  exact number_point hl

theorem tableName_run_qualified_iff (hne : w ≠ []) (hw : ∀ c ∈ w, isWordChar c = true) {schema : List Char}
    (hschemaNe : schema ≠ []) (hschema : ∀ c ∈ schema, isLetter c = true) :
    Parser.tableName.run (tokens (String.ofList (schema ++ '.' :: w))) = .ok (String.ofList w, []) ↔
      ∀ c ∈ w.head?, isDigit c = false := by
  have hfirst := (standsFirst_schema hschemaNe hschema w).scan_eq 0
  rw [tokens, String.toList_ofList, Cursor.start, hfirst]
  constructor
  · intro h c hc
    by_contra hdigit
    have hpoint : ∃ c ∈ w.head?, isDigit c = true := ⟨c, hc, by simpa using hdigit⟩
    have hname : String.ofList w = String.ofList schema := by
      refine Parser.eq_of_tableName rfl (fun u hu => ?_) h
      obtain ⟨ts, hts⟩ := List.head?_eq_some_iff.1 hu
      obtain ⟨x, hx⟩ := kind_of_point hpoint hts
      rw [hx]
      rintro ⟨⟩
    -- The name would start with a digit and with a letter.
    obtain rfl := String.ofList_injective hname
    have hletter : isLetter c = true := hschema c (List.mem_of_mem_head? hc)
    have hstart : isWordStart c = true := by simp [isWordStart, hletter]
    exact hdigit (isDigit_of_isWordStart hstart)
  · intro h
    have hdot := (standsFirst_dot h).scan_eq (0 + byteLength schema)
    have hword := ((standsFirst_word_iff hne hw spaced_nil).2 (bare_of_head hne h)).scan_eq
      (0 + byteLength schema + byteLength ['.'])
    rw [List.append_nil, scan_end] at hword
    rw [List.singleton_append] at hdot
    rw [hdot, hword]
    exact Parser.tableName_qualified rfl rfl rfl

/-- A run of word characters is one word if and only if it is no number, in any base, and does not start as one with an
exponent. A table is named by such a run and by no other one; behind the name of a schema it is named by a run that
does not start with a digit. -/
theorem bare_names_read (hne : w ≠ []) (hw : ∀ c ∈ w, isWordChar c = true) :
    (∀ z, Spaced z → (StandsFirst (.word (String.ofList w)) w z ↔ Bare w)) ∧
    (Parser.tableName.run (tokens (String.ofList w)) = .ok (String.ofList w, []) ↔ Bare w) ∧
    ∀ schema, schema ≠ [] → (∀ c ∈ schema, isLetter c = true) →
      (Parser.tableName.run (tokens (String.ofList (schema ++ '.' :: w))) = .ok (String.ofList w, []) ↔
        ∀ c ∈ w.head?, isDigit c = false) :=
  ⟨fun _ hz => standsFirst_word_iff hne hw hz, tableName_run_iff hne hw,
    fun _ hschemaNe hschema => tableName_run_qualified_iff hne hw hschemaNe hschema⟩

theorem ordinal_names_read :
    StandsFirst (.word "1st_col") "1st_col".toList " int".toList ∧
    Parser.tableName.run (tokens "1st_col") = .ok ("1st_col", []) ∧
    Parser.tableName.run (tokens "db.col_1") = .ok ("col_1", []) := by
  have hordinal := bare_names_read (w := "1st_col".toList) (by decide) (List.all_eq_true.1 rfl)
  have hplain := bare_names_read (w := "col_1".toList) (by decide) (List.all_eq_true.1 rfl)
  have hstart : ∀ c ∈ "col_1".toList.head?, isDigit c = false := by
    rintro c ⟨⟩
    rfl
  exact ⟨(hordinal.1 _ (spaced_cons rfl _)).2 (by decide), hordinal.2.1.2 (by decide),
    (hplain.2.2 "db".toList (by decide) (List.all_eq_true.1 rfl)).2 hstart⟩

/-- Neither run is a number, but one is refused and the other one is lost behind the name of its schema. -/
theorem bare_names_astray :
    ((∀ c ∈ "1example".toList, isWordChar c = true) ∧ ¬ RadixLiteral "1example".toList ∧
      ¬ ∃ digits letter more, "1example".toList = digits ++ letter :: more ∧ (∀ c ∈ digits ++ more, isDigit c = true)) ∧
    tokens "1example " = [.error (.invalidNumber "1e" 0)] ∧
    Parser.tableName.run (tokens "1example") = .error (.lexical (.invalidNumber "1e" 0)) ∧
    Bare "1st".toList ∧ (Parser.tableName.run (tokens "db.1st")).map Prod.fst = .ok "db" := by
  refine ⟨⟨List.all_eq_true.1 rfl, by decide, ?_⟩, by decide +kernel, by decide +kernel, by decide,
    by decide +kernel⟩
  rintro ⟨digits, letter, more, he, hdigits⟩
  -- Seven of the characters are no digits, and the letter is only one of them.
  have hcount := congrArg (List.countP fun c => !isDigit c) he
  have hnone : (digits ++ more).countP (fun c => !isDigit c) = 0 := by
    rw [List.countP_eq_zero]
    exact fun c hc => by simp [hdigits c hc]
  have hcounted : "1example".toList.countP (fun c => !isDigit c) = 7 := by decide
  rw [List.countP_append] at hnone
  rw [hcounted, List.countP_append, List.countP_cons] at hcount
  split at hcount <;> omega

end DdlCatalog.Sql
