import DdlCatalog.Sql.Lexer

/-!
How lexemes start. The first character of a text says what its first lexeme is read as, for some characters together
with the one behind it.
-/

namespace DdlCatalog.Sql

/-- What a lexeme is read as: a mark of one character, a literal, a word, or nothing that there is. -/
inductive Opening
  | mark (kind : TokenKind)
  | number
  | string
  | quotedIdentifier
  | quotedDigits
  | radixDigits (letter : Char)
  | word
  | stray

/-- What a character starts that is no mark and no quote, whatever stands behind it. -/
def plainOpening (c : Char) : Opening :=
  if isDigit c then .number
  else if isWordStart c then .word
  else if isOperator c then .mark (.operator c)
  else .stray

/-- What a character starts, with the character behind it if there is one. -/
def opening (c : Char) (next : Option Char) : Opening :=
  match symbol? c with
  | some kind => .mark kind
  | none =>
    if c = '.' then if next.any isDigit then .number else .mark .dot
    else if c = '\'' || c = '"' then .string
    else if c = '\x60' then .quotedIdentifier
    else
      match next with
      | some d =>
        if d = '\'' && (c = 'x' || c = 'X' || c = 'b' || c = 'B') then .quotedDigits
        else if c = '0' && (d = 'x' || d = 'b') then .radixDigits d
        else plainOpening c
      | none => plainOpening c

/-- The first lexeme of a text that starts so. -/
def Opening.lexeme (offset : Nat) (c : Char) (r : List Char) : Opening → Except LexFault Lexeme
  | .mark kind => .ok ⟨kind, [c], r⟩
  | .number => Sql.number offset (c :: r)
  | .string => Sql.string offset c r
  | .quotedIdentifier => Sql.quotedIdentifier offset r
  | .quotedDigits => Sql.quotedDigits offset c r.tail
  | .radixDigits letter => Sql.radixDigits offset letter r.tail
  | .word => .ok (Sql.word (c :: r))
  | .stray => .error ⟨.unexpectedChar c offset, c :: r, []⟩

theorem lexeme_plain_eq (offset : Nat) (c : Char) (r : List Char) :
    lexeme.plain offset c r = (plainOpening c).lexeme offset c r := by
  rw [lexeme.plain, plainOpening]
  split
  · rfl
  · split
    · rfl
    · split <;> rfl

theorem lexeme_eq (offset : Nat) (c : Char) (r : List Char) :
    lexeme offset c r = (opening c r.head?).lexeme offset c r := by
  rw [lexeme.eq_def, opening.eq_def]
  cases symbol? c with
  | some kind => rfl
  | none =>
      dsimp only
      split
      · split <;> rfl
      · split
        · rfl
        · split
          · rfl
          · cases r with
            | nil => exact lexeme_plain_eq offset c []
            | cons d r =>
                dsimp only [List.head?_cons]
                split
                · rfl
                · split
                  · rfl
                  · exact lexeme_plain_eq offset c (d :: r)

/-- What the characters are that a lexeme starts with, for each opening. -/
inductive Opens (c : Char) (r : List Char) : Opening → Prop
  | mark {kind : TokenKind} (h : symbol? c = some kind ∨ kind = .dot ∨ kind = .operator c) : Opens c r (.mark kind)
  | digit (h : isDigit c = true) : Opens c r .number
  | point (hc : c = '.') (hr : r.head?.any isDigit = true) : Opens c r .number
  | string (h : c = '\'' ∨ c = '"') : Opens c r .string
  | quotedIdentifier (h : c = '\x60') : Opens c r .quotedIdentifier
  | quotedDigits {r' : List Char} (h : r = '\'' :: r') : Opens c r .quotedDigits
  | radixDigits {letter : Char} {r' : List Char} (hc : c = '0') (hletter : letter = 'x' ∨ letter = 'b')
      (hr : r = letter :: r') : Opens c r (.radixDigits letter)
  | word (h : isWordStart c = true) : Opens c r .word
  | stray : Opens c r .stray

variable {c : Char} {r : List Char} {next : Option Char}

theorem opens_plain (c : Char) (r : List Char) : Opens c r (plainOpening c) := by
  rw [plainOpening]
  split
  · rename_i hdigit
    exact .digit hdigit
  · split
    · rename_i hword
      exact .word hword
    · split
      · exact .mark (.inr (.inr rfl))
      · exact .stray

theorem opens_opening (c : Char) (r : List Char) : Opens c r (opening c r.head?) := by
  rw [opening.eq_def]
  cases hsymbol : symbol? c with
  | some kind => exact .mark (.inl hsymbol)
  | none =>
      dsimp only
      split
      · rename_i hdot
        split
        · rename_i hdigit
          exact .point hdot hdigit
        · exact .mark (.inr (.inl rfl))
      · split
        · rename_i hquote
          exact .string (by simpa using hquote)
        · split
          · rename_i htick
            exact .quotedIdentifier htick
          · cases r with
            | nil => exact opens_plain c []
            | cons d r =>
                dsimp only [List.head?_cons]
                split
                · rename_i hprefixed
                  obtain ⟨rfl, -⟩ : d = '\'' ∧ _ := by simpa using hprefixed
                  exact .quotedDigits rfl
                · split
                  · rename_i hradix
                    obtain ⟨hc, hletter⟩ : c = '0' ∧ (d = 'x' ∨ d = 'b') := by simpa using hradix
                    exact .radixDigits hc hletter rfl
                  · exact opens_plain c (d :: r)

/-- A lexeme by what it is read as. -/
theorem exists_opening (c : Char) (r : List Char) : ∃ o, opening c r.head? = o ∧ Opens c r o ∧
    ∀ offset, lexeme offset c r = o.lexeme offset c r :=
  ⟨_, rfl, opens_opening c r, fun offset => lexeme_eq offset c r⟩

/-! ### The character behind the first -/

/-- Two characters that are read together. -/
inductive Paired (c d : Char) : Opening → Prop
  | point (hc : c = '.') (hd : isDigit d = true) : Paired c d .number
  | quotedDigits (hd : d = '\'') : Paired c d .quotedDigits
  | radixDigits (hc : c = '0') (hd : d = 'x' ∨ d = 'b') : Paired c d (.radixDigits d)

/-- The character behind the first does not matter, unless they are read together. -/
theorem opening_alone_or_paired (c d : Char) :
    opening c (some d) = opening c none ∨ Paired c d (opening c (some d)) := by
  rw [opening.eq_def, opening.eq_def]
  cases symbol? c with
  | some kind => exact .inl rfl
  | none =>
      dsimp only
      by_cases hdot : c = '.'
      · rw [if_pos hdot, if_pos hdot]
        split
        · rename_i hdigit
          exact .inr (.point hdot hdigit)
        · exact .inl rfl
      rw [if_neg hdot, if_neg hdot]
      split
      · exact .inl rfl
      split
      · exact .inl rfl
      split
      · rename_i hprefixed
        obtain ⟨rfl, -⟩ : d = '\'' ∧ _ := by simpa using hprefixed
        exact .inr (.quotedDigits rfl)
      split
      · rename_i hradix
        obtain ⟨hc, hletter⟩ : c = '0' ∧ (d = 'x' ∨ d = 'b') := by simpa using hradix
        exact .inr (.radixDigits hc hletter)
      · exact .inl rfl

/-- Only a digit, a quote and the letters of the bases say something about the character before them. -/
def Neutral (d : Char) : Prop := isDigit d = false ∧ d ≠ '\'' ∧ d ≠ 'x' ∧ d ≠ 'b'

theorem opening_neutral (h : ∀ d ∈ next, Neutral d) : opening c next = opening c none := by
  cases next with
  | none => rfl
  | some d =>
      obtain ⟨hdigit, hquote, hx, hb⟩ := h d rfl
      refine (opening_alone_or_paired c d).resolve_right fun hpaired => ?_
      generalize opening c (some d) = o at hpaired
      cases hpaired with
      | point _ hd => exact absurd hd (by simp [hdigit])
      | quotedDigits hd => exact hquote hd
      | radixDigits _ hd => exact hd.elim hx hb

/-! ### Words and numbers -/

theorem isDigit_of_isWordStart {c : Char} (h : isWordStart c = true) : isDigit c = false := by
  simp only [isWordStart, isLetter, Bool.or_eq_true, Bool.and_eq_true, decide_eq_true_eq, Char.le_def,
    UInt32.le_iff_toNat_le] at h
  simp only [isDigit, Bool.and_eq_false_iff, decide_eq_false_iff_not, Char.le_def, UInt32.le_iff_toNat_le]
  rcases h with (((h | h) | rfl) | rfl) | h
  · exact .inr fun h' => absurd (Nat.le_trans h.1 h') (by decide)
  · exact .inr fun h' => absurd (Nat.le_trans h.1 h') (by decide)
  · decide
  · decide
  · exact .inr fun h' => absurd (Nat.le_trans h h') (by decide)

/-- A character of a word starts what it does alone, unless it is the letter before a quote or the zero of a base. -/
theorem opening_wordChar (hc : isWordChar c = true)
    (hquoted : next = some '\'' → c ≠ 'x' ∧ c ≠ 'X' ∧ c ≠ 'b' ∧ c ≠ 'B')
    (hradix : c = '0' → next ≠ some 'x' ∧ next ≠ some 'b') : opening c next = plainOpening c := by
  have hsymbol : symbol? c = none := by
    rw [symbol?.eq_def]
    split
    all_goals first | rfl | exact absurd hc (by decide)
  have hother : ∀ d ∈ ['.', '\'', '"', '\x60'], c ≠ d := by
    rintro d hd rfl
    simp only [List.mem_cons, List.not_mem_nil, or_false] at hd
    rcases hd with rfl | rfl | rfl | rfl
    all_goals exact absurd hc (by decide)
  rw [opening.eq_def, hsymbol]
  simp only [hother '.' (by simp), hother '\'' (by simp), hother '"' (by simp), hother '\x60' (by simp), decide_false,
    Bool.or_self, Bool.false_eq_true, if_false]
  cases next with
  | none => rfl
  | some d =>
      dsimp only
      rw [if_neg, if_neg]
      · intro h
        obtain ⟨hzero, hletter⟩ : c = '0' ∧ (d = 'x' ∨ d = 'b') := by simpa using h
        obtain ⟨hx, hb⟩ := hradix hzero
        rcases hletter with rfl | rfl
        · exact hx rfl
        · exact hb rfl
      · intro h
        obtain ⟨rfl, hletter⟩ : d = '\'' ∧ _ := by simpa only [Bool.and_eq_true, decide_eq_true_eq] using h
        obtain ⟨hx, hX, hb, hB⟩ := hquoted rfl
        simp [hx, hX, hb, hB] at hletter

theorem opening_number (hc : isDigit c = true) (hradix : c = '0' → next ≠ some 'x' ∧ next ≠ some 'b') :
    opening c next = .number := by
  have hchar : isWordChar c = true := by simp [isWordChar, hc]
  have hne (d : Char) (hd : isDigit d = false) : c ≠ d := by
    rintro rfl
    cases hc.symm.trans hd
  have hletters : c ≠ 'x' ∧ c ≠ 'X' ∧ c ≠ 'b' ∧ c ≠ 'B' :=
    ⟨hne _ (by decide), hne _ (by decide), hne _ (by decide), hne _ (by decide)⟩
  rw [opening_wordChar hchar (fun _ => hletters) hradix, plainOpening, if_pos hc]

theorem opening_word (hc : isWordStart c = true)
    (hquoted : next = some '\'' → c ≠ 'x' ∧ c ≠ 'X' ∧ c ≠ 'b' ∧ c ≠ 'B') : opening c next = .word := by
  have hchar : isWordChar c = true := by simp [isWordChar, hc]
  have hdigit := isDigit_of_isWordStart hc
  have hzero : c ≠ '0' := by
    rintro rfl
    cases hdigit
  rw [opening_wordChar hchar hquoted fun h => absurd h hzero, plainOpening, if_neg (by simp [hdigit]), if_pos hc]

theorem lexeme_eq_number {offset : Nat} (hc : isDigit c = true)
    (hradix : c = '0' → r.head? ≠ some 'x' ∧ r.head? ≠ some 'b') : lexeme offset c r = number offset (c :: r) := by
  rw [lexeme_eq, opening_number hc hradix]
  rfl

theorem lexeme_eq_word {offset : Nat} (hc : isWordStart c = true)
    (hquoted : r.head? = some '\'' → c ≠ 'x' ∧ c ≠ 'X' ∧ c ≠ 'b' ∧ c ≠ 'B') :
    lexeme offset c r = .ok (word (c :: r)) := by
  rw [lexeme_eq, opening_word hc hquoted]
  rfl

end DdlCatalog.Sql
