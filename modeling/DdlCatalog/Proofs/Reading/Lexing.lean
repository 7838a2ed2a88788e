import DdlCatalog.Proofs.Reading.Quoted

/-!
Lexing by bytes. From a place between two characters the bytes give the token that the characters give, or refuse
the text for the same reason, and no byte or slice on the way is out of place.
-/

namespace DdlCatalog.Sql.Bytes

variable {text rest cs r : List Char} {place start : Nat} {c x : Char}

/-! ### Lexemes -/

/-- What is read from a place on, by how it starts. -/
def readOpened (text : List Char) (start : Nat) : Opening → Except Stop (TokenKind × Nat)
  | .mark kind => .ok (kind, start + 1)
  | .number => readNumber text start
  | .string => readString text start
  | .quotedIdentifier => readQuoted text start
  | .quotedDigits => readPrefixed text start
  | .radixDigits _ => readRadix text start
  | .word => readWord text start
  | .stray => do
    let ahead ← sliceFrom text start
    refuse (.unexpectedChar (ahead.headD '\ufffd') start)

theorem readPlain_eq (text : List Char) (start : Nat) (hdot : c ≠ '.') :
    (if isDigit c ∨ c = '.' then readNumber text start
    else if isWordStart c then readWord text start
    else if isOperator c then .ok (.operator c, start + 1)
    else do
      let ahead ← sliceFrom text start
      refuse (.unexpectedChar (ahead.headD '\ufffd') start)) = readOpened text start (plainOpening c) := by
  rw [plainOpening]
  by_cases hdigit : isDigit c = true
  · rw [if_pos (.inl hdigit), if_pos hdigit]
    rfl
  rw [if_neg (not_or.2 ⟨hdigit, hdot⟩), if_neg hdigit]
  split
  · rfl
  · split <;> rfl

/-- A byte and the one behind it start what characters of the same values do. -/
theorem readLexeme_opening (text : List Char) (start : Nat) (c : Char) :
    readLexeme text start c = readOpened text start (opening c (bytes text)[start + 1]?) := by
  rw [readLexeme, opening.eq_def]
  generalize (bytes text)[start + 1]? = next
  cases symbol? c with
  | some kind => rfl
  | none =>
      dsimp only
      by_cases hdot : c = '.'
      · subst hdot
        rw [if_pos rfl]
        by_cases hdigit : next.any isDigit = true
        · rw [if_neg (by simp [hdigit]), if_neg (by decide), if_neg (by decide), if_neg (by simp), if_neg (by simp),
            if_pos (.inr rfl), if_pos hdigit]
          rfl
        · rw [if_pos (by simp [hdigit]), if_neg hdigit]
          rfl
      rw [if_neg fun hc => hdot hc.1, if_neg hdot]
      simp only [Bool.or_eq_true, decide_eq_true_eq]
      split
      · rfl
      split
      · rfl
      have hplain := readPlain_eq text start hdot
      cases next with
      | none =>
          rw [if_neg (by simp), if_neg (by simp)]
          exact hplain
      | some d =>
          simp only [Option.some.injEq, Bool.and_eq_true, Bool.or_eq_true, decide_eq_true_eq, or_assoc,
            and_comm (a := d = '\'')]
          split
          · rfl
          · split
            · rfl
            · exact hplain

theorem neutral_beyond (h : 128 ≤ c.toNat) : Neutral c :=
  ⟨isDigit_beyond h, ne_of_beyond h (by decide), ne_of_beyond h (by decide), ne_of_beyond h (by decide)⟩

theorem opening_beyond (h : 128 ≤ c.toNat) (next : Option Char) : opening c next = .word :=
  opening_word (isWordStart_beyond h) fun _ =>
    ⟨ne_of_beyond h (by decide), ne_of_beyond h (by decide), ne_of_beyond h (by decide), ne_of_beyond h (by decide)⟩

/-- A character beyond ASCII says as little about the one before it as its first byte does. -/
theorem opening_leadByte (c : Char) (next : Option Char) : opening c (next.map leadByte) = opening c next := by
  have hneutral {d : Char} (hd : 128 ≤ d.toNat) : opening c (some d) = opening c none :=
    opening_neutral (by rintro e ⟨⟩; exact neutral_beyond hd)
  cases next with
  | none => rfl
  | some d =>
      rw [Option.map_some]
      rcases Nat.lt_or_ge d.toNat 128 with hd | hd
      · rw [leadByte_ascii hd]
      · rw [hneutral (le_leadByte hd), hneutral hd]

/-- What a character in ASCII starts. -/
theorem Placed.readLexeme_ascii (h : Placed text start (c :: r)) (hc : c.toNat < 128) :
    readLexeme text start c = ofLexeme start (lexeme start c r) := by
  have hnext : Placed text (start + 1) r := h.tail_ascii hc
  have hopens := opens_opening c r
  rw [readLexeme_opening, hnext.byte?, opening_leadByte, lexeme_eq]
  generalize opening c r.head? = o at hopens ⊢
  cases hopens with
  | mark =>
      dsimp only [readOpened, Opening.lexeme, ofLexeme]
      rw [byteLength_cons, byteLength_nil, utf8Size_ascii hc]
  | digit => exact h.readNumber_eq
  | point => exact h.readNumber_eq
  | string => exact h.readString_eq
  | quotedIdentifier htick => subst htick; exact h.readQuoted_eq
  | quotedDigits hr => subst hr; exact h.readPrefixed_eq hc
  | radixDigits hzero hletter hr =>
      subst hzero hr
      exact h.readRadix_eq (by rcases hletter with rfl | rfl <;> decide)
  | word => exact h.readWord_eq
  | stray =>
      dsimp only [readOpened]
      rw [h.sliceFrom_eq]
      rfl

/-- A byte starts what its character starts. -/
theorem Placed.readLexeme_eq (h : Placed text start (c :: r)) :
    readLexeme text start (leadByte c) = ofLexeme start (lexeme start c r) := by
  rcases Nat.lt_or_ge c.toNat 128 with hc | hc
  · rw [leadByte_ascii hc, h.readLexeme_ascii hc]
  · rw [readLexeme_opening, opening_beyond (le_leadByte hc), lexeme_eq, opening_beyond hc]
    exact h.readWord_eq

/-! ### Tokens -/

variable {a b : Cursor} {t : Token}

/-- From a place between two characters the bytes give the token that the characters give. -/
theorem lexAt_eq (h : Placed text a.offset a.rest) : lexAt text a.offset = ofNext a.next := by
  have hparts : Placed text a.offset ((gap a.rest).1 ++ (gap a.rest).2) := by rwa [gap_append]
  have hgap := hparts.after
  have hslice := hparts.slice_eq
  rw [lexAt, Cursor.next]
  by_cases hending : Unending (gap a.rest).2
  · rw [h.passGap_refused hending, refuse_bind]
    obtain ⟨body, hbody⟩ := hending
    generalize gap a.rest = g at hbody ⊢
    obtain ⟨before, rest⟩ := g
    obtain rfl : rest = _ := hbody
    rfl
  · rw [h.passGap_eq hending, ok_bind]
    generalize gap a.rest = g at hgap hslice hending ⊢
    obtain ⟨before, rest⟩ := g
    dsimp only at hgap hslice hending ⊢
    rw [hgap.byte?]
    cases rest with
    | nil => rfl
    | cons c r =>
        have hlexeme := hgap.readLexeme_eq
        dsimp only [List.head?_cons, Option.map_some]
        rw [hlexeme]
        split
        · rename_i he
          cases he
        · rename_i body he
          exact absurd ⟨body, he⟩ hending
        · rename_i he
          obtain ⟨rfl, rfl⟩ := List.cons.inj he
          cases hl : lexeme (a.offset + byteLength before) c r with
          | error f => rfl
          | ok l =>
              have hspelled : Placed text (a.offset + byteLength before) (l.text ++ l.rest) := by
                rwa [lexeme_append hl]
              dsimp only [ofLexeme]
              rw [ok_bind]
              dsimp only
              rw [hslice, ok_bind, hspelled.slice_eq, ok_bind]
              rfl

/-! ### Signs -/

section Signs

variable {k : TokenKind} {n : Int64} {offset : Nat} {found found' : Except LexFault Lexeme}

/-- A token that is an integer has no sign, so the integer is not negative. -/
def Unsigned (k : TokenKind) : Prop := ∀ n, k = .integer n → 0 ≤ n

/-- What is found, if anything, is no signed integer. -/
def FindsUnsigned (found : Except LexFault Lexeme) : Prop := ∀ l, found = .ok l → Unsigned l.kind

theorem finds_error (e : LexFault) : FindsUnsigned (.error e) := by rintro l ⟨⟩

theorem finds_ok {l : Lexeme} (h : Unsigned l.kind) : FindsUnsigned (.ok l) := by
  rintro l' ⟨⟩
  exact h

theorem finds_ite {p : Prop} [Decidable p] (h : FindsUnsigned found) (h' : FindsUnsigned found') :
    FindsUnsigned (if p then found else found') := by
  split
  · exact h
  · exact h'

theorem unsigned_integerKind (digits : List Char) : Unsigned (integerKind digits) := by
  intro n h
  rw [integerKind] at h
  split at h
  · rename_i hfits
    obtain rfl := TokenKind.integer.inj h
    rw [Int64.le_iff_toInt_le, Int64.toInt_ofNat_of_lt hfits]
    exact Int.natCast_nonneg _
  · cases h

theorem unsigned_digitsKind (hexadecimal : Bool) (digits : List Char) : Unsigned (digitsKind hexadecimal digits) := by
  cases hexadecimal <;> rintro n ⟨⟩

theorem unsigned_symbol (h : symbol? c = some k) : Unsigned k := by
  rintro n rfl
  rw [symbol?.eq_def] at h
  split at h <;> cases h

theorem finds_number : FindsUnsigned (number offset cs) := by
  rw [number]
  refine finds_ite (finds_ite (finds_ok ?_) (finds_ok (unsigned_integerKind _)))
    (finds_ite (finds_error _) (finds_ok ?_))
  · rintro n ⟨⟩
  · rintro n ⟨⟩

theorem finds_string {quote : Char} : FindsUnsigned (string offset quote r) := by
  rw [string]
  split
  · exact finds_ok (by rintro n ⟨⟩)
  · exact finds_error _

theorem finds_quotedIdentifier : FindsUnsigned (quotedIdentifier offset r) := by
  rw [quotedIdentifier]
  split
  · exact finds_ok (by rintro n ⟨⟩)
  · exact finds_error _

theorem finds_quotedDigits : FindsUnsigned (quotedDigits offset c r) := by
  rw [quotedDigits]
  split
  · exact finds_error _
  · exact finds_ite (finds_ok (unsigned_digitsKind _ _)) (finds_error _)

theorem finds_radixDigits : FindsUnsigned (radixDigits offset c r) := by
  rw [radixDigits]
  exact finds_ite finds_number (finds_ok (unsigned_digitsKind _ _))

theorem finds_lexeme : FindsUnsigned (lexeme offset c r) := by
  have hopens := opens_opening c r
  rw [lexeme_eq]
  generalize opening c r.head? = o at hopens ⊢
  cases hopens with
  | mark hkind =>
      refine finds_ok ?_
      obtain hsymbol | rfl | rfl := hkind
      · exact unsigned_symbol hsymbol
      · rintro n ⟨⟩
      · rintro n ⟨⟩
  | digit => exact finds_number
  | point => exact finds_number
  | string => exact finds_string
  | quotedIdentifier => exact finds_quotedIdentifier
  | quotedDigits => exact finds_quotedDigits
  | radixDigits => exact finds_radixDigits
  | word => exact finds_ok (by rintro n ⟨⟩)
  | stray => exact finds_error _

theorem next_nonneg (h : a.next = (.ok (some t), b)) (hn : t.kind = .integer n) : 0 ≤ n := by
  obtain ⟨before, c, r, l, -, -, hl, rfl, -⟩ := next_eq_token_iff.1 h
  exact finds_lexeme l hl n hn

end Signs

theorem lexes (text : List Char) : Lexes text := ⟨lexAt_eq, next_nonneg⟩

end DdlCatalog.Sql.Bytes
