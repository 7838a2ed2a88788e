import DdlCatalog.Proofs.Spelling.Text
import DdlCatalog.Sql.Scan

/-!
Tokens read from their texts. A blank, a semicolon or the end of the script ends a token, and a semicolon
is a token whatever follows it.
-/

namespace DdlCatalog.Sql

/-- The next character ends the token before it. -/
def Separates (cs : List Char) : Prop := ∀ c ∈ cs.head?, c = ' ' ∨ c = ';'

variable {rest : List Char}

theorem Separates.not_digit (h : Separates rest) : ∀ c ∈ rest.head?, isDigit c = false := by
  intro c hc
  rcases h c hc with rfl | rfl <;> decide

theorem Separates.head?_ne (h : Separates rest) {c : Char} (hc : c ∉ [' ', ';']) :
    rest.head? ≠ some c := fun he => hc (by simpa using h c he)

theorem Separates.ends_word (h : Separates rest) : ∀ c ∈ rest.head?, isWordChar c = false ∧ c ≠ '\'' := by
  intro c hc
  rcases h c hc with rfl | rfl <;> decide

/-- The next character does not belong to a number before it. -/
def EndsNumber (cs : List Char) : Prop := ∀ c ∈ cs.head?, isWordChar c = false ∧ c ≠ '.'

theorem Separates.ends_number (h : Separates rest) : EndsNumber rest := by
  intro c hc
  rcases h c hc with rfl | rfl <;> decide

section Runs

variable {p : Char → Bool} {cs : List Char}

theorem takeWhile_run (h : ∀ c ∈ cs, p c = true) (hrest : ∀ c ∈ rest.head?, p c = false) :
    (cs ++ rest).takeWhile p = cs := by
  rw [List.takeWhile_append_of_pos h]
  cases rest with
  | nil => simp
  | cons c rest => simp [hrest c rfl]

theorem dropWhile_run (h : ∀ c ∈ cs, p c = true) (hrest : ∀ c ∈ rest.head?, p c = false) :
    (cs ++ rest).dropWhile p = rest := by
  rw [List.dropWhile_append_of_pos h]
  cases rest with
  | nil => rfl
  | cons c rest => simp [hrest c rfl]

end Runs

/-! ### Quoted texts -/

theorem identifierBody?_other {c : Char} (h : c ≠ '\x60') (cs : List Char) :
    identifierBody? (c :: cs) = (identifierBody? cs).map fun (v, t, rest) => (c :: v, c :: t, rest) := by
  rw [identifierBody?.eq_def]
  simp only [if_neg h]

theorem identifierBody?_closed (h : rest.head? ≠ some '\x60') :
    identifierBody? ('\x60' :: rest) = some ([], ['\x60'], rest) := by
  cases rest with
  | nil => rfl
  | cons c rest => simpa [identifierBody?] using h

/-- Characters with the backticks among them doubled stand for themselves, whatever follows. -/
theorem identifierBody?_doubled (cs more : List Char) : identifierBody? (doubled ['\x60'] cs ++ more) =
    (identifierBody? more).map fun (v, t, rest) => (cs ++ v, doubled ['\x60'] cs ++ t, rest) := by
  induction cs with
  | nil => exact Option.map_id'.symm
  | cons c cs ih =>
      rw [doubled_cons]
      by_cases hc : c = '\x60'
      · simp [hc, identifierBody?, ih, Function.comp_def]
      · simp [hc, identifierBody?_other hc, ih, Function.comp_def]

variable {quote : Char}

theorem stringBody?_other {c : Char} (hquote : c ≠ quote) (hslash : c ≠ '\\') (cs : List Char) :
    stringBody? quote (c :: cs) = (stringBody? quote cs).map fun (v, t, rest) => (c :: v, c :: t, rest) := by
  rw [stringBody?.eq_def]
  simp only [if_neg hquote, if_neg hslash]

theorem stringBody?_closed (h : rest.head? ≠ some quote) :
    stringBody? quote (quote :: rest) = some ([], [quote], rest) := by
  cases rest with
  | nil => simp [stringBody?]
  | cons c rest => simpa [stringBody?] using h

/-- Characters with the quotes and backslashes among them doubled stand for themselves, whatever follows. -/
theorem stringBody?_doubled (quote : Char) (cs more : List Char) :
    stringBody? quote (doubled [quote, '\\'] cs ++ more) =
      (stringBody? quote more).map fun (v, t, rest) => (cs ++ v, doubled [quote, '\\'] cs ++ t, rest) := by
  induction cs with
  | nil => exact Option.map_id'.symm
  | cons c cs ih =>
      rw [doubled_cons]
      by_cases hquote : c = quote
      · simp [hquote, stringBody?, ih, Function.comp_def]
      by_cases hslash : c = '\\'
      · rw [hslash] at hquote
        simp [hslash, hquote, stringBody?, ih, unescape, Function.comp_def]
      · simp [hquote, hslash, stringBody?_other hquote hslash, ih, Function.comp_def]

/-! ### Lexemes -/

theorem lexeme_word {c : Char} {cs : List Char} (offset : Nat) (hc : isWordStart c = true)
    (hcs : ∀ d ∈ cs, isWordChar d = true) (hrest : ∀ d ∈ rest.head?, isWordChar d = false ∧ d ≠ '\'') :
    lexeme offset c (cs ++ rest) = .ok ⟨.word (String.ofList (c :: cs)), c :: cs, rest⟩ := by
  have hchar : isWordChar c = true := by simp [isWordChar, hc]
  have hall : ∀ d ∈ c :: cs, isWordChar d = true := List.forall_mem_cons.2 ⟨hchar, hcs⟩
  have hnext : (cs ++ rest).head? ≠ some '\'' := by
    intro hd
    cases cs with
    | nil => exact (hrest _ hd).2 rfl
    | cons d cs => exact absurd (hcs d List.mem_cons_self) (by rw [Option.some.inj hd]; decide)
  have hends : ∀ d ∈ rest.head?, isWordChar d = false := fun d hd => (hrest d hd).1
  rw [lexeme_eq_word hc fun hd => absurd hd hnext, word, ← List.cons_append, takeWhile_run hall hends,
    dropWhile_run hall hends]

/-! ### Numbers -/

theorem fractionText_other {cs : List Char} (h : cs.head? ≠ some '.') : fractionText cs = ([], cs) := by
  unfold fractionText
  split
  · exact absurd rfl h
  · rfl

theorem exponentText_other {cs : List Char} (h : cs.head? ≠ some 'e') (h' : cs.head? ≠ some 'E') :
    exponentText cs = (⟨[], [], []⟩, cs) := by
  unfold exponentText
  split
  · rfl
  · rename_i c r
    have hc : (decide (c = 'e') || decide (c = 'E')) = false := by simpa using And.intro h h'
    simp only [hc, Bool.false_eq_true, if_false]

theorem fractionText_cons_other {c : Char} (h : c ≠ '.') (cs : List Char) : fractionText (c :: cs) = ([], c :: cs) :=
  fractionText_other fun hc => h (Option.some.inj hc)

theorem exponentText_cons_other {c : Char} (h : ¬ (c = 'e' ∨ c = 'E')) (cs : List Char) :
    exponentText (c :: cs) = (⟨[], [], []⟩, c :: cs) :=
  exponentText_other (fun hc => h (.inl (Option.some.inj hc))) fun hc => h (.inr (Option.some.inj hc))

theorem isDigit_of_not_wordChar {c : Char} (h : isWordChar c = false) : isDigit c = false :=
  (Bool.or_eq_false_iff.1 h).2

theorem number_integer {digits : List Char} (offset : Nat) (hdigits : ∀ d ∈ digits, isDigit d = true)
    (hrest : EndsNumber rest) : number offset (digits ++ rest) = .ok ⟨integerKind digits, digits, rest⟩ := by
  have hnot : ∀ c ∈ rest.head?, isDigit c = false := fun c hc => isDigit_of_not_wordChar (hrest c hc).1
  have hne {c : Char} (hc : isWordChar c = true ∨ c = '.') : rest.head? ≠ some c := by
    intro he
    obtain ⟨hword, hpoint⟩ := hrest c he
    exact hc.elim (fun h => absurd (h.symm.trans hword) (by decide)) hpoint
  have hword : rest.head?.any isWordChar = false := by
    cases rest with
    | nil => rfl
    | cons c rest => exact (hrest c rfl).1
  unfold number
  simp only [takeWhile_run hdigits hnot, dropWhile_run hdigits hnot, fractionText_other (hne (.inr rfl)),
    exponentText_other (hne (.inl (by decide))) (hne (.inl (by decide))), hword, ExponentText.text]
  simp

theorem signText_digits {digits : List Char} (h : ∀ d ∈ digits, isDigit d = true) (hne : digits ≠ []) :
    signText (digits ++ rest) = ([], digits ++ rest) := by
  cases digits with
  | nil => exact absurd rfl hne
  | cons d digits =>
      have hd := h d List.mem_cons_self
      unfold signText
      split
      · rename_i he
        cases he
        exact absurd hd (by decide)
      · rename_i he
        cases he
        exact absurd hd (by decide)
      · rfl

namespace Numeral

variable (n : Numeral)

/-- The exponent as the lexer takes it apart. -/
def exponentParts : ExponentText :=
  n.exponent.elim ⟨[], [], []⟩ fun e => ⟨['e'], if e.1 then ['-'] else [], e.2⟩

theorem text_exponentParts : n.exponentParts.text = n.exponentText := by
  rw [exponentParts, exponentText]
  cases n.exponent with
  | none => rfl
  | some e => rfl

theorem value_exponentParts : n.exponentParts.value = n.shift := by
  rw [exponentParts, shift]
  cases n.exponent with
  | none => rfl
  | some e =>
      obtain ⟨negative, digits⟩ := e
      cases negative <;> rfl

theorem exponentText_append (hrest : Separates rest) :
    Sql.exponentText (n.exponentText ++ rest) = (n.exponentParts, rest) := by
  rw [exponentText, exponentParts]
  cases he : n.exponent with
  | none => exact exponentText_other (hrest.head?_ne (by decide)) (hrest.head?_ne (by decide))
  | some e =>
      obtain ⟨negative, digits⟩ := e
      obtain ⟨hdigits, hne⟩ := n.exponent_digits _ he
      cases negative with
      | false =>
          simp [Sql.exponentText, signText_digits hdigits hne, takeWhile_run hdigits hrest.not_digit,
            dropWhile_run hdigits hrest.not_digit]
      | true =>
          simp [Sql.exponentText, signText, takeWhile_run hdigits hrest.not_digit,
            dropWhile_run hdigits hrest.not_digit]

theorem exponent_head (hrest : Separates rest) : ∀ c ∈ (n.exponentText ++ rest).head?, c ∈ ['e', ' ', ';'] := by
  intro c hc
  rw [exponentText] at hc
  cases he : n.exponent with
  | none =>
      rw [he] at hc
      simpa using .inr (hrest c hc)
  | some e =>
      rw [he] at hc
      obtain rfl := Option.some.inj hc
      decide

/-- What follows the first digits. -/
theorem fraction_head (hrest : Separates rest) :
    ∀ c ∈ (n.fractionText ++ (n.exponentText ++ rest)).head?, c ∈ ['.', 'e', ' ', ';'] := by
  intro c hc
  rw [fractionText] at hc
  cases hf : n.fraction with
  | none =>
      rw [hf] at hc
      exact List.mem_cons_of_mem _ (n.exponent_head hrest c hc)
  | some digits =>
      rw [hf] at hc
      obtain rfl := Option.some.inj hc
      decide

theorem not_digit {c : Char} (h : c ∈ ['.', 'e', ' ', ';']) : isDigit c = false := by
  simp only [List.mem_cons, List.not_mem_nil, or_false] at h
  rcases h with rfl | rfl | rfl | rfl <;> decide

theorem fractionText_append (hrest : Separates rest) :
    Sql.fractionText (n.fractionText ++ (n.exponentText ++ rest)) = (n.fractionText, n.exponentText ++ rest) := by
  have hnext : ∀ c ∈ (n.exponentText ++ rest).head?, isDigit c = false :=
    fun c hc => not_digit (List.mem_cons_of_mem _ (n.exponent_head hrest c hc))
  rw [fractionText]
  cases hf : n.fraction with
  | none =>
      exact fractionText_other fun hpoint => absurd (n.exponent_head hrest '.' hpoint) (by decide)
  | some digits =>
      have hdigits := n.fraction_digits digits hf
      simp [Sql.fractionText, takeWhile_run hdigits hnext, dropWhile_run hdigits hnext]

end Numeral

theorem number_real (offset : Nat) (n : Numeral) (hrest : Separates rest) :
    number offset (n.text ++ rest) = .ok ⟨.real n.value, n.text, rest⟩ := by
  have hplaces : n.fractionText.drop 1 = n.fraction.getD [] := by
    rw [Numeral.fractionText]
    cases n.fraction <;> rfl
  have hreal : (decide (n.fractionText = []) && decide (n.exponentParts.letter = [])) = false := by
    have h := n.real
    rw [Numeral.fractionText, Numeral.exponentParts]
    cases hf : n.fraction with
    | some digits => rfl
    | none =>
        cases he : n.exponent with
        | some e => rfl
        | none => rw [hf, he] at h; cases h
  have hdigits : (decide (n.exponentParts.letter ≠ []) && decide (n.exponentParts.digits = [])) = false := by
    rw [Numeral.exponentParts]
    cases he : n.exponent with
    | none => rfl
    | some e => simp [(n.exponent_digits e he).2]
  have hnext : ∀ c ∈ (n.fractionText ++ (n.exponentText ++ rest)).head?, isDigit c = false :=
    fun c hc => Numeral.not_digit (n.fraction_head hrest c hc)
  unfold number
  simp only [Numeral.text, List.append_assoc, takeWhile_run n.whole_digits hnext,
    dropWhile_run n.whole_digits hnext, n.fractionText_append hrest, n.exponentText_append hrest, hreal, hdigits,
    hplaces, n.value_exponentParts, n.text_exponentParts]
  rfl

/-! ### Tokens -/

/-- The text is read as a token of the kind, with the rest after it. -/
def Lexed (k : TokenKind) (cs rest : List Char) : Prop :=
  ∀ offset, ∃ c r k', cs ++ rest = c :: r ∧ k'.folded = k ∧ lexeme offset c r = .ok ⟨k', cs, rest⟩ ∧
    gapItem? (c :: r) = none ∧ c ≠ '/'

theorem gapItem?_eq_none {c : Char} {r : List Char} (hc : isSpace c = false ∧ c ≠ '#' ∧ c ≠ '/')
    (hr : c = '-' → r.head? ≠ some '-') : gapItem? (c :: r) = none := by
  unfold gapItem?
  split
  · rename_i he
    cases he
    exact absurd rfl (hr rfl)
  · rename_i he
    cases he
    exact absurd rfl hc.2.1
  · rename_i he
    cases he
    exact absurd rfl hc.2.2
  · rename_i he
    cases he
    rw [if_neg (by simp [hc.1])]
  · rename_i he
    cases he

theorem ne_of_isWordChar {c d : Char} (hc : isWordChar c = true) (hd : isWordChar d = false) : c ≠ d := by
  rintro rfl
  rw [hc] at hd
  cases hd

theorem gapItem?_wordChar {c : Char} (hc : isWordChar c = true) (r : List Char) : gapItem? (c :: r) = none := by
  have hspace : isSpace c = false := by
    simp only [isSpace, decide_eq_false (ne_of_isWordChar hc (by decide : isWordChar ' ' = false)),
      decide_eq_false (ne_of_isWordChar hc (by decide : isWordChar '\t' = false)),
      decide_eq_false (ne_of_isWordChar hc (by decide : isWordChar '\n' = false)),
      decide_eq_false (ne_of_isWordChar hc (by decide : isWordChar '\x0c' = false)),
      decide_eq_false (ne_of_isWordChar hc (by decide : isWordChar '\r' = false)), Bool.or_self]
  exact gapItem?_eq_none ⟨hspace, ne_of_isWordChar hc (by decide), ne_of_isWordChar hc (by decide)⟩
    fun h => absurd h (ne_of_isWordChar hc (by decide))

theorem lexed_word {w : String} {cs : List Char} (hw : isKeyword w = true) (h : cs.map Char.toLower = w.toList)
    (hrest : Separates rest) : Lexed (.word w) cs rest := by
  have hstart : ∀ c ∈ cs, isWordStart c = true := by
    intro c hc
    simp only [isKeyword, Bool.and_eq_true, List.all_eq_true] at hw
    refine isWordStart_of_toLower (hw.2 _ ?_)
    rw [← h]
    exact List.mem_map_of_mem hc
  cases cs with
  | nil =>
      rw [List.map_nil] at h
      simp [isKeyword, ← h] at hw
  | cons c cs =>
      have hc := hstart c List.mem_cons_self
      have hchar : ∀ d ∈ c :: cs, isWordChar d = true := fun d hd => by simp [isWordChar, hstart d hd]
      have hfolded : (TokenKind.word (String.ofList (c :: cs))).folded = .word w := by
        have hlower : (String.ofList (c :: cs)).toLower = w := by
          have hmap : (String.ofList (c :: cs)).toLower = (String.ofList (c :: cs)).map Char.toLower := rfl
          rw [hmap, ← String.toList_inj, String.toList_map, String.toList_ofList, h]
        rw [TokenKind.folded, hlower]
      exact fun offset => ⟨c, cs ++ rest, _, rfl, hfolded,
        lexeme_word offset hc (fun d hd => hchar d (List.mem_cons_of_mem _ hd)) hrest.ends_word,
        gapItem?_wordChar (hchar c List.mem_cons_self) _, ne_of_isWordChar (hchar c List.mem_cons_self) (by decide)⟩

theorem lexed_quoted (s : String) (hrest : Separates rest) : Lexed (.quoted s) (quotedText s) rest := by
  intro offset
  refine ⟨'\x60', doubled ['\x60'] s.toList ++ ['\x60'] ++ rest, .quoted s, rfl, rfl, ?_,
    gapItem?_eq_none (by decide) (by simp), by decide⟩
  have hclosed := identifierBody?_closed (hrest.head?_ne (by decide) : rest.head? ≠ some '\x60')
  change quotedIdentifier offset _ = _
  rw [quotedIdentifier, List.append_assoc, List.singleton_append, identifierBody?_doubled, hclosed]
  simp only [Option.map_some, List.append_nil, String.ofList_toList, quotedText]

theorem lexed_string (s : String) (hrest : Separates rest) : Lexed (.string s) (stringText s) rest := by
  intro offset
  refine ⟨'\'', doubled ['\'', '\\'] s.toList ++ ['\''] ++ rest, .string s, rfl, rfl, ?_,
    gapItem?_eq_none (by decide) (by simp), by decide⟩
  have hclosed := stringBody?_closed (hrest.head?_ne (by decide) : rest.head? ≠ some '\'')
  change string offset '\'' _ = _
  rw [string, List.append_assoc, List.singleton_append, stringBody?_doubled, hclosed]
  simp only [Option.map_some, List.append_nil, String.ofList_toList, stringText]

theorem lexed_number {k : TokenKind} {digits tail : List Char} (hdigits : ∀ c ∈ digits, isDigit c = true)
    (hne : digits ≠ []) (hnext : ∀ c ∈ (tail ++ rest).head?, c ∈ ['.', 'e', ' ', ';'])
    (h : ∀ offset, number offset (digits ++ (tail ++ rest)) = .ok ⟨k, digits ++ tail, rest⟩)
    (hk : k.folded = k) : Lexed k (digits ++ tail) rest := by
  cases digits with
  | nil => exact absurd rfl hne
  | cons c digits =>
      have hc := hdigits c List.mem_cons_self
      have hchar : isWordChar c = true := by simp [isWordChar, hc]
      have hafter : ∀ d ∈ (digits ++ (tail ++ rest)).head?, d ∉ ['x', 'b'] := by
        intro d hd
        cases digits with
        | nil =>
            have hother : ∀ d ∈ ['.', 'e', ' ', ';'], d ∉ ['x', 'b'] := by simp
            exact hother d (hnext d hd)
        | cons d' digits =>
            have hother : ∀ d ∈ ['x', 'b'], isDigit d = false := by simp [isDigit]
            obtain rfl := Option.some.inj hd
            intro hmem
            exact absurd (hdigits d' (by simp)) (by rw [hother d' hmem]; decide)
      refine fun offset => ⟨c, digits ++ (tail ++ rest), k, by simp, hk, ?_, gapItem?_wordChar hchar _,
        ne_of_isWordChar hchar (by decide)⟩
      have hradix : (digits ++ (tail ++ rest)).head? ≠ some 'x' ∧ (digits ++ (tail ++ rest)).head? ≠ some 'b' :=
        ⟨fun hd => hafter _ hd (by simp), fun hd => hafter _ hd (by simp)⟩
      rw [lexeme_eq_number hc fun _ => hradix]
      exact h offset

theorem integerKind_toDigits (n : Nat) : integerKind (Nat.toDigits 10 n) =
    if n < Nat.pow 2 63 then .integer (Int64.ofNat n) else .real (Decimal.nearest n 0) := by
  rw [integerKind, Decimal.valueOf_toDigits]

theorem integerKind_of_nonneg {n : Int64} (h : 0 ≤ n.toInt) :
    integerKind (Nat.toDigits 10 n.toInt.toNat) = .integer n := by
  have hlt : n.toInt.toNat < Nat.pow 2 63 := by
    rw [Int.toNat_lt h]
    exact n.toInt_lt
  have hback : Int64.ofNat n.toInt.toNat = n := by
    rw [← Int64.ofInt_eq_ofNat, Int.toNat_of_nonneg h, Int64.ofInt_toInt]
  rw [integerKind_toDigits, if_pos hlt, hback]

theorem lexed_integer {n : Int64} (h : 0 ≤ n) (hrest : Separates rest) :
    Lexed (.integer n) (Nat.toDigits 10 n.toInt.toNat) rest := by
  have hkind := integerKind_of_nonneg (Int64.le_iff_toInt_le.1 h)
  have hdigits : ∀ c ∈ Nat.toDigits 10 n.toInt.toNat, isDigit c = true :=
    fun c hc => Decimal.isDigit_of_mem_toDigits hc
  have hlexed : Lexed (.integer n) (Nat.toDigits 10 n.toInt.toNat ++ []) rest := by
    refine lexed_number hdigits Nat.toDigits_ne_nil (fun c hc => ?_) (fun offset => ?_) rfl
    · have hsep := hrest c hc
      simpa using .inr (.inr hsep)
    · rw [List.nil_append, List.append_nil, ← hkind]
      exact number_integer offset hdigits hrest.ends_number
  rwa [List.append_nil] at hlexed

theorem lexed_symbol {c : Char} {k : TokenKind} (h : symbol? c = some k) (hrest : Separates rest) :
    Lexed k [c] rest := by
  have hlexeme (offset : Nat) : lexeme offset c rest = .ok ⟨k, [c], rest⟩ := by
    rw [lexeme.eq_def, h]
  unfold symbol? at h
  split at h
  case h_8 => cases h
  all_goals
    cases h
    exact fun offset => ⟨_, rest, _, rfl, rfl, hlexeme offset,
      gapItem?_eq_none (by decide) fun _ => hrest.head?_ne (by decide), by decide⟩

theorem lexed_semicolon (rest : List Char) : Lexed .semicolon [';'] rest :=
  fun _ => ⟨';', rest, .semicolon, rfl, rfl, rfl, gapItem?_eq_none (by decide) (by simp), by decide⟩

theorem lexed_of_isText {k : TokenKind} {cs : List Char} (hk : k.Writable) (ht : k.IsText cs)
    (hrest : Separates rest) : Lexed k cs rest := by
  cases k with
  | word w => exact lexed_word hk ht hrest
  | quoted s =>
      rw [show cs = _ from ht]
      exact lexed_quoted s hrest
  | string s =>
      rw [show cs = _ from ht]
      exact lexed_string s hrest
  | integer n =>
      rw [show cs = _ from ht]
      exact lexed_integer hk hrest
  | real x =>
      obtain ⟨n, rfl, rfl⟩ := ht
      refine lexed_number n.whole_digits n.whole_nonempty ?_ (fun offset => ?_) rfl
      · rw [List.append_assoc]
        exact n.fraction_head hrest
      · simpa [Numeral.text] using number_real offset n hrest
  | _ =>
      obtain ⟨c, hc, rfl⟩ := ht
      exact lexed_symbol hc hrest

/-! ### Scripts -/

/-- The characters are read as tokens of the kinds. -/
def Scans (cs : List Char) (ks : List TokenKind) : Prop := ∀ offset, Spelled ks (scan ⟨offset, cs⟩).1

theorem gap_of_gapItem?_eq_none {cs : List Char} (h : gapItem? cs = none) : gap cs = ([], cs) := by
  rw [gap]
  split
  · rfl
  · rename_i he
    rw [h] at he
    cases he

theorem gapItem?_space {c : Char} (h : isSpace c = true) (r : List Char) : gapItem? (c :: r) = some ([c], r) := by
  simp only [isSpace, Bool.or_eq_true, decide_eq_true_eq] at h
  rcases h with (((rfl | rfl) | rfl) | rfl) | rfl
  all_goals rfl

theorem gap_of_gapItem? {cs item rest : List Char} (h : gapItem? cs = some (item, rest)) :
    gap cs = (item ++ (gap rest).1, (gap rest).2) := by
  rw [gap]
  split
  · rename_i he
    rw [h] at he
    cases he
  · rename_i he
    rw [h] at he
    cases he
    rfl

theorem gap_space {c : Char} {cs : List Char} (hc : isSpace c = true) (h : gapItem? cs = none) :
    gap (c :: cs) = ([c], cs) := by
  rw [gap_of_gapItem? (gapItem?_space hc cs), gap_of_gapItem?_eq_none h]
  rfl

theorem scan_eq (a : Cursor) : scan a =
    match a.next with
    | (.ok none, c) => ([], c)
    | (.error e, c) => ([.error e], c)
    | (.ok (some t), c) => (.ok t :: (scan c).1, (scan c).2) := by
  rw [scan]
  split
  all_goals
    rename_i he
    rw [he]

theorem scan_step {a b : Cursor} {t : Token} (h : a.next = (.ok (some t), b)) :
    scan a = (.ok t :: (scan b).1, (scan b).2) := by rw [scan_eq, h]

theorem scan_of_next {a b : Cursor} {t : Token} (h : a.next = (.ok (some t), b)) :
    (scan a).1 = .ok t :: (scan b).1 := congrArg Prod.fst (scan_step h)

theorem scans_nil : Scans [] [] := by
  intro offset
  have hnext : Cursor.next ⟨offset, []⟩ = (.ok none, ⟨offset, []⟩) := by
    unfold Cursor.next
    rw [gap_of_gapItem?_eq_none rfl]
    rfl
  rw [scan]
  split
  · exact .nil
  · rename_i he
    rw [hnext] at he
    cases he
  · rename_i he
    rw [hnext] at he
    cases he

/-- A token, perhaps after a blank. -/
theorem scans_token {k : TokenKind} {ks : List TokenKind} {blank cs : List Char}
    (hblank : blank = [] ∨ blank = [' ']) (h : Lexed k cs rest) (hrest : Scans rest ks) :
    Scans (blank ++ (cs ++ rest)) (k :: ks) := by
  intro offset
  have hgap : gap (blank ++ (cs ++ rest)) = (blank, cs ++ rest) := by
    obtain ⟨c, r, -, hcs, -, -, hitem, -⟩ := h 0
    rw [hcs]
    rcases hblank with rfl | rfl
    · exact gap_of_gapItem?_eq_none hitem
    · exact gap_space rfl hitem
  obtain ⟨c, r, k', hcs, hfolded, hlexeme, -, hslash⟩ := h (offset + byteLength blank)
  have hnext : Cursor.next ⟨offset, blank ++ (cs ++ rest)⟩ = (.ok (some ⟨k', offset + byteLength blank, cs, blank⟩),
      ⟨offset + byteLength blank + byteLength cs, rest⟩) := by
    unfold Cursor.next
    rw [hgap, hcs]
    simp only
    split
    · rename_i he
      cases he
    · rename_i he
      cases he
      exact absurd rfl hslash
    · rename_i he
      cases he
      rw [hlexeme]
  rw [scan_of_next hnext]
  exact .cons ⟨_, rfl, hfolded⟩ (hrest _)

end DdlCatalog.Sql
