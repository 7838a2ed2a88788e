import DdlCatalog.Proofs.Reading.Gaps

/-!
Words and numbers by bytes. A number is read from the slice that it takes, which is the same as in its text.
-/

namespace DdlCatalog.Sql.Bytes

variable {text cs rest : List Char} {place start : Nat} {c x : Char}

/-! ### Words and numbers -/

/-- What a lexeme gives where it starts. -/
def ofLexeme (start : Nat) : Except LexFault Lexeme → Except Stop (TokenKind × Nat)
  | .ok l => .ok (l.kind, start + byteLength l.text)
  | .error f => refuse f.error

theorem Placed.byte?_eq_some_iff (h : Placed text place cs) (hx : x.toNat < 128) :
    (bytes text)[place]? = some x ↔ cs.head? = some x := by
  rw [h.byte?, Option.map_eq_some_iff]
  constructor
  · rintro ⟨d, hd, hlead⟩
    rw [hd, (leadByte_eq_iff hx).1 hlead]
  · exact fun hd => ⟨x, hd, leadByte_ascii hx⟩

theorem Placed.any_byte? (h : Placed text place cs) {p : Char → Bool} (hp : Uniform p) :
    (bytes text)[place]?.any p = cs.head?.any p := by
  rw [h.byte?]
  cases cs with
  | nil => rfl
  | cons c r => exact hp.leadByte_eq c

theorem Placed.readWord_eq (h : Placed text start cs) : readWord text start = ofLexeme start (.ok (word cs)) := by
  rw [readWord, h.passWhile_eq uniform_isWordChar, h.slice_run isWordChar]
  rfl

theorem Placed.passFraction_eq (h : Placed text place cs) :
    passFraction text place = place + byteLength (fractionText cs).1 := by
  rw [passFraction]
  split
  · rename_i hpoint
    obtain ⟨r, rfl⟩ := List.head?_eq_some_iff.1 ((h.byte?_eq_some_iff (by decide)).1 hpoint)
    have hdigits : Placed text (place + 1) r := h.tail_ascii (by decide)
    rw [hdigits.passWhile_eq uniform_isDigit, fractionText, byteLength_cons, utf8Size_ascii (by decide), Nat.add_assoc]
  · rename_i hpoint
    rw [h.byte?_eq_some_iff (by decide)] at hpoint
    rw [fractionText_other hpoint, byteLength_nil, Nat.add_zero]

theorem Placed.passSign_eq (h : Placed text place cs) :
    passSign text place = place + byteLength (signText cs).1 := by
  rw [passSign]
  split
  · rename_i hsign
    rcases hsign with hsign | hsign
    · obtain ⟨r, rfl⟩ := List.head?_eq_some_iff.1 ((h.byte?_eq_some_iff (by decide)).1 hsign)
      rfl
    · obtain ⟨r, rfl⟩ := List.head?_eq_some_iff.1 ((h.byte?_eq_some_iff (by decide)).1 hsign)
      rfl
  · rename_i hsign
    have hother : ∀ c ∈ cs.head?, c ≠ '+' ∧ c ≠ '-' := by
      refine fun c hc => ⟨?_, ?_⟩
      · rintro rfl
        exact hsign (.inl ((h.byte?_eq_some_iff (by decide)).2 hc))
      · rintro rfl
        exact hsign (.inr ((h.byte?_eq_some_iff (by decide)).2 hc))
    rw [signText_other hother, byteLength_nil, Nat.add_zero]

theorem exponentText_letter (hc : c = 'e' ∨ c = 'E') (r : List Char) : exponentText (c :: r) =
    (⟨[c], (signText r).1, (signText r).2.takeWhile isDigit⟩, (signText r).2.dropWhile isDigit) := by
  rw [exponentText, if_pos (by simpa using hc)]

theorem Placed.passExponent_eq (h : Placed text place cs) :
    passExponent text place = place + byteLength (exponentText cs).1.text := by
  rw [passExponent]
  split
  · rename_i hletter
    obtain ⟨c, r, rfl, hc⟩ : ∃ c r, cs = c :: r ∧ (c = 'e' ∨ c = 'E') := by
      rcases hletter with hletter | hletter
      · obtain ⟨r, rfl⟩ := List.head?_eq_some_iff.1 ((h.byte?_eq_some_iff (by decide)).1 hletter)
        exact ⟨_, r, rfl, .inl rfl⟩
      · obtain ⟨r, rfl⟩ := List.head?_eq_some_iff.1 ((h.byte?_eq_some_iff (by decide)).1 hletter)
        exact ⟨_, r, rfl, .inr rfl⟩
    have hascii : c.toNat < 128 := by rcases hc with rfl | rfl <;> decide
    have hsign : Placed text (place + 1) r := h.tail_ascii hascii
    have hdigits : Placed text (place + 1 + byteLength (signText r).1) (signText r).2 := by
      refine Placed.after ?_
      rwa [signText_append]
    rw [hsign.passSign_eq, hdigits.passWhile_eq uniform_isDigit, exponentText_letter hc]
    simp only [ExponentText.text, byteLength_append, byteLength_cons, byteLength_nil, utf8Size_ascii hascii]
    omega
  · rename_i hletter
    have hlower : cs.head? ≠ some 'e' := fun he => hletter (.inl ((h.byte?_eq_some_iff (by decide)).2 he))
    have hupper : cs.head? ≠ some 'E' := fun he => hletter (.inr ((h.byte?_eq_some_iff (by decide)).2 he))
    rw [exponentText_other hlower hupper]
    rfl

/-! A numeral by itself is read as it is read in its text. -/

theorem exponentText_cases (cs : List Char) : (exponentText cs = (⟨[], [], []⟩, cs)) ∨
    ∃ c r, cs = c :: r ∧ (c = 'e' ∨ c = 'E') ∧ exponentText cs =
      (⟨[c], (signText r).1, (signText r).2.takeWhile isDigit⟩, (signText r).2.dropWhile isDigit) := by
  cases cs with
  | nil => exact .inl rfl
  | cons c r =>
      by_cases hc : c = 'e' ∨ c = 'E'
      · exact .inr ⟨c, r, rfl, hc, exponentText_letter hc r⟩
      · exact .inl (exponentText_cons_other hc r)

theorem exponentText_head (cs : List Char) : ∀ c ∈ (exponentText cs).1.text.head?, c = 'e' ∨ c = 'E' := by
  rcases exponentText_cases cs with h | ⟨c, r, rfl, hc, h⟩
  · rw [h]
    rintro c ⟨⟩
  · rw [h]
    rintro d ⟨⟩
    exact hc

theorem signText_alone {digits : List Char} (hdigits : ∀ c ∈ digits, isDigit c = true) (cs : List Char) :
    signText ((signText cs).1 ++ digits) = ((signText cs).1, digits) := by
  have hnone : signText digits = ([], digits) := by
    refine signText_other fun c hc => ?_
    have := hdigits c (List.mem_of_mem_head? hc)
    constructor <;> (rintro rfl; cases this)
  fun_cases signText cs with
  | case1 => rfl
  | case2 => rfl
  | case3 => exact hnone

theorem exponentText_alone (cs : List Char) :
    exponentText (exponentText cs).1.text = ((exponentText cs).1, []) := by
  rcases exponentText_cases cs with h | ⟨c, r, rfl, hc, h⟩
  · rw [h]
    rfl
  · have hdigits := List.all_eq_true.1 (List.all_takeWhile (p := isDigit) (l := (signText r).2))
    have hend : ∀ d ∈ ([] : List Char).head?, isDigit d = false := fun d hd => by cases hd
    have htake := takeWhile_run hdigits hend
    have hdrop := dropWhile_run hdigits hend
    rw [List.append_nil] at htake hdrop
    rw [h, ExponentText.text, List.append_assoc, List.singleton_append, exponentText_letter hc, signText_alone hdigits]
    dsimp only
    rw [htake, hdrop]

theorem fractionText_alone {following : List Char} (hfollowing : ∀ c ∈ following.head?, c ≠ '.' ∧ isDigit c = false)
    (cs : List Char) : fractionText ((fractionText cs).1 ++ following) = ((fractionText cs).1, following) := by
  fun_cases fractionText cs with
  | case1 r =>
      have hdigits := List.all_eq_true.1 (List.all_takeWhile (p := isDigit) (l := r))
      have hend : ∀ c ∈ following.head?, isDigit c = false := fun c hc => (hfollowing c hc).2
      change ('.' :: (r.takeWhile isDigit ++ following).takeWhile isDigit,
        (r.takeWhile isDigit ++ following).dropWhile isDigit) = _
      rw [takeWhile_run hdigits hend, dropWhile_run hdigits hend]
  | case2 => exact fractionText_other fun he => (hfollowing '.' he).1 rfl

theorem fractionText_head (cs : List Char) : ∀ c ∈ (fractionText cs).1.head?, c = '.' := by
  fun_cases fractionText cs with
  | case1 r =>
      rintro c ⟨⟩
      rfl
  | case2 => rintro c ⟨⟩

section Numbers

variable (cs) in
/-- The parts of the number at the start of a text, and what follows them. -/
structure Numeral (whole fraction : List Char) (exponent : ExponentText) (rest : List Char) : Prop where
  whole_eq : cs.takeWhile isDigit = whole
  fraction_eq : fractionText (cs.dropWhile isDigit) = (fraction, exponent.text ++ rest)
  exponent_eq : exponentText (exponent.text ++ rest) = (exponent, rest)

variable {whole fraction : List Char} {exponent : ExponentText}

theorem exists_numeral (cs : List Char) : ∃ whole fraction exponent rest, Numeral cs whole fraction exponent rest := by
  have happend := exponentText_append (fractionText (cs.dropWhile isDigit)).2
  exact ⟨_, (fractionText (cs.dropWhile isDigit)).1, (exponentText (fractionText (cs.dropWhile isDigit)).2).1,
    (exponentText (fractionText (cs.dropWhile isDigit)).2).2, rfl, by rw [happend], by rw [happend]⟩

namespace Numeral

theorem dropWhile_eq (h : Numeral cs whole fraction exponent rest) :
    cs.dropWhile isDigit = fraction ++ (exponent.text ++ rest) := by
  have hfraction := fractionText_append (cs.dropWhile isDigit)
  rwa [h.fraction_eq, eq_comm] at hfraction

theorem append_eq (h : Numeral cs whole fraction exponent rest) : whole ++ (fraction ++ (exponent.text ++ rest)) = cs := by
  rw [← h.dropWhile_eq, ← h.whole_eq, List.takeWhile_append_dropWhile]

theorem letter_eq_nil_iff (h : Numeral cs whole fraction exponent rest) : exponent.letter = [] ↔ exponent.text = [] := by
  rcases exponentText_cases (exponent.text ++ rest) with he | ⟨c, r, -, -, he⟩
  · obtain ⟨rfl, -⟩ := Prod.mk.inj (h.exponent_eq.symm.trans he)
    exact ⟨fun _ => rfl, fun _ => rfl⟩
  · obtain ⟨rfl, -⟩ := Prod.mk.inj (h.exponent_eq.symm.trans he)
    simp [ExponentText.text]

/-- Nothing follows the digits just when the number is an integer. -/
theorem stop_eq_iff (h : Numeral cs whole fraction exponent rest) :
    place + byteLength fraction + byteLength exponent.text = place ↔ (fraction = [] && exponent.letter = []) = true := by
  rw [Bool.and_eq_true, decide_eq_true_eq, decide_eq_true_eq, h.letter_eq_nil_iff]
  have := length_le_byteLength fraction
  have := length_le_byteLength exponent.text
  constructor
  · intro hplace
    exact ⟨List.eq_nil_of_length_eq_zero (by omega), List.eq_nil_of_length_eq_zero (by omega)⟩
  · rintro ⟨hfraction, hexponent⟩
    rw [hfraction, hexponent]
    rfl

/-- A number by itself has the same parts. -/
theorem alone (h : Numeral cs whole fraction exponent rest) :
    Numeral (whole ++ (fraction ++ exponent.text)) whole fraction exponent [] := by
  have hwhole : ∀ c ∈ whole, isDigit c = true := by
    rw [← h.whole_eq]
    exact List.all_eq_true.1 List.all_takeWhile
  have hexponent : ∀ c ∈ exponent.text.head?, c ≠ '.' ∧ isDigit c = false := by
    intro c hc
    have := exponentText_head (exponent.text ++ rest) c
    rw [h.exponent_eq] at this
    rcases this hc with rfl | rfl <;> decide
  have hfraction : fractionText (fraction ++ exponent.text) = (fraction, exponent.text) := by
    have := fractionText_alone hexponent (cs.dropWhile isDigit)
    rwa [h.fraction_eq] at this
  have hpoint := fractionText_head (cs.dropWhile isDigit)
  rw [h.fraction_eq] at hpoint
  have hhead : ∀ c ∈ (fraction ++ exponent.text).head?, isDigit c = false := by
    intro c hc
    cases fraction with
    | nil => exact (hexponent c hc).2
    | cons d places =>
        rw [hpoint c hc]
        decide
  refine ⟨takeWhile_run hwhole hhead, ?_, ?_⟩
  · rw [dropWhile_run hwhole hhead, hfraction, List.append_nil]
  · have := exponentText_alone (exponent.text ++ rest)
    rwa [h.exponent_eq, ← List.append_nil exponent.text] at this

theorem number_eq (h : Numeral cs whole fraction exponent rest) (offset : Nat) : number offset cs =
    if fraction = [] && exponent.letter = [] then
      if rest.head?.any isWordChar then .ok (word cs)
      else .ok ⟨integerKind whole, whole ++ fraction ++ exponent.text, rest⟩
    else if exponent.letter ≠ [] && exponent.digits = [] then
      .error ⟨.invalidNumber (String.ofList (whole ++ fraction ++ exponent.text)) offset, rest,
        whole ++ fraction ++ exponent.text⟩
    else .ok ⟨.real (Decimal.nearest (Decimal.valueOf (whole ++ fraction.drop 1))
      (exponent.value - (fraction.drop 1).length)), whole ++ fraction ++ exponent.text, rest⟩ := by
  rw [number]
  simp only [h.whole_eq, h.fraction_eq, h.exponent_eq]

theorem kind_alone (h : Numeral cs whole fraction exponent rest) (hreal : ¬ (fraction = [] && exponent.letter = []) = true)
    (offset : Nat) : numeralKind? (whole ++ (fraction ++ exponent.text)) = (number offset cs).toOption.map Lexeme.kind := by
  rw [numeralKind?, h.alone.number_eq, h.number_eq, if_neg hreal, if_neg hreal]
  split
  · rfl
  · rfl

theorem kind_alone_integer (h : Numeral cs whole fraction exponent rest)
    (hinteger : (fraction = [] && exponent.letter = []) = true) :
    numeralKind? (whole ++ (fraction ++ exponent.text)) = some (integerKind whole) := by
  rw [numeralKind?, h.alone.number_eq, if_pos hinteger]
  rfl

theorem readNumber_eq (h : Numeral cs whole fraction exponent rest) (hplaced : Placed text start cs) :
    readNumber text start = ofLexeme start (number start cs) := by
  have hfraction : Placed text (start + byteLength whole) (fraction ++ (exponent.text ++ rest)) := by
    refine Placed.after ?_
    rwa [h.append_eq]
  have hexponent := hfraction.after
  have hrest := hexponent.after
  have hwholeplace : passWhile text isDigit start = start + byteLength whole := by
    rw [hplaced.passWhile_eq uniform_isDigit, h.whole_eq]
  have hfractionplace := hfraction.passFraction_eq
  rw [← h.dropWhile_eq, h.fraction_eq] at hfractionplace
  have hexponentplace := hexponent.passExponent_eq
  rw [h.exponent_eq] at hexponentplace
  dsimp only at hfractionplace hexponentplace
  have hslice : slice text start (start + byteLength whole + byteLength fraction + byteLength exponent.text) =
      .ok (whole ++ (fraction ++ exponent.text)) := by
    have hnumber : Placed text start ((whole ++ (fraction ++ exponent.text)) ++ rest) := by
      rwa [List.append_assoc, List.append_assoc, h.append_eq]
    rw [← hnumber.slice_eq, byteLength_append, byteLength_append, Nat.add_assoc, Nat.add_assoc]
  have hlength : start + byteLength whole + byteLength fraction + byteLength exponent.text =
      start + byteLength (whole ++ fraction ++ exponent.text) := by
    rw [byteLength_append, byteLength_append]
    omega
  rw [readNumber, hwholeplace, hfractionplace, hexponentplace, hrest.any_byte? uniform_isWordChar, hslice, h.number_eq]
  by_cases hinteger : (fraction = [] && exponent.letter = []) = true
  · rw [if_pos hinteger]
    by_cases hword : rest.head?.any isWordChar = true
    · rw [if_pos ⟨h.stop_eq_iff.2 hinteger, hword⟩, if_pos hword, hplaced.readWord_eq]
    · rw [if_neg fun hboth => hword hboth.2, if_neg hword, hlength, ok_bind,
        h.kind_alone_integer hinteger]
      rfl
  · rw [if_neg fun hboth => hinteger (h.stop_eq_iff.1 hboth.1), if_neg hinteger, hlength, ok_bind,
      h.kind_alone hinteger start, h.number_eq, if_neg hinteger, ← List.append_assoc]
    by_cases hempty : (exponent.letter ≠ [] && exponent.digits = []) = true
    · rw [if_pos hempty]
      rfl
    · rw [if_neg hempty]
      rfl

end Numeral

end Numbers

theorem Placed.readNumber_eq (h : Placed text start cs) : readNumber text start = ofLexeme start (number start cs) := by
  obtain ⟨whole, fraction, exponent, rest, hnumeral⟩ := exists_numeral cs
  exact hnumeral.readNumber_eq h

end DdlCatalog.Sql.Bytes
