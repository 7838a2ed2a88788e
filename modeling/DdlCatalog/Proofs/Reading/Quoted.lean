import DdlCatalog.Proofs.Reading.Numerals

/-!
Quoted texts and digits after a letter by bytes.
-/

namespace DdlCatalog.Sql.Bytes

variable {text cs r : List Char} {place start : Nat} {c : Char}

/-! ### Quoted texts -/

/-- What the rest of a quoted text gives, from a place on. -/
def ofBody (place : Nat) (e : LexError) : Option (List Char × List Char × List Char) → Except Stop (List Char × Nat)
  | some (value, body, _) => .ok (value, place + byteLength body)
  | none => refuse e

variable {opened : List Char} {quote : Char}

/-- The start of a value before what the rest gives. -/
theorem ofBody_append (place : Nat) (started front : List Char) (e : LexError)
    (found : Option (List Char × List Char × List Char)) :
    (do
      let (value, stop) ← ofBody (place + byteLength front) e found
      return (started ++ value, stop)) =
    ofBody place e (found.map fun (value, body, rest) => (started ++ value, front ++ body, rest)) := by
  cases found with
  | none => rfl
  | some found => simp [ofBody, Nat.add_assoc]

theorem stringFrom_eq (h : Placed opened place cs) : stringFrom start opened quote cs place =
    ofBody place (.unterminatedString start) (stringBody? quote cs) := by
  fun_induction stringBody? quote cs generalizing place with
  | case1 =>
    rw [stringFrom]
    rfl
  | case2 =>
    rw [stringFrom, if_pos rfl, h.tail.sliceFrom_eq, ok_bind, if_neg (by simp)]
    simp [ofBody]
    rfl
  | case3 r ih =>
    rw [stringFrom, if_pos rfl, h.tail.sliceFrom_eq, ok_bind, List.head?_cons, if_pos rfl, List.tail_cons,
      ih h.tail.tail]
    simpa [Nat.add_assoc] using ofBody_append place [quote] [quote, quote] _ (stringBody? quote r)
  | case4 d r hd =>
    rw [stringFrom, if_pos rfl, h.tail.sliceFrom_eq, ok_bind, if_neg (by simpa using hd)]
    simp [ofBody]
    rfl
  | case5 hslash =>
    rw [stringFrom, if_neg hslash, if_pos rfl]
    rfl
  | case6 d r hslash ih =>
    rw [stringFrom, if_neg hslash, if_pos rfl, ih h.tail.tail]
    simpa [Nat.add_assoc] using ofBody_append place [unescape d] ['\\', d] _ (stringBody? quote r)
  | case7 c r hc hslash ih =>
    rw [stringFrom.eq_def]
    simp only [if_neg hc, if_neg hslash, ih h.tail]
    simpa using ofBody_append place [c] [c] _ (stringBody? quote r)

/-- Characters before the first backtick are taken as they are. -/
theorem identifierBody?_run {run : List Char} (h : '\x60' ∉ run) (cs : List Char) :
    identifierBody? (run ++ cs) =
      (identifierBody? cs).map fun (value, body, rest) => (run ++ value, run ++ body, rest) := by
  induction run with
  | nil =>
      rw [List.nil_append]
      cases identifierBody? cs <;> rfl
  | cons c run ih =>
      obtain ⟨hc, hrun⟩ := not_or.1 (mt List.mem_cons.2 h)
      rw [List.cons_append, identifierBody?_other (Ne.symm hc), ih hrun, Option.map_map]
      rfl

theorem find?_run {run : List Char} (h : c ∉ run) (r : List Char) : find? c (run ++ c :: r) = some (byteLength run) := by
  have hrun : ∀ d ∈ run, decide (d ≠ c) = true := fun d hd => decide_eq_true (by rintro rfl; exact h hd)
  rw [find?, if_pos (by simp), takeWhile_run hrun (by simp)]

/-- Up to the next backtick, and beyond it if another one follows. -/
theorem identifierFrom_run {run r : List Char} (hrun : '\x60' ∉ run) (h : Placed opened place (run ++ '\x60' :: r)) :
    identifierFrom start opened place =
      if r.head? = some '\x60' then do
        let (value, stop) ← identifierFrom start opened (place + byteLength run + 1 + 1)
        return (run ++ '\x60' :: value, stop)
      else .ok (run, place + byteLength run + 1) := by
  have hfollowing : Placed opened (place + byteLength run + 1) r := h.after.tail
  rw [identifierFrom]
  split
  · rename_i he
    cases h.sliceFrom_eq.symm.trans he
  · rename_i ahead hahead
    obtain rfl : run ++ '\x60' :: r = ahead := Except.ok.inj (h.sliceFrom_eq.symm.trans hahead)
    split
    · rename_i he
      cases (find?_run hrun r).symm.trans he
    · rename_i found hfound
      obtain rfl : byteLength run = found := Option.some.inj ((find?_run hrun r).symm.trans hfound)
      rw [h.slice_eq, ok_bind]
      dsimp only
      rw [hfollowing.sliceFrom_eq, ok_bind]
      rfl

theorem identifierFrom_unterminated (hmem : '\x60' ∉ cs) (h : Placed opened place cs) :
    identifierFrom start opened place = refuse (.unterminatedIdentifier start) := by
  have hnone : find? '\x60' cs = none := if_neg hmem
  rw [identifierFrom]
  split
  · rename_i he
    cases h.sliceFrom_eq.symm.trans he
  · rename_i ahead hahead
    obtain rfl : cs = ahead := Except.ok.inj (h.sliceFrom_eq.symm.trans hahead)
    split
    · rfl
    · rename_i hfound
      cases hnone.symm.trans hfound

theorem identifierFrom_eq {cs : List Char} {place : Nat} (h : Placed opened place cs) :
    identifierFrom start opened place =
      ofBody place (.unterminatedIdentifier start) (identifierBody? cs) := by
  by_cases hmem : '\x60' ∈ cs
  · obtain ⟨run, r, rfl, hrun⟩ := List.eq_append_cons_of_mem hmem
    have hsize : '\x60'.utf8Size = 1 := rfl
    rw [identifierFrom_run hrun h, identifierBody?_run hrun]
    split
    · rename_i hdoubled
      obtain ⟨r, rfl⟩ := List.head?_eq_some_iff.1 hdoubled
      have hafter : Placed opened (place + byteLength run + 1 + 1) r := h.after.tail.tail
      rw [identifierFrom_eq hafter]
      have := ofBody_append place (run ++ ['\x60']) (run ++ ['\x60', '\x60'])
        (.unterminatedIdentifier start) (identifierBody? r)
      simpa [identifierBody?, Nat.add_assoc, hsize, Option.map_map, Function.comp_def] using this
    · rename_i hsingle
      simp [identifierBody?_closed hsingle, ofBody, Nat.add_assoc, hsize]
  · have hnone : identifierBody? cs = none := by
      have := identifierBody?_run hmem []
      rw [List.append_nil] at this
      rw [this]
      rfl
    rw [identifierFrom_unterminated hmem h, hnone]
    rfl
termination_by cs.length

theorem Placed.readString_eq (h : Placed text start (quote :: r)) :
    readString text start = ofLexeme start (string start quote r) := by
  have hbody : Placed (quote :: r) quote.utf8Size r := by
    have := (placed_start (quote :: r)).tail
    rwa [Nat.zero_add] at this
  rw [readString, h.sliceFrom_eq, ok_bind]
  dsimp only
  rw [stringFrom_eq hbody, string]
  cases stringBody? quote r with
  | none => rfl
  | some found => simp [ofBody, ofLexeme]

theorem Placed.readQuoted_eq (h : Placed text start ('\x60' :: r)) :
    readQuoted text start = ofLexeme start (quotedIdentifier start r) := by
  have hopened : Placed text (start + 1) r := h.tail
  have hsize : '\x60'.utf8Size = 1 := rfl
  rw [readQuoted, hopened.sliceFrom_eq, ok_bind, identifierFrom_eq (placed_start r), quotedIdentifier]
  cases identifierBody? r with
  | none => rfl
  | some found => simp [ofBody, ofLexeme, hsize, Nat.add_assoc]

/-! ### Digits after a letter -/

theorem byteLength_ascii (h : ∀ c ∈ cs, c.toNat < 128) : byteLength cs = cs.length := by
  induction cs with
  | nil => rfl
  | cons c cs ih =>
      rw [byteLength_cons, utf8Size_ascii (h c List.mem_cons_self), ih fun d hd => h d (List.mem_cons_of_mem c hd),
        List.length_cons, Nat.add_comm]

theorem byteLength_digits (hexadecimal : Bool) (cs : List Char) :
    byteLength (cs.takeWhile (isRadixDigit hexadecimal)) = (cs.takeWhile (isRadixDigit hexadecimal)).length := by
  refine byteLength_ascii fun c hc => Nat.lt_of_not_le fun hbeyond => ?_
  have := List.all_eq_true.1 List.all_takeWhile c hc
  rw [isRadixDigit_beyond hexadecimal hbeyond] at this
  cases this

/-- What ends a run of digits: the end of the text, a quote, or a character that is refused. -/
def digitsEnd (place : Nat) : List Char → Except Stop Nat
  | [] => .ok place
  | c :: _ => if c = '\'' then .ok place else refuse (.invalidDigit (leadByte c) place)

theorem Placed.digitsFrom_eq (h : Placed text place cs) (hexadecimal : Bool) :
    digitsFrom text hexadecimal place =
      digitsEnd (place + byteLength (cs.takeWhile (isRadixDigit hexadecimal)))
        (cs.dropWhile (isRadixDigit hexadecimal)) := by
  induction cs generalizing place with
  | nil =>
      rw [digitsFrom]
      split
      · rfl
      · rename_i hb
        cases h.byte?.symm.trans hb
  | cons c r ih =>
      rw [digitsFrom]
      split
      · rename_i hb
        cases h.byte?.symm.trans hb
      · rename_i b hb
        obtain rfl : leadByte c = b := Option.some.inj (h.byte?.symm.trans hb)
        simp only [leadByte_eq_iff (c := c) (x := '\'') (by decide), (uniform_isRadixDigit hexadecimal).leadByte_eq]
        cases hdigit : isRadixDigit hexadecimal c with
        | false =>
            have hnot : ¬ isRadixDigit hexadecimal c = true := by rw [hdigit]; exact Bool.false_ne_true
            rw [if_neg Bool.false_ne_true, List.takeWhile_cons_of_neg hnot, List.dropWhile_cons_of_neg hnot]
            rfl
        | true =>
            have hquote : c ≠ '\'' := by
              rintro rfl
              cases hexadecimal <;> cases hdigit
            have hascii : c.toNat < 128 := Nat.lt_of_not_le fun hbeyond => by
              rw [isRadixDigit_beyond hexadecimal hbeyond] at hdigit
              cases hdigit
            have hnext : Placed text (place + 1) r := h.tail_ascii hascii
            rw [if_neg hquote, if_pos rfl, ih hnext, List.takeWhile_cons_of_pos hdigit,
              List.dropWhile_cons_of_pos hdigit, byteLength_cons, utf8Size_ascii hascii, Nat.add_assoc]

theorem Placed.byteAt_eq (h : Placed text place (c :: r)) : byteAt text place = .ok (leadByte c) := by
  rw [byteAt, h.byte?]
  rfl

variable {letter : Char}

theorem Placed.readPrefixed_eq (h : Placed text start (letter :: '\'' :: r)) (hletter : letter.toNat < 128) :
    readPrefixed text start = ofLexeme start (quotedDigits start letter r) := by
  have hdigits : Placed text (start + 2) r := (h.tail_ascii hletter).tail_ascii (by decide)
  rw [readPrefixed, h.byteAt_eq, leadByte_ascii hletter, ok_bind, quotedDigits]
  dsimp only
  generalize (decide (letter = 'x') || decide (letter = 'X')) = hexadecimal
  have hend := hdigits.after_run (isRadixDigit hexadecimal)
  have hlength := hend.le_length
  have hslice := hdigits.slice_run (isRadixDigit hexadecimal)
  rw [hdigits.digitsFrom_eq]
  cases hrest : r.dropWhile (isRadixDigit hexadecimal) with
  | nil =>
      rw [hrest, byteLength_nil, Nat.add_zero] at hlength
      rw [digitsEnd, ok_bind, if_pos (Nat.le_of_eq hlength.symm)]
      rfl
  | cons c rest =>
      rw [hrest, byteLength_cons] at hlength
      have hsize := c.utf8Size_pos
      dsimp only [digitsEnd]
      by_cases hquote : c = '\''
      · rw [if_pos hquote, if_pos hquote, ok_bind, if_neg (by omega), hslice, ok_bind]
        have hstop : start + 2 + byteLength (r.takeWhile (isRadixDigit hexadecimal)) + 1 =
            start + byteLength (letter :: '\'' :: r.takeWhile (isRadixDigit hexadecimal) ++ [c]) := by
          rw [hquote]
          simp only [byteLength_append, byteLength_cons, byteLength_nil, utf8Size_ascii hletter,
            utf8Size_ascii (c := '\'') (by decide)]
          omega
        rw [hstop]
        rfl
      · rw [if_neg hquote, if_neg hquote, byteLength_digits]
        rfl

theorem Placed.readRadix_eq (h : Placed text start ('0' :: letter :: r)) (hletter : letter.toNat < 128) :
    readRadix text start = ofLexeme start (radixDigits start letter r) := by
  have hnext : Placed text (start + 1) (letter :: r) := h.tail_ascii (by decide)
  have hdigits : Placed text (start + 2) r := hnext.tail_ascii hletter
  rw [readRadix, hnext.byteAt_eq, leadByte_ascii hletter, ok_bind, radixDigits]
  dsimp only
  generalize decide (letter = 'x') = hexadecimal
  have hend := hdigits.after_run (isRadixDigit hexadecimal)
  have hslice := hdigits.slice_run (isRadixDigit hexadecimal)
  rw [hdigits.passWhile_eq (uniform_isRadixDigit hexadecimal), hend.any_byte? uniform_isWordChar, hslice]
  have hnone : start + 2 + byteLength (r.takeWhile (isRadixDigit hexadecimal)) = start + 2 ↔
      r.takeWhile (isRadixDigit hexadecimal) = [] := by
    rw [byteLength_digits, Nat.add_eq_left, List.length_eq_zero_iff]
  by_cases hnumber : r.takeWhile (isRadixDigit hexadecimal) = [] ∨
      (r.dropWhile (isRadixDigit hexadecimal)).head?.any isWordChar = true
  · rw [if_pos (hnumber.imp_left hnone.2), if_pos (by simpa using hnumber), h.readNumber_eq]
  · have hstop : start + 2 + byteLength (r.takeWhile (isRadixDigit hexadecimal)) =
        start + byteLength ('0' :: letter :: r.takeWhile (isRadixDigit hexadecimal)) := by
      simp only [byteLength_cons, utf8Size_ascii hletter, utf8Size_ascii (c := '0') (by decide)]
      omega
    rw [if_neg (fun hboth => hnumber (hboth.imp_left hnone.1)), if_neg (by simpa using hnumber), ok_bind, hstop]
    rfl

end DdlCatalog.Sql.Bytes
