import DdlCatalog.Json.Numeral
import DdlCatalog.Proofs.Decimal.Digits
import Mathlib.Data.List.TakeWhile

/-!
Numbers written and read back. A numeral is read the same whatever follows it, as long as that does not
go on with it; integers are always read back, a float if reading rounds its digits to it again.
-/

namespace DdlCatalog

open Decimal

/-- The number that a text is the numeral of. -/
def Number.ofText? (text : String) : Option Number :=
  match Json.numeral text.toList with
  | some (n, []) => n.number?
  | _ => none

/-- A number that is read from the text it is written as. -/
def Number.ReadsBack (n : Number) : Prop := ofText? n.render = some n

instance (n : Number) : Decidable n.ReadsBack := inferInstanceAs (Decidable (Number.ofText? n.render = some n))

namespace Json

/-! ### What follows a numeral -/

/-- A character that no numeral goes on with. -/
def endsNumeral (c : Char) : Bool := !isDigit c && c != '.' && c != 'e' && c != 'E'

/-- A text that a numeral before it does not run into. -/
def Apart (rest : List Char) : Prop := ∀ c ∈ rest.head?, endsNumeral c = true

section Apart

variable {cs r rest : List Char}

theorem Apart.noDigit (h : Apart rest) : ∀ c ∈ rest.head?, isDigit c = false := by
  intro c hc
  have := h c hc
  simp only [endsNumeral, Bool.and_eq_true, Bool.not_eq_true'] at this
  exact this.1.1.1

theorem Apart.ne {d : Char} (h : Apart (d :: rest)) : d ≠ '.' ∧ d ≠ 'e' ∧ d ≠ 'E' := by
  have := h d rfl
  simp only [endsNumeral, Bool.and_eq_true, bne_iff_ne, ne_eq] at this
  exact ⟨this.1.1.2, this.1.2, this.2⟩

theorem digitRun_append {digits : List Char} (h : digitRun cs = some (digits, r)) (hrest : Apart rest) :
    digitRun (cs ++ rest) = some (digits, r ++ rest) := by
  cases cs with
  | nil => cases h
  | cons c cs =>
      rw [digitRun] at h
      split at h
      · rename_i hc
        cases h
        rw [List.cons_append, digitRun, if_pos hc, takeWhile_append_of_head hrest.noDigit,
          dropWhile_append_of_head hrest.noDigit]
      · cases h

theorem wholePart_append {digits : List Char} (h : wholePart cs = some (digits, r)) (hrest : Apart rest) :
    wholePart (cs ++ rest) = some (digits, r ++ rest) := by
  cases cs with
  | nil => cases h
  | cons c cs =>
      rw [wholePart] at h
      rw [List.cons_append, wholePart]
      split at h
      · rename_i hc
        cases h
        rw [if_pos hc]
      · rename_i hz
        rw [if_neg hz]
        split at h
        · rename_i hc
          cases h
          rw [if_pos hc, takeWhile_append_of_head hrest.noDigit, dropWhile_append_of_head hrest.noDigit]
        · cases h

theorem fractionPart_of_ne (h : ∀ c ∈ cs.head?, c ≠ '.') : fractionPart cs = some (none, cs) := by
  cases cs with
  | nil => rfl
  | cons c cs =>
      rw [fractionPart]
      rintro r he
      cases he
      exact h _ rfl rfl

theorem fractionPart_append {f : Option (List Char)} (h : fractionPart cs = some (f, r)) (hrest : Apart rest) :
    fractionPart (cs ++ rest) = some (f, r ++ rest) := by
  unfold fractionPart at h
  split at h
  · obtain ⟨⟨digits, r'⟩, hd, he⟩ := Option.map_eq_some_iff.1 h
    cases he
    simp [fractionPart, digitRun_append hd hrest]
  · rename_i hdot
    cases h
    apply fractionPart_of_ne
    cases cs with
    | nil =>
        rintro c hc rfl
        cases rest with
        | nil => cases hc
        | cons d rest => cases hc; exact hrest.ne.1 rfl
    | cons c cs =>
        rintro d hd rfl
        cases hd
        exact hdot cs rfl

theorem exponentDigits_append {e : Bool × List Char} (h : exponentDigits cs = some (e, r)) (hrest : Apart rest) :
    exponentDigits (cs ++ rest) = some (e, r ++ rest) := by
  unfold exponentDigits at h
  split at h
  · obtain ⟨⟨digits, r'⟩, hd, he⟩ := Option.map_eq_some_iff.1 h
    cases he
    simp [exponentDigits, digitRun_append hd hrest]
  · obtain ⟨⟨digits, r'⟩, hd, he⟩ := Option.map_eq_some_iff.1 h
    cases he
    simp [exponentDigits, digitRun_append hd hrest]
  · rename_i hminus hplus
    obtain ⟨⟨digits, r'⟩, hd, he⟩ := Option.map_eq_some_iff.1 h
    cases he
    cases cs with
    | nil => cases hd
    | cons c cs =>
        have hrun := digitRun_append hd hrest
        rw [List.cons_append] at hrun ⊢
        rw [exponentDigits, hrun]
        · rfl
        · rintro r he; cases he; exact hminus cs rfl
        · rintro r he; cases he; exact hplus cs rfl

theorem exponentPart_of_ne (h : ∀ c ∈ cs.head?, c ≠ 'e' ∧ c ≠ 'E') : exponentPart cs = some (none, cs) := by
  cases cs with
  | nil => rfl
  | cons c cs =>
      rw [exponentPart]
      · rintro r he; cases he; exact (h _ rfl).1 rfl
      · rintro r he; cases he; exact (h _ rfl).2 rfl

theorem exponentPart_append {e : Option (Bool × List Char)} (h : exponentPart cs = some (e, r))
    (hrest : Apart rest) : exponentPart (cs ++ rest) = some (e, r ++ rest) := by
  unfold exponentPart at h
  split at h
  · obtain ⟨⟨x, r'⟩, hd, he⟩ := Option.map_eq_some_iff.1 h
    cases he
    simp [exponentPart, exponentDigits_append hd hrest]
  · obtain ⟨⟨x, r'⟩, hd, he⟩ := Option.map_eq_some_iff.1 h
    cases he
    simp [exponentPart, exponentDigits_append hd hrest]
  · rename_i hlower hupper
    cases h
    apply exponentPart_of_ne
    cases cs with
    | nil =>
        intro c hc
        cases rest with
        | nil => cases hc
        | cons d rest => cases hc; exact hrest.ne.2
    | cons c cs =>
        rintro d hd
        cases hd
        exact ⟨fun he => hlower cs (he ▸ rfl), fun he => hupper cs (he ▸ rfl)⟩

theorem unsignedNumeral_append {negative : Bool} {n : Numeral} (h : unsignedNumeral negative cs = some (n, r))
    (hrest : Apart rest) : unsignedNumeral negative (cs ++ rest) = some (n, r ++ rest) := by
  simp only [unsignedNumeral, Option.bind_eq_bind, Option.bind_eq_some_iff, Prod.exists, Option.pure_def,
    Option.some.injEq, Prod.mk.injEq] at h ⊢
  obtain ⟨w, r₁, h₁, f, r₂, h₂, e, r₃, h₃, hn, rfl⟩ := h
  exact ⟨w, _, wholePart_append h₁ hrest, f, _, fractionPart_append h₂ hrest, e, _, exponentPart_append h₃ hrest,
    hn, rfl⟩

/-- A numeral starts with a minus or a digit. -/
theorem numeral_head {n : Numeral} (h : numeral cs = some (n, r)) :
    ∃ c cs', cs = c :: cs' ∧ (c = '-' ∨ isDigit c = true) := by
  unfold numeral at h
  split at h
  · exact ⟨_, _, rfl, .inl rfl⟩
  · simp only [unsignedNumeral, Option.bind_eq_bind, Option.bind_eq_some_iff, Prod.exists] at h
    obtain ⟨w, r₁, h₁, -⟩ := h
    unfold wholePart at h₁
    split at h₁
    · cases h₁
    · rename_i c cs' _
      refine ⟨c, cs', rfl, .inr ?_⟩
      split at h₁
      · rename_i hc; rw [hc]; decide
      · split at h₁
        · assumption
        · cases h₁

theorem numeral_append {n : Numeral} (h : numeral cs = some (n, r)) (hrest : Apart rest) :
    numeral (cs ++ rest) = some (n, r ++ rest) := by
  obtain ⟨c, cs', rfl, -⟩ := numeral_head h
  by_cases hc : c = '-'
  · subst hc
    have hunsigned : unsignedNumeral true cs' = some (n, r) := h
    exact unsignedNumeral_append hunsigned hrest
  · have hne (cs : List Char) : numeral (c :: cs) = unsignedNumeral false (c :: cs) := by
      rw [numeral]
      rintro r he
      cases he
      exact hc rfl
    rw [hne] at h
    rw [List.cons_append, hne]
    exact unsignedNumeral_append h hrest

end Apart

/-! ### Integers -/

theorem wholePart_toDigits (n : Nat) : wholePart (Nat.toDigits 10 n) = some (Nat.toDigits 10 n, []) := by
  rcases Nat.eq_zero_or_pos n with rfl | hn
  · rfl
  · obtain ⟨c, digits, hd, hc⟩ := toDigits_head hn
    have hall (d : Char) (hm : d ∈ c :: digits) : isDigit d = true :=
      isDigit_of_mem_toDigits (n := n) (by rwa [hd])
    have hdigits (d : Char) (hm : d ∈ digits) : isDigit d = true := hall d (List.mem_cons_of_mem _ hm)
    rw [hd, wholePart, if_neg hc, if_pos (hall c List.mem_cons_self), List.takeWhile_eq_self_iff.2 hdigits,
      List.dropWhile_eq_nil_iff.2 hdigits]

theorem unsignedNumeral_toDigits (negative : Bool) (n : Nat) :
    unsignedNumeral negative (Nat.toDigits 10 n) = some (⟨negative, Nat.toDigits 10 n, none, none⟩, []) := by
  simp [unsignedNumeral, wholePart_toDigits, fractionPart, exponentPart]

theorem foldl_pushWhole (digits : List Char) (n : Nat) (h : Nat.ofDigitChars 10 digits n < Nat.pow 2 64) :
    digits.foldl Significand.pushWhole ⟨n, 0, false⟩ = ⟨Nat.ofDigitChars 10 digits n, 0, false⟩ := by
  induction digits generalizing n with
  | nil => simp
  | cons c digits ih =>
      rw [Nat.ofDigitChars_cons] at h ⊢
      have hc : 10 * n + (c.toNat - 48) < Nat.pow 2 64 := lt_of_le_of_lt (le_ofDigitChars digits _) h
      have hpush : Significand.pushWhole ⟨n, 0, false⟩ c = ⟨10 * n + (c.toNat - 48), 0, false⟩ := by
        simp only [Significand.pushWhole, Significand.holds, Bool.not_false, Bool.true_and, decide_eq_true_eq, hc,
          if_true]
      rw [List.foldl_cons, hpush]
      exact ih _ h

theorem number?_toDigits {n : Nat} (h : n < Nat.pow 2 64) (negative : Bool) :
    (Numeral.mk negative (Nat.toDigits 10 n) none none).number? =
      if !negative then some (.integer n)
      else if 0 < n ∧ n ≤ Nat.pow 2 63 then some (.integer (-n))
      else (Significand.toFloat ⟨n, 0, false⟩ 0).map fun x => .real (-x) := by
  have hwhole : (Nat.toDigits 10 n).foldl Significand.pushWhole .zero = ⟨n, 0, false⟩ := by
    have hfold := foldl_pushWhole (Nat.toDigits 10 n) 0
    rw [Nat.ofDigitChars_ten_toDigits] at hfold
    exact hfold h
  cases negative <;> simp [Numeral.number?, hwhole, Numeral.isWhole, Numeral.shift]

end Json

namespace Number

open Json

theorem ofText?_append {text : String} {n : Number} (h : ofText? text = some n) {rest : List Char}
    (hrest : Apart rest) :
    ∃ numeral, Json.numeral (text.toList ++ rest) = some (numeral, rest) ∧ numeral.number? = some n := by
  rw [ofText?] at h
  split at h
  · rename_i numeral hn
    exact ⟨numeral, numeral_append hn hrest, h⟩
  · cases h

theorem natural_readsBack {n : Nat} (h : n < Nat.pow 2 64) : (integer n).ReadsBack := by
  have htext : (integer n).render.toList = Nat.toDigits 10 n := Nat.toList_repr
  obtain ⟨c, digits, hd, hc⟩ : ∃ c digits, Nat.toDigits 10 n = c :: digits ∧ c ≠ '-' := by
    cases hd : Nat.toDigits 10 n with
    | nil => exact absurd hd Nat.toDigits_ne_nil
    | cons c digits =>
        refine ⟨c, digits, rfl, ?_⟩
        rintro rfl
        exact absurd (isDigit_of_mem_toDigits (n := n) (c := '-') (by simp [hd])) (by decide)
  have hnumeral : numeral (Nat.toDigits 10 n) = some (⟨false, Nat.toDigits 10 n, none, none⟩, []) := by
    rw [← unsignedNumeral_toDigits, hd, numeral]
    rintro r he
    cases he
    exact hc rfl
  simp [ReadsBack, ofText?, htext, hnumeral, number?_toDigits h]

theorem negative_readsBack {n : Nat} (hpos : 0 < n) (h : n ≤ Nat.pow 2 63) : (integer (-n)).ReadsBack := by
  have htext : (integer (-n)).render.toList = '-' :: Nat.toDigits 10 n := by
    obtain ⟨m, rfl⟩ := Nat.exists_eq_succ_of_ne_zero (Nat.pos_iff_ne_zero.1 hpos)
    rw [render, Int.toString_eq_repr, Int.neg_ofNat_succ, Int.repr, String.toList_append, Nat.toList_repr]
    rfl
  have hnumeral : numeral ('-' :: Nat.toDigits 10 n) = some (⟨true, Nat.toDigits 10 n, none, none⟩, []) :=
    unsignedNumeral_toDigits true n
  have hbound : n < Nat.pow 2 64 := lt_of_le_of_lt h (by decide)
  simp [ReadsBack, ofText?, htext, hnumeral, number?_toDigits hbound, hpos, h]

/-- The integers that a 64-bit word holds, with a sign or without, are read back. -/
theorem integer_readsBack {n : Int} (hlow : -(2 : Int) ^ 63 ≤ n) (hhigh : n < 2 ^ 64) : (integer n).ReadsBack := by
  have hpow : (Nat.pow 2 64 : Nat) = 18446744073709551616 ∧ (Nat.pow 2 63 : Nat) = 9223372036854775808 := by decide
  rcases lt_or_ge n 0 with hn | hn
  · obtain ⟨m, rfl⟩ := Int.exists_eq_neg_ofNat (le_of_lt hn)
    exact negative_readsBack (by omega) (by omega)
  · obtain ⟨m, rfl⟩ := Int.eq_ofNat_of_zero_le hn
    exact natural_readsBack (by omega)

end Number

end DdlCatalog
