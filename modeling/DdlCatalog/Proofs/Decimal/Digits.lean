import DdlCatalog.Decimal.Reading
import Mathlib.Data.Nat.Digits.Defs

/-!
Digits: a run of them ends where another character stands, and the digits of a number have the number
as their value.
-/

namespace DdlCatalog

/-! ### Runs of characters -/

section Runs

variable {α : Type} {p : α → Bool} {as bs : List α}

theorem takeWhile_append_of_head (h : ∀ b ∈ bs.head?, p b = false) :
    (as ++ bs).takeWhile p = as.takeWhile p := by
  induction as with
  | nil =>
      cases bs with
      | nil => rfl
      | cons b bs => simp [h b rfl]
  | cons a as ih => by_cases ha : p a = true <;> simp [ha, ih]

theorem dropWhile_append_of_head (h : ∀ b ∈ bs.head?, p b = false) :
    (as ++ bs).dropWhile p = as.dropWhile p ++ bs := by
  induction as with
  | nil =>
      cases bs with
      | nil => rfl
      | cons b bs => simp [h b rfl]
  | cons a as ih => by_cases ha : p a = true <;> simp [ha, ih]

end Runs

namespace Decimal

theorem valueOf_toDigits (n : Nat) : valueOf (Nat.toDigits 10 n) = n := Nat.ofDigitChars_ten_toDigits

/-- More digits make no number smaller. -/
theorem le_ofDigitChars (digits : List Char) (n : Nat) : n ≤ Nat.ofDigitChars 10 digits n := by
  induction digits generalizing n with
  | nil => simp
  | cons c digits ih =>
      rw [Nat.ofDigitChars_cons]
      exact le_trans (by omega) (ih _)

theorem isDigit_of_mem_toDigits {n : Nat} {c : Char} (h : c ∈ Nat.toDigits 10 n) : c.isDigit = true :=
  Nat.isDigit_of_mem_toDigits (by decide) (by decide) h

/-- The digits of a number do not start with zero, but those of zero do. -/
theorem toDigits_head {n : Nat} (h : 0 < n) : ∃ c digits, Nat.toDigits 10 n = c :: digits ∧ c ≠ '0' := by
  induction n using Nat.strongRecOn with
  | ind n ih =>
      by_cases hn : n < 10
      · have hdigit : ∀ m < 10, 0 < m → m.digitChar ≠ '0' := by decide
        exact ⟨n.digitChar, [], Nat.toDigits_of_lt_base hn, hdigit n hn h⟩
      · obtain ⟨c, digits, hd, hc⟩ := ih (n / 10) (by omega) (by omega)
        refine ⟨c, digits ++ [(n % 10).digitChar], ?_, hc⟩
        rw [Nat.toDigits_of_base_le (by decide) (by omega), hd, List.cons_append]

end Decimal

end DdlCatalog
