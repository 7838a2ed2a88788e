import DdlCatalog.Decimal.Layout
import DdlCatalog.Decimal.Reading
import DdlCatalog.Json.Value

/-!
JSON numerals: their parts, the number they stand for, and the text of a number.
-/

namespace DdlCatalog

namespace Json

/-- The parts of a numeral; an exponent has its sign before its digits. -/
structure Numeral where
  negative : Bool
  whole : List Char
  fraction : Option (List Char)
  exponent : Option (Bool × List Char)

/-- The leading digits of a numeral, as many as a 64-bit word holds, and the power of ten that
goes with them. -/
structure Significand where
  value : Nat
  exponent : Int
  full : Bool

namespace Significand

def zero : Significand := ⟨0, 0, false⟩

def holds (s : Significand) (c : Char) : Bool :=
  !s.full && 10 * s.value + (c.toNat - 48) < Nat.pow 2 64

def pushWhole (s : Significand) (c : Char) : Significand :=
  if s.holds c then { s with value := 10 * s.value + (c.toNat - 48) }
  else { s with exponent := s.exponent + 1, full := true }

def pushFraction (s : Significand) (c : Char) : Significand :=
  if s.holds c then
    { s with value := 10 * s.value + (c.toNat - 48), exponent := s.exponent - 1 }
  else { s with full := true }

def toFloat (s : Significand) (shift : Int) : Option Float :=
  Decimal.scaled s.value.toUInt64.toFloat (s.exponent + shift)

end Significand

def Numeral.shift (n : Numeral) : Int :=
  match n.exponent with
  | none => 0
  | some (true, digits) => -(Decimal.valueOf digits : Int)
  | some (false, digits) => Decimal.valueOf digits

def Numeral.isWhole (n : Numeral) : Bool := n.fraction.isNone && n.exponent.isNone

/-- The number a numeral stands for: an integer where one is written and fits, else a float, and
`none` beyond the floats. Minus zero is a float. -/
def Numeral.number? (n : Numeral) : Option Number :=
  let whole := n.whole.foldl Significand.pushWhole .zero
  let all := (n.fraction.getD []).foldl Significand.pushFraction { whole with full := false }
  if n.isWhole && !whole.full && !n.negative then some (.integer whole.value)
  else if n.isWhole && !whole.full && 0 < whole.value && whole.value ≤ Nat.pow 2 63 then
    some (.integer (-whole.value))
  else (all.toFloat n.shift).map fun x => .real (if n.negative then -x else x)

def isDigit (c : Char) : Bool := '0' ≤ c && c ≤ '9'

/-- One digit zero, or digits that do not start with zero. -/
def wholePart : List Char → Option (List Char × List Char)
  | [] => none
  | c :: r =>
    if c = '0' then some (['0'], r)
    else if isDigit c then some (c :: r.takeWhile isDigit, r.dropWhile isDigit)
    else none

/-- A nonempty run of digits. -/
def digitRun : List Char → Option (List Char × List Char)
  | [] => none
  | c :: r => if isDigit c then some (c :: r.takeWhile isDigit, r.dropWhile isDigit) else none

def fractionPart : List Char → Option (Option (List Char) × List Char)
  | '.' :: r => (digitRun r).map fun (digits, rest) => (some digits, rest)
  | cs => some (none, cs)

def exponentDigits : List Char → Option ((Bool × List Char) × List Char)
  | '-' :: r => (digitRun r).map fun (digits, rest) => ((true, digits), rest)
  | '+' :: r => (digitRun r).map fun (digits, rest) => ((false, digits), rest)
  | cs => (digitRun cs).map fun (digits, rest) => ((false, digits), rest)

def exponentPart : List Char → Option (Option (Bool × List Char) × List Char)
  | 'e' :: r => (exponentDigits r).map fun (e, rest) => (some e, rest)
  | 'E' :: r => (exponentDigits r).map fun (e, rest) => (some e, rest)
  | cs => some (none, cs)

/-- The numeral at the start of a text without its sign. -/
def unsignedNumeral (negative : Bool) (cs : List Char) : Option (Numeral × List Char) := do
  let (whole, cs) ← wholePart cs
  let (fraction, cs) ← fractionPart cs
  let (exponent, cs) ← exponentPart cs
  return (⟨negative, whole, fraction, exponent⟩, cs)

/-- The numeral at the start of a text, and the rest of the text. -/
def numeral : List Char → Option (Numeral × List Char)
  | '-' :: r => unsignedNumeral true r
  | cs => unsignedNumeral false cs

end Json

/-- JSON writes exponents from -5 to 15 positionally, a plus before the others, and no number that
is not finite. -/
def Json.floatLayout : Decimal.Layout :=
  { least := -5, greatest := 15, exponentSign := "+", tie := .toEven, infinity := "null", nan := "null" }

def Number.render : Number → String
  | .integer n => toString n
  | .real x => if x.isFinite then Json.floatLayout.render x else "null"

namespace Json

theorem length_wholePart {cs digits rest : List Char} (h : wholePart cs = some (digits, rest)) :
    rest.length < cs.length := by
  unfold wholePart at h
  split at h
  · simp at h
  · rename_i c r
    have : (r.dropWhile isDigit).length ≤ r.length := (List.dropWhile_sublist _).length_le
    split at h
    · simp only [Option.some.injEq, Prod.mk.injEq] at h; simp [← h.2]
    · split at h
      · simp only [Option.some.injEq, Prod.mk.injEq] at h; simp [← h.2]; omega
      · simp at h

theorem length_digitRun {cs digits rest : List Char} (h : digitRun cs = some (digits, rest)) :
    rest.length < cs.length := by
  unfold digitRun at h
  split at h
  · simp at h
  · rename_i c r
    have : (r.dropWhile isDigit).length ≤ r.length := (List.dropWhile_sublist _).length_le
    split at h
    · simp only [Option.some.injEq, Prod.mk.injEq] at h; simp [← h.2]; omega
    · simp at h

theorem length_fractionPart {cs rest : List Char} {f : Option (List Char)}
    (h : fractionPart cs = some (f, rest)) : rest.length ≤ cs.length := by
  unfold fractionPart at h
  split at h
  · obtain ⟨⟨digits, r⟩, hd, he⟩ := Option.map_eq_some_iff.1 h
    have := length_digitRun hd
    simp only [Prod.mk.injEq] at he
    simp only [List.length_cons, ← he.2]; omega
  · simp only [Option.some.injEq, Prod.mk.injEq] at h; simp [← h.2]

theorem length_exponentDigits {cs rest : List Char} {e : Bool × List Char}
    (h : exponentDigits cs = some (e, rest)) : rest.length < cs.length := by
  unfold exponentDigits at h
  split at h <;>
  · obtain ⟨⟨digits, r⟩, hd, he⟩ := Option.map_eq_some_iff.1 h
    have := length_digitRun hd
    simp only [Prod.mk.injEq] at he
    simp only [List.length_cons, ← he.2]; omega

theorem length_exponentPart {cs rest : List Char} {e : Option (Bool × List Char)}
    (h : exponentPart cs = some (e, rest)) : rest.length ≤ cs.length := by
  unfold exponentPart at h
  split at h
  · obtain ⟨⟨x, r⟩, hd, he⟩ := Option.map_eq_some_iff.1 h
    have := length_exponentDigits hd
    simp only [Prod.mk.injEq] at he
    simp only [List.length_cons, ← he.2]; omega
  · obtain ⟨⟨x, r⟩, hd, he⟩ := Option.map_eq_some_iff.1 h
    have := length_exponentDigits hd
    simp only [Prod.mk.injEq] at he
    simp only [List.length_cons, ← he.2]; omega
  · simp only [Option.some.injEq, Prod.mk.injEq] at h; simp [← h.2]

theorem length_unsignedNumeral {negative : Bool} {cs rest : List Char} {n : Numeral}
    (h : unsignedNumeral negative cs = some (n, rest)) : rest.length < cs.length := by
  simp only [unsignedNumeral, Option.bind_eq_bind, Option.bind_eq_some_iff, Prod.exists,
    Option.pure_def, Option.some.injEq, Prod.mk.injEq] at h
  obtain ⟨w, r₁, h₁, f, r₂, h₂, e, r₃, h₃, -, rfl⟩ := h
  have := length_wholePart h₁
  have := length_fractionPart h₂
  have := length_exponentPart h₃
  omega

theorem length_numeral {cs rest : List Char} {n : Numeral} (h : numeral cs = some (n, rest)) :
    rest.length < cs.length := by
  unfold numeral at h
  split at h
  · have := length_unsignedNumeral h; simp only [List.length_cons]; omega
  · exact length_unsignedNumeral h

end Json

end DdlCatalog
