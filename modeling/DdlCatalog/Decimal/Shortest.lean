/-!
The shortest decimal that reads back as a given float. A finite positive float is a value
`mantissa * 2 ^ exponent`; every real between the midpoints to its two neighbours reads back as it.
The coarsest decimal grid with a point among those reals gives the fewest digits.
-/

namespace DdlCatalog.Decimal

/-- The value `mantissa * 2 ^ exponent`. -/
structure Dyadic where
  mantissa : Nat
  exponent : Int
  deriving DecidableEq, Repr

/-- Whether the lower neighbour is only half as far away as the upper one. -/
def Dyadic.isBoundary (d : Dyadic) : Bool := d.mantissa == Nat.pow 2 52 && -1074 < d.exponent

/-- The magnitude held by the 63 low bits of a finite float. -/
def magnitude (bits : Nat) : Dyadic :=
  let fraction : Nat := bits % Nat.pow 2 52
  let biased : Nat := bits / Nat.pow 2 52 % Nat.pow 2 11
  if biased = 0 then ⟨fraction, -1074⟩ else ⟨Nat.pow 2 52 + fraction, (biased : Int) - 1075⟩

/-- The value `digits * 10 ^ exponent`. -/
structure Numeral where
  digits : Nat
  exponent : Int
  deriving DecidableEq, Repr

/-- Which of two equally near decimals is taken. -/
inductive Tie
  | toEven
  | up
  deriving DecidableEq, Repr

/-- The numerator and denominator of `n * 2 ^ p * 10 ^ (-k)`. -/
def ratio (n : Nat) (p k : Int) : Nat × Nat :=
  (n * Nat.pow 2 p.toNat * Nat.pow 10 (-k).toNat, Nat.pow 2 (-p).toNat * Nat.pow 10 k.toNat)

/-- The reals that read back as a float, counted in quarters of its last binary place and scaled
to the decimal grid of step `10 ^ k`: lower end, value, upper end and their common denominator. -/
structure Interval where
  lower : Nat
  value : Nat
  upper : Nat
  unit : Nat
  closed : Bool

def Dyadic.interval (d : Dyadic) (k : Int) : Interval :=
  let scale := ratio 1 (d.exponent - 2) k
  let quarter := scale.1
  { lower := (4 * d.mantissa - if d.isBoundary then 1 else 2) * quarter
    value := 4 * d.mantissa * quarter
    upper := (4 * d.mantissa + 2) * quarter
    unit := scale.2
    closed := d.mantissa % 2 == 0 }

/-- Whether the grid point `n` reads back as the value. -/
def Interval.contains (i : Interval) (n : Nat) : Bool :=
  if i.closed then i.lower ≤ n * i.unit && n * i.unit ≤ i.upper
  else i.lower < n * i.unit && n * i.unit < i.upper

/-- The lower of two neighbouring grid points is taken when it is nearer, or as `tie` says. -/
def Interval.roundsDown (i : Interval) (tie : Tie) (n : Nat) : Bool :=
  let twice := 2 * (i.value - n * i.unit)
  twice < i.unit || (twice == i.unit && tie == .toEven && n % 2 == 0)

/-- The grid point that reads back as the value, if one does. -/
def Interval.point? (i : Interval) (tie : Tie) : Option Nat :=
  let n := i.value / i.unit
  match i.contains n && n != 0, i.contains (n + 1) with
  | true, true => some (if i.roundsDown tie n then n else n + 1)
  | true, false => some n
  | false, true => some (n + 1)
  | false, false => none

/-- An exponent `k` with the value below `10 ^ k`, and not much below it. -/
def Dyadic.ceilingExponent (d : Dyadic) : Int :=
  let r := ratio d.mantissa d.exponent 0
  if r.2 ≤ r.1 then (Nat.toDigits 10 (r.1 / r.2)).length
  else 1 - (Nat.toDigits 10 (r.2 / r.1)).length

/-- The shortest decimal that reads back as a positive value, the nearest of those. -/
def Dyadic.shortest (tie : Tie) (d : Dyadic) : Numeral :=
  let top := d.ceilingExponent
  let grids := (List.range 20).map fun (i : Nat) => top - i
  let hit? := grids.findSome? fun k => ((d.interval k).point? tie).map fun n => (⟨n, k⟩ : Numeral)
  hit?.getD ⟨0, 0⟩

end DdlCatalog.Decimal
