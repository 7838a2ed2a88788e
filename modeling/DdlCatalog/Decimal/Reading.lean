/-!
Reading decimals. A run of digits has a value; `nearest` rounds a decimal to a float once, and
`scaled` rounds its digits and its power of ten apart, which is faster and now and then one place off.
-/

namespace DdlCatalog.Decimal

/-- The number a run of decimal digits stands for. -/
def valueOf (digits : List Char) : Nat := digits.foldl (fun n c => 10 * n + (c.toNat - 48)) 0

/-- The float nearest to `digits * 10 ^ exponent`, infinite beyond the largest float. The two early
answers keep the powers of ten small. -/
def nearest (digits : Nat) (exponent : Int) : Float :=
  let places : Int := (Nat.toDigits 10 digits).length
  if digits = 0 then 0.0
  else if 400 < exponent + places then 1.0 / 0.0
  else if exponent + places < -400 then 0.0
  else Float.ofScientific digits (exponent < 0) exponent.natAbs

/-- The largest power of ten that is a float. -/
def maxPower : Int := 308

def power (n : Nat) : Float := Float.ofScientific 1 false n

/-- `x * 10 ^ exponent`, or `none` beyond the largest float. -/
def scaled (x : Float) (exponent : Int) : Option Float :=
  if 0 ≤ exponent then
    if exponent ≤ maxPower then
      let y := x * power exponent.toNat
      if y.isInf then none else some y
    else if x == 0.0 then some x else none
  else if -maxPower ≤ exponent then some (x / power (-exponent).toNat)
  else if x == 0.0 then some x
  else scaled (x / power 308) (exponent + maxPower)
termination_by exponent.natAbs
decreasing_by simp only [maxPower] at *; omega

end DdlCatalog.Decimal
