import DdlCatalog.Decimal.Shortest

/-!
How a float is laid out in text: positional between two decimal exponents, scientific outside.
-/

namespace DdlCatalog.Decimal

/-- The choices that tell one written form of floats from another. -/
structure Layout where
  /-- least decimal exponent written positionally -/
  least : Int
  /-- greatest decimal exponent written positionally -/
  greatest : Int
  /-- written before a nonnegative exponent -/
  exponentSign : String
  tie : Tie
  infinity : String
  nan : String

def zeros (n : Nat) : List Char := List.replicate n '0'

/-- The digits with a point after the first `place` of them, and at least one digit on each side. -/
def positional (digits : List Char) (place : Int) : List Char :=
  if place ≤ 0 then '0' :: '.' :: (zeros (-place).toNat ++ digits)
  else if place.toNat < digits.length then
    digits.take place.toNat ++ '.' :: digits.drop place.toNat
  else digits ++ zeros (place.toNat - digits.length) ++ ['.', '0']

/-- One digit, the others after a point if there are others, and the exponent. -/
def scientific (sign : String) (digits : List Char) (exponent : Int) : List Char :=
  let point := if digits.length ≤ 1 then [] else '.' :: digits.drop 1
  let power := if exponent < 0 then '-' :: Nat.toDigits 10 (-exponent).toNat
    else sign.toList ++ Nat.toDigits 10 exponent.toNat
  digits.take 1 ++ point ++ 'e' :: power

def Layout.decimal (l : Layout) (d : Numeral) : List Char :=
  let digits := Nat.toDigits 10 d.digits
  let exponent := d.exponent + digits.length - 1
  if l.least ≤ exponent ∧ exponent ≤ l.greatest then positional digits (exponent + 1)
  else scientific l.exponentSign digits exponent

/-- The text of the magnitude held by the 63 low bits of a float. -/
def Layout.magnitude (l : Layout) (bits : Nat) : List Char :=
  let m := Decimal.magnitude bits
  if m.mantissa = 0 then ['0', '.', '0'] else l.decimal (m.shortest l.tie)

def Layout.render (l : Layout) (x : Float) : String :=
  if x.isNaN then l.nan
  else
    let bits := x.toBits.toNat
    let sign := if bits / Nat.pow 2 63 = 1 then "-" else ""
    let body := if x.isInf then l.infinity else String.ofList (l.magnitude (bits % Nat.pow 2 63))
    sign ++ body

end DdlCatalog.Decimal
