import Backend.Text.Numeral

/-! # The shortest decimal for a double

A decimal number is rounded to the nearest double, and then shown with as few digits
as tell that double from all others. Everything is exact arithmetic on integers.
-/

namespace Backend.Numeral

/-- The number `significand * 2 ^ exponent`, as a double has it: at most 53 bits, and no
fewer unless the exponent is as low as it gets. -/
structure Binary where
  significand : Nat
  exponent : Int
deriving DecidableEq, Repr

/-- A number as a quotient. -/
structure Ratio where
  num : Nat
  den : Nat

namespace Ratio

/-- The product with a power of a base. -/
def scale (r : Ratio) (base : Nat) (exponent : Int) : Ratio :=
  { num := r.num * base.pow exponent.toNat, den := r.den * base.pow (-exponent).toNat }

def floor (r : Ratio) : Nat := r.num / r.den

/-- The nearest integer, and the even one of two. -/
def round (r : Ratio) : Nat :=
  let q := r.num / r.den
  let twice := 2 * (r.num % r.den)
  if twice < r.den || (twice = r.den && q % 2 = 0) then q else q + 1

def lt (a b : Ratio) : Bool := a.num * b.den < b.num * a.den

def le (a b : Ratio) : Bool := a.num * b.den ≤ b.num * a.den

end Ratio

def Decimal.ratio (d : Decimal) : Ratio :=
  ({ num := d.significand, den := 1 } : Ratio).scale 10 d.exponent

def Binary.lowestExponent : Int := -1074

/-- The nearest double to a number that is not too large. The exponent is the lowest
one that leaves at most 53 bits. -/
def Ratio.binary (r : Ratio) : Binary :=
  let guess : Int := (r.num.log2 : Int) - r.den.log2 - 53
  let exponent := [guess, guess + 1, guess + 2].find? fun e => (r.scale 2 (-e)).floor < Nat.pow 2 53
  let exponent := max (exponent.getD guess) Binary.lowestExponent
  let significand := (r.scale 2 (-exponent)).round
  if significand = Nat.pow 2 53 then { significand := Nat.pow 2 52, exponent := exponent + 1 }
  else { significand, exponent }

namespace Binary

/-- A multiple of a quarter of the last place. -/
def quarters (b : Binary) (n : Nat) : Ratio := ({ num := n, den := 4 } : Ratio).scale 2 b.exponent

/-- Whether a number is rounded to this double. Below a power of two the doubles are
closer together. -/
def isNearest (b : Binary) (r : Ratio) : Bool :=
  let width := if b.significand = Nat.pow 2 52 && lowestExponent < b.exponent then 1 else 2
  let low := b.quarters (4 * b.significand - width)
  let high := b.quarters (4 * b.significand + 2)
  if b.significand % 2 = 0 then low.le r && r.le high else low.lt r && r.lt high

/-- The decimal of the given exponent that is nearest to this double, if it is rounded
to this double. -/
def atExponent? (b : Binary) (exponent : Int) : Option Decimal :=
  let value := (b.quarters (4 * b.significand)).scale 10 (-exponent)
  let q := value.floor
  let upFirst := value.den ≤ 2 * (value.num % value.den)
  let candidates := (if upFirst then [q + 1, q] else [q, q + 1]).map fun n =>
    ({ significand := n, exponent } : Decimal)
  candidates.find? fun d => b.isNearest d.ratio

/-- The shortest decimal that is rounded to this double, and the nearest of those. No
double needs more than 17 digits. -/
def shortest (b : Binary) : Decimal :=
  if b.significand = 0 then { significand := 0, exponent := 0 }
  else
    let value := b.quarters (4 * b.significand)
    let digits : Int :=
      if 1 ≤ value.floor then (Nat.toDigits 10 value.floor).length
      else 1 - (Nat.toDigits 10 (value.den / value.num)).length
    ((List.range 20).findSome? fun n : Nat => b.atExponent? (digits - (n : Int))).getD
      { significand := 0, exponent := 0 }

end Binary

/-- A decimal number without an exponent, and with at least one place. -/
def Decimal.positional (d : Decimal) : String :=
  let digits := Nat.toDigits 10 d.significand
  if 0 ≤ d.exponent then
    let zeros := if d.significand = 0 then 0 else d.exponent.toNat
    String.ofList (digits ++ List.replicate zeros '0') ++ ".0"
  else
    let places := (-d.exponent).toNat
    let padded := List.replicate (places + 1 - digits.length) '0' ++ digits
    String.ofList (padded.take (padded.length - places)) ++ "." ++
      String.ofList (padded.drop (padded.length - places))

/-- The text of the nearest double. -/
def Decimal.shortest (d : Decimal) : String :=
  if d.significand = 0 || (Nat.toDigits 10 d.significand).length + d.exponent < -400 then "0.0"
  else d.ratio.binary.shortest.positional

end Backend.Numeral
