/-! # Numbers in text

Digits in a base, and the texts that a reader takes for numbers. A whole number with
a mark for its base is one as far as 128 bits hold it, and a decimal number is one as
long as the nearest double is finite.
-/

namespace Backend.Numeral

/-- The value of a digit in a base of at most sixteen. -/
def digit? (base : Nat) (c : Char) : Option Nat :=
  let value :=
    if c.isDigit then some (c.toNat - '0'.toNat)
    else if 'a' ≤ c ∧ c ≤ 'f' then some (c.toNat - 'a'.toNat + 10)
    else if 'A' ≤ c ∧ c ≤ 'F' then some (c.toNat - 'A'.toNat + 10)
    else none
  value.filter (· < base)

/-- The number that digits stand for. No digits stand for none. -/
def value? (base : Nat) : List Char → Option Nat
  | [] => none
  | cs => cs.foldlM (fun n c => (digit? base c).map (base * n + ·)) 0

/-- A whole number behind the mark of its base. -/
def marked? : List Char → Option Nat
  | '0' :: 'x' :: digits => value? 16 digits
  | '0' :: 'o' :: digits => value? 8 digits
  | '0' :: 'b' :: digits => value? 2 digits
  | _ => none

/-- The number `significand * 10 ^ exponent`. -/
structure Decimal where
  significand : Nat
  exponent : Int
deriving DecidableEq, Repr

namespace Decimal

/-- The least number that is rounded to infinity: the middle between the largest
double and the power of two behind it. -/
def overflow : Nat := Nat.pow 2 1024 - Nat.pow 2 970

/-- Whether the nearest double is finite. Only numbers with a whole part of up to as
many digits as `overflow` has need a comparison. -/
def isFinite (d : Decimal) : Bool :=
  let wholeDigits : Int := (Nat.toDigits 10 d.significand).length + d.exponent
  if d.significand = 0 || wholeDigits ≤ 0 then true
  else if wholeDigits > 309 then false
  else d.significand * Nat.pow 10 d.exponent.toNat < overflow * Nat.pow 10 (-d.exponent).toNat

end Decimal

/-- What may follow the digits of a decimal number: nothing, or an exponent. -/
def exponent? : List Char → Option Int
  | [] => some 0
  | e :: rest =>
      if e = 'e' || e = 'E' then
        match rest with
        | '-' :: digits => (value? 10 digits).map fun n => -(n : Int)
        | '+' :: digits => (value? 10 digits).map fun n => (n : Int)
        | digits => (value? 10 digits).map fun n => (n : Int)
      else none

/-- A decimal number without a sign. Digits may be missing on one side of the point. -/
def decimal? (cs : List Char) : Option Decimal := do
  let whole := cs.takeWhile Char.isDigit
  let (places, tail) := match cs.dropWhile Char.isDigit with
    | '.' :: rest => (rest.takeWhile Char.isDigit, rest.dropWhile Char.isDigit)
    | rest => ([], rest)
  let significand ← value? 10 (whole ++ places)
  let exponent ← exponent? tail
  return { significand, exponent := exponent - places.length }

def dropSign : List Char → List Char
  | '-' :: rest => rest
  | '+' :: rest => rest
  | cs => cs

/-- Digits behind a leading zero: no number, though it looks like one. -/
def isPadded (cs : List Char) : Bool :=
  match dropSign cs with
  | '0' :: rest => !rest.isEmpty && rest.all Char.isDigit
  | _ => false

/-- A whole number, in a marked base or in decimal. Of 128 bits, the sign of a negative
number takes one. -/
def integer? (cs : List Char) : Option Int := do
  let unsigned := dropSign cs
  let n ← (marked? unsigned).or (if isPadded cs then none else value? 10 unsigned)
  if cs.head? = some '-' then
    if n ≤ Nat.pow 2 127 then some (-(n : Int)) else none
  else if n < Nat.pow 2 128 then some n
  else none

/-- A decimal number whose nearest double is finite, without its sign. -/
def finite? (cs : List Char) : Option Decimal :=
  (decimal? (dropSign cs)).filter Decimal.isFinite

end Backend.Numeral
