import Backend.Text.Quoted
import Backend.Text.Shortest

/-! # Plain values

A plain scalar is a null, a truth value, a number or a text, whichever of these it
looks like first.
-/

namespace Backend.Markup

inductive Value where
  | null
  | bool (b : Bool)
  | int (n : Int)
  | decimal (negative : Bool) (d : Numeral.Decimal)
  | infinity (negative : Bool)
  | notANumber
  | text (s : String)
deriving DecidableEq, Repr

namespace Value

def null? (s : String) : Option Unit :=
  if ["~", "null", "Null", "NULL"].contains s then some () else none

def bool? (s : String) : Option Bool :=
  if ["true", "True", "TRUE"].contains s then some true
  else if ["false", "False", "FALSE"].contains s then some false
  else none

/-- A number that need not be whole. -/
def float? (s : String) : Option Value :=
  if [".inf", ".Inf", ".INF", "+.inf", "+.Inf", "+.INF"].contains s then some (.infinity false)
  else if ["-.inf", "-.Inf", "-.INF"].contains s then some (.infinity true)
  else if [".nan", ".NaN", ".NAN"].contains s then some .notANumber
  else (Numeral.finite? s.toList).map (.decimal (s.toList.head? = some '-'))

/-- What a plain scalar stands for. -/
def ofPlain (s : String) : Value :=
  if s = "" || (null? s).isSome then .null
  else
    match bool? s with
    | some b => .bool b
    | none =>
        match Numeral.integer? s.toList with
        | some n => .int n
        | none => if Numeral.isPadded s.toList then .text s else (float? s).getD (.text s)

/-- The width of an integer that a word cannot hold. -/
def widthNote (n : Int) : String :=
  if n < -0x8000_0000_0000_0000 then " as i128"
  else if n < 0x1_0000_0000_0000_0000 then ""
  else " as u128"

/-- How messages show a value. -/
def describe : Value → String
  | .null => "unit value"
  | .bool b => "boolean \x60" ++ (if b then "true" else "false") ++ "\x60"
  | .int n => "integer \x60" ++ toString n ++ "\x60" ++ widthNote n
  | .decimal negative d =>
      "floating point \x60" ++ (if negative then "-" else "") ++ d.shortest ++ "\x60"
  | .infinity negative => "floating point \x60" ++ (if negative then "-" else "") ++ "inf\x60"
  | .notANumber => "floating point \x60NaN\x60"
  | .text s => "string " ++ Quoted.quote s

end Value

end Backend.Markup
