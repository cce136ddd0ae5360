/-! # Places in a text

Lines and columns count from nought, and messages show them counted from one. The
place where a text starts goes without saying.
-/

namespace Backend.Markup

/-- Characters that end a line. -/
def isBreak (c : Char) : Bool :=
  let n := c.toNat
  n = 0xa || n = 0xd || n = 0x85 || n = 0x2028 || n = 0x2029

/-- Characters between words. -/
def isBlank (c : Char) : Bool := c = ' ' || c = '\t'

/-- Whether a word can end here. -/
def atWordEnd : List Char → Bool
  | [] => true
  | c :: _ => isBlank c || isBreak c

structure Position where
  line : Nat := 0
  column : Nat := 0
deriving DecidableEq, Repr

namespace Position

/-- The place behind a character. -/
def after (c : Char) (p : Position) : Position :=
  if isBreak c then { line := p.line + 1 } else { p with column := p.column + 1 }

def render (p : Position) : String :=
  "line " ++ toString (p.line + 1) ++ " column " ++ toString (p.column + 1)

/-- What a message says of a place. -/
def suffix (p : Position) : String :=
  if p = {} then "" else " at " ++ p.render

end Position

/-- Why a text cannot be read. -/
structure Fault where
  problem : String
  position : Position := {}
  /-- The bytes before a character that no text may hold. -/
  offset : Nat := 0
  /-- What was being read, and where that started. -/
  context : Option (String × Position) := none
deriving DecidableEq, Repr

namespace Fault

def message (f : Fault) : String :=
  let place :=
    if f.position = {} && f.offset ≠ 0 then " at position " ++ toString f.offset
    else f.position.suffix
  let context := match f.context with
    | none => ""
    | some (what, start) =>
        ", " ++ what ++ if start = f.position then "" else start.suffix
  f.problem ++ place ++ context

end Fault

end Backend.Markup
