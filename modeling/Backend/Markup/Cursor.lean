import Backend.Markup.Position

/-! # Reading characters

A cursor is a place in a text and what follows it. Scanning moves the cursor forward
until something has been read, or reports what stands in the way.
-/

namespace Backend.Markup

structure Cursor where
  position : Position := {}
  rest : List Char
deriving DecidableEq, Repr

namespace Cursor

/-- Move behind the next character. -/
def next (c : Cursor) : Cursor :=
  match c.rest with
  | [] => c
  | x :: rest => { position := c.position.after x, rest }

/-- The characters from here on that satisfy a condition, and the place behind them. -/
def spanFrom (p : Char → Bool) : Position → List Char → List Char × Cursor
  | position, [] => ([], { position, rest := [] })
  | position, c :: rest =>
      if p c then
        let (cs, behind) := spanFrom p (position.after c) rest
        (c :: cs, behind)
      else ([], { position, rest := c :: rest })

end Cursor

abbrev Scan := StateT Cursor (Except Fault)

namespace Scan

/-- Report a problem with something that started earlier. -/
def fail {α : Type} (what : String) (start : Position) (problem : String) : Scan α := do
  throw { problem, position := (← get).position, context := some (what, start) }

def position : Scan Position := return (← get).position

def rest : Scan (List Char) := return (← get).rest

def skip (n : Nat) : Scan Unit := modify (Nat.repeat Cursor.next n)

def span (p : Char → Bool) : Scan (List Char) := fun c =>
  .ok (Cursor.spanFrom p c.position c.rest)

/-- Skip blanks and a comment. -/
def skipBlanks : Scan Unit := do
  let _ ← span isBlank
  if (← rest).head? = some '#' then
    let _ ← span fun c => !isBreak c

/-- Skip blanks, a comment and the end of the line. -/
def finishLine (what : String) (start : Position) : Scan Unit := do
  skipBlanks
  match ← rest with
  | [] => pure ()
  | c :: _ =>
      if isBreak c then skip 1
      else fail what start "did not find expected comment or line break"

end Scan

/-- The characters of names. -/
def isNameChar (c : Char) : Bool := c.isAlphanum || c = '_' || c = '-'

/-- Whether a line with nothing but a mark between documents starts here. -/
def atDocumentMark (cs : List Char) : Bool :=
  (cs.take 3 = ['-', '-', '-'] || cs.take 3 = ['.', '.', '.']) && atWordEnd (cs.drop 3)

end Backend.Markup
