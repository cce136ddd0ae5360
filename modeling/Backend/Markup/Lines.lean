import Backend.Markup.Cursor
import Backend.Text.Numeral

/-! # Scalars of whole lines

The lines of such a scalar follow a header and have a common indentation. They are
kept as they are, or folded: lines of text are then joined by blanks, while lines that
start with a blank keep their breaks.
-/

namespace Backend.Markup.Lines

/-- What becomes of the line breaks at the end. -/
inductive Ending where
  /-- They are dropped. -/
  | strip
  /-- The first one stays. -/
  | clip
  /-- All stay. -/
  | keep
deriving DecidableEq, Repr

/-- What the header says, and where it is. -/
structure Header where
  folded : Bool
  ending : Ending := .clip
  /-- How much further than its surroundings the text is indented, if that is said. -/
  increment : Option Nat := none
  start : Position

def whatIsRead : String := "while scanning a block scalar"

def ending? : Scan (Option Ending) := do
  match (← Scan.rest).head? with
  | some '+' => do
      Scan.skip 1
      return some .keep
  | some '-' => do
      Scan.skip 1
      return some .strip
  | _ => return none

def increment? (start : Position) : Scan (Option Nat) := do
  match (← Scan.rest).head?.bind (Numeral.digit? 10) with
  | none => return none
  | some 0 => Scan.fail whatIsRead start "found an indentation indicator equal to 0"
  | some n => do
      Scan.skip 1
      return some n

/-- The header, up to the end of its line. Its two parts may come in either order. -/
def header (folded : Bool) : Scan Header := do
  let start ← Scan.position
  Scan.skip 1
  let first ← ending?
  let increment ← increment? start
  let second ← if first.isNone && increment.isSome then ending? else pure none
  Scan.finishLine whatIsRead start
  return { folded, ending := (first.or second).getD .clip, increment, start }

def tabFault (start position : Position) : Fault :=
  { problem := "found a tab character where an indentation space is expected"
    position
    context := some (whatIsRead, start) }

/-- Empty lines, the deepest column in them or before the text that follows them, and
that text. No indentation is known yet. -/
def leading (start : Position) (breaks : List Char) (deepest : Nat) (position : Position) :
    List Char → Except Fault (List Char × Nat × Cursor)
  | [] => .ok (breaks, max deepest position.column, { position, rest := [] })
  | c :: rest =>
      if c = ' ' then leading start breaks deepest (position.after c) rest
      else if c = '\t' then .error (tabFault start position)
      else if isBreak c then
        leading start (breaks ++ [c]) (max deepest position.column) (position.after c) rest
      else .ok (breaks, max deepest position.column, { position, rest := c :: rest })

/-- What has been read of a scalar. -/
structure Progress where
  /-- The text up to here, in reverse order. -/
  text : List Char := []
  /-- The break of the last line, unless the text ended with that line. -/
  lastBreak : List Char := []
  /-- The breaks of the empty lines behind it. -/
  emptyLines : List Char := []
  /-- Whether the last line started with a blank. -/
  blankStart : Bool := false
  /-- Whether a line is being read. -/
  inLine : Bool := false

/-- Start a line with its first character. -/
def Progress.startLine (folded : Bool) (p : Progress) (c : Char) : Progress :=
  let joint :=
    if folded && p.lastBreak.head? = some '\n' && !p.blankStart && !isBlank c then
      if p.emptyLines.isEmpty then [' '] else []
    else p.lastBreak
  { text := c :: (joint ++ p.emptyLines).reverseAux p.text
    blankStart := isBlank c
    inLine := true }

/-- The text of the scalar, when all its lines have been read. -/
def Progress.finish (ending : Ending) (p : Progress) : List Char :=
  match ending with
  | .strip => p.text.reverse
  | .clip => p.text.reverse ++ p.lastBreak
  | .keep => p.text.reverse ++ p.lastBreak ++ p.emptyLines

/-- Read lines of the given indentation. -/
def body (h : Header) (indent : Nat) (p : Progress) (position : Position) :
    List Char → Except Fault (Progress × Cursor)
  | [] => .ok (p, { position, rest := [] })
  | c :: rest =>
      if p.inLine then
        if isBreak c then
          body h indent { p with lastBreak := [c], inLine := false } (position.after c) rest
        else body h indent { p with text := c :: p.text } (position.after c) rest
      else if c = ' ' && position.column < indent then body h indent p (position.after c) rest
      else if c = '\t' && position.column < indent then .error (tabFault h.start position)
      else if isBreak c then
        body h indent { p with emptyLines := p.emptyLines ++ [c] } (position.after c) rest
      else if position.column = indent then
        body h indent (p.startLine h.folded c) (position.after c) rest
      else .ok (p, { position, rest := c :: rest })

/-- A scalar inside something with the given indentation. -/
def scan (folded : Bool) (outer : Int) : Scan (List Char) := do
  let h ← header folded
  let cursor ← get
  let (p, behind) ← match h.increment with
    | some n => body h ((max outer 0).toNat + n) {} cursor.position cursor.rest
    | none => do
        let (breaks, deepest, cursor) ← leading h.start [] 0 cursor.position cursor.rest
        let indent := max (max deepest (outer + 1).toNat) 1
        body h indent { emptyLines := breaks } cursor.position cursor.rest
  set behind
  return p.finish h.ending

end Backend.Markup.Lines
