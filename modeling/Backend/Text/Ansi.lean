/-! # Text on a terminal

Coloured text is a list of spans. A span's colour is switched on before it and off
after it, except that a coloured span directly followed by another one leaves the
switching off to its successor. The widths of columns count characters; text wider than
its column is kept whole.
-/

namespace Backend

inductive Colour where
  | red
  | green
  | yellow
  | blue
  | magenta
  | cyan
deriving DecidableEq, Repr

namespace Ansi

/-- The control sequence that selects a display mode. -/
def select (mode : Nat) : String :=
  "\x1b[" ++ toString mode ++ "m"

/-- Back to the default colour. -/
def plain : String := select 39

/-- Back to the default weight. -/
def normal : String := select 22

def dim (text : String) : String := select 2 ++ text ++ normal

end Ansi

namespace Colour

def mode : Colour → Nat
  | .red => 31
  | .green => 32
  | .yellow => 33
  | .blue => 34
  | .magenta => 35
  | .cyan => 36

def start (c : Colour) : String := Ansi.select c.mode

def paint (c : Colour) (text : String) : String := c.start ++ text ++ Ansi.plain

end Colour

namespace Column

def blanks (n : Nat) : String := String.ofList (List.replicate n ' ')

def left (width : Nat) (text : String) : String :=
  text ++ blanks (width - text.length)

def right (width : Nat) (text : String) : String :=
  blanks (width - text.length) ++ text

end Column

/-- A stretch of text in one colour, or in none. -/
structure Span where
  colour : Option Colour := none
  text : String
deriving DecidableEq, Repr

namespace Span

def render : List Span → String
  | [] => ""
  | ⟨none, text⟩ :: rest => text ++ render rest
  | ⟨some c, text⟩ :: ⟨some d, next⟩ :: rest => c.start ++ text ++ render (⟨some d, next⟩ :: rest)
  | ⟨some c, text⟩ :: rest => c.paint text ++ render rest

end Span

end Backend
