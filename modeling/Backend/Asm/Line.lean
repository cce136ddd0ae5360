import Backend.Asm.Inst

/-! # Assembly listings

A listing is a list of lines. Its text has one physical line for each of them.
-/

namespace Backend

namespace StringDirective

/-- How a character stands between the quotes of a string directive. -/
def escapeChar : Char → List Char
  | '\\' => ['\\', '\\']
  | '"' => ['\\', '"']
  | '\n' => ['\\', 'n']
  | '\t' => ['\\', 't']
  | c => [c]

def escape (text : String) : String :=
  String.ofList (text.toList.flatMap escapeChar)

end StringDirective

inductive Line where
  | segment (name : String)
  | text
  | global (symbol : String)
  /-- Zeroed storage of `size` bytes at a multiple of `align`. -/
  | comm (symbol : String) (size align : Nat)
  | string (name contents : String)
  | label (name : String)
  | inst (i : Inst)
deriving DecidableEq, Repr

namespace Line

def render : Line → String
  | .segment name => ".section " ++ name
  | .text => ".text"
  | .global symbol => ".global " ++ symbol
  | .comm symbol size align =>
      ".comm " ++ symbol ++ ", " ++ toString size ++ ", " ++ toString align
  | .string name contents => name ++ ": .string \"" ++ StringDirective.escape contents ++ "\""
  | .label name => name ++ ":"
  | .inst i => "    " ++ i.render

def coloured : Line → String
  | .inst i => "    " ++ i.coloured
  | .label name => Colour.green.paint name ++ ":"
  | .string name contents =>
      Colour.green.paint name ++ ": .string " ++
        Colour.yellow.paint ("\"" ++ StringDirective.escape contents ++ "\"")
  | line => Colour.magenta.paint line.render

end Line

/-- The lines of a piece of assembly. -/
abbrev Code := List Line

namespace Code

/-- The text of a listing, every line ended. -/
def render (code : Code) : String :=
  String.join (code.map fun line => line.render ++ "\n")

/-- The listing for a terminal, with line numbers from one. -/
def numbered (code : Code) : String :=
  String.join (code.zipIdx.map fun (line, n) =>
    Ansi.dim (Column.right 5 (toString (n + 1))) ++ " " ++ line.coloured ++ "\n")

end Code

end Backend
