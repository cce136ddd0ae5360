import Backend.Markup.Position

/-! # Folded white space

Between two words of a scalar, blanks stay as they are. A single line break counts as
a blank, and of several the first is dropped, with all blanks around them.
-/

namespace Backend.Markup

/-- White space in a scalar that may turn out to stand behind its end. -/
inductive Gap where
  | none
  | blanks (cs : List Char)
  /-- Line breaks: the first, unless it was cancelled, and the others. -/
  | lines (first : Option Char) (more : List Char)
deriving DecidableEq, Repr

namespace Gap

def addBlank (c : Char) : Gap → Gap
  | .none => .blanks [c]
  | .blanks cs => .blanks (cs ++ [c])
  | .lines first more => .lines first more

def addBreak (c : Char) : Gap → Gap
  | .none | .blanks _ => .lines (some c) []
  | .lines first more => .lines first (more ++ [c])

def hasBreak : Gap → Bool
  | .lines .. => true
  | _ => false

/-- What a gap comes to. -/
def text : Gap → List Char
  | .none => []
  | .blanks cs => cs
  | .lines (some '\n') [] => [' ']
  | .lines (some '\n') more => more
  | .lines first more => first.toList ++ more

end Gap

end Backend.Markup
