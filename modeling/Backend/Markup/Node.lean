import Backend.Markup.Scalar
import Backend.Text.Ansi

/-! # Writing block documents

A collection has its entries on lines of their own, at a common column. It starts on
the line of the dash before it, but on a new line behind a key or a tag. A list has
the column of the key before it, and anything else is two columns further right.
-/

namespace Backend.Markup

inductive Node where
  /-- A number, or another word that needs no quotes. -/
  | word (s : String)
  | text (s : String)
  | list (items : List Node)
  | map (fields : List (String × Node))
  | tagged (tag : String) (x : Node)
deriving Repr

namespace Node

mutual

/-- The text of a node behind the mark before it, to the end of its last line. A
collection starts on the same line if `inline`. Lists are at the column `listColumn`,
and other things at `column`. -/
def write (inline : Bool) (listColumn column : Nat) : Node → String
  | .word s => " " ++ s ++ "\n"
  | .text s => " " ++ Scalar.endLine (Scalar.render column s)
  | .list [] => " []\n"
  | .map [] => " \x7b\x7d\n"
  | .list items =>
      writeItems (if inline then " " else "\n" ++ Column.blanks listColumn) listColumn items
  | .map fields =>
      writeFields (if inline then " " else "\n" ++ Column.blanks column) column fields
  | .tagged tag x => " !" ++ tag ++ x.write false listColumn column

/-- Items at a column, the first one behind the given text. -/
def writeItems (lead : String) (column : Nat) : List Node → String
  | [] => ""
  | x :: rest =>
      lead ++ "-" ++ x.write true (column + 2) (column + 2) ++
        writeItems (Column.blanks column) column rest

/-- Fields at a column, the first one behind the given text. A name that cannot be a
key stands behind a question mark, and its value behind a colon on the next line. -/
def writeFields (lead : String) (column : Nat) : List (String × Node) → String
  | [] => ""
  | (key, x) :: rest =>
      lead ++ (if Scalar.isKey key then
          Scalar.render (column + 2) key ++ ":" ++ x.write false column (column + 2)
        else
          "? " ++ Scalar.endLine (Scalar.render (column + 2) key) ++ Column.blanks column ++ ":" ++
            x.write true (column + 2) (column + 2)) ++
        writeFields (Column.blanks column) column rest

end

/-- A document. -/
def render : Node → String
  | .list (x :: rest) => writeItems "" 0 (x :: rest)
  | .map (field :: rest) => writeFields "" 0 (field :: rest)
  | x => String.ofList ((x.write false 0 0).toList.drop 1)

end Node

end Backend.Markup
