import Backend.Document.Decode
import Backend.Document.Encode
import Backend.Markup.Document
import Backend.Markup.Node

/-! # Tree files

A tree file is a block document. Where a choice holds something, the name of the
alternative is a tag; these names start with a capital, and those of fields do not.
Trees that are nested too deeply can be written, but not read.
-/

namespace Backend

open Markup (Document Position Located ScalarValue Tag complaint invalidType)

/-- Whether a field has the name of an alternative. -/
def isAlternative (key : String) : Bool := key.toList.head?.any Char.isUpper

mutual

/-- A document as it is written to a file. -/
def Doc.toNode : Doc → Markup.Node
  | .null => .word "null"
  | .bool b => .word (if b then "true" else "false")
  | .int n => .word (toString n)
  | .fraction text => .word text
  | .str s => .text s
  | .arr items => .list (Doc.toNodes items)
  | .obj [(key, x)] => if isAlternative key then .tagged key x.toNode else .map [(key, x.toNode)]
  | .obj fields => .map (Doc.toFields fields)

def Doc.toNodes : List Doc → List Markup.Node
  | [] => []
  | x :: rest => x.toNode :: Doc.toNodes rest

def Doc.toFields : List (String × Doc) → List (String × Markup.Node)
  | [] => []
  | (key, x) :: rest => (key, x.toNode) :: Doc.toFields rest

end

def Program.toText (p : Program) : String := p.encode.toNode.render

namespace TreeFile

/-- How many collections may be open at once. -/
def depthLimit : Nat := 128

/-- A collection whose end has not been read yet, with its tag and what it holds so
far, in reverse order. -/
inductive Pending where
  | list (tag : Option Tag) (items : List Doc)
  | map (tag : Option Tag) (fields : List (String × Doc)) (key : Option String)

def ofValue : Markup.Value → Doc
  | .null => .null
  | .bool b => .bool b
  | .int n => .int n
  | .decimal negative d => .fraction ((if negative then "-" else "") ++ d.shortest)
  | .infinity negative => .fraction (if negative then "-.inf" else ".inf")
  | .notANumber => .fraction ".nan"
  | .text s => .str s

/-- A value with the alternative that its tag names. -/
def withTag (tag : Option Tag) (x : Doc) : Doc :=
  match tag.bind Tag.alternative? with
  | some name => .tagged name x
  | none => x

def ofScalar (s : ScalarValue) : Doc :=
  match s.value with
  | .ok v => withTag s.tag (ofValue v)
  | .error _ => withTag s.tag (.str s.text)

mutual

/-- Read a value from the events, inside the given open collections. -/
def value (d : Document) : List (Located Nat) → List Pending → Except String Doc
  | (.scalar s, _) :: rest, .map tag fields none :: stack =>
      value d rest (.map tag fields (some s.text) :: stack)
  | (.scalar s, _) :: rest, stack => afterValue d rest (ofScalar s) stack
  | (.listStart q, p) :: rest, stack =>
      if depthLimit ≤ stack.length then .error (complaint "" p "recursion limit exceeded")
      else value d rest (.list q.tag [] :: stack)
  | (.mapStart q, p) :: rest, stack =>
      if depthLimit ≤ stack.length then .error (complaint "" p "recursion limit exceeded")
      else value d rest (.map q.tag [] none :: stack)
  | (.listEnd, _) :: rest, .list tag items :: stack =>
      afterValue d rest (withTag tag (.arr items.reverse)) stack
  | (.mapEnd, _) :: rest, .map tag fields none :: stack =>
      afterValue d rest (withTag tag (.obj fields.reverse)) stack
  | (.alias _, p) :: _, _ => .error (complaint "" p "a tree has no aliases")
  | _, _ => d.stop

/-- Go on behind a value that has been read. -/
def afterValue (d : Document) : List (Located Nat) → Doc → List Pending → Except String Doc
  | _, x, [] => .ok x
  | rest, x, .list tag items :: stack => value d rest (.list tag (x :: items) :: stack)
  | rest, x, .map tag fields (some key) :: stack =>
      value d rest (.map tag ((key, x) :: fields) none :: stack)
  | _, _, .map _ _ none :: _ => .error "a tree has only names for keys"

end

/-- The program that a document holds, at the given place. -/
def program (p : Position) (x : Doc) : Except String Program :=
  let missing (key : String) : Except String Program :=
    .error (complaint "" p ("missing field \x60" ++ key ++ "\x60"))
  if (x.field? "decls").isNone then missing "decls"
  else if (x.field? "items").isNone then missing "items"
  else
    match Program.decode? x with
    | some program => .ok program
    | none => .error "the file holds no program tree"

def ofDocument (d : Document) : Except String Program :=
  match d.events with
  | (.streamEnd, p) :: _ => program p (.obj [])
  | (.scalar s, p) :: _ =>
      if s.isEmpty then program p (.obj []) else .error (complaint "" p (s.mismatch "struct Ast"))
  | (.listStart _, p) :: _ => .error (complaint "" p (invalidType "sequence" "struct Ast"))
  | (e, p) :: rest => do
      let x ← value d ((e, p) :: rest) []
      let program ← program p x
      d.finish
      return program
  | [] => d.stop

end TreeFile

/-- The program that a file with the given text holds. -/
def Program.ofText (text : String) : Except String Program :=
  TreeFile.ofDocument (Document.ofText text)

end Backend
