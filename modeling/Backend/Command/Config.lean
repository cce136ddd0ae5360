import Backend.Document.Names
import Backend.Markup.Document

/-! # Configuration

The only setting is how long a local stays visible. A configuration file is a block
document with a map of settings; those with other names are passed over. A file with
nothing in it leaves everything as it is.
-/

namespace Backend

structure Config where
  scope : Scope := .function
deriving DecidableEq, Repr

namespace Config

def encode (c : Config) : Doc := .obj [("scope", c.scope.encode)]

def decode? : Doc → Option Config
  | .obj fields => return { scope := ← Doc.default? (.obj fields) "scope" .function Scope.decode? }
  | _ => none

open Markup (Document Position Located Event ScalarValue Tag complaint invalidType)

/-- The scope with a name. -/
def scopeNamed (name : String) : Except String Scope :=
  match Scope.decode? (.str name) with
  | some scope => .ok scope
  | none =>
      .error ("unknown variant \x60" ++ name ++ "\x60, expected \x60function\x60 or \x60block\x60")

/-- The scope that a tag chooses. Nothing may follow the tag; `misplaced` completes a
complaint about the tag itself. -/
def scopeTagged (path : String) (misplaced : String → String) (tag : String) (p : Position)
    (content : Except String Unit) : Except String Scope := do
  let scope ← (scopeNamed tag).mapError misplaced
  content.mapError (complaint path p)
  return scope

/-- The scope that the first event gives; `path` leads there. -/
def scopeAt (d : Document) (path : String) (misplaced : String → String) :
    List (Located Nat) → Except String Scope
  | (.scalar s, p) :: _ =>
      match s.tag.bind Tag.alternative? with
      | none => (scopeNamed s.text).mapError (complaint path p)
      | some tag =>
          scopeTagged path misplaced tag p
            (if s.isNull then .ok () else .error (Markup.invalidValue s.text "null"))
  | (.listStart q, p) :: _ => collection q.tag p "sequence"
  | (.mapStart q, p) :: _ => collection q.tag p "map"
  | _ => d.stop
where
  collection (tag : Option Tag) (p : Position) (kind : String) : Except String Scope :=
    match tag.bind Tag.alternative? with
    | some tag => scopeTagged path misplaced tag p (.error (invalidType kind "unit"))
    | none => .error (complaint path p (invalidType kind "a YAML tag starting with '!'"))

/-- The scope that comes next, in a map that starts at the given place. -/
def scopeIn (d : Document) (path : String) (start : Position) :
    List (Located Nat) → Except String Scope
  | (.alias number, p) :: _ => scopeAt d path (complaint path p) (d.target number)
  | es => scopeAt d path (complaint "" start) es

/-- The name of a setting. -/
def keyAt (d : Document) : List (Located Nat) → Except String String
  | (.scalar s, _) :: _ => .ok s.text
  | (.listStart _, p) :: _ => .error (complaint "" p (invalidType "sequence" "field identifier"))
  | (.mapStart _, p) :: _ => .error (complaint "" p (invalidType "map" "field identifier"))
  | _ => d.stop

/-- Read settings up to the end of their map, each name at most once. No name shows the
way to a setting whose name is an alias. -/
def settings (d : Document) (start : Position) (scope : Option Scope)
    (es : List (Located Nat)) : Except String (Option Scope) :=
  match es with
  | [] => d.stop
  | (.mapEnd, _) :: _ => .ok scope
  | (e, p) :: rest => do
      let (key, path) ← match e with
        | .alias number => do
            let key ← keyAt d (d.target number)
            pure (key, "?")
        | e => do
            let key ← keyAt d [(e, p)]
            pure (key, key)
      if key = "scope" && scope.isSome then
        throw (complaint "" start "duplicate field \x60scope\x60")
      let scope ← if key = "scope" then some <$> scopeIn d path start rest else pure scope
      match _h : Document.behind 0 rest with
      | none => d.stop
      | some rest => settings d start scope rest
termination_by es.length
decreasing_by
  have := Document.behind_length _h
  simp only [List.length_cons]
  omega

/-- The configuration that a document holds. -/
def ofDocument (d : Document) : Except String Config :=
  let refuse (p : Position) (why : String) : Except String Config := .error (complaint "" p why)
  match d.events with
  | (.mapStart _, p) :: rest => do
      let scope ← settings d p none rest
      d.finish
      return { scope := scope.getD .function }
  | (.scalar s, p) :: _ =>
      if s.isEmpty then do
        d.finish
        return {}
      else refuse p (s.mismatch "struct Config")
  | (.listStart _, p) :: _ => refuse p (invalidType "sequence" "struct Config")
  | (.streamEnd, _) :: _ => .ok {}
  | _ => d.stop

/-- The configuration that a file with the given text holds. -/
def ofText (text : String) : Except String Config := ofDocument (Document.ofText text)

end Config

end Backend
