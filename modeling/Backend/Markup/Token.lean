import Backend.Markup.Position
import Backend.Markup.Tag

/-! # Tokens of a block document

Collections are given by punctuation or by indentation. In the second case the tokens
for their start and end stand for no characters of the text.
-/

namespace Backend.Markup

inductive TokenKind where
  | streamEnd
  | version (major minor : Nat)
  /-- A handle for tags, and what it stands for. -/
  | handle (name : String) (meaning : Tag)
  | documentStart
  | documentEnd
  | listStart
  | mapStart
  /-- The end of a collection that is given by indentation. -/
  | blockEnd
  | flowListStart
  | flowListEnd
  | flowMapStart
  | flowMapEnd
  /-- The dash before an item. -/
  | item
  | comma
  | key
  | value
  | alias (name : String)
  | anchor (name : String)
  /-- A handle, or none, and the bytes behind it. -/
  | tag (handle : String) (rest : List UInt8)
  | scalar (text : String) (plain : Bool)
deriving DecidableEq, Repr

structure Token where
  kind : TokenKind
  start : Position
  /-- The place behind the token. -/
  stop : Position
deriving DecidableEq, Repr

end Backend.Markup
