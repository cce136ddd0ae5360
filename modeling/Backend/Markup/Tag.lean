/-! # Tags

A tag says what sort of value follows. It consists of bytes, which need not be those
of a text, because a byte may be given by its number.
-/

namespace Backend.Markup

structure Tag where
  bytes : List UInt8
deriving DecidableEq, Repr

namespace Tag

def ofText (text : String) : Tag := { bytes := text.toUTF8.toList }

/-- The tags of the values that every document can hold. -/
def standard (name : String) : Tag := ofText ("tag:yaml.org,2002:" ++ name)

def append (t : Tag) (rest : List UInt8) : Tag := { bytes := t.bytes ++ rest }

/-- The text of a tag, if there is one. -/
def text? (t : Tag) : Option String := String.fromUTF8? (ByteArray.mk t.bytes.toArray)

/-- Whether a tag is one of those that have a meaning in one document only. -/
def isLocal (t : Tag) : Bool := t.bytes.head? = some '!'.toUInt8

/-- The name of the alternative that a tag chooses. The mark of these tags is not part
of the name, unless it stands alone. -/
def alternative? (t : Tag) : Option String :=
  if t.isLocal then
    if t.bytes.length = 1 then t.text? else text? { bytes := t.bytes.tail }
  else none

end Tag

end Backend.Markup
