import Backend.Markup.Cursor
import Backend.Markup.Token
import Backend.Text.Numeral

/-! # Anchors, tags and directives

An anchor gives a value a name, and an alias stands for the value with a name. A tag
says what sort of value follows. Directives come before a document, and may introduce
handles that tags start with.
-/

namespace Backend.Markup.Property

/-- Whether a name can end before what follows. -/
def endsName (cs : List Char) : Bool :=
  atWordEnd cs || cs.head?.any "?:,]\x7d%@\x60".toList.contains

/-- The name behind the mark of an anchor or alias. -/
def name (what : String) : Scan String := do
  let start ← Scan.position
  Scan.skip 1
  let cs ← Scan.span isNameChar
  if cs.isEmpty || !endsName (← Scan.rest) then
    Scan.fail what start "did not find expected alphabetic or numeric character"
  return String.ofList cs

/-- The characters of tags. Some of them only stand where nothing else could follow. -/
def isTagChar (enclosed : Bool) (c : Char) : Bool :=
  isNameChar c || ";/?:@&=+$.%!~*'()".toList.contains c ||
    (enclosed && (c = ',' || c = '[' || c = ']'))

/-- The number of bytes of a character whose first byte is given. -/
def width? (byte : Nat) : Option Nat :=
  if byte < 0x80 then some 1
  else if 0xc0 ≤ byte && byte < 0xe0 then some 2
  else if 0xe0 ≤ byte && byte < 0xf0 then some 3
  else if 0xf0 ≤ byte && byte < 0xf8 then some 4
  else none

/-- The bytes of a tag, where a byte may be written as a percent sign and two digits.
Such bytes come in the number that their first one asks for, and `missing` of them are
still to come. -/
def tagBytes (enclosed : Bool) (fault : Position → String → Fault) (missing : Nat)
    (position : Position) : List Char → Except Fault (List UInt8 × Cursor)
  | '%' :: a :: b :: rest =>
      match Numeral.value? 16 [a, b] with
      | none => .error (fault position "did not find URI escaped octet")
      | some byte => do
          let missing ←
            if missing = 0 then
              match width? byte with
              | some width => pure (width - 1)
              | none => throw (fault position "found an incorrect leading UTF-8 octet")
            else if 0x80 ≤ byte && byte < 0xc0 then pure (missing - 1)
            else throw (fault position "found an incorrect trailing UTF-8 octet")
          let (bytes, cursor) ← tagBytes enclosed fault missing
            { position with column := position.column + 3 } rest
          return (byte.toUInt8 :: bytes, cursor)
  | [] =>
      if missing = 0 then .ok ([], { position, rest := [] })
      else .error (fault position "did not find URI escaped octet")
  | c :: rest =>
      if missing ≠ 0 || c = '%' then .error (fault position "did not find URI escaped octet")
      else if isTagChar enclosed c then do
        let (bytes, cursor) ← tagBytes enclosed fault 0 (position.after c) rest
        return (c.toUInt8 :: bytes, cursor)
      else .ok ([], { position, rest := c :: rest })

/-- The rest of a tag, behind a name that has been taken for a handle. A zero byte ends
a tag, whatever is behind it. -/
def tagRest (enclosed : Bool) (what : String) (start : Position) (taken : List Char) :
    Scan (List UInt8) := do
  let fault (position : Position) (problem : String) : Fault :=
    { problem, position, context := some (what, start) }
  let cursor ← get
  let (bytes, behind) ← tagBytes enclosed fault 0 cursor.position cursor.rest
  set behind
  if bytes.isEmpty && taken.isEmpty then Scan.fail what start "did not find expected tag URI"
  return (taken.tail.map Char.toUInt8 ++ bytes).takeWhile (· ≠ 0)

/-- A handle: an exclamation mark, or a name between two of them. Without the second
one the name belongs to what follows. -/
def handle (what : String) (start : Position) : Scan (List Char) := do
  if (← Scan.rest).head? ≠ some '!' then Scan.fail what start "did not find expected '!'"
  Scan.skip 1
  let cs ← Scan.span isNameChar
  if (← Scan.rest).head? = some '!' then
    Scan.skip 1
    return '!' :: cs ++ ['!']
  else return '!' :: cs

/-- Whether a handle has its second mark. -/
def isComplete (handle : List Char) : Bool :=
  1 < handle.length && handle.getLast? = some '!'

def tag (inFlow : Bool) : Scan TokenKind := do
  let start ← Scan.position
  let kind ← match (← Scan.rest).tail.head? with
    | some '<' => do
        Scan.skip 2
        let bytes ← tagRest true "while parsing a tag" start []
        if (← Scan.rest).head? ≠ some '>' then
          Scan.fail "while scanning a tag" start "did not find the expected '>'"
        Scan.skip 1
        pure (TokenKind.tag "" bytes)
    | _ => do
        let first ← handle "while scanning a tag" start
        if isComplete first then
          let bytes ← tagRest false "while parsing a tag" start []
          pure (TokenKind.tag (String.ofList first) bytes)
        else
          let bytes ← tagRest false "while parsing a tag" start first
          if bytes.isEmpty then pure (TokenKind.tag "" ['!'.toUInt8])
          else pure (TokenKind.tag "!" bytes)
  let rest ← Scan.rest
  if !atWordEnd rest && !(inFlow && rest.head? = some ',') then
    Scan.fail "while scanning a tag" start "did not find expected whitespace or line break"
  return kind

/-- A part of a version number. -/
def versionPart (start : Position) : Scan Nat := do
  let what := "while scanning a %YAML directive"
  let cursor ← get
  let cs ← Scan.span Char.isDigit
  if 9 < cs.length then
    set (Nat.repeat Cursor.next 9 cursor)
    Scan.fail what start "found extremely long version number"
  match Numeral.value? 10 cs with
  | some n => return n
  | none => Scan.fail what start "did not find expected version number"

def version (start : Position) : Scan TokenKind := do
  let _ ← Scan.span isBlank
  let major ← versionPart start
  if (← Scan.rest).head? ≠ some '.' then
    Scan.fail "while scanning a %YAML directive" start
      "did not find expected digit or '.' character"
  Scan.skip 1
  return .version major (← versionPart start)

def handleMeaning (start : Position) : Scan TokenKind := do
  let _ ← Scan.span isBlank
  let name ← handle "while scanning a tag directive" start
  if !isComplete name && name ≠ ['!'] then
    Scan.fail "while parsing a tag directive" start "did not find expected '!'"
  if !(← Scan.rest).head?.any isBlank then
    Scan.fail "while scanning a %TAG directive" start "did not find expected whitespace"
  let _ ← Scan.span isBlank
  let meaning ← tagRest true "while parsing a %TAG directive" start []
  if !atWordEnd (← Scan.rest) then
    Scan.fail "while scanning a %TAG directive" start
      "did not find expected whitespace or line break"
  return .handle (String.ofList name) { bytes := meaning }

/-- A directive, up to the end of its line. -/
def directive : Scan TokenKind := do
  let what := "while scanning a directive"
  let start ← Scan.position
  Scan.skip 1
  let cs ← Scan.span isNameChar
  if cs.isEmpty then Scan.fail what start "could not find expected directive name"
  if !atWordEnd (← Scan.rest) then
    Scan.fail what start "found unexpected non-alphabetical character"
  let kind ← match String.ofList cs with
    | "YAML" => version start
    | "TAG" => handleMeaning start
    | _ => Scan.fail what start "found unknown directive name"
  Scan.finishLine what start
  return kind

end Backend.Markup.Property
