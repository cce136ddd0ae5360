import Backend.Markup.Lines
import Backend.Markup.Plain
import Backend.Markup.Property
import Backend.Markup.Quotes
import Backend.Markup.Source

/-! # Tokens of a text

A collection given by indentation starts with its first item or key and ends with the
first line that is indented less. A key is only known for one by the colon behind it,
so every place where one may start is remembered until the line ends: the tokens of
the key are inserted there when the colon comes.
-/

namespace Backend.Markup

/-- A place where a key may have started. -/
structure PossibleKey where
  /-- Whether nothing but a key can be there. -/
  required : Bool
  /-- The number of tokens before it. -/
  number : Nat
  position : Position
deriving DecidableEq, Repr

structure Lexer where
  cursor : Cursor
  tokens : Array Token := #[]
  /-- The column of the collection around the cursor. -/
  indent : Int := -1
  /-- The columns of the collections around that one. -/
  indents : List Int := []
  /-- The possible key of every bracket that is open, the last one first, and of the
  text around the brackets. -/
  keys : List (Option PossibleKey) := [none]
  /-- Whether a key may start at the cursor. -/
  keyAllowed : Bool := true
  /-- Why the text cannot be read any further than to the end of what follows the
  cursor. -/
  beyond : Option Fault := none

/-- Steps of a lexer. A fault leaves the tokens that there were. -/
abbrev Lex := EStateM Fault Lexer

namespace Lexer

def inFlow (s : Lexer) : Bool := 1 < s.keys.length

/-- The key that may have started since the last bracket. -/
def key? (s : Lexer) : Option PossibleKey := s.keys.head?.join

def setKey (k : Option PossibleKey) (s : Lexer) : Lexer := { s with keys := k :: s.keys.tail }

/-- The number of tokens before which no key can turn up any more. -/
def settled (s : Lexer) : Nat :=
  (s.keys.filterMap id).foldl (fun n k => min n k.number) s.tokens.size

def keyFault (s : Lexer) (k : PossibleKey) : Fault :=
  { problem := "could not find expected ':'"
    position := s.cursor.position
    context := some ("while scanning a simple key", k.position) }

/-- What a fault in a token comes to: one at the end of what can be read is that there
is no more. -/
def faultOrEnd (s : Lexer) (f : Fault) : Fault :=
  match s.beyond with
  | some g =>
      if f.position = s.cursor.rest.foldl (fun p c => p.after c) s.cursor.position then g else f
  | none => f

end Lexer

namespace Lex

/-- Report a problem at the cursor. -/
def fail {α : Type} (problem : String) : Lex α := do
  throw { problem, position := (← get).cursor.position }

/-- Ask for characters behind the cursor, so that the end of what can be read is not
taken for the end of the text. -/
def need (count : Nat) : Lex Unit := do
  let s ← get
  match s.beyond with
  | some f => if (s.cursor.rest.drop (count - 1)).isEmpty then throw f
  | none => pure ()

/-- Move the cursor by scanning. -/
def scan {α : Type} (x : Scan α) : Lex α := do
  let s ← get
  match x s.cursor with
  | .error f => throw (s.faultOrEnd f)
  | .ok (a, cursor) => do
      modify fun s => { s with cursor }
      return a

def allowKey (allowed : Bool) : Lex Unit := modify fun s => { s with keyAllowed := allowed }

def add (kind : TokenKind) (start stop : Position) : Lex Unit :=
  modify fun s => { s with tokens := s.tokens.push { kind, start, stop } }

/-- Insert a token that stands for no characters. -/
def insert (number : Nat) (kind : TokenKind) (position : Position) : Lex Unit :=
  modify fun s =>
    let later := s.tokens.extract number s.tokens.size
    { s with
      tokens :=
        (s.tokens.shrink number).push { kind, start := position, stop := position } ++ later }

/-- A token that is read by scanning. -/
def addScanned (x : Scan TokenKind) : Lex Unit := do
  let start := (← get).cursor.position
  let kind ← scan x
  add kind start (← get).cursor.position

/-- A token of so many characters. -/
def addMark (kind : TokenKind) (width : Nat) : Lex Unit :=
  addScanned do
    Scan.skip width
    return kind

/-- A key has to be on one line, and not too long. -/
def dropStaleKeys : Lex Unit := do
  let s ← get
  let p := s.cursor.position
  let keys ← s.keys.mapM fun
    | none => pure none
    | some k =>
        if k.position.line < p.line || k.position.column + 1024 < p.column then
          if k.required then throw (s.keyFault k) else pure none
        else pure (some k)
  set { s with keys }

/-- Give up the possible key. -/
def dropKey : Lex Unit := do
  let s ← get
  match s.key? with
  | some k => if k.required then throw (s.keyFault k)
  | none => pure ()
  set (s.setKey none)

/-- Remember that a key may start here. -/
def saveKey : Lex Unit := do
  if (← get).keyAllowed then
    dropKey
    let s ← get
    let p := s.cursor.position
    set (s.setKey (some {
      required := !s.inFlow && s.indent = p.column
      number := s.tokens.size
      position := p }))

/-- Start a collection at a column that is further right, before the token with the
given number. -/
def indentTo (position : Position) (number : Nat) (kind : TokenKind) : Lex Unit := do
  let s ← get
  if !s.inFlow && s.indent < position.column then
    set { s with indents := s.indent :: s.indents, indent := position.column }
    insert number kind position

/-- End the collections that are further right than a column. -/
def unindentFrom (column : Int) (position : Position) : List Int → Lex Unit
  | [] => pure ()
  | outer :: rest => do
      if column < (← get).indent then
        add .blockEnd position position
        modify fun s => { s with indent := outer, indents := rest }
        unindentFrom column position rest

def unindentTo (column : Int) : Lex Unit := do
  let s ← get
  if !s.inFlow then unindentFrom column s.cursor.position s.indents

/-- Skip blanks, comments and line breaks. Outside of brackets a key may start on a new
line, and no tab may stand where one may start. -/
def skipTo (inFlow : Bool) (keyAllowed inComment : Bool) (position : Position) :
    List Char → Bool × Cursor
  | [] => (keyAllowed, { position, rest := [] })
  | c :: rest =>
      if isBreak c then skipTo inFlow (keyAllowed || !inFlow) false (position.after c) rest
      else if inComment || c = '#' then skipTo inFlow keyAllowed true (position.after c) rest
      else if c = ' ' || (c = '\t' && (inFlow || !keyAllowed)) ||
          (position.column = 0 && Source.isByteOrderMark c) then
        skipTo inFlow keyAllowed false (position.after c) rest
      else (keyAllowed, { position, rest := c :: rest })

def skipToToken : Lex Unit := modify fun s =>
  let (keyAllowed, cursor) := skipTo s.inFlow s.keyAllowed false s.cursor.position s.cursor.rest
  { s with keyAllowed, cursor }

/-- Leave all collections, before something between documents. -/
def leaveDocument : Lex Unit := do
  unindentTo (-1)
  dropKey
  allowKey false

def streamEnd : Lex Unit := do
  modify fun s =>
    let p := s.cursor.position
    let position := if p.column = 0 then p else { line := p.line + 1 }
    { s with cursor := { s.cursor with position } }
  leaveDocument
  addMark .streamEnd 0

def openFlow (kind : TokenKind) : Lex Unit := do
  saveKey
  modify fun s => { s with keys := none :: s.keys }
  allowKey true
  addMark kind 1

def closeFlow (kind : TokenKind) : Lex Unit := do
  dropKey
  modify fun s => if s.inFlow then { s with keys := s.keys.tail } else s
  allowKey false
  addMark kind 1

def comma : Lex Unit := do
  dropKey
  allowKey true
  addMark .comma 1

def item : Lex Unit := do
  let s ← get
  if !s.inFlow then
    if !s.keyAllowed then fail "block sequence entries are not allowed in this context"
    indentTo s.cursor.position s.tokens.size .listStart
  dropKey
  allowKey true
  addMark .item 1

def key : Lex Unit := do
  let s ← get
  if !s.inFlow then
    if !s.keyAllowed then fail "mapping keys are not allowed in this context"
    indentTo s.cursor.position s.tokens.size .mapStart
  dropKey
  allowKey !s.inFlow
  addMark .key 1

def value : Lex Unit := do
  let s ← get
  match s.key? with
  | some k =>
      insert k.number .key k.position
      indentTo k.position k.number .mapStart
      modify (Lexer.setKey none)
      allowKey false
  | none =>
      if !s.inFlow then
        if !s.keyAllowed then fail "mapping values are not allowed in this context"
        indentTo s.cursor.position s.tokens.size .mapStart
      allowKey !s.inFlow
  addMark .value 1

/-- A token that may be a key or start one. -/
def keyLike (x : Scan TokenKind) : Lex Unit := do
  saveKey
  allowKey false
  addScanned x

def linesScalar (folded : Bool) : Lex Unit := do
  dropKey
  allowKey true
  let outer := (← get).indent
  addScanned do return .scalar (String.ofList (← Lines.scan folded outer)) false

/-- A scalar between quotes, by what reads on behind the first quote. -/
def quotedScalar (read : Position → Position → List Char → Except Fault (List Char × Cursor)) :
    Lex Unit :=
  keyLike do
    let start ← Scan.position
    Scan.skip 1
    let cursor ← get
    let (cs, behind) ← read start cursor.position cursor.rest
    set behind
    return .scalar (String.ofList cs) false

def plainScalar : Lex Unit := do
  let s ← get
  saveKey
  allowKey false
  let start := s.cursor.position
  match Plain.scan { inFlow := s.inFlow, indent := s.indent + 1, start } [] .none
      start s.cursor.rest with
  | .error f => throw (s.faultOrEnd f)
  | .ok result => do
      modify fun s => { s with cursor := result.behind }
      add (.scalar (String.ofList result.text) true) start result.behind.position
      if result.brokeLine then allowKey true

/-- Characters that a plain scalar cannot start with, at least not before a blank. -/
def isIndicator (c : Char) : Bool := "-?:,[]\x7b\x7d#&*!|>'\"%@\x60".toList.contains c

/-- Whether a plain scalar starts here. -/
def startsPlain (inFlow : Bool) (c : Char) (rest : List Char) : Bool :=
  (!isIndicator c && !isBlank c) || (c = '-' && !rest.head?.any isBlank) ||
    (!inFlow && (c = '?' || c = ':') && !atWordEnd rest)

/-- The next token outside of blanks and comments. The result tells whether it was
the last one. -/
def token : Lex Bool := do
  let s ← get
  let atLineStart := s.cursor.position.column = 0
  match s.cursor.rest with
  | [] => do
      streamEnd
      return true
  | c :: rest => do
      if atLineStart && c = '%' then
        leaveDocument
        addScanned Property.directive
      else if atLineStart && atDocumentMark (c :: rest) then
        leaveDocument
        addMark (if c = '-' then .documentStart else .documentEnd) 3
      else if c = '[' then openFlow .flowListStart
      else if c = '\x7b' then openFlow .flowMapStart
      else if c = ']' then closeFlow .flowListEnd
      else if c = '\x7d' then closeFlow .flowMapEnd
      else if c = ',' then comma
      else if c = '-' && atWordEnd rest then item
      else if c = '?' && (s.inFlow || atWordEnd rest) then key
      else if c = ':' && (s.inFlow || atWordEnd rest) then value
      else if c = '*' then
        keyLike do return .alias (← Property.name "while scanning an alias")
      else if c = '&' then
        keyLike do return .anchor (← Property.name "while scanning an anchor")
      else if c = '!' then keyLike (Property.tag s.inFlow)
      else if c = '|' && !s.inFlow then linesScalar false
      else if c = '>' && !s.inFlow then linesScalar true
      else if c = '\'' then quotedScalar fun start p cs => Quotes.single start [] .none p cs
      else if c = '"' then quotedScalar fun start p cs => Quotes.double start [] .none p 0 cs
      else if startsPlain s.inFlow c rest then plainScalar
      else
        throw {
          problem := "found character that cannot start any token"
          position := s.cursor.position
          context := some ("while scanning for the next token", s.cursor.position) }
      return false

/-- Blanks and comments, the ends of collections, and the next token. -/
def step : Lex Bool := do
  skipToToken
  need 1
  dropStaleKeys
  unindentTo (← get).cursor.position.column
  need 4
  let last ← token
  need 1
  return last

end Lex

namespace Lexer

/-- The tokens from here on, with those before, and why they are not all. Tokens that
a key may still turn up before are not given when there is a fault. Every step but the
last one takes a character, so there is fuel for all of them. -/
def run : (fuel : Nat) → (settled : Nat) → Lexer → List Token × Option Fault
  | 0, _, s => (s.tokens.toList, none)
  | fuel + 1, settled, s =>
      match Lex.dropStaleKeys s with
      | .error f s => (s.tokens.toList.take settled, some f)
      | .ok _ s =>
          let settled := s.settled
          match Lex.step s with
          | .error f s => (s.tokens.toList.take settled, some f)
          | .ok true s =>
              match Lex.dropStaleKeys s with
              | .error f s => (s.tokens.toList.take settled, some f)
              | .ok _ s => (s.tokens.toList, none)
          | .ok false s => run fuel settled s

end Lexer

/-- The tokens of a text, and why they are not all. -/
def tokens (text : String) : List Token × Option Fault :=
  let (cs, beyond) := Source.read text
  Lexer.run (cs.length + 1) 0 { cursor := { rest := cs }, beyond }

end Backend.Markup
