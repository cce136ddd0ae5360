import Backend.Markup.Lexer

/-! # Events of a block document

The tokens of a document, read as values: a scalar is one event, and a collection is
between two of them. Values that are left out are empty scalars.
-/

namespace Backend.Markup

/-- The anchor and the tag of a value. -/
structure Properties where
  anchor : Option String := none
  tag : Option Tag := none
deriving DecidableEq, Repr

structure ScalarValue extends Properties where
  text : String := ""
  /-- Whether no quotes or marks tell that it is a text. -/
  plain : Bool := true
deriving DecidableEq, Repr

/-- Events, where aliases refer to values in the given way. -/
inductive Event (Reference : Type) where
  | streamEnd
  | documentStart
  | documentEnd
  | alias (target : Reference)
  | scalar (s : ScalarValue)
  | listStart (p : Properties)
  | listEnd
  | mapStart (p : Properties)
  | mapEnd
deriving DecidableEq, Repr

/-- An event and where it is. -/
abbrev Located (Reference : Type) := Event Reference × Position

/-- What is expected next. -/
inductive Expect where
  | documentStart (first : Bool)
  | content
  | documentEnd
  | node
  | item (first : Bool)
  /-- An item of a list that is not indented further than the map around it. -/
  | flushItem
  | key (first : Bool)
  | value
  | flowItem (first : Bool)
  /-- The key, the value and the end of a map with one entry, without brackets. -/
  | pairKey
  | pairValue
  | pairEnd
  | flowKey (first : Bool)
  | flowValue
  /-- The value of a key without a colon. -/
  | flowNothing
deriving DecidableEq, Repr

structure Parser where
  tokens : List Token
  /-- What is wrong behind the last token. -/
  fault : Fault
  expect : Expect := .documentStart true
  /-- What is expected behind the values that are open. -/
  outer : List Expect := []
  /-- Where the collections that are open started. -/
  starts : List Position := []
  /-- The handles of tags and what they stand for. -/
  handles : List (String × Tag) := []

abbrev Parse := StateT Parser (Except Fault)

namespace Parse

def peek : Parse Token := do
  let s ← get
  match s.tokens with
  | t :: _ => return t
  | [] => throw s.fault

def skip : Parse Unit := modify fun s => { s with tokens := s.tokens.tail }

def expect (e : Expect) : Parse Unit := modify fun s => { s with expect := e }

/-- Expect something behind the next value. -/
def push (e : Expect) : Parse Unit := modify fun s => { s with outer := e :: s.outer }

/-- Expect what is expected behind a value. -/
def pop : Parse Unit := modify fun s =>
  { s with expect := s.outer.headD (.documentStart false), outer := s.outer.tail }

/-- Enter a collection at its first token. -/
def enter : Parse Unit := do
  let t ← peek
  modify fun s => { s with starts := t.start :: s.starts }
  skip

/-- Leave a collection with its last token. -/
def leave : Parse Unit := do
  modify fun s => { s with starts := s.starts.tail }
  pop
  skip

/-- Report a problem with the collection around the next token. -/
def failInside {α : Type} (what problem : String) : Parse α := do
  let start := (← get).starts.headD {}
  throw { problem, position := (← peek).start, context := some (what, start) }

def empty (p : Position) : Parse (Located String) := return (.scalar {}, p)

/-- The tag that a handle and the rest of the tag stand for. -/
def resolveTag (start : Position) (t : Token) (handle : String) (rest : List UInt8) :
    Parse Tag := do
  if handle = "" then return { bytes := rest }
  match (← get).handles.lookup handle with
  | some meaning => return meaning.append rest
  | none =>
      throw {
        problem := "found undefined tag handle"
        position := t.start
        context := some ("while parsing a node", start) }

/-- An anchor and a tag, in either order, each at most once. -/
def properties : Parse Properties := do
  let start := (← peek).start
  let mut anchor := none
  let mut tag := none
  for _ in [0, 1] do
    let t ← peek
    match t.kind with
    | .anchor name =>
        if anchor.isNone then
          anchor := some name
          skip
    | .tag handle rest =>
        if tag.isNone then
          tag := some (t, handle, rest)
          skip
    | _ => pure ()
  let _ ← peek
  match tag with
  | none => return { anchor }
  | some (t, handle, rest) => return { anchor, tag := some (← resolveTag start t handle rest) }

/-- A value. Whether one can be given by indentation depends on what surrounds it, and
so does whether a list can be flush with that. -/
def node (block flush : Bool) : Parse (Located String) := do
  let t ← peek
  if let .alias name := t.kind then
    pop
    skip
    return (.alias name, t.start)
  let p ← properties
  let start := t.start
  let t ← peek
  match t.kind with
  | .scalar text plain =>
      pop
      skip
      return (.scalar { p with text, plain }, start)
  | .flowListStart =>
      expect (.flowItem true)
      return (.listStart p, start)
  | .flowMapStart =>
      expect (.flowKey true)
      return (.mapStart p, start)
  | kind =>
      if flush && kind = .item then
        expect .flushItem
        return (.listStart p, start)
      else if block && kind = .listStart then
        expect (.item true)
        return (.listStart p, start)
      else if block && kind = .mapStart then
        expect (.key true)
        return (.mapStart p, start)
      else if p ≠ {} then
        pop
        return (.scalar { p with }, start)
      else
        throw {
          problem := "did not find expected node content"
          position := t.start
          context := some (if block then "while parsing a block node"
            else "while parsing a flow node", start) }

/-- The value behind a token that was skipped, unless one of the given kinds of token
follows; `next` is expected behind the value. -/
def nodeUnless (kinds : List TokenKind) (next : Expect) (place : Position) (block flush : Bool) :
    Parse (Located String) := do
  if kinds.contains (← peek).kind then
    expect next
    empty place
  else
    push next
    node block flush

/-- The directives before a document. -/
def directives (version : Bool) (handles : List (String × Tag)) :
    List Token → Except Fault (List (String × Tag) × List Token)
  | ⟨.version major minor, start, _⟩ :: rest =>
      if version then
        .error { problem := "found duplicate %YAML directive", position := start }
      else if major ≠ 1 || (minor ≠ 1 && minor ≠ 2) then
        .error { problem := "found incompatible YAML document", position := start }
      else directives true handles rest
  | ⟨.handle name meaning, start, _⟩ :: rest =>
      if (handles.lookup name).isSome then
        .error { problem := "found duplicate %TAG directive", position := start }
      else directives version ((name, meaning) :: handles) rest
  | tokens => .ok (handles, tokens)

/-- The handles that need no directive. -/
def usualHandles : List (String × Tag) :=
  [("!", Tag.ofText "!"), ("!!", Tag.standard "")]

def documentStart (first : Bool) : Parse (Located String) := do
  if !first then
    modify fun s => { s with tokens := s.tokens.dropWhile (·.kind = .documentEnd) }
  let t ← peek
  match t.kind with
  | .streamEnd => return (.streamEnd, t.start)
  | .version .. | .handle .. | .documentStart => pure ()
  | _ =>
      if first then
        modify fun s => { s with handles := usualHandles }
        push .documentEnd
        expect .node
        return (.documentStart, t.start)
  let (handles, tokens) ← directives false [] (← get).tokens
  modify fun s => { s with handles := handles ++ usualHandles, tokens }
  let next ← peek
  if next.kind ≠ .documentStart then
    throw { problem := "did not find expected <document start>", position := next.start }
  skip
  push .documentEnd
  expect .content
  return (.documentStart, t.start)

def isBetweenDocuments : TokenKind → Bool
  | .version .. | .handle .. | .documentStart | .documentEnd | .streamEnd => true
  | _ => false

/-- The next event. -/
def event : Parse (Located String) := do
  match (← get).expect with
  | .documentStart first => documentStart first
  | .content => do
      let t ← peek
      if isBetweenDocuments t.kind then
        pop
        empty t.start
      else node true false
  | .documentEnd => do
      let t ← peek
      if t.kind = .documentEnd then skip
      expect (.documentStart false)
      return (.documentEnd, t.start)
  | .node => node true false
  | .item first => do
      if first then enter
      let t ← peek
      match t.kind with
      | .item => do
          skip
          nodeUnless [.item, .blockEnd] (.item false) t.stop true false
      | .blockEnd => do
          leave
          return (.listEnd, t.start)
      | _ => failInside "while parsing a block collection" "did not find expected '-' indicator"
  | .flushItem => do
      let t ← peek
      if t.kind = .item then
        skip
        nodeUnless [.item, .key, .value, .blockEnd] .flushItem t.stop true false
      else
        pop
        return (.listEnd, t.start)
  | .key first => do
      if first then enter
      let t ← peek
      match t.kind with
      | .key => do
          skip
          nodeUnless [.key, .value, .blockEnd] .value t.stop true true
      | .blockEnd => do
          leave
          return (.mapEnd, t.start)
      | _ => failInside "while parsing a block mapping" "did not find expected key"
  | .value => do
      let t ← peek
      if t.kind = .value then
        skip
        nodeUnless [.key, .value, .blockEnd] (.key false) t.stop true true
      else
        expect (.key false)
        empty t.start
  | .flowItem first => do
      if first then enter
      if !first && (← peek).kind ≠ .flowListEnd then
        if (← peek).kind ≠ .comma then
          failInside "while parsing a flow sequence" "did not find expected ',' or ']'"
        skip
      let t ← peek
      match t.kind with
      | .flowListEnd => do
          leave
          return (.listEnd, t.start)
      | .key => do
          skip
          expect .pairKey
          return (.mapStart {}, t.start)
      | _ => do
          push (.flowItem false)
          node false false
  | .pairKey => do
      let t ← peek
      if [.value, .comma, .flowListEnd].contains t.kind then
        skip
        expect .pairValue
        empty t.stop
      else
        push .pairValue
        node false false
  | .pairValue => do
      if (← peek).kind = .value then skip
      else
        expect .pairEnd
        return ← empty (← peek).start
      nodeUnless [.comma, .flowListEnd] .pairEnd (← peek).start false false
  | .pairEnd => do
      expect (.flowItem false)
      return (.mapEnd, (← peek).start)
  | .flowKey first => do
      if first then enter
      if !first && (← peek).kind ≠ .flowMapEnd then
        if (← peek).kind ≠ .comma then
          failInside "while parsing a flow mapping" "did not find expected ',' or '\x7d'"
        skip
      let t ← peek
      match t.kind with
      | .flowMapEnd => do
          leave
          return (.mapEnd, t.start)
      | .key => do
          skip
          nodeUnless [.value, .comma, .flowMapEnd] .flowValue (← peek).start false false
      | _ => do
          push .flowNothing
          node false false
  | .flowValue => do
      if (← peek).kind = .value then
        skip
        nodeUnless [.comma, .flowMapEnd] (.flowKey false) (← peek).start false false
      else
        expect (.flowKey false)
        empty (← peek).start
  | .flowNothing => do
      expect (.flowKey false)
      empty (← peek).start

end Parse

namespace Parser

/-- The events from here on, behind those that have been read, which are in reverse
order, and why they are not all. Every event takes a token, apart from the empty
scalars and the starts and ends of collections, of which there are few for a token. -/
def run : (fuel : Nat) → List (Located String) → Parser → List (Located String) × Option Fault
  | 0, read, s => (read.reverse, some s.fault)
  | fuel + 1, read, s =>
      match Parse.event s with
      | .error f => (read.reverse, some f)
      | .ok ((.streamEnd, p), _) => (((.streamEnd, p) :: read).reverse, none)
      | .ok (e, s) => run fuel (e :: read) s

end Parser

/-- The events of a text, and why they are not all. -/
def events (text : String) : List (Located String) × Option Fault :=
  let (tokens, fault) := tokens text
  Parser.run (4 * tokens.length + 4) [] { tokens, fault := fault.getD { problem := "" } }

end Backend.Markup
