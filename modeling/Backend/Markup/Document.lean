import Backend.Markup.Event
import Backend.Markup.Value

/-! # The document of a text

A text should hold one document. Its events are kept up to where the text cannot be
read any further, since whoever reads the document may object to something before.
-/

namespace Backend.Markup

structure Document where
  /-- The events, without those around the document. A text without a document has
  nothing but its end. -/
  events : List (Located Nat) := []
  /-- Where the values are that aliases refer to. -/
  targets : List (Nat × Nat) := []
  /-- Why the events are not all. -/
  failure : Option String := none
  /-- Whether there is something behind the document. -/
  followed : Bool := false

namespace Document

/-- What has been read of a document. -/
structure Progress where
  /-- The events, in reverse order. -/
  read : List (Located Nat) := []
  /-- The number of events. -/
  count : Nat := 0
  /-- The names of anchors, each with its last number. -/
  names : List (String × Nat) := []
  targets : List (Nat × Nat) := []

namespace Progress

def add (e : Event Nat) (p : Position) (d : Progress) : Progress :=
  { d with read := (e, p) :: d.read, count := d.count + 1 }

/-- Give the next event an anchor. An anchor has the number of names before it. -/
def anchor (name : Option String) (d : Progress) : Progress :=
  match name with
  | none => d
  | some name => { d with
      names := (name, d.names.length) :: d.names.filter (·.1 ≠ name)
      targets := (d.names.length, d.count) :: d.targets }

def finish (d : Progress) (failure : Option String) (followed : Bool) : Document :=
  { events := d.read.reverse, targets := d.targets, failure, followed }

end Progress

/-- Read a document. An alias refers to the last anchor with its name. -/
def load (fault : Option Fault) (d : Progress) : List (Located String) → Document
  | [] => d.finish (fault.map Fault.message) false
  | (e, p) :: rest =>
      match e with
      | .documentStart => load fault d rest
      | .documentEnd =>
          let followed := match rest with
            | (.streamEnd, _) :: _ => false
            | _ => true
          d.finish none followed
      | .streamEnd => (d.add .streamEnd p).finish none false
      | .alias name =>
          match d.names.lookup name with
          | some number => load fault (d.add (.alias number) p) rest
          | none => d.finish (some ("unknown anchor" ++ p.suffix)) false
      | .scalar s => load fault ((d.anchor s.anchor).add (.scalar s) p) rest
      | .listStart q => load fault ((d.anchor q.anchor).add (.listStart q) p) rest
      | .mapStart q => load fault ((d.anchor q.anchor).add (.mapStart q) p) rest
      | .listEnd => load fault (d.add .listEnd p) rest
      | .mapEnd => load fault (d.add .mapEnd p) rest

def ofText (text : String) : Document :=
  let (events, fault) := Markup.events text
  load fault {} events

/-- The events of the value that an alias refers to, and those behind it. -/
def target (d : Document) (number : Nat) : List (Located Nat) :=
  d.events.drop ((d.targets.lookup number).getD d.events.length)

/-- The number of collections around what follows an event. -/
def depthAfter (depth : Nat) : Event Nat → Nat
  | .listStart _ | .mapStart _ => depth + 1
  | .listEnd | .mapEnd => depth - 1
  | _ => depth

/-- The events behind the value that starts here, inside so many collections. -/
def behind (depth : Nat) : List (Located Nat) → Option (List (Located Nat))
  | [] => none
  | (e, _) :: rest =>
      if depthAfter depth e = 0 then some rest else behind (depthAfter depth e) rest

theorem behind_length {depth : Nat} {es rest : List (Located Nat)}
    (h : behind depth es = some rest) : rest.length < es.length := by
  induction es generalizing depth with
  | nil => simp [behind] at h
  | cons e es ih =>
      simp only [behind] at h
      split at h
      · simp only [Option.some.injEq] at h
        simp [h]
      · have := ih h
        simp only [List.length_cons]
        omega

/-- What went wrong where the events end. -/
def stop {α : Type} (d : Document) : Except String α := .error (d.failure.getD "")

/-- What is left to complain about when the document has been read. -/
def finish (d : Document) : Except String Unit :=
  match d.failure with
  | some cause => .error cause
  | none =>
      if d.followed then
        .error "deserializing from YAML containing more than one document is not supported"
      else .ok ()

end Document

/-- A complaint about something at a place; `path` leads there from the whole. -/
def complaint (path : String) (p : Position) (text : String) : String :=
  (if path = "" then "" else path ++ ": ") ++ text ++ p.suffix

def invalidType (found expected : String) : String :=
  "invalid type: " ++ found ++ ", expected " ++ expected

def invalidValue (found expected : String) : String :=
  "invalid value: string " ++ Quoted.quote found ++ ", expected " ++ expected

namespace ScalarValue

def isEmpty (s : ScalarValue) : Bool := s.text = "" && s.plain

/-- Whether a scalar stands for no value, as far as its text tells. -/
def isNull (s : ScalarValue) : Bool :=
  s.isEmpty || (s.plain && (Value.null? s.text).isSome)

/-- The value of a scalar, as far as its tag allows; the error is what the tag asks
for. -/
def value (s : ScalarValue) : Except String Value :=
  let untagged := if s.plain then Value.ofPlain s.text else .text s.text
  let asked (v : Option Value) (what : String) : Except String Value :=
    match v with
    | some v => .ok v
    | none => .error what
  match s.tag with
  | none => .ok untagged
  | some tag =>
      if tag = .standard "bool" then asked ((Value.bool? s.text).map .bool) "a boolean"
      else if tag = .standard "int" then
        asked ((Numeral.integer? s.text.toList).map .int) "an integer"
      else if tag = .standard "float" then asked (Value.float? s.text) "a float"
      else if tag = .standard "null" then
        asked ((Value.null? s.text).map fun _ => .null) "null"
      else .ok (if tag.isLocal then untagged else .text s.text)

/-- The complaint that a scalar is not of the expected kind. -/
def mismatch (s : ScalarValue) (expected : String) : String :=
  match s.value with
  | .ok v => invalidType v.describe expected
  | .error asked => invalidValue s.text asked

end ScalarValue

end Backend.Markup
