import Backend.Word

/-! # Documents

A document is the data that a tree file or a report holds: texts, numbers, lists and
fields with names. Reading a document's parts gives them with a proof that they are
smaller, so that what is read from a document can be read by recursion.
-/

namespace Backend

inductive Doc where
  | null
  | bool (b : Bool)
  | int (n : Int)
  /-- A number that is not an integer, as it was written. -/
  | fraction (text : String)
  | str (text : String)
  | arr (items : List Doc)
  | obj (fields : List (String × Doc))
deriving BEq, Repr

namespace Doc

/-- A document inside another one. -/
abbrev Part (d : Doc) := { x : Doc // sizeOf x < sizeOf d }

theorem sizeOf_lt_obj {key : String} {x : Doc} {fields : List (String × Doc)}
    (h : (key, x) ∈ fields) : sizeOf x < sizeOf (Doc.obj fields) := by
  have hpair := List.sizeOf_lt_of_mem h
  simp only [Prod.mk.sizeOf_spec] at hpair
  simp only [Doc.obj.sizeOf_spec]
  omega

theorem sizeOf_lt_arr {x : Doc} {items : List Doc} (h : x ∈ items) :
    sizeOf x < sizeOf (Doc.arr items) := by
  have hitem := List.sizeOf_lt_of_mem h
  simp only [Doc.arr.sizeOf_spec]
  omega

/-- The first field with a name, in a list of fields. -/
def lookup (key : String) : (fields : List (String × Doc)) → Option { x : Doc // (key, x) ∈ fields }
  | [] => none
  | (k, x) :: rest =>
      if h : k = key then some ⟨x, by simp [h]⟩
      else (lookup key rest).map fun ⟨y, hy⟩ => ⟨y, by simp [hy]⟩

/-- The field of an object, if there is one. -/
def field? (d : Doc) (key : String) : Option d.Part :=
  match d with
  | .obj fields => (lookup key fields).map fun ⟨x, hx⟩ => ⟨x, sizeOf_lt_obj hx⟩
  | _ => none

/-- The only field of an object: the name of a variant and what the variant holds. -/
def variant? (d : Doc) : Option (String × d.Part) :=
  match d with
  | .obj [(key, x)] => some (key, ⟨x, sizeOf_lt_obj (List.mem_singleton.mpr rfl)⟩)
  | _ => none

/-- The two items of a list of two. -/
def pair? (d : Doc) : Option (d.Part × d.Part) :=
  match d with
  | .arr [x, y] => some (⟨x, sizeOf_lt_arr (by simp)⟩, ⟨y, sizeOf_lt_arr (by simp)⟩)
  | _ => none

/-- The three items of a list of three. -/
def triple? (d : Doc) : Option (d.Part × d.Part × d.Part) :=
  match d with
  | .arr [x, y, z] =>
      some (⟨x, sizeOf_lt_arr (by simp)⟩, ⟨y, sizeOf_lt_arr (by simp)⟩,
        ⟨z, sizeOf_lt_arr (by simp)⟩)
  | _ => none

/-- An unsigned word. -/
def word? : Doc → Option Nat
  | .int n => if 0 ≤ n ∧ n < Word.bound then some n.toNat else none
  | _ => none

/-- A signed word. -/
def signed? : Doc → Option Int
  | .int n => if Signed.InRange n then some n else none
  | _ => none

def text? : Doc → Option String
  | .str s => some s
  | _ => none

/-- A list whose items are all read the same way. -/
def list? {α : Type} (read : Doc → Option α) : Doc → Option (List α)
  | .arr items => items.mapM read
  | _ => none

/-- A field that has to be there. -/
def required? {α : Type} (d : Doc) (key : String) (read : Doc → Option α) : Option α := do
  let x ← d.field? key
  read x

/-- A field that may be left out, but is read as usual when it is there. -/
def default? {α : Type} (d : Doc) (key : String) (default : α) (read : Doc → Option α) :
    Option α :=
  match d.field? key with
  | none => some default
  | some x => read x

/-- A field that may be left out or null. -/
def optional? {α : Type} (d : Doc) (key : String) (read : Doc → Option α) : Option (Option α) :=
  match d.field? key with
  | none => some none
  | some ⟨.null, _⟩ => some none
  | some x => (read x).map some

/-- Put an item in front of a list. -/
def cons (x : Doc) : Doc → Doc
  | .arr items => .arr (x :: items)
  | d => d

def ofNat (n : Nat) : Doc := .int n

def ofOption {α : Type} (write : α → Doc) : Option α → Doc
  | none => .null
  | some a => write a

/-- A variant that holds something. -/
def tagged (name : String) (x : Doc) : Doc := .obj [(name, x)]

end Doc

end Backend
