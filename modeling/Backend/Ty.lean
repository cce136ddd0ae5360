/-! # Types of the source language

The values are integers and strings, arrays and pointers of them, and the
addresses that `&` makes. A pointer variable holds an address; the two types stay
apart because a pointer may be assigned only an address.
-/

namespace Backend

inductive Ty where
  | int
  | string
  | void
  | intArray
  | stringArray
  | intPtr
  | stringPtr
  | intAddress
  | stringAddress
  /-- The type of what has none, or none yet. -/
  | none
deriving DecidableEq, Repr

namespace Ty

def render : Ty → String
  | .int => "int"
  | .string => "string"
  | .void => "void"
  | .intArray => "int[]"
  | .stringArray => "string[]"
  | .intPtr => "int*"
  | .stringPtr => "string*"
  | .intAddress => "&int"
  | .stringAddress => "&string"
  | .none => "none"

/-- The type of an array's elements. -/
def element : Ty → Option Ty
  | .intArray => some .int
  | .stringArray => some .string
  | _ => Option.none

/-- The type of what a pointer points to. -/
def pointee : Ty → Option Ty
  | .intPtr => some .int
  | .stringPtr => some .string
  | _ => Option.none

/-- The type of the address of a variable of this type. -/
def addressOf : Ty → Option Ty
  | .int => some .intAddress
  | .string => some .stringAddress
  | _ => Option.none

/-- The address type that a pointer of this type accepts. -/
def assignableAddress (t : Ty) : Option Ty :=
  t.pointee.bind addressOf

/-- The type a value must have to be stored in a variable of this type. -/
def stored (t : Ty) : Ty :=
  t.assignableAddress.getD t

def isArray (t : Ty) : Bool :=
  t.element.isSome

/-- A list of acceptable types for a message. -/
def oneOf (types : List Ty) : String :=
  " or ".intercalate (types.map render)

end Ty

end Backend
