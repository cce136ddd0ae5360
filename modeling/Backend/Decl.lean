import Backend.Ty
import Backend.Word

/-! # Declarations

A program keeps its declarations in one list, and everything else names a
declaration by its place in that list.
-/

namespace Backend

/-- The place of a declaration in its program's list. -/
abbrev DeclId := Nat

/-- The word a declaration starts with. -/
inductive Base where
  | int
  | string
  | void
deriving DecidableEq, Repr

/-- What is declared: one of three sorts of variable, the same three as
parameters, or a function with its parameters. -/
inductive DeclKind where
  | var
  | array (length : Nat)
  | pointer
  | param
  | arrayParam
  | pointerParam
  | func (params : List DeclId)
deriving DecidableEq, Repr

/-- Where storage was assigned. Globals have depth 0, parameters depth 1, and the
locals of a function's body depth 2 and more. -/
structure Slot where
  depth : Nat
  position : Nat
deriving DecidableEq, Repr

structure Decl where
  line : Nat
  name : String
  base : Base
  kind : DeclKind
  slot : Option Slot := none
deriving DecidableEq, Repr

namespace Decl

def var (line : Nat) (base : Base) (name : String) : Decl :=
  { line, name, base, kind := .var }

def array (line : Nat) (base : Base) (name : String) (length : Nat) : Decl :=
  { line, name, base, kind := .array length }

def pointer (line : Nat) (base : Base) (name : String) : Decl :=
  { line, name, base, kind := .pointer }

def param (line : Nat) (base : Base) (name : String) : Decl :=
  { line, name, base, kind := .param }

def arrayParam (line : Nat) (base : Base) (name : String) : Decl :=
  { line, name, base, kind := .arrayParam }

def pointerParam (line : Nat) (base : Base) (name : String) : Decl :=
  { line, name, base, kind := .pointerParam }

/-- The declared type, which for a function is the type it returns. A variable
declared void has none. -/
def ty (d : Decl) : Ty :=
  match d.kind, d.base with
  | .func _, .int => .int
  | .func _, .string => .string
  | .func _, .void => .void
  | _, .void => .none
  | .var, .int | .param, .int => .int
  | .var, .string | .param, .string => .string
  | .array _, .int | .arrayParam, .int => .intArray
  | .array _, .string | .arrayParam, .string => .stringArray
  | .pointer, .int | .pointerParam, .int => .intPtr
  | .pointer, .string | .pointerParam, .string => .stringPtr

/-- The number of eight-byte positions the declaration takes. -/
def width (d : Decl) : Nat :=
  match d.kind with
  | .array length => length
  | _ => 1

def isFunc (d : Decl) : Bool :=
  match d.kind with
  | .func _ => true
  | _ => false

def params (d : Decl) : List DeclId :=
  match d.kind with
  | .func params => params
  | _ => []

/-- The bytes of storage the declaration takes. -/
def size (d : Decl) : Except Overflow Nat :=
  Word.mul 8 d.width

end Decl

end Backend
