import Backend.Text.Ansi
import Backend.Text.Quoted
import Backend.Ty

/-! # Errors

Every way a program can be refused, as a cause. The wording of a cause is in
`Error.message` alone.
-/

namespace Backend

/-- What the tree lacks for code to be generated from it. -/
inductive Missing where
  /-- A declaration that is in range. -/
  | declaration (id : Nat)
  /-- The binding of a name, or the slot of the declaration with that name. -/
  | name (name : String)
  /-- A label for a string literal. -/
  | literal (text : String)
  /-- A type that can be written. -/
  | writable (ty : Ty)
  /-- A variable or array element under `&`. -/
  | place
deriving DecidableEq, Repr

def Missing.message : Missing → String
  | .declaration id => "declaration #" ++ toString id
  | .name x => x
  | .literal text => "string " ++ Quoted.quote text
  | .writable ty => "write of " ++ ty.render
  | .place => "address of a value"

inductive Error where
  | undeclared (name : String) (line : Nat)
  | duplicate (name : String) (line : Nat)
  | mismatch (expected : List Ty) (got : Ty) (line : Nat)
  | arity (name : String) (expected got : Nat) (line : Nat)
  | notCallable (name : String) (line : Nat)
  | notVariable (name : String) (line : Nat)
  | notAddressable (line : Nat)
  | notAssignable (name : String) (line : Nat)
  | voidVariable (name : String) (line : Nat)
  | noMain
  | unresolved (what : Missing)
  | io (cause : String)
  | fileOpen (path : String)
  | fileCreate (path : String)
  | yaml (cause : String)
deriving DecidableEq, Repr

namespace Error

def message : Error → String
  | .undeclared name line =>
      "Undeclared identifier " ++ Quoted.quote name ++ " at line " ++ toString line
  | .duplicate name line =>
      "Duplicate declaration " ++ Quoted.quote name ++ " at line " ++ toString line
  | .mismatch expected got line =>
      "Type mismatch at line " ++ toString line ++ ": expected " ++ Ty.oneOf expected ++
        ", got " ++ got.render
  | .arity name expected got line =>
      "Incorrect number of arguments to " ++ Quoted.quote name ++ " at line " ++ toString line ++
        ": expected " ++ toString expected ++ ", got " ++ toString got
  | .notCallable name line =>
      Quoted.quote name ++ " is not a function at line " ++ toString line
  | .notVariable name line =>
      Quoted.quote name ++ " is a function, not a variable, at line " ++ toString line
  | .notAddressable line => "Expression is not addressable at line " ++ toString line
  | .notAssignable name line =>
      "Array " ++ Quoted.quote name ++ " cannot be assigned at line " ++ toString line
  | .voidVariable name line =>
      "Variable " ++ Quoted.quote name ++ " declared void at line " ++ toString line
  | .noMain => "No main function"
  | .unresolved what => "Unresolved identifier: " ++ what.message
  | .io cause => "IO error: " ++ cause
  | .fileOpen path => "Failed to open file: " ++ path
  | .fileCreate path => "Failed to create file: " ++ path
  | .yaml cause => "YAML error: " ++ cause

/-- The source line an error refers to, if it refers to one. -/
def line : Error → Option Nat
  | .undeclared _ line | .duplicate _ line | .mismatch _ _ line | .arity _ _ _ line
  | .notCallable _ line | .notVariable _ line | .notAddressable line | .notAssignable _ line
  | .voidVariable _ line => some line
  | .noMain | .unresolved _ | .io _ | .fileOpen _ | .fileCreate _ | .yaml _ => none

/-- The report of an error in a file. -/
def diagnostic (e : Error) (file : String) : String :=
  Colour.red.start ++ Ansi.select 1 ++ "error" ++ Ansi.plain ++ Ansi.normal ++ ": " ++
    e.message ++ "\n" ++
    match e.line with
    | some line => "  " ++ Colour.blue.paint "at" ++ " " ++ file ++ ":" ++ toString line ++ "\n"
    | none => ""

end Error

end Backend
