import Backend.Error
import Backend.Tree.Program
import Backend.Tree.Stamp

/-! # Names in scope

The names visible at a point of a function: its locals so far, the most recent
first, and behind them the top-level names.
-/

namespace Backend

/-- How long a local stays visible. -/
inductive Scope where
  /-- To the end of its function. -/
  | function
  /-- To the end of its block. -/
  | block
deriving DecidableEq, Repr

/-- The declaration with the given place. -/
def declared (decls : List Decl) (id : DeclId) : Except Error Decl :=
  match decls[id]? with
  | some d => .ok d
  | none => .error (.unresolved (.declaration id))

/-- Refuse a variable declared void. -/
def Decl.checkVariable (d : Decl) : Except Error Unit :=
  if !d.isFunc && d.ty = .none then .error (.voidVariable d.name d.line) else .ok ()

/-- Refuse a type that is not among the expected ones. -/
def Ty.expect (expected : List Ty) (line : Nat) (got : Ty) : Except Error Ty :=
  if got ∈ expected then .ok got else .error (.mismatch expected got line)

/-- Top-level names and what they mean. -/
abbrev Globals := List (String × DeclId)

/-- Make a declaration known at top level, where a name may be declared only once. -/
def Globals.insert (globals : Globals) (d : Decl) (id : DeclId) : Except Error Globals :=
  if (globals.lookup d.name).isSome then .error (.duplicate d.name d.line)
  else .ok ((d.name, id) :: globals)

structure Env where
  decls : List Decl
  globals : Globals
  /-- The locals in scope, the most recent first. -/
  locals : List DeclId
  /-- The line of the innermost enclosing statement, block or function. -/
  line : Nat

namespace Env

/-- The declaration a name means: the most recent local of that name, or else the
top-level one. -/
def find (env : Env) (name : String) : Option DeclId :=
  (env.locals.find? fun id => env.decls[id]?.any (·.name == name)).or (env.globals.lookup name)

/-- A node's line, or the enclosing one where it has none. -/
def lineOf (env : Env) (own : Nat) : Nat := orLine own env.line

/-- Bind a name to its declaration. -/
def bind (env : Env) (x : Ident) (line : Nat) : Ident × Except Error Decl :=
  match env.find x.name with
  | none => (x, .error (.undeclared x.name line))
  | some id => ({ x with decl := some id }, declared env.decls id)

/-- Bind a name that must mean a variable, and give its type. -/
def bindVariable (env : Env) (x : Ident) (line : Nat) : Ident × Except Error Ty :=
  match env.bind x line with
  | (x', .error e) => (x', .error e)
  | (x', .ok d) =>
      (x', if d.isFunc then .error (.notVariable x.name line) else .ok d.ty)

end Env

end Backend
