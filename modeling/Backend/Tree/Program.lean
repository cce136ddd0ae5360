import Backend.Tree.Clause

/-! # Programs

A program is its list of declarations and its top-level items in source order.
Declarations are only ever added at the end, so the place of one never changes.
-/

namespace Backend

structure Func where
  decl : DeclId
  body : Block
  /-- The bytes that the locals of the whole body take. -/
  frameSize : Nat := 0
deriving DecidableEq, Repr

inductive Item where
  | var (id : DeclId)
  | func (func : Func)
deriving DecidableEq, Repr

structure Program where
  decls : List Decl := []
  items : List Item := []
deriving DecidableEq, Repr

namespace Program

/-- Add a declaration without giving it a place in the tree. -/
def declare (p : Program) (d : Decl) : Program × DeclId :=
  ({ p with decls := p.decls ++ [d] }, p.decls.length)

/-- Add a global variable. -/
def global (p : Program) (d : Decl) : Program × DeclId :=
  ({ decls := p.decls ++ [d], items := p.items ++ [.var p.decls.length] }, p.decls.length)

/-- Add a function. Its parameters are declared first, then the function itself. -/
def function (p : Program) (line : Nat) (ret : Base) (name : String) (params : List Decl)
    (body : Block) : Program × DeclId :=
  let ids := List.range' p.decls.length params.length
  let id := p.decls.length + params.length
  ({ decls := p.decls ++ params ++ [{ line, name, base := ret, kind := .func ids }]
     items := p.items ++ [.func { decl := id, body }] }, id)

def functions (p : Program) : List Func :=
  p.items.filterMap fun
    | .func f => some f
    | .var _ => none

end Program

end Backend
