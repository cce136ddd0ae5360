import Backend.Tree.Node

/-! # Statements

Statements, the optional branch after `else`, sequences of statements and blocks
form one family of types, indexed by the form.
-/

namespace Backend

inductive Form where
  | stmt
  | alt
  | seq
  | block
deriving DecidableEq, Repr

inductive Clause : Form → Type where
  /-- An expression evaluated for its effect, or the empty statement. -/
  | eval (line : Nat) (expr : Option Expr) : Clause .stmt
  | braces (line : Nat) (block : Clause .block) : Clause .stmt
  | ifElse (line : Nat) (cond : Expr) (then_ : Clause .stmt) (else_ : Clause .alt) : Clause .stmt
  | loop (line : Nat) (cond : Expr) (body : Clause .stmt) : Clause .stmt
  | ret (line : Nat) (value : Option Expr) : Clause .stmt
  /-- Output of a value, or of a line break. -/
  | write (line : Nat) (value : Option Expr) : Clause .stmt
  | absent : Clause .alt
  | present (stmt : Clause .stmt) : Clause .alt
  | nil : Clause .seq
  | cons (stmt : Clause .stmt) (rest : Clause .seq) : Clause .seq
  /-- Locals and statements. `size` counts the bytes of the block's own locals, and
  `span` the bytes from the end of the enclosing block's locals to the end of these. -/
  | block (line : Nat) (locals : List DeclId) (stmts : Clause .seq) (size span : Nat) :
      Clause .block
deriving DecidableEq, Repr

abbrev Stmt := Clause .stmt

abbrev Block := Clause .block

namespace Clause

def size : Block → Nat
  | .block _ _ _ size _ => size

def span : Block → Nat
  | .block _ _ _ _ span => span

def atLine (line : Nat) : Block → Block
  | .block _ locals stmts size span => .block line locals stmts size span

/-- The declarations of all blocks, each block's own before those inside it. -/
def locals {f : Form} : Clause f → List DeclId
  | .braces _ b => b.locals
  | .ifElse _ _ t e => t.locals ++ e.locals
  | .loop _ _ s => s.locals
  | .present s => s.locals
  | .cons s rest => s.locals ++ rest.locals
  | .block _ own stmts _ _ => own ++ stmts.locals
  | .eval .. | .ret .. | .write .. | .absent | .nil => []

/-- The sequence of the given statements. -/
def ofList : List Stmt → Clause .seq
  | [] => .nil
  | s :: rest => .cons s (ofList rest)

end Clause

/-- A block with no line and no storage assigned yet. -/
def Block.ofStmts (locals : List DeclId) (stmts : List Stmt) : Block :=
  .block 0 locals (.ofList stmts) 0 0

end Backend
