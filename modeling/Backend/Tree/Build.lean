import Backend.Tree.Stamp

/-! # Building expressions and statements

A `Piece` is an expression at whatever layer its outermost operation has. An
operation that needs an operand of a given layer lifts a piece of a lower layer
through the layers between, and puts a piece of a higher layer in parentheses.
A wrapper takes the line of what it wraps, a binary operation that of its left
operand, and an assignment that of the assigned value.
-/

namespace Backend

namespace Node

/-- The mark of a node made around another one. -/
def around {l : Layer} (x : Node l) : Mark := { line := x.line }

def liftFactor (f : Factor) : Node .unary := .factor f.around f

def liftUnary (u : Node .unary) : Node .term := .unary u.around u

def liftTerm (t : Node .term) : Node .sum := .term t.around t

def liftSum (s : Node .sum) : Node .comp := .sum s.around s

def liftComp (c : Node .comp) : Expr := .comp c.around c

def inParens (e : Expr) : Factor := .paren e.around e

/-- The argument list of the given expressions. -/
def ofList : List Expr → Node .args
  | [] => .nil
  | e :: rest => .cons e (ofList rest)

end Node

inductive Piece where
  | expr (x : Expr)
  | comp (x : Node .comp)
  | sum (x : Node .sum)
  | term (x : Node .term)
  | unary (x : Node .unary)
  | factor (x : Factor)
deriving DecidableEq, Repr

namespace Piece

def toExpr : Piece → Expr
  | .expr x => x
  | .comp x => x.liftComp
  | .sum x => x.liftSum.liftComp
  | .term x => x.liftTerm.liftSum.liftComp
  | .unary x => x.liftUnary.liftTerm.liftSum.liftComp
  | .factor x => x.liftFactor.liftUnary.liftTerm.liftSum.liftComp

def toFactor : Piece → Factor
  | .factor x => x
  | p => p.toExpr.inParens

def toUnary : Piece → Node .unary
  | .unary x => x
  | p => p.toFactor.liftFactor

def toTerm : Piece → Node .term
  | .term x => x
  | .unary x => x.liftUnary
  | p => p.toFactor.liftFactor.liftUnary

def toSum : Piece → Node .sum
  | .sum x => x
  | .term x => x.liftTerm
  | .unary x => x.liftUnary.liftTerm
  | p => p.toFactor.liftFactor.liftUnary.liftTerm

def toComp : Piece → Node .comp
  | .comp x => x
  | .sum x => x.liftSum
  | .term x => x.liftTerm.liftSum
  | .unary x => x.liftUnary.liftTerm.liftSum
  | p => p.toFactor.liftFactor.liftUnary.liftTerm.liftSum

def num (n : Int) : Piece := .factor (.num {} n)

def str (text : String) : Piece := .factor (.str {} text)

def read : Piece := .factor (.read {})

def var (name : String) : Piece := .factor (.var {} { name })

def elem (name : String) (index : Piece) : Piece :=
  .factor (.elem {} { name } index.toExpr)

def call (name : String) (args : List Piece) : Piece :=
  .factor (.call {} { name } (.ofList (args.map toExpr)))

def paren (p : Piece) : Piece := .factor p.toExpr.inParens

def neg (p : Piece) : Piece :=
  let x := p.toUnary
  .unary (.neg x.around x)

def addrOf (p : Piece) : Piece :=
  let x := p.toFactor
  .unary (.addrOf x.around x)

def deref (p : Piece) : Piece :=
  let x := p.toFactor
  .unary (.deref x.around x)

def add (p : Piece) (op : AddOp) (q : Piece) : Piece :=
  let x := p.toSum
  .sum (.add x.around x op q.toTerm)

def mul (p : Piece) (op : MulOp) (q : Piece) : Piece :=
  let x := p.toTerm
  .term (.mul x.around x op q.toUnary)

def rel (p : Piece) (op : RelOp) (q : Piece) : Piece :=
  let x := p.toSum
  .comp (.rel x.around x op q.toSum)

def setVar (name : String) (value : Piece) : Piece :=
  let v := value.toExpr
  .expr (.assign v.around (.setVar v.around { name }) v)

def setElem (name : String) (index value : Piece) : Piece :=
  let v := value.toExpr
  .expr (.assign v.around (.setElem v.around { name } index.toExpr) v)

def setDeref (name : String) (value : Piece) : Piece :=
  let v := value.toExpr
  .expr (.assign v.around (.setDeref v.around { name }) v)

/-- Put a piece on a line at its own layer. -/
def atLine (line : Nat) : Piece → Piece
  | .expr x => .expr (x.atLine line)
  | .comp x => .comp (x.atLine line)
  | .sum x => .sum (x.atLine line)
  | .term x => .term (x.atLine line)
  | .unary x => .unary (x.atLine line)
  | .factor x => .factor (x.atLine line)

/-- The piece as a node of the given layer. Targets and argument lists are no
layers of a piece. -/
def lift : Layer → Piece → Option Piece
  | .expr, p => some (.expr p.toExpr)
  | .comp, p => some (.comp p.toComp)
  | .sum, p => some (.sum p.toSum)
  | .term, p => some (.term p.toTerm)
  | .unary, p => some (.unary p.toUnary)
  | .factor, p => some (.factor p.toFactor)
  | .target, _ | .args, _ => none

end Piece

namespace Stmt

def expr (p : Piece) : Stmt := Clause.eval 0 (some p.toExpr)

def empty : Stmt := Clause.eval 0 none

def block (b : Block) : Stmt := Clause.braces 0 b

def ifThen (cond : Piece) (s : Stmt) : Stmt := Clause.ifElse 0 cond.toExpr s .absent

def ifElse (cond : Piece) (s t : Stmt) : Stmt := Clause.ifElse 0 cond.toExpr s (.present t)

def loop (cond : Piece) (s : Stmt) : Stmt := Clause.loop 0 cond.toExpr s

def ret (value : Option Piece) : Stmt := Clause.ret 0 (value.map Piece.toExpr)

def write (p : Piece) : Stmt := Clause.write 0 (some p.toExpr)

def writeln : Stmt := Clause.write 0 none

end Stmt

end Backend
