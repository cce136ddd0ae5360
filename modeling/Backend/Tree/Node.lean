import Backend.Decl

/-! # Expressions

Expressions are layered by precedence: an assignment or comparison contains sums,
a sum terms, a term unary operations, and these contain factors. Each layer has a
constructor that passes on to the next one unchanged. All layers, the targets of
assignments and the argument lists of calls form one family of types, indexed by
the layer, so that one recursion and one induction serve them all.
-/

namespace Backend

inductive RelOp where
  | lt
  | le
  | eq
  | ne
  | gt
  | ge
deriving DecidableEq, Repr

inductive AddOp where
  | add
  | sub
deriving DecidableEq, Repr

inductive MulOp where
  | mul
  | div
  | mod
deriving DecidableEq, Repr

/-- The use of a name, and the declaration it was found to mean. -/
structure Ident where
  name : String
  decl : Option DeclId := none
deriving DecidableEq, Repr

/-- What every node carries: its source line, 0 when unknown, and its type once
that has been found. -/
structure Mark where
  line : Nat := 0
  ty : Ty := .none
deriving DecidableEq, Repr

inductive Layer where
  | expr
  | target
  | comp
  | sum
  | term
  | unary
  | factor
  | args
deriving DecidableEq, Repr

inductive Node : Layer → Type where
  | assign (mark : Mark) (target : Node .target) (value : Node .expr) : Node .expr
  | comp (mark : Mark) (comp : Node .comp) : Node .expr
  | setVar (mark : Mark) (name : Ident) : Node .target
  | setElem (mark : Mark) (name : Ident) (index : Node .expr) : Node .target
  | setDeref (mark : Mark) (name : Ident) : Node .target
  | sum (mark : Mark) (sum : Node .sum) : Node .comp
  | rel (mark : Mark) (left : Node .sum) (op : RelOp) (right : Node .sum) : Node .comp
  | term (mark : Mark) (term : Node .term) : Node .sum
  | add (mark : Mark) (left : Node .sum) (op : AddOp) (right : Node .term) : Node .sum
  | unary (mark : Mark) (unary : Node .unary) : Node .term
  | mul (mark : Mark) (left : Node .term) (op : MulOp) (right : Node .unary) : Node .term
  | neg (mark : Mark) (operand : Node .unary) : Node .unary
  | addrOf (mark : Mark) (operand : Node .factor) : Node .unary
  | deref (mark : Mark) (operand : Node .factor) : Node .unary
  | factor (mark : Mark) (factor : Node .factor) : Node .unary
  | paren (mark : Mark) (expr : Node .expr) : Node .factor
  | var (mark : Mark) (name : Ident) : Node .factor
  | elem (mark : Mark) (name : Ident) (index : Node .expr) : Node .factor
  | call (mark : Mark) (callee : Ident) (args : Node .args) : Node .factor
  | num (mark : Mark) (value : Int) : Node .factor
  | str (mark : Mark) (text : String) : Node .factor
  | read (mark : Mark) : Node .factor
  | nil : Node .args
  | cons (arg : Node .expr) (rest : Node .args) : Node .args
deriving DecidableEq, Repr

abbrev Expr := Node .expr

abbrev Factor := Node .factor

namespace Node

/-- The mark of a node. An argument list has none of its own. -/
def mark {l : Layer} : Node l → Mark
  | .assign m .. | .comp m .. | .setVar m .. | .setElem m .. | .setDeref m ..
  | .sum m .. | .rel m .. | .term m .. | .add m .. | .unary m .. | .mul m ..
  | .neg m .. | .addrOf m .. | .deref m .. | .factor m ..
  | .paren m .. | .var m .. | .elem m .. | .call m .. | .num m .. | .str m .. | .read m => m
  | .nil | .cons .. => {}

def line {l : Layer} (x : Node l) : Nat := x.mark.line

def ty {l : Layer} (x : Node l) : Ty := x.mark.ty

/-- The number of arguments in a list of them. -/
def count {l : Layer} : Node l → Nat
  | .cons _ rest => rest.count + 1
  | _ => 0

/-- The factor that an expression merely wraps, if it is nothing more. -/
def asFactor : Expr → Option Factor
  | .comp _ (.sum _ (.term _ (.unary _ (.factor _ f)))) => some f
  | _ => none

/-- The variable or array element that a node stands for, looking through
parentheses and layers. Only such a node has an address. -/
def place {l : Layer} : Node l → Option Factor
  | .comp _ x => x.place
  | .sum _ x => x.place
  | .term _ x => x.place
  | .unary _ x => x.place
  | .factor _ x => x.place
  | .paren _ x => x.place
  | .var m x => some (.var m x)
  | .elem m x index => some (.elem m x index)
  | .assign .. | .setVar .. | .setElem .. | .setDeref .. | .rel .. | .add .. | .mul ..
  | .neg .. | .addrOf .. | .deref .. | .call .. | .num .. | .str .. | .read ..
  | .nil | .cons .. => none

end Node

end Backend
