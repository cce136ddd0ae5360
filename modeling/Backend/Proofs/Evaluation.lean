import Backend.Codegen.Node
import Backend.Proofs.Machine

/-! # What expressions mean

An expression is evaluated over the cells of memory, the right operand of an operation
before the left one. A value is a cell's contents: an address, or an integer in the lower
half. Only addresses that a program computes need a check; that its own variables can be
reached is shown from the layout.
-/

namespace Backend

/-- A call in progress, as the expressions of its function see it. -/
structure Activation where
  decls : List Decl
  pool : Pool
  symbols : String → Quad
  /-- The frame base. -/
  base : Quad
  /-- The lowest address of the stack. -/
  limit : Nat
  /-- The lowest address of the stack that is reserved for the function. -/
  top : Nat

/-- An evaluation over a memory, which need not have a result. -/
abbrev Eval := StateT Memory Option

namespace Eval

variable {α β : Type}

def ofOption (x : Option α) : Eval α := fun μ => x.map fun a => (a, μ)

def load (a : Quad) : Eval Quad := fun μ => some (μ a, μ)

def store (a v : Quad) : Eval Unit := fun μ => some ((), Function.update μ a v)

end Eval

/-- The value of a variable at an address. That of an array is the address of its first
element. -/
def Decl.contents (d : Decl) (μ : Memory) (a : Quad) : Quad :=
  match d.kind with
  | .array _ => a
  | _ => μ a

namespace Activation

/-- The address of a cell that is not below what the function has reserved of the stack. -/
def Reachable (A : Activation) (a : Quad) : Prop :=
  a.Aligned ∧ ¬ (A.limit ≤ a.toNat ∧ a.toNat < A.top)

instance (A : Activation) (a : Quad) : Decidable (A.Reachable a) :=
  inferInstanceAs (Decidable (_ ∧ _))

/-- Go on only where a computed address can be reached. -/
def reach (A : Activation) (a : Quad) : Eval Unit :=
  Eval.ofOption (if A.Reachable a then some () else none)

/-- The declaration a name was bound to. -/
def decl (A : Activation) (x : Ident) : Option Decl :=
  x.decl.bind fun id => A.decls[id]?

/-- Where a variable is: at its displacement from the frame base, or at its symbol. -/
def address (A : Activation) (d : Decl) : Option Quad :=
  match d.offset with
  | .ok (some offset) => some (A.base + BitVec.ofInt 64 offset)
  | .ok none => some (A.symbols d.name)
  | .error _ => none

/-- The cell of a variable. -/
def cell (A : Activation) (x : Ident) : Option Quad :=
  (A.decl x).bind A.address

/-- The value of a variable. -/
def value (A : Activation) (x : Ident) : Eval Quad := do
  let d ← Eval.ofOption (A.decl x)
  let a ← Eval.ofOption (A.address d)
  return d.contents (← get) a

/-- The address of an array's element. The array is looked up before the index is
evaluated. -/
def element (A : Activation) (x : Ident) (index : Eval Quad) : Eval Quad := do
  let first ← A.value x
  let i ← index
  return first + i.low.signExtend 64 * 8

/-- Where a literal is. -/
def literal (A : Activation) (text : String) : Option Quad :=
  (A.pool.lookup text).map A.symbols

end Activation

def RelOp.holds (a b : Long) : RelOp → Bool
  | .lt => a.toInt < b.toInt
  | .le => a.toInt ≤ b.toInt
  | .eq => a = b
  | .ne => a ≠ b
  | .gt => b.toInt < a.toInt
  | .ge => b.toInt ≤ a.toInt

def AddOp.apply (a b : Long) : AddOp → Long
  | .add => a + b
  | .sub => a - b

/-- Whether a quotient does not exist, or is too large by one. -/
def Long.Faults (a b : Long) : Prop :=
  b = 0 ∨ a = BitVec.intMin 32 ∧ b = -1

instance (a b : Long) : Decidable (a.Faults b) := inferInstanceAs (Decidable (_ ∨ _))

/-- Multiplication, and division towards zero. -/
def MulOp.apply (a b : Long) : MulOp → Option Long
  | .mul => some (a * b)
  | .div => if a.Faults b then none else some (BitVec.ofInt 32 (a.toInt.tdiv b.toInt))
  | .mod => if a.Faults b then none else some (BitVec.ofInt 32 (a.toInt.tmod b.toInt))

namespace Node

/-- The value of a node, or the address of a variable or element where that is wanted. A
target stores the value `held`. Calls and input have no value here. -/
def eval {l : Layer} (A : Activation) :
    Node l → (access : Access := .value) → (held : Quad := 0) → Eval Quad
  | .assign _ target value, _, _ => do
      let v ← value.eval A
      target.eval A .value v
  | .comp _ x, access, _ => x.eval A access
  | .setVar _ x, _, held => do
      let a ← Eval.ofOption (A.cell x)
      Eval.store a held
      return held
  | .setElem _ x index, _, held => do
      let a ← A.element x (index.eval A)
      A.reach a
      Eval.store a held
      return held
  | .setDeref _ x, _, held => do
      let cell ← Eval.ofOption (A.cell x)
      let a ← Eval.load cell
      A.reach a
      Eval.store a held
      return held
  | .sum _ x, access, _ => x.eval A access
  | .rel _ a op b, _, _ => do
      let right ← b.eval A
      let left ← a.eval A
      return Long.wide (if op.holds left.low right.low then 1 else 0)
  | .term _ x, access, _ => x.eval A access
  | .add _ a op b, _, _ => do
      let right ← b.eval A
      let left ← a.eval A
      return Long.wide (op.apply left.low right.low)
  | .unary _ x, access, _ => x.eval A access
  | .mul _ a op b, _, _ => do
      let right ← b.eval A
      let left ← a.eval A
      let result ← Eval.ofOption (op.apply left.low right.low)
      return result.wide
  | .neg _ x, _, _ => do
      let v ← x.eval A
      return Long.wide (-v.low)
  | .addrOf _ x, _, _ =>
      if x.place.isNone then Eval.ofOption none else x.eval A .address
  | .deref _ x, _, _ => do
      let a ← x.eval A
      A.reach a
      Eval.load a
  | .factor _ x, access, _ => x.eval A access
  | .paren _ x, access, _ => x.eval A access
  | .var _ x, access, _ =>
      match access with
      | .value => A.value x
      | .address => Eval.ofOption (A.cell x)
  | .elem _ x index, access, _ => do
      let a ← A.element x (index.eval A)
      match access with
      | .value => do
          A.reach a
          Eval.load a
      | .address => return a
  | .num _ n, _, _ => return BitVec.ofInt 64 n
  | .str _ text, _, _ => Eval.ofOption (A.literal text)
  | .call .., _, _ | .read _, _, _ | .nil, _, _ | .cons .., _, _ => Eval.ofOption none

end Node

end Backend
