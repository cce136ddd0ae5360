import Backend.Codegen.Data
import Backend.Frame.Layout

/-! # Code for expressions

An expression leaves its value in `%rax`, the right operand of a binary operation
being computed first and kept on the stack meanwhile. `%rbx` is the frame base. The
code of a target stores `%rax`, and the code of an argument list pushes the
arguments, the last one first.
-/

namespace Backend

/-- What the code of an expression can refer to. -/
structure CodeEnv where
  decls : List Decl
  pool : Pool

/-- Whether a variable or array element is wanted for its value or for its address. -/
inductive Access where
  | value
  | address
deriving DecidableEq, Repr

def RelOp.cond : RelOp → Cond
  | .lt => .l
  | .le => .le
  | .eq => .e
  | .ne => .ne
  | .gt => .g
  | .ge => .ge

namespace Operand

/-- The cell on top of the stack. -/
def top : Operand := .mem 0 .rsp

def rax : Operand := .reg .rax

def eax : Operand := .reg .eax

def rsi : Operand := .reg .rsi

def rsp : Operand := .reg .rsp

end Operand

namespace Snippet

open Operand

def pushValue : Inst := .pushq rax

/-- Drop the operand that was kept on the stack. -/
def dropOperand : Inst := .addq (.imm 8) rsp

/-- A call into the C library. The stack is aligned to 16 bytes for it, and the
stack pointer, of which two copies were pushed, is restored behind it. -/
def library (symbol : String) : Code :=
  [.inst (.pushq rsp),
    .inst (.pushq top),
    .inst (.andq (.imm (-16)) rsp),
    .inst (.call symbol),
    .inst (.movq (.mem 8 .rsp) rsp)]

/-- Store `%rax` at the address in `%rsi`. -/
def storeAtRsi : Inst := .movq rax (.mem 0 .rsi)

/-- Read an integer into `%rax`, through a cell on the stack. -/
def readInt : Code :=
  [.inst (.subq (.imm 8) rsp),
    .inst (.movq rsp rsi),
    .inst (.leaq (.rip FormatString.readInt) (.reg .rdi)),
    .inst (.movl (.imm 0) eax)] ++
  library "scanf@PLT" ++
  [.inst (.movl top eax),
    .inst (.addq (.imm 8) rsp)]

/-- Compare `%eax` with the operand on the stack, and leave 1 or 0. -/
def compare (cond : Cond) (other stop : String) : Code :=
  [.inst (.cmpl top eax),
    .inst (.j cond.inverse other),
    .inst (.movl (.imm 1) eax),
    .inst (.jmp stop),
    .label other,
    .inst (.movl (.imm 0) eax),
    .label stop,
    .inst dropOperand]

/-- Combine `%eax` with the operand on the stack. -/
def combine : AddOp → Code
  | .add => [.inst (.addl top eax), .inst dropOperand]
  | .sub => [.inst (.subl top eax), .inst dropOperand]

/-- Multiply `%eax` by the operand on the stack, or divide by it. -/
def scale : MulOp → Code
  | .mul => [.inst (.imull top eax), .inst dropOperand]
  | .div => divide
  | .mod => divide ++ [.inst (.movl (.reg .edx) eax)]
where
  divide : Code :=
    [.inst (.popq (.reg .rcx)),
      .inst .cltq,
      .inst .cqto,
      .inst (.idivl (.reg .ecx))]

/-- Turn the index in `%rax` into the address of that element of the array whose
address is on the stack, and leave it in `%rsi`. -/
def index : Code :=
  [.inst .cltq,
    .inst (.imulq (.imm 8) rax),
    .inst (.popq rsi),
    .inst (.addq rax rsi)]

/-- Call a function on arguments that have been pushed, keeping the frame base. -/
def call (symbol : String) : Code :=
  [.inst (.pushq (.reg .rbx)),
    .inst (.call symbol),
    .inst (.popq (.reg .rbx))]

end Snippet

/-- The cell that holds a declaration. -/
def Decl.cell (d : Decl) : Emit Operand :=
  match d.slot with
  | none => Emit.missing (.name d.name)
  | some _ => do
      match ← Emit.checked d.offset with
      | some offset => return .mem offset .rbx
      | none => return .rip d.name

/-- The address of an array's first element into `%rax`. An array parameter holds
that address, any other array starts at it. -/
def Decl.arrayBase (d : Decl) : Emit Inst := do
  let cell ← d.cell
  match d.kind with
  | .arrayParam => return .movq cell .rax
  | _ => return .leaq cell .rax

/-- A variable's value or address into `%rax`. An array's value is the address of
its elements. -/
def Decl.load (d : Decl) : Access → Emit Inst
  | .value =>
      match d.kind with
      | .array _ | .arrayParam => d.arrayBase
      | _ => do return .movq (← d.cell) .rax
  | .address => do return .leaq (← d.cell) .rax

namespace CodeEnv

/-- The declaration a name was bound to. -/
def decl (cx : CodeEnv) (x : Ident) : Emit Decl :=
  match x.decl with
  | none => Emit.missing (.name x.name)
  | some id => Emit.ofExcept (declared cx.decls id)

/-- The address of an array element into `%rsi`, given the code of the index. -/
def element (cx : CodeEnv) (x : Ident) (index : Emit Code) : Emit Code := do
  let d ← cx.decl x
  let base ← d.arrayBase
  let index ← index
  return [.inst base, .inst Snippet.pushValue] ++ index ++ Snippet.index

end CodeEnv

namespace Node

/-- The code of a node. A variable or element gives its value or its address, as
`access` says, and so does a node that merely wraps it; others always give a value. -/
def code {l : Layer} (cx : CodeEnv) : Node l → (access : Access := .value) → Emit Code
  | .assign _ target value, _ => do
      let value ← value.code cx
      let store ← target.code cx
      return value ++ store
  | .comp _ x, access => x.code cx access
  | .setVar _ x, _ => do
      let d ← cx.decl x
      let cell ← d.cell
      return [.inst (.movq .rax cell)]
  | .setElem _ x index, _ => do
      let element ← cx.element x (index.code cx)
      return [.inst Snippet.pushValue] ++ element ++
        [.inst (.popq .rax), .inst Snippet.storeAtRsi]
  | .setDeref _ x, _ => do
      let d ← cx.decl x
      let cell ← d.cell
      return [.inst Snippet.pushValue, .inst (.movq cell .rsi), .inst (.popq .rax),
        .inst Snippet.storeAtRsi]
  | .sum _ x, access => x.code cx access
  | .rel _ a op b, _ => do
      let other ← Emit.jumpLabel
      let stop ← Emit.jumpLabel
      let right ← b.code cx
      let left ← a.code cx
      return right ++ [.inst Snippet.pushValue] ++ left ++ Snippet.compare op.cond other stop
  | .term _ x, access => x.code cx access
  | .add _ a op b, _ => do
      let right ← b.code cx
      let left ← a.code cx
      return right ++ [.inst Snippet.pushValue] ++ left ++ Snippet.combine op
  | .unary _ x, access => x.code cx access
  | .mul _ a op b, _ => do
      let right ← b.code cx
      let left ← a.code cx
      return right ++ [.inst Snippet.pushValue] ++ left ++ Snippet.scale op
  | .neg _ x, _ => do
      let operand ← x.code cx
      return operand ++ [.inst (.negl .eax)]
  | .addrOf _ x, _ =>
      if x.place.isNone then Emit.missing .place else x.code cx .address
  | .deref _ x, _ => do
      let operand ← x.code cx
      return operand ++ [.inst (.movq (.mem 0 .rax) .rax)]
  | .factor _ x, access => x.code cx access
  | .paren _ x, access => x.code cx access
  | .var _ x, access => do
      let d ← cx.decl x
      let load ← d.load access
      return [.inst load]
  | .elem _ x index, access => do
      let element ← cx.element x (index.code cx)
      let load : Inst := match access with
        | .value => .movq (.mem 0 .rsi) .rax
        | .address => .movq .rsi .rax
      return element ++ [.inst load]
  | .call _ x args, _ => do
      let d ← cx.decl x
      let pushes ← args.code cx
      let size ← Emit.checked (Signed.mul 8 args.count)
      let drop : Code := if args.count = 0 then [] else [.inst (.addq (.imm size) .rsp)]
      return pushes ++ Snippet.call d.name ++ drop
  | .num _ n, _ => return [.inst (.movq (.imm n) .rax)]
  | .str _ text, _ => do
      let label ← cx.pool.label text
      return [.inst (.leaq (.rip label) .rax)]
  | .read _, _ => return Snippet.readInt
  | .nil, _ => return []
  | .cons arg rest, _ => do
      let others ← rest.code cx
      let first ← arg.code cx
      return others ++ first ++ [.inst Snippet.pushValue]

end Node

end Backend
