import Backend.Asm.Cond
import Backend.Asm.Operand
import Backend.Text.Ansi

/-! # Instructions

The instructions the code generator emits. A suffix `q` marks the 64-bit form and
`l` the 32-bit form. Two-operand instructions take the source first and leave
their result in the second operand.
-/

namespace Backend

inductive Inst where
  | movq (src dst : Operand)
  | movl (src dst : Operand)
  | leaq (src dst : Operand)
  | addq (src dst : Operand)
  | addl (src dst : Operand)
  | subq (src dst : Operand)
  | subl (src dst : Operand)
  | imulq (src dst : Operand)
  | imull (src dst : Operand)
  | andq (src dst : Operand)
  | negl (dst : Operand)
  | cmpl (src dst : Operand)
  | cltq
  | cqto
  | idivl (src : Operand)
  | pushq (src : Operand)
  | popq (dst : Operand)
  | jmp (label : String)
  | j (cond : Cond) (label : String)
  | call (symbol : String)
  | ret
deriving DecidableEq, Repr

namespace Inst

def mnemonic : Inst → String
  | .movq .. => "movq"
  | .movl .. => "movl"
  | .leaq .. => "leaq"
  | .addq .. => "addq"
  | .addl .. => "addl"
  | .subq .. => "subq"
  | .subl .. => "subl"
  | .imulq .. => "imulq"
  | .imull .. => "imull"
  | .andq .. => "andq"
  | .negl .. => "negl"
  | .cmpl .. => "cmpl"
  | .cltq => "cltq"
  | .cqto => "cqto"
  | .idivl .. => "idivl"
  | .pushq .. => "pushq"
  | .popq .. => "popq"
  | .jmp .. => "jmp"
  | .j cond _ => "j" ++ cond.name
  | .call .. => "call"
  | .ret => "ret"

/-- The operands as text, in order. -/
def operands : Inst → List String
  | .movq src dst | .movl src dst | .leaq src dst | .addq src dst | .addl src dst
  | .subq src dst | .subl src dst | .imulq src dst | .imull src dst | .andq src dst
  | .cmpl src dst => [src.render, dst.render]
  | .negl x | .idivl x | .pushq x | .popq x => [x.render]
  | .jmp label | .j _ label | .call label => [label]
  | .cltq | .cqto | .ret => []

def render (i : Inst) : String :=
  match i.operands with
  | [] => i.mnemonic
  | ops => i.mnemonic ++ " " ++ ", ".intercalate ops

/-- Whether the instruction hands control to another line. -/
def isTransfer : Inst → Bool
  | .jmp _ | .j .. | .call _ | .ret => true
  | _ => false

/-- The instruction for a listing: mnemonics in a column of six, and operands in
the colour that tells transfers of control from the rest. -/
def coloured (i : Inst) : String :=
  Span.render [
    ⟨some .red, Column.left 6 i.mnemonic⟩,
    ⟨some (if i.isTransfer then .yellow else .blue), ", ".intercalate i.operands⟩]

end Inst

end Backend
