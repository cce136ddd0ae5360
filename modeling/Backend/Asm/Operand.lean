/-! # Registers and operands

The registers the generated code uses, under their 64-bit and 32-bit names, and
the four kinds of operand, written source first and destination last.
-/

namespace Backend

inductive Reg where
  | rax
  | rbx
  | rcx
  | rsi
  | rdi
  | rsp
  | eax
  | ecx
  | edx
  | esi
deriving DecidableEq, Repr

def Reg.name : Reg → String
  | .rax => "rax"
  | .rbx => "rbx"
  | .rcx => "rcx"
  | .rsi => "rsi"
  | .rdi => "rdi"
  | .rsp => "rsp"
  | .eax => "eax"
  | .ecx => "ecx"
  | .edx => "edx"
  | .esi => "esi"

inductive Operand where
  | reg (r : Reg)
  | imm (value : Int)
  /-- The cell at a displacement from the address in a register. -/
  | mem (disp : Int) (base : Reg)
  /-- The cell at a symbol, addressed relative to the instruction pointer. -/
  | rip (symbol : String)
deriving DecidableEq, Repr

def Operand.render : Operand → String
  | .reg r => "%" ++ r.name
  | .imm value => "$" ++ toString value
  | .mem disp base => toString disp ++ "(%" ++ base.name ++ ")"
  | .rip symbol => symbol ++ "(%rip)"

end Backend
