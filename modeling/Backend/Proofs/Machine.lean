import Backend.Asm.Line
import Mathlib.Logic.Function.Basic

/-! # What the instructions do

A machine runs the lines of a listing. It has the 64-bit registers that the generated code
uses, the flags that a comparison sets, and a memory of 64-bit cells at the multiples of 8.
A step that has no meaning here, such as a jump to an undefined label, a division that
faults or an access between cells, is no step.
-/

namespace Backend

/-- The contents of a 64-bit register or cell. -/
abbrev Quad := BitVec 64

/-- The contents of the lower half of a register or cell. -/
abbrev Long := BitVec 32

namespace Quad

def low (v : Quad) : Long := v.setWidth 32

/-- The address of a cell. -/
def Aligned (a : Quad) : Prop := 8 ∣ a.toNat

instance (a : Quad) : Decidable a.Aligned := inferInstanceAs (Decidable (_ ∣ _))

end Quad

/-- A 32-bit result clears the upper half of its register. -/
def Long.wide (v : Long) : Quad := v.setWidth 64

abbrev Memory := Quad → Quad

/-- What is printed. -/
inductive Output where
  | int (value : Long)
  | text (text : String)
  | newline
deriving DecidableEq, Repr

structure Flags where
  zero : Bool
  sign : Bool
  overflow : Bool
deriving DecidableEq, Repr

/-- The flags after comparing `a` with `b`, that is, those of `a - b`. -/
def Flags.compare (a b : Long) : Flags where
  zero := a == b
  sign := (a - b).msb
  overflow := a.ssubOverflow b

/-- Whether a condition holds under the flags of a comparison. -/
def Cond.holds (flags : Flags) : Cond → Bool
  | .e => flags.zero
  | .ne => !flags.zero
  | .l => flags.sign != flags.overflow
  | .ge => flags.sign == flags.overflow
  | .le => flags.zero || flags.sign != flags.overflow
  | .g => !flags.zero && flags.sign == flags.overflow

structure State where
  /-- The line that is next. -/
  pc : Nat
  rax : Quad
  rbx : Quad
  rcx : Quad
  rdx : Quad
  rsi : Quad
  rdi : Quad
  rsp : Quad
  /-- The flags, after a comparison that no other arithmetic followed. -/
  flags : Option Flags
  mem : Memory
  out : List Output

namespace State

def quad (s : State) : Reg → Option Quad
  | .rax => some s.rax
  | .rbx => some s.rbx
  | .rcx => some s.rcx
  | .rsi => some s.rsi
  | .rdi => some s.rdi
  | .rsp => some s.rsp
  | .eax | .ecx | .edx | .esi => none

def long (s : State) : Reg → Option Long
  | .eax => some s.rax.low
  | .ecx => some s.rcx.low
  | .edx => some s.rdx.low
  | .esi => some s.rsi.low
  | .rax | .rbx | .rcx | .rsi | .rdi | .rsp => none

def setQuad (s : State) (v : Quad) : Reg → Option State
  | .rax => some { s with rax := v }
  | .rbx => some { s with rbx := v }
  | .rcx => some { s with rcx := v }
  | .rsi => some { s with rsi := v }
  | .rdi => some { s with rdi := v }
  | .rsp => some { s with rsp := v }
  | .eax | .ecx | .edx | .esi => none

def setLong (s : State) (v : Long) : Reg → Option State
  | .eax => some { s with rax := v.wide }
  | .ecx => some { s with rcx := v.wide }
  | .edx => some { s with rdx := v.wide }
  | .esi => some { s with rsi := v.wide }
  | .rax | .rbx | .rcx | .rsi | .rdi | .rsp => none

def load (s : State) (a : Quad) : Option Quad :=
  if a.Aligned then some (s.mem a) else none

def store (s : State) (a v : Quad) : Option State :=
  if a.Aligned then some { s with mem := Function.update s.mem a v } else none

/-- Halves of registers are written, those of cells never are. -/
def writeLong (s : State) (x : Operand) (v : Long) : Option State :=
  match x with
  | .reg r => s.setLong v r
  | .imm _ | .mem .. | .rip _ => none

/-- Go on with the next line. -/
def next (s : State) : State := { s with pc := s.pc + 1 }

end State

/-- A listing, and what the loader and the C library bring with them. -/
structure Machine where
  code : Code
  /-- Where the storage and the texts of the listing are. -/
  symbols : String → Quad
  /-- The text that starts at an address and ends before the next NUL. -/
  text : Quad → String
  /-- The lowest address of the stack. -/
  limit : Nat
  /-- What a library function leaves in the registers and cells that it may use. -/
  library : String → State → State

namespace Machine

/-- The cells of the stack below a stack pointer. -/
def Free (m : Machine) (rsp : Quad) (a : Quad) : Prop :=
  m.limit ≤ a.toNat ∧ a.toNat < rsp.toNat

instance (m : Machine) (rsp a : Quad) : Decidable (m.Free rsp a) :=
  inferInstanceAs (Decidable (_ ∧ _))

section Operands

variable (m : Machine) (s : State)

def address : Operand → Option Quad
  | .mem disp base => (s.quad base).map (· + BitVec.ofInt 64 disp)
  | .rip symbol => some (m.symbols symbol)
  | .reg _ | .imm _ => none

def readQuad (x : Operand) : Option Quad :=
  match x with
  | .reg r => s.quad r
  | .imm n => some (BitVec.ofInt 64 n)
  | .mem .. | .rip _ => (m.address s x).bind s.load

def readLong (x : Operand) : Option Long :=
  match x with
  | .reg r => s.long r
  | .imm n => some (BitVec.ofInt 32 n)
  | .mem .. | .rip _ => ((m.address s x).bind s.load).map Quad.low

def writeQuad (x : Operand) (v : Quad) : Option State :=
  match x with
  | .reg r => s.setQuad v r
  | .imm _ => none
  | .mem .. | .rip _ => (m.address s x).bind fun a => s.store a v

/-- Combine the destination with the source. -/
def combineQuad (op : Quad → Quad → Quad) (src dst : Operand) : Option State := do
  let a ← m.readQuad s src
  let b ← m.readQuad s dst
  m.writeQuad { s with flags := none } dst (op b a)

def combineLong (op : Long → Long → Long) (src dst : Operand) : Option State := do
  let a ← m.readLong s src
  let b ← m.readLong s dst
  State.writeLong { s with flags := none } dst (op b a)

end Operands

/-- Divide `%edx:%eax`. Division by zero and a quotient out of range fault. -/
def divide (s : State) (divisor : Long) : Option State :=
  let dividend : Quad := s.rdx.low ++ s.rax.low
  let quotient := dividend.toInt.tdiv divisor.toInt
  if divisor = 0 ∨ quotient < -0x8000_0000 ∨ 0x8000_0000 ≤ quotient then none
  else some { s with
    rax := Long.wide (BitVec.ofInt 32 quotient)
    rdx := Long.wide (BitVec.ofInt 32 (dividend.toInt.tmod divisor.toInt))
    flags := none }

/-- What an instruction does that goes on with the next line. -/
def exec (m : Machine) (s : State) : Inst → Option State
  | .movq src dst => (m.readQuad s src).bind (m.writeQuad s dst)
  | .movl src dst => (m.readLong s src).bind (s.writeLong dst)
  | .leaq src dst => (m.address s src).bind (m.writeQuad s dst)
  | .addq src dst => m.combineQuad s (· + ·) src dst
  | .addl src dst => m.combineLong s (· + ·) src dst
  | .subq src dst => m.combineQuad s (· - ·) src dst
  | .subl src dst => m.combineLong s (· - ·) src dst
  | .imulq src dst => m.combineQuad s (· * ·) src dst
  | .imull src dst => m.combineLong s (· * ·) src dst
  | .andq src dst => m.combineQuad s (· &&& ·) src dst
  | .negl dst => do
      let a ← m.readLong s dst
      State.writeLong { s with flags := none } dst (-a)
  | .cmpl src dst => do
      let a ← m.readLong s src
      let b ← m.readLong s dst
      return { s with flags := some (Flags.compare b a) }
  | .cltq => some { s with rax := s.rax.low.signExtend 64 }
  | .cqto => some { s with rdx := if s.rax.msb then BitVec.allOnes 64 else 0 }
  | .idivl src => (m.readLong s src).bind (divide s)
  | .pushq src => do
      let v ← m.readQuad s src
      State.store { s with rsp := s.rsp - 8#64 } (s.rsp - 8#64) v
  | .popq dst => do
      let v ← s.load s.rsp
      m.writeQuad { s with rsp := s.rsp + 8#64 } dst v
  | .jmp _ | .j .. | .call _ | .ret => none

/-- The line that defines a label. -/
def target (m : Machine) (label : String) : Option Nat :=
  m.code.findIdx? (· == .label label)

/-- What is left when a library function returns. It keeps `%rbx`, `%rsp` and every cell but
those of the stack below `%rsp`. -/
def leave (m : Machine) (symbol : String) (s : State) : State :=
  let left := m.library symbol s
  { left with
    pc := s.pc + 1, rbx := s.rbx, rsp := s.rsp, flags := none, out := s.out
    mem := fun a => if m.Free s.rsp a then left.mem a else s.mem a }

/-- What a format prints. -/
def printed (m : Machine) (s : State) : Option Output :=
  match m.text s.rdi with
  | "%d " => some (.int s.rsi.low)
  | "%s " => some (.text (m.text s.rsi))
  | "\n" => some .newline
  | _ => none

/-- A call of `printf`, which needs an aligned stack and the number of vector registers
in `%eax`. -/
def printf (m : Machine) (s : State) : Option State := do
  if 16 ∣ s.rsp.toNat ∧ s.rax.low = 0 then
    let event ← m.printed s
    return { m.leave "printf@PLT" s with out := s.out ++ [event] }
  else none

/-- A call of `scanf`, which stores the integer that it reads in half a cell. -/
def scanf (m : Machine) (s : State) : Option State :=
  if 16 ∣ s.rsp.toNat ∧ s.rax.low = 0 ∧ m.text s.rdi = "%d" then
    let read : Long := ((m.library "scanf@PLT" s).mem s.rsi).low
    let upper : Long := (s.mem s.rsi).extractLsb' 32 32
    State.store (m.leave "scanf@PLT" s) s.rsi (upper ++ read)
  else none

/-- Call a function of the listing. -/
def enter (m : Machine) (s : State) (label : String) : Option State := do
  let line ← m.target label
  let s ← State.store { s with rsp := s.rsp - 8#64 } (s.rsp - 8#64) (BitVec.ofNat 64 (s.pc + 1))
  return { s with pc := line }

/-- One step. -/
def step (m : Machine) (s : State) : Option State :=
  match m.code[s.pc]? with
  | some (.label _) => some s.next
  | some (.inst (.jmp label)) => (m.target label).map fun line => { s with pc := line }
  | some (.inst (.j cond label)) => do
      let flags ← s.flags
      if cond.holds flags then
        let line ← m.target label
        return { s with pc := line }
      else return s.next
  | some (.inst (.call "printf@PLT")) => m.printf s
  | some (.inst (.call "scanf@PLT")) => m.scanf s
  | some (.inst (.call label)) => m.enter s label
  | some (.inst .ret) => do
      let line ← s.load s.rsp
      return { s with pc := line.toNat, rsp := s.rsp + 8#64 }
  | some (.inst i) => (m.exec s i).map State.next
  | some (.segment _) | some .text | some (.global _) | some (.comm ..) | some (.string ..)
  | none => none

end Machine

end Backend
