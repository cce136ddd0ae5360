import Backend.Asm.Operand
import Backend.Asm.Cond
import Backend.Document.Basic
import Backend.Resolve.Env

/-! # Names of constants in documents

Each enumeration has its names, one for every value.
-/

namespace Backend

/-- The value whose name is the text, among the given ones. -/
def named? {α : Type} (name : α → String) (values : List α) (text : String) : Option α :=
  values.find? fun a => name a == text

namespace Ty

def docName : Ty → String
  | .int => "Int"
  | .string => "String"
  | .void => "Void"
  | .intArray => "IntArray"
  | .stringArray => "StringArray"
  | .intPtr => "IntPtr"
  | .stringPtr => "StringPtr"
  | .intAddress => "IntAddress"
  | .stringAddress => "StringAddress"
  | .none => "None"

def all : List Ty :=
  [.int, .string, .void, .intArray, .stringArray, .intPtr, .stringPtr, .intAddress,
    .stringAddress, .none]

def encode (t : Ty) : Doc := .str t.docName

def decode? (d : Doc) : Option Ty := d.text?.bind (named? docName all)

end Ty

namespace Base

def docName : Base → String
  | .int => "Int"
  | .string => "String"
  | .void => "Void"

def encode (b : Base) : Doc := .str b.docName

def decode? (d : Doc) : Option Base := d.text?.bind (named? docName [.int, .string, .void])

end Base

namespace Scope

def docName : Scope → String
  | .function => "function"
  | .block => "block"

def encode (s : Scope) : Doc := .str s.docName

def decode? (d : Doc) : Option Scope := d.text?.bind (named? docName [.function, .block])

end Scope

namespace RelOp

def docName : RelOp → String
  | .lt => "Lt"
  | .le => "Le"
  | .eq => "Eq"
  | .ne => "Ne"
  | .gt => "Gt"
  | .ge => "Ge"

def encode (op : RelOp) : Doc := .str op.docName

def decode? (d : Doc) : Option RelOp :=
  d.text?.bind (named? docName [.lt, .le, .eq, .ne, .gt, .ge])

end RelOp

namespace AddOp

def docName : AddOp → String
  | .add => "Add"
  | .sub => "Sub"

def encode (op : AddOp) : Doc := .str op.docName

def decode? (d : Doc) : Option AddOp := d.text?.bind (named? docName [.add, .sub])

end AddOp

namespace MulOp

def docName : MulOp → String
  | .mul => "Mul"
  | .div => "Div"
  | .mod => "Mod"

def encode (op : MulOp) : Doc := .str op.docName

def decode? (d : Doc) : Option MulOp := d.text?.bind (named? docName [.mul, .div, .mod])

end MulOp

namespace Cond

def docName : Cond → String
  | .e => "E"
  | .ne => "NE"
  | .l => "L"
  | .le => "LE"
  | .g => "G"
  | .ge => "GE"

def encode (c : Cond) : Doc := .str c.docName

def decode? (d : Doc) : Option Cond := d.text?.bind (named? docName [.e, .ne, .l, .le, .g, .ge])

end Cond

namespace Reg

def docName : Reg → String
  | .rax => "RAX"
  | .rbx => "RBX"
  | .rcx => "RCX"
  | .rsi => "RSI"
  | .rdi => "RDI"
  | .rsp => "RSP"
  | .eax => "EAX"
  | .ecx => "ECX"
  | .edx => "EDX"
  | .esi => "ESI"

def all : List Reg :=
  [.rax, .rbx, .rcx, .rsi, .rdi, .rsp, .eax, .ecx, .edx, .esi]

def encode (r : Reg) : Doc := .str r.docName

def decode? (d : Doc) : Option Reg := d.text?.bind (named? docName all)

end Reg

namespace Operand

def encode : Operand → Doc
  | .reg r => .tagged "Reg" r.encode
  | .imm value => .tagged "Imm" (.int value)
  | .mem disp base => .tagged "Mem" (.arr [.int disp, base.encode])
  | .rip symbol => .tagged "Rip" (.str symbol)

def decode? (d : Doc) : Option Operand := do
  let (tag, ⟨x, _⟩) ← d.variant?
  match tag with
  | "Reg" => return .reg (← Reg.decode? x)
  | "Imm" => return .imm (← x.signed?)
  | "Mem" =>
      let (disp, base) ← x.pair?
      return .mem (← disp.val.signed?) (← Reg.decode? base)
  | "Rip" => return .rip (← x.text?)
  | _ => none

end Operand

end Backend
