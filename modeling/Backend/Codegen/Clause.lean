import Backend.Codegen.Node

/-! # Code for statements -/

namespace Backend

namespace Snippet

/-- Leave the function: every local is dropped at once. -/
def epilogue : Code :=
  [.inst (.movq (.reg .rbx) .rsp), .inst .ret]

/-- Print what the registers hold under a format. -/
def print (format : String) : Code :=
  [.inst (.leaq (.rip format) (.reg .rdi)),
    .inst (.movl (.imm 0) .eax)] ++
  library "printf@PLT"

/-- Jump where the value in `%eax` is 0. -/
def jumpIfZero (label : String) : Code :=
  [.inst (.cmpl (.imm 0) .eax), .inst (.j .e label)]

/-- Code between the reservation of stack cells and their release. -/
def reserving (bytes : Nat) (body : Code) : Code :=
  if bytes = 0 then body
  else
    [.inst (.subq (.imm (Word.toSigned bytes)) .rsp)] ++ body ++
      [.inst (.addq (.imm (Word.toSigned bytes)) .rsp)]

end Snippet

/-- Print the value in `%rax` of the given type. -/
def Ty.print (t : Ty) : Emit Code :=
  match t with
  | .int => return [.inst (.movl .eax (.reg .esi))] ++ Snippet.print FormatString.writeInt
  | .string => return [.inst (.movq .rax .rsi)] ++ Snippet.print FormatString.writeString
  | t => Emit.missing (.writable t)

namespace Clause

def code {f : Form} (cx : CodeEnv) : Clause f → Emit Code
  | .eval _ none => return []
  | .eval _ (some e) => e.code cx
  | .braces _ b => b.code cx
  | .ifElse _ c t e => do
      let start ← Emit.jumpLabel
      let other ← Emit.jumpLabel
      let stop ← Emit.jumpLabel
      let c ← c.code cx
      let t ← t.code cx
      let e ← e.code cx
      return [.label start] ++ c ++ Snippet.jumpIfZero other ++ t ++
        [.inst (.jmp stop), .label other] ++ e ++ [.label stop]
  | .loop _ c s => do
      let start ← Emit.jumpLabel
      let stop ← Emit.jumpLabel
      let c ← c.code cx
      let s ← s.code cx
      return [.label start] ++ c ++ Snippet.jumpIfZero stop ++ s ++
        [.inst (.jmp start), .label stop]
  | .ret _ none => return Snippet.epilogue
  | .ret _ (some e) => do
      let value ← e.code cx
      return value ++ Snippet.epilogue
  | .write _ none => return Snippet.print FormatString.newline
  | .write _ (some e) => do
      let print ← e.ty.print
      let value ← e.code cx
      return value ++ print
  | .absent => return []
  | .present s => s.code cx
  | .nil => return []
  | .cons s rest => do
      let first ← s.code cx
      let others ← rest.code cx
      return first ++ others
  | .block _ _ stmts _ span => do
      let body ← stmts.code cx
      return Snippet.reserving span body

end Clause

end Backend
