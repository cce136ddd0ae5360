import Backend.Codegen.Clause
import Backend.Frame.Layout
import Backend.Resolve.Program

/-! # Code for programs

The text section has the code of every function in order. It needs a function
called `main`.
-/

namespace Backend

/-- The code of a function. All its locals stay reserved until it returns, so a local
that outlives its block is not overwritten. -/
def Func.code (cx : CodeEnv) (f : Func) : Emit Code := do
  let d ← Emit.ofExcept (declared cx.decls f.decl)
  let reserve : Code :=
    if f.frameSize = 0 then [] else [.inst (.subq (.imm (Word.toSigned f.frameSize)) .rsp)]
  let body ← f.body.code cx
  return [.label d.name, .inst (.movq .rsp (.reg .rbx))] ++ reserve ++ body ++ Snippet.epilogue

def Func.codeAll (cx : CodeEnv) : List Func → Emit Code
  | [] => return []
  | f :: rest => do
      let first ← f.code cx
      let others ← codeAll cx rest
      return first ++ others

namespace Program

/-- Whether some function is called `main`. -/
def hasMain (p : Program) : Bool :=
  p.functions.any fun f => p.decls[f.decl]?.any (·.name == "main")

/-- The text section, with the labels that the pool gives to string literals. -/
def text (p : Program) (pool : Pool) : Emit Code :=
  if p.hasMain then do
    let functions ← Func.codeAll { decls := p.decls, pool } p.functions
    return [.text, .global "main"] ++ functions ++
      [.segment ".note.GNU-stack,\"\",@progbits"]
  else Emit.fail .noMain

end Program

/-- What a generation wrote before it ended, how it ended, and the label counter
behind it. -/
structure Generated where
  written : Code := []
  result : Except Stop Unit
  labels : Nat

namespace Program

/-- Generate the code of a resolved and laid out program, with labels counted from
the given number. The data section is written even when there is no text section. -/
def generate (p : Program) (labels : Nat) : Generated :=
  match p.data labels with
  | .error stop labels => { result := .error stop, labels }
  | .ok (data, pool) labels =>
      match p.text pool labels with
      | .error stop labels => { written := data, result := .error stop, labels }
      | .ok text labels => { written := data ++ text, result := .ok (), labels }

/-- Resolve, lay out and generate with labels counted from 0. The tree keeps what
was filled in, also when the program is refused. -/
def compile (p : Program) (scope : Scope) : Program × Except Stop Code :=
  match p.resolve scope with
  | (p, .error e) => (p, .error (.error e))
  | (p, .ok _) =>
      match p.layout with
      | .error o => (p, .error (.overflow o))
      | .ok p =>
          let out := p.generate 0
          (p, out.result.map fun _ => out.written)

end Program

end Backend
