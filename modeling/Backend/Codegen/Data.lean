import Backend.Codegen.Literals
import Backend.Resolve.Env

/-! # The data section

Format strings for input and output, storage for the globals, and the program's
string literals.
-/

namespace Backend

namespace FormatString

def writeInt : String := ".WriteIntString"

def writeString : String := ".WriteStringString"

def newline : String := ".WritelnString"

def readInt : String := ".ReadIntString"

/-- The lines that every data section starts with. -/
def code : Code :=
  [.segment ".rodata",
    .string writeInt "%d ",
    .string newline "\n",
    .string writeString "%s ",
    .string readInt "%d"]

end FormatString

/-- The alignment of a global's storage. -/
def globalAlign : Nat := 32

/-- The storage of the globals, in order. -/
def globalStorage (decls : List Decl) : List Item → Emit Code
  | [] => return []
  | .func _ :: rest => globalStorage decls rest
  | .var id :: rest => do
      let d ← Emit.ofExcept (declared decls id)
      let size ← Emit.checked d.size
      return .comm d.name size globalAlign :: (← globalStorage decls rest)

/-- The data section, and the labels of the literals in it. -/
def Program.data (p : Program) : Emit (Code × Pool) := do
  let storage ← globalStorage p.decls p.items
  let pool ← p.pool
  return (FormatString.code ++ storage ++ pool.code, pool)

end Backend
