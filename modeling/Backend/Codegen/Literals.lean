import Backend.Codegen.Emit
import Backend.Tree.Program

/-! # String literals

Equal literals share one label. Labels are given in the order in which the texts
first occur in the source.
-/

namespace Backend

/-- The texts of the literals in a node, from left to right. -/
def Node.literals {l : Layer} : Node l → List String
  | .assign _ t v => t.literals ++ v.literals
  | .comp _ x => x.literals
  | .setElem _ _ i => i.literals
  | .sum _ x => x.literals
  | .rel _ a _ b => a.literals ++ b.literals
  | .term _ x => x.literals
  | .add _ a _ b => a.literals ++ b.literals
  | .unary _ x => x.literals
  | .mul _ a _ b => a.literals ++ b.literals
  | .neg _ x => x.literals
  | .addrOf _ x => x.literals
  | .deref _ x => x.literals
  | .factor _ x => x.literals
  | .paren _ x => x.literals
  | .elem _ _ i => i.literals
  | .call _ _ as => as.literals
  | .str _ text => [text]
  | .cons e es => e.literals ++ es.literals
  | .setVar .. | .setDeref .. | .var .. | .num .. | .read .. | .nil => []

def Clause.literals {f : Form} : Clause f → List String
  | .eval _ e => e.elim [] Node.literals
  | .braces _ b => b.literals
  | .ifElse _ c t e => c.literals ++ t.literals ++ e.literals
  | .loop _ c s => c.literals ++ s.literals
  | .ret _ e => e.elim [] Node.literals
  | .write _ e => e.elim [] Node.literals
  | .absent => []
  | .present s => s.literals
  | .nil => []
  | .cons s rest => s.literals ++ rest.literals
  | .block _ _ stmts _ _ => stmts.literals

def Program.literals (p : Program) : List String :=
  p.functions.flatMap fun f => f.body.literals

/-- Distinct texts, each with its label. -/
abbrev Pool := List (String × String)

namespace Pool

/-- Give each of the texts a label of its own. -/
def assign : List String → Emit Pool
  | [] => return []
  | text :: rest => do
      let label ← Emit.literalLabel
      return (text, label) :: (← assign rest)

def label (pool : Pool) (text : String) : Emit String :=
  match pool.lookup text with
  | some label => return label
  | none => Emit.missing (.literal text)

/-- The lines that define the literals. -/
def code (pool : Pool) : Code :=
  pool.map fun (text, label) => .string label text

end Pool

/-- The pool of a program's literals. -/
def Program.pool (p : Program) : Emit Pool :=
  Pool.assign p.literals.eraseDups

end Backend
