import Backend.Proofs.Evaluation

/-! # What statements do

Statements are executed over the cells of memory and print. An execution ends with the next
statement, or leaves the function at once; one that goes on forever or fails is related to
nothing.
-/

namespace Backend

/-- How a statement ends. -/
inductive Flow where
  | next
  | leave (value : Option Quad)

/-- What a function returns whose body ends so. -/
def Flow.value : Flow → Option Quad
  | .next => none
  | .leave value => value

/-- The part of a text that the C library sees. -/
def untilNul (text : String) : String :=
  String.ofList (text.toList.takeWhile (· != '\x00'))

/-- What is printed for a value. A string is the address of a literal. -/
inductive Prints (A : Activation) : Ty → Quad → Output → Prop
  | int (v : Quad) : Prints A .int v (.int v.low)
  | string {text label : String} : (text, label) ∈ A.pool →
      Prints A .string (A.symbols label) (.text (untilNul text))

/-- A statement leads from one memory to another one, prints and ends. -/
inductive Exec (A : Activation) :
    {f : Form} → Clause f → Memory → List Output → Memory → Flow → Prop
  | empty {line : Nat} {μ : Memory} : Exec A (.eval line none) μ [] μ .next
  | eval {line : Nat} {e : Expr} {μ μ' : Memory} {v : Quad} :
      e.eval A .value 0 μ = some (v, μ') → Exec A (.eval line (some e)) μ [] μ' .next
  | braces {line : Nat} {b : Block} {μ μ' : Memory} {printed : List Output} {flow : Flow} :
      Exec A b μ printed μ' flow → Exec A (.braces line b) μ printed μ' flow
  | ifTrue {line : Nat} {cond : Expr} {t : Stmt} {e : Clause .alt} {μ μ₁ μ' : Memory} {v : Quad}
      {printed : List Output} {flow : Flow} :
      cond.eval A .value 0 μ = some (v, μ₁) → v.low ≠ 0 → Exec A t μ₁ printed μ' flow →
      Exec A (.ifElse line cond t e) μ printed μ' flow
  | ifFalse {line : Nat} {cond : Expr} {t : Stmt} {e : Clause .alt} {μ μ₁ μ' : Memory} {v : Quad}
      {printed : List Output} {flow : Flow} :
      cond.eval A .value 0 μ = some (v, μ₁) → v.low = 0 → Exec A e μ₁ printed μ' flow →
      Exec A (.ifElse line cond t e) μ printed μ' flow
  | loopEnd {line : Nat} {cond : Expr} {s : Stmt} {μ μ' : Memory} {v : Quad} :
      cond.eval A .value 0 μ = some (v, μ') → v.low = 0 → Exec A (.loop line cond s) μ [] μ' .next
  | loopNext {line : Nat} {cond : Expr} {s : Stmt} {μ μ₁ μ₂ μ' : Memory} {v : Quad}
      {first others : List Output} {flow : Flow} :
      cond.eval A .value 0 μ = some (v, μ₁) → v.low ≠ 0 → Exec A s μ₁ first μ₂ .next →
      Exec A (.loop line cond s) μ₂ others μ' flow →
      Exec A (.loop line cond s) μ (first ++ others) μ' flow
  | loopLeave {line : Nat} {cond : Expr} {s : Stmt} {μ μ₁ μ' : Memory} {v : Quad}
      {printed : List Output} {value : Option Quad} :
      cond.eval A .value 0 μ = some (v, μ₁) → v.low ≠ 0 → Exec A s μ₁ printed μ' (.leave value) →
      Exec A (.loop line cond s) μ printed μ' (.leave value)
  | leave {line : Nat} {μ : Memory} : Exec A (.ret line none) μ [] μ (.leave none)
  | ret {line : Nat} {e : Expr} {μ μ' : Memory} {v : Quad} :
      e.eval A .value 0 μ = some (v, μ') →
      Exec A (.ret line (some e)) μ [] μ' (.leave (some v))
  | newline {line : Nat} {μ : Memory} : Exec A (.write line none) μ [.newline] μ .next
  | write {line : Nat} {e : Expr} {μ μ' : Memory} {v : Quad} {event : Output} :
      e.eval A .value 0 μ = some (v, μ') → Prints A e.ty v event →
      Exec A (.write line (some e)) μ [event] μ' .next
  | absent {μ : Memory} : Exec A .absent μ [] μ .next
  | present {s : Stmt} {μ μ' : Memory} {printed : List Output} {flow : Flow} :
      Exec A s μ printed μ' flow → Exec A (.present s) μ printed μ' flow
  | nil {μ : Memory} : Exec A .nil μ [] μ .next
  | consNext {s : Stmt} {rest : Clause .seq} {μ μ₁ μ' : Memory} {first others : List Output}
      {flow : Flow} :
      Exec A s μ first μ₁ .next → Exec A rest μ₁ others μ' flow →
      Exec A (.cons s rest) μ (first ++ others) μ' flow
  | consLeave {s : Stmt} {rest : Clause .seq} {μ μ' : Memory} {printed : List Output}
      {value : Option Quad} :
      Exec A s μ printed μ' (.leave value) → Exec A (.cons s rest) μ printed μ' (.leave value)
  | block {line : Nat} {own : List DeclId} {stmts : Clause .seq} {size span : Nat}
      {μ μ' : Memory} {printed : List Output} {flow : Flow} :
      Exec A stmts μ printed μ' flow → Exec A (.block line own stmts size span) μ printed μ' flow

end Backend
