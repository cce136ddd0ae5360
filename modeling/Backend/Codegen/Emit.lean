import Backend.Asm.Line
import Backend.Error
import Backend.Word

/-! # Emitting code

Code is emitted under a counter of labels. A failure keeps the counter where it
stood, so a later run does not use a label again.
-/

namespace Backend

/-- Why a computation ended early. -/
inductive Stop where
  | error (e : Error)
  | overflow (o : Overflow)
deriving DecidableEq, Repr

/-- A computation that takes labels and may fail. -/
abbrev Emit := EStateM Stop Nat

namespace Emit

def fail {α : Type} (e : Error) : Emit α := throw (.error e)

def missing {α : Type} (what : Missing) : Emit α := fail (.unresolved what)

def ofExcept {α : Type} : Except Error α → Emit α
  | .ok a => pure a
  | .error e => fail e

def checked {α : Type} : Except Overflow α → Emit α
  | .ok a => pure a
  | .error o => throw (.overflow o)

/-- Take the next number. -/
def fresh : Emit Nat := do
  let n ← get
  set (← checked (Word.add n 1))
  return n

end Emit

namespace Label

/-- The target of a jump. -/
def jump (n : Nat) : String := ".L" ++ toString n

/-- The label of a string literal. -/
def literal (n : Nat) : String := ".S" ++ toString n

end Label

def Emit.jumpLabel : Emit String := do
  return Label.jump (← fresh)

def Emit.literalLabel : Emit String := do
  return Label.literal (← fresh)

end Backend
