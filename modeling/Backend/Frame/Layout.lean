import Backend.Tree.Program

/-! # Laying out frames

Every declaration of a function gets a slot. Positions are numbered from 0 through
the whole body and never used twice, so the locals of one block never overlap those
of another. Declarations that are out of range are passed over.

Slots are addressed from the frame base. Parameters lie above the base, behind the
saved frame register and the return address; locals lie below it and grow downwards.
An array is addressed at its lowest element, so its elements ascend towards the base.
-/

namespace Backend

/-- The depth of the block that is a function's body. -/
def bodyDepth : Nat := 2

/-- Give a declaration its slot. -/
def place (decls : List Decl) (id : DeclId) (depth position : Nat) : List Decl :=
  decls.modify id fun d => { d with slot := some { depth, position } }

/-- Place parameters at consecutive positions. -/
def placeParams (decls : List Decl) : List DeclId → (position : Nat) → List Decl
  | [], _ => decls
  | id :: rest, position => placeParams (place decls id 1 position) rest (position + 1)

/-- A frame under construction: the declarations, and the first free position. -/
structure Frame where
  decls : List Decl
  next : Nat

/-- Place the locals of a block. -/
def Frame.placeLocals (depth : Nat) : List DeclId → Frame → Except Overflow Frame
  | [], frame => .ok frame
  | id :: rest, frame =>
      match frame.decls[id]? with
      | none => placeLocals depth rest frame
      | some d => do
          let next ← Word.add frame.next d.width
          placeLocals depth rest { decls := place frame.decls id depth frame.next, next }

/-- Lay out the blocks of a statement. `floor` is the first position that the
enclosing blocks have not reserved. -/
def Clause.layout {f : Form} (depth floor : Nat) :
    Clause f → Frame → Except Overflow (Clause f × Frame)
  | .braces line b, frame => do
      let inner ← Word.add depth 1
      let (b, frame) ← b.layout inner floor frame
      return (.braces line b, frame)
  | .ifElse line c t e, frame => do
      let (t, frame) ← t.layout depth floor frame
      let (e, frame) ← e.layout depth floor frame
      return (.ifElse line c t e, frame)
  | .loop line c s, frame => do
      let (s, frame) ← s.layout depth floor frame
      return (.loop line c s, frame)
  | .present s, frame => do
      let (s, frame) ← s.layout depth floor frame
      return (.present s, frame)
  | .cons s rest, frame => do
      let (s, frame) ← s.layout depth floor frame
      let (rest, frame) ← rest.layout depth floor frame
      return (.cons s rest, frame)
  | .block line ids stmts _ _, start => do
      let frame ← start.placeLocals depth ids
      let size ← Word.mul 8 (← Word.sub frame.next start.next)
      let span ← Word.mul 8 (← Word.sub frame.next floor)
      let (stmts, frame) ← stmts.layout depth frame.next frame
      return (.block line ids stmts size span, frame)
  | .eval line e, frame => .ok (.eval line e, frame)
  | .ret line e, frame => .ok (.ret line e, frame)
  | .write line e, frame => .ok (.write line e, frame)
  | .absent, frame => .ok (.absent, frame)
  | .nil, frame => .ok (.nil, frame)

def Item.layout (decls : List Decl) : Item → Except Overflow (Item × List Decl)
  | .var id => .ok (.var id, place decls id 0 0)
  | .func f => do
      let decls := place decls f.decl 0 0
      let params := decls[f.decl]?.elim [] Decl.params
      let start : Frame := { decls := placeParams decls params 0, next := 0 }
      let (body, frame) ← f.body.layout bodyDepth 0 start
      let frameSize ← Word.mul 8 frame.next
      return (.func { f with body, frameSize }, frame.decls)

def Item.layoutAll (decls : List Decl) : List Item → Except Overflow (List Item × List Decl)
  | [] => .ok ([], decls)
  | item :: rest => do
      let (item, decls) ← item.layout decls
      let (rest, decls) ← layoutAll decls rest
      return (item :: rest, decls)

/-- Assign a slot to every declaration and a size to every block. -/
def Program.layout (p : Program) : Except Overflow Program := do
  let (items, decls) ← Item.layoutAll p.decls p.items
  return { decls, items }

/-- The displacement from the frame base of a declaration's storage. Globals have
none, nor has a declaration without a slot. -/
def Decl.offset (d : Decl) : Except Overflow (Option Int) :=
  match d.slot with
  | none => .ok none
  | some ⟨0, _⟩ => .ok none
  | some ⟨1, position⟩ => do
      let bytes ← Signed.mul 8 (Word.toSigned position)
      return some (← Signed.add 16 bytes)
  | some ⟨_, position⟩ => do
      let stop ← Word.add position d.width
      let last ← Word.sub stop 1
      let bytes ← Signed.mul 8 (Word.toSigned last)
      return some (← Signed.sub (-8) bytes)

end Backend
