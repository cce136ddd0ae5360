import Backend.Frame.Layout
import Backend.Tree.Program

/-! # The frame map

A report of where every variable of a laid out program lives.
-/

namespace Backend

structure SlotEntry where
  name : String
  depth : Nat
  position : Nat
  /-- Bytes of storage. -/
  size : Nat
  /-- Displacement from the frame base. -/
  offset : Int
deriving DecidableEq, Repr

structure FrameEntry where
  frameSize : Nat
  params : List SlotEntry
  locals : List SlotEntry
deriving DecidableEq, Repr

structure FrameMap where
  /-- Bytes of storage of each global. -/
  globals : List (String × Nat) := []
  functions : List (String × FrameEntry) := []
deriving DecidableEq, Repr

/-- Set the value of a name. A name that has one already keeps its place. -/
def setEntry {α : Type} (name : String) (value : α) : List (String × α) → List (String × α)
  | [] => [(name, value)]
  | (other, old) :: rest =>
      if other = name then (name, value) :: rest
      else (other, old) :: setEntry name value rest

/-- The entry of a declaration that has a place in a frame. -/
def Decl.entry (d : Decl) : Except Overflow (Option SlotEntry) :=
  match d.slot with
  | none => .ok none
  | some slot => do
      let size ← d.size
      let offset ← d.offset
      return offset.map fun offset =>
        { name := d.name, depth := slot.depth, position := slot.position, size, offset }

/-- The entries of those declarations that have a place in a frame. -/
def slotEntries (decls : List Decl) : List DeclId → Except Overflow (List SlotEntry)
  | [] => .ok []
  | id :: rest =>
      match decls[id]? with
      | none => slotEntries decls rest
      | some d => do
          let entry ← d.entry
          return entry.toList ++ (← slotEntries decls rest)

namespace FrameMap

def addItem (decls : List Decl) (map : FrameMap) : Item → Except Overflow FrameMap
  | .var id =>
      match decls[id]? with
      | none => .ok map
      | some d => do
          let size ← d.size
          return { map with globals := setEntry d.name size map.globals }
  | .func f =>
      match decls[f.decl]? with
      | none => .ok map
      | some d => do
          let params ← slotEntries decls d.params
          let locals ← slotEntries decls f.body.locals
          let entry : FrameEntry := { frameSize := f.frameSize, params, locals }
          return { map with functions := setEntry d.name entry map.functions }

def addItems (decls : List Decl) (map : FrameMap) : List Item → Except Overflow FrameMap
  | [] => .ok map
  | item :: rest => do
      let map ← map.addItem decls item
      map.addItems decls rest

end FrameMap

/-- The frame map of a program. -/
def Program.frameMap (p : Program) : Except Overflow FrameMap :=
  FrameMap.addItems p.decls {} p.items

end Backend
