import Backend.Proofs.Machine
import Mathlib.Logic.Relation

/-! # Running code

Code that a machine holds at some line is run from that line. Code without jumps runs
through to its end.
-/

namespace Backend

namespace Quad

theorem aligned_add {a b : Quad} (ha : a.Aligned) (hb : b.Aligned) : (a + b).Aligned := by
  unfold Aligned at *
  rw [BitVec.toNat_add]
  omega

theorem aligned_sub {a b : Quad} (ha : a.Aligned) (hb : b.Aligned) : (a - b).Aligned := by
  unfold Aligned at *
  rw [BitVec.toNat_sub]
  omega

@[simp]
theorem aligned_eight : Aligned 8#64 := by
  decide

@[simp]
theorem aligned_add_eight {a : Quad} (ha : a.Aligned) : (a + 8#64).Aligned :=
  aligned_add ha aligned_eight

@[simp]
theorem aligned_sub_eight {a : Quad} (ha : a.Aligned) : (a - 8#64).Aligned :=
  aligned_sub ha aligned_eight

theorem toNat_sub_eight {a : Quad} (h : 8 ≤ a.toNat) : (a - 8#64).toNat = a.toNat - 8 := by
  have hlt := a.isLt
  rw [BitVec.toNat_sub, BitVec.toNat_ofNat]
  omega

end Quad

@[simp]
theorem Long.low_wide (v : Long) : v.wide.low = v := by
  simp [wide, Quad.low]

namespace State

@[simp]
theorem load_of_aligned {s : State} {a : Quad} (h : a.Aligned) : s.load a = some (s.mem a) :=
  if_pos h

@[simp]
theorem store_of_aligned {s : State} {a : Quad} (v : Quad) (h : a.Aligned) :
    s.store a v = some { s with mem := Function.update s.mem a v } :=
  if_pos h

theorem pc_of_setQuad {s s' : State} {v : Quad} {r : Reg} (h : s.setQuad v r = some s') :
    s'.pc = s.pc := by
  cases r <;> cases h <;> rfl

theorem pc_of_store {s s' : State} {a v : Quad} (h : s.store a v = some s') : s'.pc = s.pc := by
  unfold store at h
  split at h <;> cases h
  rfl

theorem pc_of_writeLong {s s' : State} {x : Operand} {v : Long} (h : s.writeLong x v = some s') :
    s'.pc = s.pc := by
  cases x with
  | reg r => cases r <;> cases h <;> rfl
  | imm _ | mem _ _ | rip _ => cases h

end State

namespace Machine

variable {m : Machine}

theorem pc_of_writeQuad {s s' : State} {x : Operand} {v : Quad}
    (h : m.writeQuad s x v = some s') : s'.pc = s.pc := by
  cases x with
  | reg r => exact State.pc_of_setQuad h
  | imm _ => cases h
  | mem _ _ =>
      obtain ⟨a, -, ha⟩ := Option.bind_eq_some_iff.mp h
      exact State.pc_of_store ha
  | rip _ => exact State.pc_of_store h

theorem pc_of_combineQuad {s s' : State} {op : Quad → Quad → Quad} {src dst : Operand}
    (h : m.combineQuad s op src dst = some s') : s'.pc = s.pc := by
  simp only [combineQuad, Option.bind_eq_bind, Option.bind_eq_some_iff] at h
  obtain ⟨a, -, b, -, h⟩ := h
  have hpc := pc_of_writeQuad h
  exact hpc

theorem pc_of_combineLong {s s' : State} {op : Long → Long → Long} {src dst : Operand}
    (h : m.combineLong s op src dst = some s') : s'.pc = s.pc := by
  simp only [combineLong, Option.bind_eq_bind, Option.bind_eq_some_iff] at h
  obtain ⟨a, -, b, -, h⟩ := h
  have hpc := State.pc_of_writeLong h
  exact hpc

/-- Only control transfers change the line, and these are not executed here. -/
theorem pc_of_exec {s s' : State} {i : Inst} (h : m.exec s i = some s') : s'.pc = s.pc := by
  cases i with
  | movq src dst | leaq src dst =>
      obtain ⟨v, -, hv⟩ := Option.bind_eq_some_iff.mp h
      exact pc_of_writeQuad hv
  | movl src dst =>
      obtain ⟨v, -, hv⟩ := Option.bind_eq_some_iff.mp h
      exact State.pc_of_writeLong hv
  | addq src dst | subq src dst | imulq src dst | andq src dst => exact pc_of_combineQuad h
  | addl src dst | subl src dst | imull src dst => exact pc_of_combineLong h
  | negl dst =>
      obtain ⟨v, -, hv⟩ := Option.bind_eq_some_iff.mp h
      have hpc := State.pc_of_writeLong hv
      exact hpc
  | cmpl src dst =>
      obtain ⟨a, -, h⟩ := Option.bind_eq_some_iff.mp h
      obtain ⟨b, -, h⟩ := Option.bind_eq_some_iff.mp h
      cases h
      rfl
  | cltq | cqto =>
      cases h
      rfl
  | idivl src =>
      obtain ⟨v, -, hv⟩ := Option.bind_eq_some_iff.mp h
      simp only [divide] at hv
      split at hv <;> cases hv
      rfl
  | pushq src =>
      obtain ⟨v, -, hv⟩ := Option.bind_eq_some_iff.mp h
      have hpc := State.pc_of_store hv
      exact hpc
  | popq dst =>
      obtain ⟨v, -, hv⟩ := Option.bind_eq_some_iff.mp h
      have hpc := pc_of_writeQuad hv
      exact hpc
  | jmp _ | j _ _ | call _ | ret => cases h

theorem step_of_exec {s s' : State} {i : Inst} (hline : m.code[s.pc]? = some (.inst i))
    (h : m.exec s i = some s') : m.step s = some s'.next := by
  unfold step
  rw [hline]
  cases i with
  | jmp _ | j _ _ | call _ | ret => cases h
  | _ => simp [h]

/-- From one state to another in any number of steps. -/
def Steps (m : Machine) : State → State → Prop :=
  Relation.ReflTransGen fun s s' => m.step s = some s'

namespace Steps

theorem refl (s : State) : m.Steps s s := Relation.ReflTransGen.refl

theorem trans {s s' s'' : State} (h : m.Steps s s') (h' : m.Steps s' s'') : m.Steps s s'' :=
  Relation.ReflTransGen.trans h h'

theorem single {s s' : State} (h : m.step s = some s') : m.Steps s s' :=
  Relation.ReflTransGen.single h

theorem head {s s' s'' : State} (h : m.step s = some s') (h' : m.Steps s' s'') : m.Steps s s'' :=
  (single h).trans h'

end Steps

/-- The machine has the given code from a line on, and defines the labels of that code
nowhere before. -/
structure Holds (m : Machine) (line : Nat) (code : Code) : Prop where
  lines : ∀ i x, code[i]? = some x → m.code[line + i]? = some x
  labels : ∀ i name, code[i]? = some (.label name) → m.target name = some (line + i)

namespace Holds

variable {line : Nat} {a b : Code}

theorem left (h : m.Holds line (a ++ b)) : m.Holds line a where
  lines i x hx := by
    have hlt := (List.getElem?_eq_some_iff.mp hx).1
    exact h.lines i x (by rw [List.getElem?_append_left hlt, hx])
  labels i name hx := by
    have hlt := (List.getElem?_eq_some_iff.mp hx).1
    exact h.labels i name (by rw [List.getElem?_append_left hlt, hx])

theorem right (h : m.Holds line (a ++ b)) : m.Holds (line + a.length) b where
  lines i x hx := by
    rw [Nat.add_assoc]
    apply h.lines
    rw [List.getElem?_append_right (Nat.le_add_right _ _), Nat.add_sub_cancel_left, hx]
  labels i name hx := by
    rw [Nat.add_assoc]
    apply h.labels
    rw [List.getElem?_append_right (Nat.le_add_right _ _), Nat.add_sub_cancel_left, hx]

theorem take (h : m.Holds line a) (n : Nat) : m.Holds line (a.take n) := by
  rw [← a.take_append_drop n] at h
  exact h.left

theorem head {x : Line} (h : m.Holds line (x :: b)) : m.code[line]? = some x :=
  h.lines 0 x rfl

theorem tail {x : Line} (h : m.Holds line (x :: b)) : m.Holds (line + 1) b :=
  @right m line [x] b h

end Holds

/-- Execute instructions one after another. -/
def execAll (m : Machine) : List Inst → State → Option State
  | [], s => some s
  | i :: rest, s => (m.exec s i).bind fun s => m.execAll rest s.next

/-- Instructions that a machine holds are run to their end. -/
theorem steps_of_execAll {is : List Inst} {s s' : State} (h : m.execAll is s = some s')
    (hcode : m.Holds s.pc (is.map .inst)) : m.Steps s s' := by
  induction is generalizing s with
  | nil =>
      cases h
      exact .refl _
  | cons i rest ih =>
      obtain ⟨s₁, hs₁, hrest⟩ := Option.bind_eq_some_iff.mp h
      have hpc : s₁.next.pc = s.pc + 1 := by
        rw [State.next, pc_of_exec hs₁]
      refine .head (step_of_exec hcode.head hs₁) (ih hrest ?_)
      rw [hpc]
      exact hcode.tail

theorem steps_inst {i : Inst} {s s' : State} (hline : m.code[s.pc]? = some (.inst i))
    (h : m.execAll [i] s = some s') : m.Steps s s' := by
  obtain ⟨s₁, hs₁, hnext⟩ := Option.bind_eq_some_iff.mp h
  cases hnext
  exact .single (step_of_exec hline hs₁)

end Machine

end Backend
