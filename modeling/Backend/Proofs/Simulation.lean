import Backend.Proofs.Snippets

/-! # Machine states that carry out an evaluation

A machine state stands for a memory of the source when the two agree on every cell that an
evaluation may touch. Code keeps the operands of enclosing operations, which lie between
the stack pointer and what the function has reserved.
-/

namespace Backend

namespace Eval

variable {α β : Type} {μ : Memory}

theorem bind_eq_some_iff {x : Eval α} {f : α → Eval β} {r : β × Memory} :
    (x >>= f) μ = some r ↔ ∃ a μ₁, x μ = some (a, μ₁) ∧ f a μ₁ = some r := by
  change Option.bind (x μ) _ = _ ↔ _
  rw [Option.bind_eq_some_iff, Prod.exists]

theorem pure_eq_some_iff {a : α} {r : α × Memory} :
    (pure a : Eval α) μ = some r ↔ r = (a, μ) := by
  change some (a, μ) = _ ↔ _
  rw [Option.some.injEq, eq_comm]

theorem get_eq_some_iff {r : Memory × Memory} : (get : Eval Memory) μ = some r ↔ r = (μ, μ) := by
  change some (μ, μ) = _ ↔ _
  rw [Option.some.injEq, eq_comm]

theorem ofOption_eq_some_iff {x : Option α} {r : α × Memory} :
    ofOption x μ = some r ↔ x = some r.1 ∧ r.2 = μ := by
  obtain ⟨a, μ'⟩ := r
  cases x <;> simp [ofOption, eq_comm]

theorem load_eq_some_iff {a : Quad} {r : Quad × Memory} :
    load a μ = some r ↔ r = (μ a, μ) := by
  rw [load, Option.some.injEq, eq_comm]

theorem store_eq_some_iff {a v : Quad} {r : Unit × Memory} :
    store a v μ = some r ↔ r = ((), Function.update μ a v) := by
  rw [store, Option.some.injEq, eq_comm]

end Eval

theorem Activation.reach_eq_some_iff {A : Activation} {a : Quad} {μ : Memory}
    {r : Unit × Memory} : A.reach a μ = some r ↔ A.Reachable a ∧ r = ((), μ) := by
  obtain ⟨_, μ'⟩ := r
  by_cases h : A.Reachable a <;> simp [reach, Eval.ofOption_eq_some_iff, h]

namespace Activation

/-- The machine that runs the code of an activation. -/
structure On (A : Activation) (m : Machine) : Prop where
  symbols : m.symbols = A.symbols
  limit : m.limit = A.limit

/-- A state that stands for a memory, with some bytes of stack to spare. -/
structure Ready (A : Activation) (room : Nat) (μ : Memory) (s : State) : Prop where
  rbx : s.rbx = A.base
  aligned : s.rsp.Aligned
  top : s.rsp.toNat ≤ A.top
  room : A.limit + room ≤ s.rsp.toNat
  agree : ∀ a, A.Reachable a → s.mem a = μ a

/-- A state that is reached at a line and stands for a memory, with the stack as before. -/
structure Reached (A : Activation) (m : Machine) (line : Nat) (μ : Memory) (s s' : State) :
    Prop where
  steps : m.Steps s s'
  pc : s'.pc = line
  rbx : s'.rbx = s.rbx
  rsp : s'.rsp = s.rsp
  out : s'.out = s.out
  agree : ∀ a, A.Reachable a → s'.mem a = μ a
  kept : ∀ a : Quad, s.rsp.toNat ≤ a.toNat → a.toNat < A.top → s'.mem a = s.mem a

/-- Code that leads from a memory to another one and leaves a value in `%rax`. -/
def Computes (A : Activation) (m : Machine) (room : Nat) (code : Code) (μ : Memory) (v : Quad)
    (μ' : Memory) : Prop :=
  ∀ s, m.Holds s.pc code → A.Ready room μ s →
    ∃ s', A.Reached m (s.pc + code.length) μ' s s' ∧ s'.rax = v

variable {A : Activation} {m : Machine} {room line : Nat} {μ μ' : Memory} {s s' s'' : State}

theorem Ready.mono {room' : Nat} (h : A.Ready room μ s) (hle : room' ≤ room) :
    A.Ready room' μ s :=
  { h with room := by have := h.room; omega }

/-- What can be reached is not among the operands on the stack. -/
theorem Reachable.ne_of_kept {a b : Quad} (ha : A.Reachable a) (hlow : A.limit ≤ b.toNat)
    (hhigh : b.toNat < A.top) : a ≠ b := by
  rintro rfl
  exact ha.2 ⟨hlow, hhigh⟩

namespace Reached

theorem ready (h : A.Reached m line μ' s s') (hready : A.Ready room μ s) :
    A.Ready room μ' s' where
  rbx := h.rbx.trans hready.rbx
  aligned := by
    rw [h.rsp]
    exact hready.aligned
  top := by
    rw [h.rsp]
    exact hready.top
  room := by
    rw [h.rsp]
    exact hready.room
  agree := h.agree

theorem trans {line' : Nat} (h : A.Reached m line μ s s') (h' : A.Reached m line' μ' s' s'') :
    A.Reached m line' μ' s s'' where
  steps := h.steps.trans h'.steps
  pc := h'.pc
  rbx := h'.rbx.trans h.rbx
  rsp := h'.rsp.trans h.rsp
  out := h'.out.trans h.out
  agree := h'.agree
  kept a hlow hhigh := by
    rw [h'.kept a (by rw [h.rsp]; exact hlow) hhigh, h.kept a hlow hhigh]

end Reached

/-- Steps that change registers only. -/
theorem Ready.reached (h : A.Ready room μ s) (hsteps : m.Steps s s') (hrbx : s'.rbx = s.rbx)
    (hrsp : s'.rsp = s.rsp) (hout : s'.out = s.out) (hmem : s'.mem = s.mem) :
    A.Reached m s'.pc μ s s' where
  steps := hsteps
  pc := rfl
  rbx := hrbx
  rsp := hrsp
  out := hout
  agree a ha := by
    rw [hmem]
    exact h.agree a ha
  kept a _ _ := by rw [hmem]

/-- Steps that store a value where the source does. -/
theorem Ready.reached_store (h : A.Ready room μ s) {a v : Quad} (ha : A.Reachable a)
    (hsteps : m.Steps s s') (hrbx : s'.rbx = s.rbx) (hrsp : s'.rsp = s.rsp)
    (hout : s'.out = s.out) (hmem : s'.mem = Function.update s.mem a v) :
    A.Reached m s'.pc (Function.update μ a v) s s' where
  steps := hsteps
  pc := rfl
  rbx := hrbx
  rsp := hrsp
  out := hout
  agree b hb := by
    rw [hmem]
    by_cases heq : b = a
    · rw [heq, Function.update_self, Function.update_self]
    · rw [Function.update_of_ne heq, Function.update_of_ne heq]
      exact h.agree b hb
  kept b hlow hhigh := by
    have hroom := h.room
    rw [hmem, Function.update_of_ne]
    exact (ha.ne_of_kept (by omega) hhigh).symm

section Operands

/-- The state behind a push of `%rax`. -/
def pushed (s : State) : State :=
  { s with
    pc := s.pc + 1, rsp := s.rsp - 8#64, mem := Function.update s.mem (s.rsp - 8#64) s.rax }

variable (hready : A.Ready (8 + room) μ s)
include hready

theorem Ready.toNat_pushed : (pushed s).rsp.toNat = s.rsp.toNat - 8 := by
  have hroom := hready.room
  exact Quad.toNat_sub_eight (by omega)

theorem Ready.pushed : A.Ready room μ (pushed s) := by
  have hroom := hready.room
  have htop := hready.top
  have hrsp := hready.toNat_pushed
  refine ⟨hready.rbx, Quad.aligned_sub_eight hready.aligned, by omega, by omega, ?_⟩
  intro a ha
  have hne : a ≠ s.rsp - 8#64 := by
    change (s.rsp - 8#64).toNat = _ at hrsp
    exact ha.ne_of_kept (by omega) (by omega)
  exact (Function.update_of_ne hne _ _).trans (hready.agree a ha)

/-- A pushed value is on top of the stack when the code behind it has run. -/
theorem Reached.mem_rsp (h : A.Reached m line μ' (Activation.pushed s) s') :
    s'.mem s'.rsp = s.rax := by
  have hroom := hready.room
  have htop := hready.top
  have hrsp := hready.toNat_pushed
  rw [h.rsp, h.kept _ (Nat.le_refl _) (by omega)]
  exact Function.update_self _ _ _

/-- Dropping a pushed value gives the stack back as it was. -/
theorem Reached.popped (hpush : m.Steps s (Activation.pushed s))
    (h : A.Reached m line μ' (Activation.pushed s) s') (hsteps : m.Steps s' s'')
    (hrbx : s''.rbx = s'.rbx) (hrsp : s''.rsp = s'.rsp + 8#64) (hout : s''.out = s'.out)
    (hmem : s''.mem = s'.mem) : A.Reached m s''.pc μ' s s'' where
  steps := hpush.trans (h.steps.trans hsteps)
  pc := rfl
  rbx := hrbx.trans h.rbx
  rsp := by
    rw [hrsp, h.rsp]
    exact BitVec.sub_add_cancel _ _
  out := hout.trans h.out
  agree a ha := by
    rw [hmem]
    exact h.agree a ha
  kept a hlow hhigh := by
    have hroom := hready.room
    have hpushed := hready.toNat_pushed
    have hne : a ≠ s.rsp - 8#64 := by
      rintro rfl
      change (s.rsp - 8#64).toNat = _ at hpushed
      omega
    rw [hmem, h.kept a (by omega) hhigh]
    exact Function.update_of_ne hne _ _

end Operands

/-- Two operands are computed, the right one first and kept on the stack, and then
combined. -/
theorem Computes.operation {right left last : Code} {rr rl : Nat} {w v : Quad} {μ₁ μ₂ : Memory}
    {P : State → Prop} (hright : A.Computes m rr right μ w μ₁)
    (hleft : A.Computes m rl left μ₁ v μ₂) (hlast : m.Combines last v w P)
    (hcode : m.Holds s.pc (right ++ [Line.inst Snippet.pushValue] ++ left ++ last))
    (hready : A.Ready (max rr (8 + rl)) μ s) :
    ∃ s', A.Reached m
      (s.pc + (right ++ [Line.inst Snippet.pushValue] ++ left ++ last).length) μ₂ s s' ∧ P s' := by
  -- The right operand is in `%rax` at `s₁`, and on the stack while the left one is computed.
  obtain ⟨s₁, h₁, hw⟩ := hright s hcode.left.left.left (hready.mono (Nat.le_max_left _ _))
  have hready₁ := h₁.ready (hready.mono (Nat.le_max_right _ _))
  have hpushcode : m.Holds s₁.pc [.inst Snippet.pushValue] := by
    rw [h₁.pc]
    exact hcode.left.left.right
  have hpush : m.Steps s₁ (pushed s₁) := Snippet.pushValue_steps hpushcode hready₁.aligned
  have hleftcode : m.Holds (pushed s₁).pc left := by
    have hline : (pushed s₁).pc = s.pc + (right ++ [Line.inst Snippet.pushValue]).length := by
      simp [pushed, h₁.pc, Nat.add_assoc]
    rw [hline]
    exact hcode.left.right
  obtain ⟨s₂, h₂, hv⟩ := hleft (pushed s₁) hleftcode hready₁.pushed
  have hpc : s₂.pc = s.pc + (right ++ [Line.inst Snippet.pushValue] ++ left).length := by
    rw [h₂.pc]
    simp [pushed, h₁.pc]
    omega
  have hlastcode : m.Holds s₂.pc last := by
    rw [hpc]
    exact hcode.right
  -- At `s₂` the top of the stack still holds the right operand, and `last` takes it away.
  obtain ⟨s₃, hsteps, hline, hrbx, hrsp, hout, hmem, hP⟩ := hlast s₂ hlastcode
    (h₂.ready hready₁.pushed).aligned hv ((h₂.mem_rsp hready₁).trans hw)
  have h₃ := h₁.trans (h₂.popped hready₁ hpush hsteps hrbx hrsp hout hmem)
  rw [hline, hpc, Nat.add_assoc, ← List.length_append] at h₃
  exact ⟨s₃, h₃, hP⟩

/-- An instruction that changes `%rax` only. -/
theorem Ready.reached_rax (hready : A.Ready room μ s) {i : Inst} {v : Quad} {flags : Option Flags}
    (hline : m.code[s.pc]? = some (.inst i))
    (hexec : m.execAll [i] s = some { s with pc := s.pc + 1, rax := v, flags }) :
    ∃ s', A.Reached m (s.pc + 1) μ s s' ∧ s'.rax = v :=
  ⟨_, hready.reached (Machine.steps_inst hline hexec) rfl rfl rfl rfl, rfl⟩

end Activation

end Backend
