import Backend.Proofs.Layout
import Backend.Proofs.Simulation

/-! # The code of expressions preserves their meaning

The code of a node leaves the value of the node in `%rax` and its memory in memory, for
every machine state that stands for the memory before. The induction is on the node; each
operation is the operands' code and one of the fixed sequences.
-/

namespace Backend

namespace Node

/-- The bytes of stack that the code of a node takes. -/
def room {l : Layer} : Node l → Nat
  | .assign _ t v => max v.room t.room
  | .comp _ x => x.room
  | .setElem _ _ i => 16 + i.room
  | .setDeref .. => 8
  | .sum _ x => x.room
  | .rel _ a _ b => max b.room (8 + a.room)
  | .term _ x => x.room
  | .add _ a _ b => max b.room (8 + a.room)
  | .unary _ x => x.room
  | .mul _ a _ b => max b.room (8 + a.room)
  | .neg _ x => x.room
  | .addrOf _ x => x.room
  | .deref _ x => x.room
  | .factor _ x => x.room
  | .paren _ x => x.room
  | .elem _ _ i => 8 + i.room
  | .setVar .. | .var .. | .call .. | .num .. | .str .. | .read .. | .nil | .cons .. => 0

end Node

theorem Decl.kind_of_isArray {d : Decl} (h : d.ty.isArray = true) :
    (∃ length, d.kind = .array length) ∨ d.kind = .arrayParam := by
  obtain ⟨line, name, base, kind, slot⟩ := d
  cases kind <;> cases base <;> simp_all [ty, Ty.isArray, Ty.element]

namespace Activation

/-- What the code of an activation refers to. -/
def env (A : Activation) : CodeEnv := { decls := A.decls, pool := A.pool }

/-- The cells of a node's variables can be reached, and what it indexes is an array. -/
structure Supports {l : Layer} (A : Activation) (x : Node l) : Prop where
  cells : ∀ y ∈ x.uses, ∀ a, A.cell y = some a → A.Reachable a
  arrays : ∀ y ∈ x.indexed, ∀ d, A.decl y = some d → d.ty.isArray = true

theorem Supports.mono {l l' : Layer} {A : Activation} {x : Node l} {y : Node l'}
    (h : A.Supports x) (huses : y.uses ⊆ x.uses) (hindexed : y.indexed ⊆ x.indexed) :
    A.Supports y where
  cells z hz := h.cells z (huses hz)
  arrays z hz := h.arrays z (hindexed hz)

theorem env_decl_eq_ok_iff {A : Activation} {x : Ident} {d : Decl} {n n' : Nat} :
    A.env.decl x n = .ok d n' ↔ A.decl x = some d ∧ n = n' := by
  unfold CodeEnv.decl decl
  cases hx : x.decl with
  | none => simp [Emit.missing_ne_ok]
  | some id =>
      simp only [Emit.ofExcept_eq_ok_iff, declared_eq_ok_iff, Option.bind_some]
      rfl

theorem cell_of_decl {A : Activation} {x : Ident} {d : Decl} (h : A.decl x = some d) :
    A.cell x = A.address d := by
  rw [cell, h, Option.bind_some]

theorem value_eq_some_iff {A : Activation} {x : Ident} {d : Decl} (h : A.decl x = some d)
    {μ : Memory} {r : Quad × Memory} :
    A.value x μ = some r ↔ ∃ a, A.address d = some a ∧ r = (d.contents μ a, μ) := by
  simp only [value, Eval.bind_eq_some_iff, Eval.ofOption_eq_some_iff, Eval.get_eq_some_iff,
    Eval.pure_eq_some_iff, Prod.mk.injEq, h, Option.some.injEq]
  constructor
  · rintro ⟨_, μ, ⟨rfl, rfl⟩, a, μ, ⟨ha, rfl⟩, μ', μ, ⟨rfl, rfl⟩, hr⟩
    exact ⟨a, ha, hr⟩
  · rintro ⟨a, ha, hr⟩
    exact ⟨d, μ, ⟨rfl, rfl⟩, a, μ, ⟨ha, rfl⟩, μ, μ, ⟨rfl, rfl⟩, hr⟩

end Activation

section Cells

variable {A : Activation} {m : Machine} {s : State} {d : Decl} {a : Quad} {n n' : Nat}

/-- The operand of a variable's cell is the cell at the variable's address. -/
theorem Decl.cell_spec (hA : A.On m) (hrbx : s.rbx = A.base) {x : Operand}
    (h : d.cell n = .ok x n') (ha : A.address d = some a) :
    m.address s x = some a ∧ m.readQuad s x = s.load a ∧ ∀ v, m.writeQuad s x v = s.store a v := by
  simp only [cell] at h
  cases hslot : d.slot with
  | none =>
      simp only [hslot] at h
      exact absurd h Emit.missing_ne_ok
  | some slot =>
      simp only [hslot, Emit.bind_eq_ok_iff, Emit.checked_eq_ok_iff] at h
      obtain ⟨offset, _, ⟨hoffset, rfl⟩, h⟩ := h
      cases offset with
      | some offset =>
          obtain ⟨rfl, -⟩ := Emit.pure_eq_ok_iff.mp h
          simp only [Activation.address, hoffset, Option.some.injEq] at ha
          simp [Machine.address, Machine.readQuad, Machine.writeQuad, State.quad, hrbx, ha]
      | none =>
          obtain ⟨rfl, -⟩ := Emit.pure_eq_ok_iff.mp h
          simp only [Activation.address, hoffset, Option.some.injEq] at ha
          simp [Machine.address, Machine.readQuad, Machine.writeQuad, hA.symbols, ha]

theorem Machine.exec_leaq_rax {x : Operand} (h : m.address s x = some a) :
    m.execAll [.leaq x .rax] s = some { s with pc := s.pc + 1, rax := a } := by
  simp only [execAll, exec, h]
  rfl

theorem Machine.exec_movq_rax {x : Operand} {v : Quad} (h : m.readQuad s x = some v) :
    m.execAll [.movq x .rax] s = some { s with pc := s.pc + 1, rax := v } := by
  simp only [execAll, exec, h]
  rfl

theorem Machine.exec_movq_cell {x : Operand} (h : ∀ v, m.writeQuad s x v = s.store a v)
    (haligned : a.Aligned) :
    m.execAll [.movq .rax x] s =
      some { s with pc := s.pc + 1, mem := Function.update s.mem a s.rax } := by
  have hread : m.readQuad s .rax = some s.rax := rfl
  simp only [execAll, exec, hread, Option.bind_some, h, State.store_of_aligned _ haligned]
  rfl

variable (hA : A.On m) (hrbx : s.rbx = A.base) (ha : A.address d = some a) (haligned : a.Aligned)
include hA hrbx ha haligned

/-- The first element of an array is found through its cell, or at it. -/
theorem Decl.arrayBase_exec (harray : (∃ length, d.kind = .array length) ∨ d.kind = .arrayParam)
    {i : Inst} (h : d.arrayBase n = .ok i n') :
    m.execAll [i] s = some { s with pc := s.pc + 1, rax := d.contents s.mem a } := by
  simp only [arrayBase, Emit.bind_eq_ok_iff] at h
  obtain ⟨x, k, hx, h⟩ := h
  obtain ⟨haddress, hread, -⟩ := cell_spec hA hrbx hx ha
  rw [State.load_of_aligned haligned] at hread
  rcases harray with ⟨length, hkind⟩ | hkind
  · simp only [hkind] at h
    obtain ⟨rfl, -⟩ := Emit.pure_eq_ok_iff.mp h
    simp only [contents, hkind]
    exact Machine.exec_leaq_rax haddress
  · simp only [hkind] at h
    obtain ⟨rfl, -⟩ := Emit.pure_eq_ok_iff.mp h
    simp only [contents, hkind]
    exact Machine.exec_movq_rax hread

theorem Decl.load_exec {access : Access} {i : Inst} (h : d.load access n = .ok i n') :
    m.execAll [i] s = some { s with
      pc := s.pc + 1
      rax := match access with
        | .value => d.contents s.mem a
        | .address => a } := by
  cases access with
  | address =>
      simp only [load, Emit.bind_eq_ok_iff, Emit.pure_eq_ok_iff] at h
      obtain ⟨x, k, hx, rfl, -⟩ := h
      exact Machine.exec_leaq_rax (cell_spec hA hrbx hx ha).1
  | value =>
      cases hkind : d.kind with
      | array length =>
          simp only [load, hkind] at h
          exact arrayBase_exec hA hrbx ha haligned (.inl ⟨length, hkind⟩) h
      | arrayParam =>
          simp only [load, hkind] at h
          exact arrayBase_exec hA hrbx ha haligned (.inr hkind) h
      | var | pointer | param | pointerParam | func _ =>
          simp only [load, hkind, Emit.bind_eq_ok_iff, Emit.pure_eq_ok_iff] at h
          obtain ⟨x, k, hx, rfl, -⟩ := h
          obtain ⟨-, hread, -⟩ := cell_spec hA hrbx hx ha
          rw [State.load_of_aligned haligned] at hread
          simp only [contents, hkind]
          exact Machine.exec_movq_rax hread

end Cells

theorem Decl.contents_congr {d : Decl} {μ μ' : Memory} {a : Quad} (h : μ a = μ' a) :
    d.contents μ a = d.contents μ' a := by
  unfold contents
  rw [h]

section Elements

variable {A : Activation} {m : Machine} {s : State} {n n' room : Nat} {c : Code}
  {μ μ' : Memory} {a v : Quad}

/-- The code of an element leaves its address in `%rsi`. -/
theorem Activation.element_reached (hA : A.On m) {x : Ident} {index : Emit Code} {i : Eval Quad}
    (hcell : ∀ a, A.cell x = some a → A.Reachable a)
    (harray : ∀ d, A.decl x = some d → d.ty.isArray = true)
    (hindex : ∀ {k k' c μ v μ'}, index k = .ok c k' → i μ = some (v, μ') →
      A.Computes m room c μ v μ')
    (hcode : A.env.element x index n = .ok c n') (heval : A.element x i μ = some (a, μ'))
    (hholds : m.Holds s.pc c) (hready : A.Ready (8 + room) μ s) :
    ∃ s', A.Reached m (s.pc + c.length) μ' s s' ∧ s'.rsi = a := by
  simp only [CodeEnv.element, Emit.bind_eq_ok_iff, Emit.pure_eq_ok_iff,
    env_decl_eq_ok_iff] at hcode
  obtain ⟨d, _, ⟨hd, rfl⟩, base, k, hbase, ci, k', hci, rfl, -⟩ := hcode
  simp only [element, Eval.bind_eq_some_iff, value_eq_some_iff hd, Eval.pure_eq_some_iff,
    Prod.mk.injEq] at heval
  obtain ⟨_, μ, ⟨b, hb, rfl, rfl⟩, v, μ₁, hv, rfl, rfl⟩ := heval
  have hreach := hcell b ((cell_of_decl hd).trans hb)
  have hfirst : A.Computes m 0 [.inst base] μ (d.contents μ b) μ := by
    intro s hholds hready
    rw [← Decl.contents_congr (hready.agree b hreach)]
    exact hready.reached_rax hholds.head
      (Decl.arrayBase_exec hA hready.rbx hb hreach.1 (Decl.kind_of_isArray (harray d hd)) hbase)
  exact Computes.operation hfirst (hindex hci hv) Snippet.index_combines hholds
    (hready.mono (by omega))

/-- A value that was pushed is taken back and stored where `%rsi` points to. -/
theorem Activation.Reached.stored {line : Nat} {s₁ : State} (hready : A.Ready (8 + room) μ s)
    (hpush : m.Steps s (pushed s)) (h : A.Reached m line μ' (pushed s) s₁) (hrsi : s₁.rsi = a)
    (ha : A.Reachable a)
    (hcode : m.Holds line [.inst (.popq .rax), .inst Snippet.storeAtRsi]) :
    ∃ s', A.Reached m (line + 2) (Function.update μ' a s.rax) s s' ∧ s'.rax = s.rax := by
  obtain rfl := h.pc
  have haligned : s₁.rsp.Aligned := (h.ready hready.pushed).aligned
  obtain ⟨s₂, hs₂⟩ :
      ∃ s₂, s₂ = { s₁ with pc := s₁.pc + 1, rax := s.rax, rsp := s₁.rsp + 8#64 } := ⟨_, rfl⟩
  have hpop : m.Steps s₁ s₂ := by
    apply Machine.steps_inst hcode.head
    simp only [Machine.execAll, Machine.exec, State.load_of_aligned haligned, h.mem_rsp hready, hs₂]
    rfl
  have h₂ : A.Reached m (s₁.pc + 1) μ' s s₂ := by
    have hpopped := h.popped hready hpush hpop
    rw [hs₂] at hpopped ⊢
    exact hpopped rfl rfl rfl rfl
  have hstore : m.Steps s₂
      { s₂ with pc := s₂.pc + 1, mem := Function.update s₂.mem a s.rax } := by
    have hline : m.code[s₂.pc]? = some (.inst Snippet.storeAtRsi) := by
      rw [hs₂]
      exact hcode.tail.head
    have hwrite : ∀ v, m.writeQuad s₂ (.mem 0 .rsi) v = s₂.store a v := by
      intro v
      simp [Machine.writeQuad, Machine.address, State.quad, hs₂, hrsi]
    have hexec := Machine.exec_movq_cell hwrite ha.1
    rw [hs₂] at hexec hline ⊢
    exact Machine.steps_inst hline hexec
  have h₃ := (h₂.ready hready).reached_store ha hstore rfl rfl rfl rfl
  rw [hs₂] at h₂ h₃
  exact ⟨_, h₂.trans h₃, rfl⟩

end Elements

namespace Node

/-- The code of a node leaves the node's value in `%rax`. A target finds the value that it
stores there. -/
def Simulated {l : Layer} (A : Activation) (m : Machine) (x : Node l) : Prop :=
  ∀ {access : Access} {held v : Quad} {n n' : Nat} {c : Code} {μ μ' : Memory} {s : State},
    x.code A.env access n = .ok c n' → x.eval A access held μ = some (v, μ') →
    (l = .target → s.rax = held) → m.Holds s.pc c → A.Ready x.room μ s →
    ∃ s', A.Reached m (s.pc + c.length) μ' s s' ∧ s'.rax = v

variable {A : Activation} {m : Machine} {mark : Mark} {x : Ident}

theorem Simulated.computes {l : Layer} {x : Node l} (h : x.Simulated A m) {access : Access}
    {v : Quad} {n n' : Nat} {c : Code} {μ μ' : Memory} (hcode : x.code A.env access n = .ok c n')
    (heval : x.eval A access 0 μ = some (v, μ')) (hl : l ≠ .target) :
    A.Computes m x.room c μ v μ' :=
  fun _ hholds hready => h hcode heval (fun h => absurd h hl) hholds hready

section Targets

variable (hA : A.On m) (hcell : ∀ a, A.cell x = some a → A.Reachable a)
include hA hcell

theorem simulated_setVar : (setVar mark x).Simulated A m := by
  intro access held v n n' c μ μ' s hcode heval hheld hholds hready
  simp only [code, Emit.bind_eq_ok_iff, Emit.pure_eq_ok_iff,
    Activation.env_decl_eq_ok_iff] at hcode
  obtain ⟨d, _, ⟨hd, rfl⟩, cell, k, hx, rfl, -⟩ := hcode
  simp only [eval, Eval.bind_eq_some_iff, Eval.ofOption_eq_some_iff, Eval.store_eq_some_iff,
    Eval.pure_eq_some_iff, Prod.mk.injEq] at heval
  obtain ⟨a, μ, ⟨ha, rfl⟩, -, _, ⟨-, rfl⟩, rfl, rfl⟩ := heval
  have hreach := hcell a ha
  rw [Activation.cell_of_decl hd] at ha
  obtain ⟨-, -, hwrite⟩ := Decl.cell_spec hA hready.rbx hx ha
  have hstep := Machine.steps_inst hholds.head (Machine.exec_movq_cell hwrite hreach.1)
  rw [← hheld rfl]
  exact ⟨_, hready.reached_store hreach hstep rfl rfl rfl rfl, rfl⟩

theorem simulated_setElem (harray : ∀ d, A.decl x = some d → d.ty.isArray = true) {index : Expr}
    (hindex : index.Simulated A m) : (setElem mark x index).Simulated A m := by
  intro access held v n n' c μ μ' s hcode heval hheld hholds hready
  simp only [code, Emit.bind_eq_ok_iff, Emit.pure_eq_ok_iff] at hcode
  obtain ⟨ce, k, hce, rfl, -⟩ := hcode
  simp only [eval, Eval.bind_eq_some_iff, Activation.reach_eq_some_iff,
    Eval.store_eq_some_iff, Eval.pure_eq_some_iff, Prod.mk.injEq] at heval
  obtain ⟨a, μ₁, ha, -, μ₂, ⟨hreach, -, rfl⟩, -, _, ⟨-, rfl⟩, rfl, rfl⟩ := heval
  have hready' : A.Ready (8 + (8 + index.room)) μ s := hready.mono (by simp only [room]; omega)
  have hpush : m.Steps s (Activation.pushed s) :=
    Snippet.pushValue_steps hholds.left.left hready.aligned
  obtain ⟨s₁, h₁, hrsi⟩ := Activation.element_reached hA hcell harray
    (fun hc hv => hindex.computes hc hv nofun) hce ha hholds.left.right hready'.pushed
  have hline : (Activation.pushed s).pc + ce.length =
      s.pc + ([Line.inst Snippet.pushValue] ++ ce).length := by
    simp [Activation.pushed, Nat.add_comm, Nat.add_left_comm]
  rw [hline] at h₁
  have hstored := h₁.stored hready' hpush hrsi hreach hholds.right
  rw [hheld rfl, Nat.add_assoc] at hstored
  rw [List.length_append]
  exact hstored

theorem simulated_setDeref : (setDeref mark x).Simulated A m := by
  intro access held v n n' c μ μ' s hcode heval hheld hholds hready
  simp only [code, Emit.bind_eq_ok_iff, Emit.pure_eq_ok_iff,
    Activation.env_decl_eq_ok_iff] at hcode
  obtain ⟨d, _, ⟨hd, rfl⟩, cell, k, hx, rfl, -⟩ := hcode
  simp only [eval, Eval.bind_eq_some_iff, Eval.ofOption_eq_some_iff, Eval.load_eq_some_iff,
    Activation.reach_eq_some_iff, Eval.store_eq_some_iff, Eval.pure_eq_some_iff,
    Prod.mk.injEq] at heval
  obtain ⟨b, μ, ⟨hb, rfl⟩, a, μ₁, ⟨ha, rfl⟩, -, μ₂, ⟨hreach, -, rfl⟩, -, _, ⟨-, rfl⟩, rfl, rfl⟩ :=
    heval
  have hb_reach := hcell b hb
  rw [Activation.cell_of_decl hd] at hb
  have hready' : A.Ready (8 + 0) μ₂ s := hready
  have hpushed := hready'.pushed
  have hpush : m.Steps s (Activation.pushed s) :=
    Snippet.pushValue_steps (hholds.take 1) hready.aligned
  -- The pushed value is not in the cell of the pointer.
  have hload : m.Steps (Activation.pushed s)
      { Activation.pushed s with pc := s.pc + 2, rsi := μ₂ b } := by
    apply Machine.steps_inst hholds.tail.head
    obtain ⟨-, hread, -⟩ := Decl.cell_spec hA hpushed.rbx hx hb
    rw [State.load_of_aligned hb_reach.1, hpushed.agree b hb_reach] at hread
    simp only [Machine.execAll, Machine.exec, hread]
    rfl
  have h₁ := hpushed.reached hload rfl rfl rfl rfl
  have hstored := h₁.stored hready' hpush rfl (ha ▸ hreach) hholds.tail.tail
  rw [hheld rfl, ← ha] at hstored
  exact hstored

end Targets

section Factors

theorem simulated_var (hA : A.On m) (hcell : ∀ a, A.cell x = some a → A.Reachable a) :
    (var mark x).Simulated A m := by
  intro access held v n n' c μ μ' s hcode heval hheld hholds hready
  simp only [code, Emit.bind_eq_ok_iff, Emit.pure_eq_ok_iff,
    Activation.env_decl_eq_ok_iff] at hcode
  obtain ⟨d, _, ⟨hd, rfl⟩, load, k, hload, rfl, -⟩ := hcode
  cases access with
  | value =>
      obtain ⟨a, ha, hv⟩ := (Activation.value_eq_some_iff hd).mp heval
      obtain ⟨rfl, rfl⟩ := Prod.mk.inj hv
      have hreach := hcell a ((Activation.cell_of_decl hd).trans ha)
      rw [← Decl.contents_congr (hready.agree a hreach)]
      exact hready.reached_rax hholds.head (Decl.load_exec hA hready.rbx ha hreach.1 hload)
  | address =>
      obtain ⟨hv, rfl⟩ := Eval.ofOption_eq_some_iff.mp heval
      have hreach := hcell v hv
      rw [Activation.cell_of_decl hd] at hv
      exact hready.reached_rax hholds.head (Decl.load_exec hA hready.rbx hv hreach.1 hload)

theorem simulated_elem (hA : A.On m) (hcell : ∀ a, A.cell x = some a → A.Reachable a)
    (harray : ∀ d, A.decl x = some d → d.ty.isArray = true) {index : Expr}
    (hindex : index.Simulated A m) : (elem mark x index).Simulated A m := by
  intro access held v n n' c μ μ' s hcode heval hheld hholds hready
  simp only [code, Emit.bind_eq_ok_iff, Emit.pure_eq_ok_iff] at hcode
  obtain ⟨ce, k, hce, rfl, -⟩ := hcode
  simp only [eval, Eval.bind_eq_some_iff] at heval
  obtain ⟨a, μ₁, ha, heval⟩ := heval
  obtain ⟨s₁, h₁, hrsi⟩ := Activation.element_reached hA hcell harray
    (fun hc hv => hindex.computes hc hv nofun) hce ha hholds.left hready
  have hready₁ := h₁.ready hready
  have hline := hholds.right.head
  rw [← h₁.pc] at hline
  rw [List.length_append, ← Nat.add_assoc, ← h₁.pc]
  cases access with
  | value =>
      simp only [Eval.bind_eq_some_iff, Activation.reach_eq_some_iff, Eval.load_eq_some_iff,
        Prod.mk.injEq] at heval
      obtain ⟨-, μ₂, ⟨hreach, -, rfl⟩, rfl, rfl⟩ := heval
      have hread : m.readQuad s₁ (.mem 0 .rsi) = some (μ' a) := by
        rw [← h₁.agree a hreach]
        simp [Machine.readQuad, Machine.address, State.quad, hrsi, hreach.1]
      obtain ⟨s₂, h₂, hrax⟩ := hready₁.reached_rax hline (Machine.exec_movq_rax hread)
      exact ⟨s₂, h₁.trans h₂, hrax⟩
  | address =>
      obtain ⟨rfl, rfl⟩ := Prod.mk.inj (Eval.pure_eq_some_iff.mp heval)
      have hread : m.readQuad s₁ .rsi = some v := congrArg some hrsi
      obtain ⟨s₂, h₂, hrax⟩ := hready₁.reached_rax hline (Machine.exec_movq_rax hread)
      exact ⟨s₂, h₁.trans h₂, hrax⟩

theorem simulated_num {value : Int} : (num mark value).Simulated A m := by
  intro access held v n n' c μ μ' s hcode heval hheld hholds hready
  obtain ⟨rfl, -⟩ := Emit.pure_eq_ok_iff.mp hcode
  obtain ⟨rfl, rfl⟩ := Prod.mk.inj (Eval.pure_eq_some_iff.mp heval)
  exact hready.reached_rax hholds.head (Machine.exec_movq_rax rfl)

theorem simulated_str (hA : A.On m) {text : String} : (str mark text).Simulated A m := by
  intro access held v n n' c μ μ' s hcode heval hheld hholds hready
  obtain ⟨hv, rfl⟩ := Eval.ofOption_eq_some_iff.mp heval
  obtain ⟨label, hlabel, rfl⟩ := Option.map_eq_some_iff.mp hv
  have hcode' : c = [.inst (.leaq (.rip label) .rax)] := by
    simp only [code, Pool.label, Activation.env, hlabel, Emit.bind_eq_ok_iff,
      Emit.pure_eq_ok_iff] at hcode
    obtain ⟨_, _, ⟨rfl, rfl⟩, rfl, -⟩ := hcode
    rfl
  subst hcode'
  rw [← hA.symbols]
  exact hready.reached_rax hholds.head (Machine.exec_leaq_rax rfl)

end Factors

section Operations

theorem simulated_assign {target : Node .target} {value : Expr} (htarget : target.Simulated A m)
    (hvalue : value.Simulated A m) : (assign mark target value).Simulated A m := by
  intro access held v n n' c μ μ' s hcode heval hheld hholds hready
  simp only [code, Emit.bind_eq_ok_iff, Emit.pure_eq_ok_iff] at hcode
  obtain ⟨cv, k, hcv, ct, k', hct, rfl, -⟩ := hcode
  simp only [eval, Eval.bind_eq_some_iff] at heval
  obtain ⟨w, μ₁, hw, hv⟩ := heval
  obtain ⟨s₁, h₁, hrax⟩ := hvalue hcv hw nofun hholds.left (hready.mono (Nat.le_max_left _ _))
  have hready₁ := h₁.ready (hready.mono (Nat.le_max_right _ _))
  rw [List.length_append, ← Nat.add_assoc, ← h₁.pc]
  obtain ⟨s₂, h₂, hrax₂⟩ :=
    htarget hct hv (fun _ => hrax) (by rw [h₁.pc]; exact hholds.right) hready₁
  exact ⟨s₂, h₁.trans h₂, hrax₂⟩

theorem simulated_rel {a b : Node .sum} {op : RelOp} (ha : a.Simulated A m)
    (hb : b.Simulated A m) : (rel mark a op b).Simulated A m := by
  intro access held v n n' c μ μ' s hcode heval hheld hholds hready
  simp only [code, Emit.bind_eq_ok_iff, Emit.pure_eq_ok_iff] at hcode
  obtain ⟨other, _, -, stop, _, -, cb, k, hcb, ca, k', hca, rfl, -⟩ := hcode
  simp only [eval, Eval.bind_eq_some_iff, Eval.pure_eq_some_iff, Prod.mk.injEq] at heval
  obtain ⟨right, μ₁, hright, left, μ₂, hleft, rfl, rfl⟩ := heval
  exact (hb.computes hcb hright nofun).operation (ha.computes hca hleft nofun)
    (Snippet.compare_combines op other stop) hholds hready

theorem simulated_add {a : Node .sum} {b : Node .term} {op : AddOp} (ha : a.Simulated A m)
    (hb : b.Simulated A m) : (add mark a op b).Simulated A m := by
  intro access held v n n' c μ μ' s hcode heval hheld hholds hready
  simp only [code, Emit.bind_eq_ok_iff, Emit.pure_eq_ok_iff] at hcode
  obtain ⟨cb, k, hcb, ca, k', hca, rfl, -⟩ := hcode
  simp only [eval, Eval.bind_eq_some_iff, Eval.pure_eq_some_iff, Prod.mk.injEq] at heval
  obtain ⟨right, μ₁, hright, left, μ₂, hleft, rfl, rfl⟩ := heval
  exact (hb.computes hcb hright nofun).operation (ha.computes hca hleft nofun)
    (Snippet.combine_combines op) hholds hready

theorem simulated_mul {a : Node .term} {b : Node .unary} {op : MulOp} (ha : a.Simulated A m)
    (hb : b.Simulated A m) : (mul mark a op b).Simulated A m := by
  intro access held v n n' c μ μ' s hcode heval hheld hholds hready
  simp only [code, Emit.bind_eq_ok_iff, Emit.pure_eq_ok_iff] at hcode
  obtain ⟨cb, k, hcb, ca, k', hca, rfl, -⟩ := hcode
  simp only [eval, Eval.bind_eq_some_iff, Eval.ofOption_eq_some_iff, Eval.pure_eq_some_iff,
    Prod.mk.injEq] at heval
  obtain ⟨right, μ₁, hright, left, μ₂, hleft, result, _, ⟨hresult, rfl⟩, rfl, rfl⟩ := heval
  exact (hb.computes hcb hright nofun).operation (ha.computes hca hleft nofun)
    (Snippet.scale_combines hresult) hholds hready

/-- A value is computed, and an instruction puts another one in its place. -/
theorem Simulated.then_inst {l : Layer} {x : Node l} (h : x.Simulated A m) (hl : l ≠ .target)
    {w v : Quad} {n n' : Nat} {c : Code} {μ μ' : Memory} {s : State} {i : Inst}
    (hcode : x.code A.env .value n = .ok c n') (heval : x.eval A .value 0 μ = some (w, μ'))
    (hexec : ∀ t, t.rax = w → (∀ a, A.Reachable a → t.mem a = μ' a) →
      ∃ flags, m.execAll [i] t = some { t with pc := t.pc + 1, rax := v, flags })
    (hholds : m.Holds s.pc (c ++ [.inst i])) (hready : A.Ready x.room μ s) :
    ∃ s', A.Reached m (s.pc + (c ++ [Line.inst i]).length) μ' s s' ∧ s'.rax = v := by
  obtain ⟨s₁, h₁, hrax⟩ := h.computes hcode heval hl s hholds.left hready
  obtain ⟨flags, hexec₁⟩ := hexec s₁ hrax h₁.agree
  have hline := hholds.right.head
  rw [← h₁.pc] at hline
  rw [List.length_append, ← Nat.add_assoc, ← h₁.pc]
  obtain ⟨s₂, h₂, hrax₂⟩ := (h₁.ready hready).reached_rax hline hexec₁
  exact ⟨s₂, h₁.trans h₂, hrax₂⟩

theorem simulated_neg {x : Node .unary} (hx : x.Simulated A m) : (neg mark x).Simulated A m := by
  intro access held v n n' c μ μ' s hcode heval hheld hholds hready
  simp only [code, Emit.bind_eq_ok_iff, Emit.pure_eq_ok_iff] at hcode
  obtain ⟨cx, k, hcx, rfl, -⟩ := hcode
  simp only [eval, Eval.bind_eq_some_iff, Eval.pure_eq_some_iff, Prod.mk.injEq] at heval
  obtain ⟨w, μ₁, hw, rfl, rfl⟩ := heval
  refine hx.then_inst nofun hcx hw ?_ hholds hready
  rintro t rfl -
  exact ⟨none, rfl⟩

theorem simulated_deref {x : Factor} (hx : x.Simulated A m) : (deref mark x).Simulated A m := by
  intro access held v n n' c μ μ' s hcode heval hheld hholds hready
  simp only [code, Emit.bind_eq_ok_iff, Emit.pure_eq_ok_iff] at hcode
  obtain ⟨cx, k, hcx, rfl, -⟩ := hcode
  simp only [eval, Eval.bind_eq_some_iff, Activation.reach_eq_some_iff, Eval.load_eq_some_iff,
    Prod.mk.injEq] at heval
  obtain ⟨a, μ₁, ha, -, μ₂, ⟨hreach, -, rfl⟩, rfl, rfl⟩ := heval
  refine hx.then_inst nofun hcx ha ?_ hholds hready
  rintro t rfl hagree
  have hread : m.readQuad t (.mem 0 .rax) = some (μ' t.rax) := by
    rw [← hagree _ hreach]
    simp [Machine.readQuad, Machine.address, State.quad, hreach.1]
  exact ⟨t.flags, Machine.exec_movq_rax hread⟩

theorem simulated_addrOf {x : Factor} (hx : x.Simulated A m) : (addrOf mark x).Simulated A m := by
  intro access held v n n' c μ μ' s hcode heval hheld hholds hready
  simp only [code, eval] at hcode heval
  cases hplace : x.place with
  | none =>
      rw [hplace] at hcode
      exact absurd hcode Emit.missing_ne_ok
  | some place =>
      rw [hplace] at hcode heval
      exact hx hcode heval nofun hholds hready

end Operations

/-- The code of every node whose variables can be reached leaves the node's value. -/
theorem simulated_of_supports (hA : A.On m) {l : Layer} {x : Node l} (hx : A.Supports x) :
    x.Simulated A m := by
  induction x with
  | comp _ x ih | sum _ x ih | term _ x ih | unary _ x ih | factor _ x ih | paren _ x ih =>
      intro access held v n n' c μ μ' s hcode heval _ hholds hready
      exact ih ⟨hx.cells, hx.arrays⟩ hcode heval nofun hholds hready
  | neg _ x ih => exact simulated_neg (ih ⟨hx.cells, hx.arrays⟩)
  | addrOf _ x ih => exact simulated_addrOf (ih ⟨hx.cells, hx.arrays⟩)
  | deref _ x ih => exact simulated_deref (ih ⟨hx.cells, hx.arrays⟩)
  | assign _ target value ihtarget ihvalue =>
      exact simulated_assign (ihtarget (hx.mono (by simp [uses]) (by simp [indexed])))
        (ihvalue (hx.mono (by simp [uses]) (by simp [indexed])))
  | rel _ a op b iha ihb =>
      exact simulated_rel (iha (hx.mono (by simp [uses]) (by simp [indexed])))
        (ihb (hx.mono (by simp [uses]) (by simp [indexed])))
  | add _ a op b iha ihb =>
      exact simulated_add (iha (hx.mono (by simp [uses]) (by simp [indexed])))
        (ihb (hx.mono (by simp [uses]) (by simp [indexed])))
  | mul _ a op b iha ihb =>
      exact simulated_mul (iha (hx.mono (by simp [uses]) (by simp [indexed])))
        (ihb (hx.mono (by simp [uses]) (by simp [indexed])))
  | setVar _ x => exact simulated_setVar hA (hx.cells x (by simp [uses]))
  | setDeref _ x => exact simulated_setDeref hA (hx.cells x (by simp [uses]))
  | var _ x => exact simulated_var hA (hx.cells x (by simp [uses]))
  | setElem _ x index ih =>
      exact simulated_setElem hA (hx.cells x (by simp [uses])) (hx.arrays x (by simp [indexed]))
        (ih (hx.mono (by simp [uses]) (by simp [indexed])))
  | elem _ x index ih =>
      exact simulated_elem hA (hx.cells x (by simp [uses])) (hx.arrays x (by simp [indexed]))
        (ih (hx.mono (by simp [uses]) (by simp [indexed])))
  | num _ n => exact simulated_num
  | str _ text => exact simulated_str hA
  -- Calls and input have no value here.
  | call _ _ _ | read _ | nil | cons _ _ =>
      intro _ _ _ _ _ _ _ _ _ _ heval
      cases heval

end Node

end Backend
