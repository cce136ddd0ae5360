import Backend.Proofs.Execution
import Backend.Proofs.Expression

/-! # The code of statements does what they do

An execution of a statement is followed by its code. The induction is on the execution, so
that a loop's code is entered again with each turn. Every join of the code has the stack
where the statement found it, while leaving the function drops all of the frame at once.
-/

namespace Backend

/-- Reserving bytes moves a stack pointer down by them. -/
theorem Quad.toNat_sub_signed {a : Quad} {n : Nat} (h : n ≤ a.toNat) :
    (a - BitVec.ofInt 64 (Word.toSigned n)).toNat = a.toNat - n := by
  have hword : BitVec.ofInt 64 (Word.toSigned n) = BitVec.ofNat 64 n := by
    rw [← BitVec.ofInt_natCast]
    apply BitVec.eq_of_toInt_eq
    rw [BitVec.toInt_ofInt, BitVec.toInt_ofInt, Word.toSigned, Word.bound, Int.bmod_bmod]
  have hlt := a.isLt
  rw [hword, BitVec.toNat_sub, BitVec.toNat_ofNat]
  omega

/-- The bytes of stack that the code of a statement takes. Printing needs three cells, one
of them for alignment. -/
def Clause.room {f : Form} : Clause f → Nat
  | .eval _ e => e.elim 0 Node.room
  | .braces _ b => b.room
  | .ifElse _ c t e => max c.room (max t.room e.room)
  | .loop _ c s => max c.room s.room
  | .ret _ e => e.elim 0 Node.room
  | .write _ e => max (e.elim 0 Node.room) 24
  | .present s => s.room
  | .cons s rest => max s.room rest.room
  | .block _ _ stmts _ span => span + stmts.room
  | .absent | .nil => 0

/-- The texts that a machine finds: the formats, and the literals of a pool. -/
structure Machine.Texts (m : Machine) (pool : Pool) : Prop where
  writeInt : m.text (m.symbols FormatString.writeInt) = "%d "
  writeString : m.text (m.symbols FormatString.writeString) = "%s "
  newline : m.text (m.symbols FormatString.newline) = "\n"
  literals : ∀ text label, (text, label) ∈ pool → m.text (m.symbols label) = untilNul text

/-- Where a statement ends: behind its code with the stack as before, or at the return of
its function with the frame dropped. -/
def Flow.EndsAt (base : Quad) (m : Machine) (line : Nat) (s s' : State) : Flow → Prop
  | .next => s'.pc = line ∧ s'.rsp = s.rsp
  | .leave value => m.code[s'.pc]? = some (.inst .ret) ∧ s'.rsp = base ∧ ∀ v ∈ value, s'.rax = v

namespace Activation

/-- The code of a statement has run from one state to another. -/
structure Ends (A : Activation) (m : Machine) (line : Nat) (μ : Memory) (printed : List Output)
    (flow : Flow) (s s' : State) : Prop where
  steps : m.Steps s s'
  rbx : s'.rbx = s.rbx
  out : s'.out = s.out ++ printed
  agree : ∀ a, A.Reachable a → s'.mem a = μ a
  place : flow.EndsAt A.base m line s s'

variable {A : Activation} {m : Machine} {line line' room : Nat} {μ μ' : Memory}
  {printed others : List Output} {flow : Flow} {s s' s'' : State}

theorem Reached.ends (h : A.Reached m line μ s s') : A.Ends m line μ [] .next s s' where
  steps := h.steps
  rbx := h.rbx
  out := by rw [h.out, List.append_nil]
  agree := h.agree
  place := ⟨h.pc, h.rsp⟩

namespace Ends

theorem ready (h : A.Ends m line μ' printed .next s s') (hready : A.Ready room μ s) :
    A.Ready room μ' s' where
  rbx := h.rbx.trans hready.rbx
  aligned := by
    rw [h.place.2]
    exact hready.aligned
  top := by
    rw [h.place.2]
    exact hready.top
  room := by
    rw [h.place.2]
    exact hready.room
  agree := h.agree

theorem trans (h : A.Ends m line μ printed .next s s')
    (h' : A.Ends m line' μ' others flow s' s'') :
    A.Ends m line' μ' (printed ++ others) flow s s'' where
  steps := h.steps.trans h'.steps
  rbx := h'.rbx.trans h.rbx
  out := by rw [h'.out, h.out, List.append_assoc]
  agree := h'.agree
  place := by
    cases flow with
    | next => exact ⟨h'.place.1, h'.place.2.trans h.place.2⟩
    | leave value => exact h'.place

theorem of_leave {value : Option Quad} (h : A.Ends m line μ printed (.leave value) s s') :
    A.Ends m line' μ printed (.leave value) s s' :=
  ⟨h.steps, h.rbx, h.out, h.agree, h.place⟩

/-- Going on from the end of a statement's code, which one that leaves does not reach. -/
theorem goto (h : A.Ends m line μ printed flow s s')
    (hgoto : ∀ t : State, t.pc = line → m.Steps t { t with pc := line' }) :
    ∃ s'', A.Ends m line' μ printed flow s s'' := by
  cases flow with
  | next =>
      obtain ⟨hpc, hrsp⟩ := h.place
      exact ⟨_, h.steps.trans (hgoto s' hpc), h.rbx, h.out, h.agree, rfl, hrsp⟩
  | leave value => exact ⟨s', h.steps, h.rbx, h.out, h.agree, h.place⟩

end Ends

/-- Whatever the code of a statement is, it leads to where an execution of it does. -/
def Runs {f : Form} (A : Activation) (m : Machine) (c : Clause f) (μ : Memory)
    (printed : List Output) (μ' : Memory) (flow : Flow) : Prop :=
  ∀ {n n' : Nat} {code : Code} {s : State}, c.code A.env n = .ok code n' → m.Holds s.pc code →
    A.Ready c.room μ s → ∃ s', A.Ends m (s.pc + code.length) μ' printed flow s s'

section Simple

theorem Ready.ends_refl (hready : A.Ready room μ s) : A.Ends m s.pc μ [] .next s s :=
  ⟨.refl _, rfl, (List.append_nil _).symm, hready.agree, rfl, rfl⟩

variable {e : Expr} {v : Quad}

theorem runs_eval (he : e.Simulated A m) (heval : e.eval A .value 0 μ = some (v, μ')) :
    A.Runs m (.eval line (some e)) μ [] μ' .next := by
  intro n n' code s hcode hholds hready
  obtain ⟨s', hreached, -⟩ := he hcode heval nofun hholds hready
  exact ⟨s', hreached.ends⟩

/-- The end of a function drops the frame and returns. -/
theorem Ready.ends_leave (hready : A.Ready room μ s) (hcode : m.Holds s.pc Snippet.epilogue)
    {value : Option Quad} (hvalue : ∀ v ∈ value, s.rax = v) :
    ∃ s', A.Ends m line μ [] (.leave value) s s' := by
  have hdrop : m.Steps s { s with pc := s.pc + 1, rsp := s.rbx } :=
    Machine.steps_inst hcode.head rfl
  exact ⟨_, hdrop, rfl, (List.append_nil _).symm, hready.agree, hcode.tail.head, hready.rbx, hvalue⟩

theorem runs_leave : A.Runs m (.ret line none) μ [] μ (.leave none) := by
  intro n n' code s hcode hholds hready
  obtain ⟨rfl, -⟩ := Emit.pure_eq_ok_iff.mp hcode
  exact hready.ends_leave hholds nofun

theorem runs_ret (he : e.Simulated A m) (heval : e.eval A .value 0 μ = some (v, μ')) :
    A.Runs m (.ret line (some e)) μ [] μ' (.leave (some v)) := by
  intro n n' code s hcode hholds hready
  simp only [Clause.code, Emit.bind_eq_ok_iff, Emit.pure_eq_ok_iff] at hcode
  obtain ⟨value, k, hvalue, rfl, -⟩ := hcode
  obtain ⟨s₁, h₁, hrax⟩ := he hvalue heval nofun hholds.left hready
  have hepilogue : m.Holds s₁.pc Snippet.epilogue := by
    rw [h₁.pc]
    exact hholds.right
  have hreturned : ∀ w ∈ some v, s₁.rax = w := by simpa using hrax
  obtain ⟨s₂, h₂⟩ := (h₁.ready hready).ends_leave hepilogue hreturned
  exact ⟨s₂, h₁.ends.trans h₂⟩

end Simple

section Output

/-- Printing keeps every cell that an evaluation can reach. -/
theorem Ready.ends_print (hA : A.On m) (hready : A.Ready 24 μ s) {format : String}
    (hcode : m.Holds s.pc (Snippet.print format)) {event : Output}
    (hevent : m.printed { s with rdi := m.symbols format } = some event) :
    ∃ s', A.Ends m (s.pc + (Snippet.print format).length) μ [event] .next s s' := by
  have hroom : m.limit + 24 ≤ s.rsp.toNat := by
    rw [hA.limit]
    exact hready.room
  obtain ⟨s', hsteps, hpc, hrbx, hrsp, hout, hmem⟩ :=
    Snippet.print_steps hcode hready.aligned hroom hevent
  refine ⟨s', hsteps, hrbx, hout, ?_, hpc, hrsp⟩
  intro a ha
  have htop := hready.top
  have hkept : ¬ m.Free s.rsp a := by
    rintro ⟨hlow, hhigh⟩
    rw [hA.limit] at hlow
    exact ha.2 ⟨hlow, by omega⟩
  rw [hmem a hkept, hready.agree a ha]

variable (hA : A.On m) (htexts : m.Texts A.pool)
include hA htexts

theorem runs_newline : A.Runs m (.write line none) μ [.newline] μ .next := by
  intro n n' code s hcode hholds hready
  obtain ⟨rfl, -⟩ := Emit.pure_eq_ok_iff.mp hcode
  apply Ready.ends_print hA (hready.mono (Nat.le_max_right _ _)) hholds
  simp [Machine.printed, htexts.newline]

/-- A value in `%rax` is printed under the format of its type. -/
theorem Ready.ends_printValue (hready : A.Ready 24 μ s) {t : Ty} {n n' : Nat} {code : Code}
    (hcode : t.print n = .ok code n') (hholds : m.Holds s.pc code) {event : Output}
    (hprints : Prints A t s.rax event) :
    ∃ s', A.Ends m (s.pc + code.length) μ [event] .next s s' := by
  -- The value goes to `%rsi` first, its lower half only if it is an integer.
  have hprint : ∀ {i : Inst} {w : Quad} {format : String},
      code = [.inst i] ++ Snippet.print format →
      m.execAll [i] s = some { s with pc := s.pc + 1, rsi := w } →
      m.printed { s with rsi := w, rdi := m.symbols format } = some event →
      ∃ s', A.Ends m (s.pc + code.length) μ [event] .next s s' := by
    rintro i w format rfl hexec hevent
    have h₁ := (hready.reached (Machine.steps_inst hholds.left.head hexec) rfl rfl rfl rfl).ends
    obtain ⟨s₂, h₂⟩ := (h₁.ready hready).ends_print hA hholds.right hevent
    exact ⟨s₂, h₁.trans h₂⟩
  generalize hv : s.rax = v at hprints
  cases hprints with
  | int =>
      obtain ⟨rfl, -⟩ := Emit.pure_eq_ok_iff.mp hcode
      refine hprint rfl (w := s.rax.low.wide) rfl ?_
      simp [Machine.printed, htexts.writeInt, hv]
  | string hmem =>
      obtain ⟨rfl, -⟩ := Emit.pure_eq_ok_iff.mp hcode
      refine hprint rfl (w := s.rax) rfl ?_
      rw [← hA.symbols] at hv
      simp [Machine.printed, htexts.writeString, hv, htexts.literals _ _ hmem]

theorem runs_write {e : Expr} {v : Quad} {event : Output} (he : e.Simulated A m)
    (heval : e.eval A .value 0 μ = some (v, μ')) (hprints : Prints A e.ty v event) :
    A.Runs m (.write line (some e)) μ [event] μ' .next := by
  intro n n' code s hcode hholds hready
  simp only [Clause.code, Emit.bind_eq_ok_iff, Emit.pure_eq_ok_iff] at hcode
  obtain ⟨print, k, hprint, value, k', hvalue, rfl, -⟩ := hcode
  obtain ⟨s₁, h₁, hrax⟩ := he hvalue heval nofun hholds.left (hready.mono (Nat.le_max_left _ _))
  have hready₁ := h₁.ready (hready.mono (Nat.le_max_right _ _))
  have hholds₁ : m.Holds s₁.pc print := by
    rw [h₁.pc]
    exact hholds.right
  obtain ⟨s₂, h₂⟩ := hready₁.ends_printValue hA htexts hprint hholds₁ (hrax ▸ hprints)
  rw [List.length_append, ← Nat.add_assoc, ← h₁.pc]
  exact ⟨s₂, h₁.ends.trans h₂⟩

end Output

section Control

variable {cond : Expr} {v : Quad} {μ₁ μ₂ : Memory} {t : Stmt} {e : Clause .alt}

theorem Ready.reached_label (hready : A.Ready room μ s) {label : String}
    (hline : m.code[s.pc]? = some (.label label)) : A.Reached m (s.pc + 1) μ s s.next :=
  hready.reached (Machine.steps_label hline) rfl rfl rfl rfl

/-- A condition is computed and tested. -/
theorem reached_test (hcond : cond.Simulated A m) (heval : cond.eval A .value 0 μ = some (v, μ'))
    {n n' : Nat} {code : Code} (hcode : cond.code A.env .value n = .ok code n')
    {start other : String} (hready : A.Ready cond.room μ s)
    (hholds : m.Holds s.pc ([.label start] ++ code ++ Snippet.jumpIfZero other))
    (hother : m.target other = some line) :
    ∃ s', A.Reached m (if v.low = 0 then line
      else s.pc + ([Line.label start] ++ code ++ Snippet.jumpIfZero other).length) μ' s s' := by
  have h₀ := hready.reached_label hholds.left.left.head
  obtain ⟨s₁, h₁, rfl⟩ := hcond hcode heval nofun hholds.left.right (h₀.ready hready)
  have hpc : s₁.pc = s.pc + ([Line.label start] ++ code).length := by
    rw [h₁.pc]
    simp [State.next]
    omega
  have hjump : m.Holds s₁.pc (Snippet.jumpIfZero other) := by
    rw [hpc]
    exact hholds.right
  obtain ⟨flags, hsteps⟩ := Snippet.jumpIfZero_steps hjump hother
  have h₂ := (h₁.ready (h₀.ready hready)).reached hsteps rfl rfl rfl rfl
  rw [List.length_append, ← Nat.add_assoc, ← hpc]
  exact ⟨_, h₀.trans (h₁.trans h₂)⟩

/-- A statement behind a condition that holds is run. -/
theorem ends_guarded (hcond : cond.Simulated A m) (heval : cond.eval A .value 0 μ = some (v, μ₁))
    (hv : v.low ≠ 0) (ht : A.Runs m t μ₁ printed μ' flow) {n n' k k' : Nat} {cc ct : Code}
    (hcc : cond.code A.env .value n = .ok cc n') (hct : t.code A.env k = .ok ct k')
    {start other : String} (hready : A.Ready (max cond.room t.room) μ s)
    (hholds : m.Holds s.pc ([.label start] ++ cc ++ Snippet.jumpIfZero other ++ ct))
    (hother : m.target other = some line) :
    ∃ s', A.Ends m
      (s.pc + ([Line.label start] ++ cc ++ Snippet.jumpIfZero other ++ ct).length) μ' printed flow
      s s' := by
  obtain ⟨s₁, h₁⟩ := reached_test hcond heval hcc (hready.mono (Nat.le_max_left _ _))
    hholds.left hother
  rw [if_neg hv] at h₁
  have htcode : m.Holds s₁.pc ct := by
    rw [h₁.pc]
    exact hholds.right
  obtain ⟨s₂, h₂⟩ := ht hct htcode (h₁.ready (hready.mono (Nat.le_max_right _ _)))
  rw [List.length_append, ← Nat.add_assoc, ← h₁.pc]
  exact ⟨s₂, h₁.ends.trans h₂⟩

theorem runs_ifTrue (hcond : cond.Simulated A m) (heval : cond.eval A .value 0 μ = some (v, μ₁))
    (hv : v.low ≠ 0) (ht : A.Runs m t μ₁ printed μ' flow) :
    A.Runs m (.ifElse line cond t e) μ printed μ' flow := by
  intro n n' code s hcode hholds hready
  simp only [Clause.code, Emit.bind_eq_ok_iff, Emit.pure_eq_ok_iff] at hcode
  obtain ⟨start, _, -, other, _, -, stop, _, -, cc, k, hcc, ct, k', hct, ce, k'', hce, rfl, -⟩ :=
    hcode
  have hroom : max cond.room t.room ≤ (Clause.ifElse line cond t e).room := by
    simp only [Clause.room]
    omega
  have hbranch := hholds.left.left
  obtain ⟨s₁, h₁⟩ := ends_guarded hcond heval hv ht hcc hct (hready.mono hroom) hbranch.left
    (hbranch.right.labels 1 other rfl)
  -- Behind the branch, the other one is jumped over.
  refine h₁.goto fun u hu => ?_
  have hjmp : m.code[u.pc]? = some (.inst (.jmp stop)) := by
    rw [hu]
    exact hbranch.right.head
  have hline := (Machine.steps_jmp hjmp (hholds.right.labels 0 stop rfl)).trans
    (Machine.steps_label hholds.right.head)
  rw [List.length_append, ← Nat.add_assoc]
  exact hline

theorem runs_ifFalse (hcond : cond.Simulated A m) (heval : cond.eval A .value 0 μ = some (v, μ₁))
    (hv : v.low = 0) (he : A.Runs m e μ₁ printed μ' flow) :
    A.Runs m (.ifElse line cond t e) μ printed μ' flow := by
  intro n n' code s hcode hholds hready
  simp only [Clause.code, Emit.bind_eq_ok_iff, Emit.pure_eq_ok_iff] at hcode
  obtain ⟨start, _, -, other, _, -, stop, _, -, cc, k, hcc, ct, k', hct, ce, k'', hce, rfl, -⟩ :=
    hcode
  have hbranch := hholds.left.left
  obtain ⟨s₁, h₁⟩ := reached_test hcond heval hcc (hready.mono (Nat.le_max_left _ _))
    hbranch.left.left (hbranch.right.labels 1 other rfl)
  rw [if_pos hv] at h₁
  have hroom : e.room ≤ (Clause.ifElse line cond t e).room := by
    simp only [Clause.room]
    omega
  have hready₁ := h₁.ready (hready.mono hroom)
  have hother : m.code[s₁.pc]? = some (.label other) := by
    rw [h₁.pc]
    exact hbranch.right.tail.head
  have h₂ := hready₁.reached_label hother
  have hpc : s₁.next.pc = s.pc + ([Line.label start] ++ cc ++ Snippet.jumpIfZero other ++ ct ++
      [Line.inst (.jmp stop), Line.label other]).length := by
    rw [State.next, h₁.pc, @List.length_append _ (_ ++ ct)]
    rfl
  obtain ⟨s₃, h₃⟩ := he hce (by rw [hpc]; exact hholds.left.right) (h₂.ready hready₁)
  refine ((h₁.trans h₂).ends.trans h₃).goto fun u hu => ?_
  rw [hpc, Nat.add_assoc, ← List.length_append] at hu
  rw [List.length_append, ← Nat.add_assoc, ← hu]
  exact Machine.steps_label (by rw [hu]; exact hholds.right.head)

theorem runs_loopEnd (hcond : cond.Simulated A m) (heval : cond.eval A .value 0 μ = some (v, μ'))
    (hv : v.low = 0) : A.Runs m (.loop line cond t) μ [] μ' .next := by
  intro n n' code s hcode hholds hready
  simp only [Clause.code, Emit.bind_eq_ok_iff, Emit.pure_eq_ok_iff] at hcode
  obtain ⟨start, _, -, stop, _, -, cc, k, hcc, cs, k', hcs, rfl, -⟩ := hcode
  have hready' := hready.mono (Nat.le_max_left _ _)
  obtain ⟨s₁, h₁⟩ := reached_test hcond heval hcc hready' hholds.left.left
    (hholds.right.labels 1 stop rfl)
  rw [if_pos hv] at h₁
  have hstop : m.code[s₁.pc]? = some (.label stop) := by
    rw [h₁.pc]
    exact hholds.right.tail.head
  have h₂ := (h₁.ready hready').reached_label hstop
  rw [h₁.pc] at h₂
  rw [List.length_append, ← Nat.add_assoc]
  exact ⟨_, (h₁.trans h₂).ends⟩

/-- A turn of a loop leads back to its start. -/
theorem runs_loopNext (hcond : cond.Simulated A m)
    (heval : cond.eval A .value 0 μ = some (v, μ₁)) (hv : v.low ≠ 0)
    (ht : A.Runs m t μ₁ printed μ₂ .next)
    (hloop : A.Runs m (.loop line cond t) μ₂ others μ' flow) :
    A.Runs m (.loop line cond t) μ (printed ++ others) μ' flow := by
  intro n n' code s hcode hholds hready
  have hcode' := hcode
  simp only [Clause.code, Emit.bind_eq_ok_iff, Emit.pure_eq_ok_iff] at hcode
  obtain ⟨start, _, -, stop, _, -, cc, k, hcc, ct, k', hct, rfl, -⟩ := hcode
  obtain ⟨s₁, h₁⟩ := ends_guarded hcond heval hv ht hcc hct hready hholds.left
    (hholds.right.labels 1 stop rfl)
  obtain ⟨s₂, h₂⟩ : ∃ s₂, A.Ends m s.pc μ₂ printed .next s s₂ := by
    refine h₁.goto fun u hu => ?_
    have hjmp : m.code[u.pc]? = some (.inst (.jmp start)) := by
      rw [hu]
      exact hholds.right.head
    exact Machine.steps_jmp hjmp (hholds.left.left.left.left.labels 0 start rfl)
  have hpc : s₂.pc = s.pc := h₂.place.1
  obtain ⟨s₃, h₃⟩ := hloop hcode' (by rw [hpc]; exact hholds) (h₂.ready hready)
  rw [hpc] at h₃
  exact ⟨s₃, h₂.trans h₃⟩

theorem runs_loopLeave {value : Option Quad} (hcond : cond.Simulated A m)
    (heval : cond.eval A .value 0 μ = some (v, μ₁)) (hv : v.low ≠ 0)
    (ht : A.Runs m t μ₁ printed μ' (.leave value)) :
    A.Runs m (.loop line cond t) μ printed μ' (.leave value) := by
  intro n n' code s hcode hholds hready
  simp only [Clause.code, Emit.bind_eq_ok_iff, Emit.pure_eq_ok_iff] at hcode
  obtain ⟨start, _, -, stop, _, -, cc, k, hcc, ct, k', hct, rfl, -⟩ := hcode
  obtain ⟨s₁, h₁⟩ := ends_guarded hcond heval hv ht hcc hct hready hholds.left
    (hholds.right.labels 1 stop rfl)
  exact ⟨s₁, h₁.of_leave⟩

variable {rest : Clause .seq}

theorem runs_consNext (ht : A.Runs m t μ printed μ₁ .next)
    (hrest : A.Runs m rest μ₁ others μ' flow) :
    A.Runs m (.cons t rest) μ (printed ++ others) μ' flow := by
  intro n n' code s hcode hholds hready
  simp only [Clause.code, Emit.bind_eq_ok_iff, Emit.pure_eq_ok_iff] at hcode
  obtain ⟨ct, k, hct, cr, k', hcr, rfl, -⟩ := hcode
  obtain ⟨s₁, h₁⟩ := ht hct hholds.left (hready.mono (Nat.le_max_left _ _))
  have hpc : s₁.pc = s.pc + ct.length := h₁.place.1
  obtain ⟨s₂, h₂⟩ := hrest hcr (by rw [hpc]; exact hholds.right)
    (h₁.ready (hready.mono (Nat.le_max_right _ _)))
  rw [List.length_append, ← Nat.add_assoc, ← hpc]
  exact ⟨s₂, h₁.trans h₂⟩

theorem runs_consLeave {value : Option Quad} (ht : A.Runs m t μ printed μ' (.leave value)) :
    A.Runs m (.cons t rest) μ printed μ' (.leave value) := by
  intro n n' code s hcode hholds hready
  simp only [Clause.code, Emit.bind_eq_ok_iff, Emit.pure_eq_ok_iff] at hcode
  obtain ⟨ct, k, hct, cr, k', hcr, rfl, -⟩ := hcode
  obtain ⟨s₁, h₁⟩ := ht hct hholds.left (hready.mono (Nat.le_max_left _ _))
  exact ⟨s₁, h₁.of_leave⟩

end Control

section Blocks

theorem Ready.reserved {bytes : Nat} (hready : A.Ready (bytes + room) μ s) (hbytes : 8 ∣ bytes)
    {u : State} (hrbx : u.rbx = s.rbx)
    (hrsp : u.rsp = s.rsp - BitVec.ofInt 64 (Word.toSigned bytes)) (hmem : u.mem = s.mem) :
    A.Ready room μ u := by
  have hroom := hready.room
  have htop := hready.top
  have htoNat : u.rsp.toNat = s.rsp.toNat - bytes := by
    rw [hrsp]
    exact Quad.toNat_sub_signed (by omega)
  refine ⟨hrbx.trans hready.rbx, ?_, by omega, by omega, ?_⟩
  · unfold Quad.Aligned
    rw [htoNat]
    exact Nat.dvd_sub hready.aligned hbytes
  · rw [hmem]
    exact hready.agree

/-- A block reserves its cells and gives them back, unless the function is left. -/
theorem runs_block {own : List DeclId} {stmts : Clause .seq} {size span : Nat} (hspan : 8 ∣ span)
    (h : A.Runs m stmts μ printed μ' flow) :
    A.Runs m (.block line own stmts size span) μ printed μ' flow := by
  intro n n' code s hcode hholds hready
  simp only [Clause.code, Emit.bind_eq_ok_iff, Emit.pure_eq_ok_iff] at hcode
  obtain ⟨body, k, hbody, rfl, -⟩ := hcode
  unfold Snippet.reserving at hholds ⊢
  by_cases hzero : span = 0
  · rw [if_pos hzero] at hholds ⊢
    exact h hbody hholds (hready.mono (Nat.le_add_left _ _))
  rw [if_neg hzero] at hholds ⊢
  -- The operand gets a name, so that `simp` does not rewrite it.
  obtain ⟨k, hk⟩ : ∃ k, k = BitVec.ofInt 64 (Word.toSigned span) := ⟨_, rfl⟩
  have hsub : m.Steps s { s with pc := s.pc + 1, rsp := s.rsp - k, flags := none } := by
    rw [hk]
    exact Machine.steps_inst hholds.left.left.head rfl
  have hready₁ : A.Ready stmts.room μ { s with pc := s.pc + 1, rsp := s.rsp - k, flags := none } :=
    hready.reserved hspan rfl (by rw [hk]) rfl
  obtain ⟨s₂, h₂⟩ := h hbody hholds.left.right hready₁
  cases flow with
  | next =>
      obtain ⟨hpc, hrsp⟩ := h₂.place
      have hadd : m.Steps s₂ { s₂ with pc := s₂.pc + 1, rsp := s₂.rsp + k, flags := none } := by
        have hline : m.code[s₂.pc]? =
            some (.inst (.addq (.imm (Word.toSigned span)) .rsp)) := by
          have hbehind : s₂.pc =
              s.pc + ([Line.inst (.subq (.imm (Word.toSigned span)) .rsp)] ++ body).length := by
            rw [hpc, List.length_append, ← Nat.add_assoc]
            rfl
          rw [hbehind]
          exact hholds.right.head
        rw [hk]
        exact Machine.steps_inst hline rfl
      refine ⟨_, hsub.trans (h₂.steps.trans hadd), h₂.rbx, h₂.out, h₂.agree, ?_, ?_⟩
      · simp only [hpc, List.length_append]
        simp
        omega
      · simp only [hrsp, BitVec.sub_add_cancel]
  -- Leaving restores `%rsp` from the frame base, whatever the block has reserved.
  | leave value => exact ⟨s₂, hsub.trans h₂.steps, h₂.rbx, h₂.out, h₂.agree, h₂.place⟩

end Blocks

end Activation

open Activation

/-- An execution is followed by the code of what is executed. -/
theorem Exec.runs {f : Form} {A : Activation} {m : Machine} (hA : A.On m) (htexts : m.Texts A.pool)
    {c : Clause f} {μ μ' : Memory} {printed : List Output} {flow : Flow}
    (h : Exec A c μ printed μ' flow) (hexprs : ∀ e ∈ c.exprs, e.Simulated A m)
    (hspans : ∀ span ∈ c.spans, 8 ∣ span) : A.Runs m c μ printed μ' flow := by
  induction h with
  | empty | absent | nil =>
      intro n n' code s hcode hholds hready
      obtain ⟨rfl, -⟩ := Emit.pure_eq_ok_iff.mp hcode
      exact ⟨s, hready.ends_refl⟩
  | eval heval => exact runs_eval (hexprs _ List.mem_cons_self) heval
  | braces _ ih | present _ ih =>
      intro n n' code s hcode hholds hready
      exact ih hexprs hspans hcode hholds hready
  | ifTrue heval hv _ ih =>
      simp only [Clause.exprs, Clause.spans, List.mem_cons, List.mem_append] at hexprs hspans
      exact runs_ifTrue (hexprs _ (.inl rfl)) heval hv
        (ih (fun e he => hexprs e (.inr (.inl he))) fun b hb => hspans b (.inl hb))
  | ifFalse heval hv _ ih =>
      simp only [Clause.exprs, Clause.spans, List.mem_cons, List.mem_append] at hexprs hspans
      exact runs_ifFalse (hexprs _ (.inl rfl)) heval hv
        (ih (fun e he => hexprs e (.inr (.inr he))) fun b hb => hspans b (.inr hb))
  | loopEnd heval hv => exact runs_loopEnd (hexprs _ List.mem_cons_self) heval hv
  | loopNext heval hv _ _ ihbody ihloop =>
      exact runs_loopNext (hexprs _ List.mem_cons_self) heval hv
        (ihbody (fun e he => hexprs e (List.mem_cons_of_mem _ he)) hspans) (ihloop hexprs hspans)
  | loopLeave heval hv _ ih =>
      exact runs_loopLeave (hexprs _ List.mem_cons_self) heval hv
        (ih (fun e he => hexprs e (List.mem_cons_of_mem _ he)) hspans)
  | leave => exact runs_leave
  | ret heval => exact runs_ret (hexprs _ List.mem_cons_self) heval
  | newline => exact runs_newline hA htexts
  | write heval hprints => exact runs_write hA htexts (hexprs _ List.mem_cons_self) heval hprints
  | consNext _ _ ihfirst ihrest =>
      simp only [Clause.exprs, Clause.spans, List.mem_append] at hexprs hspans
      exact runs_consNext
        (ihfirst (fun e he => hexprs e (.inl he)) fun b hb => hspans b (.inl hb))
        (ihrest (fun e he => hexprs e (.inr he)) fun b hb => hspans b (.inr hb))
  | consLeave _ ih =>
      simp only [Clause.exprs, Clause.spans, List.mem_append] at hexprs hspans
      exact runs_consLeave (ih (fun e he => hexprs e (.inl he)) fun b hb => hspans b (.inl hb))
  | block _ ih =>
      simp only [Clause.spans, List.mem_cons] at hspans
      exact runs_block (hspans _ (.inl rfl)) (ih hexprs fun b hb => hspans b (.inr hb))

end Backend
