import Backend.Codegen.Clause
import Backend.Proofs.Evaluation
import Backend.Proofs.Run

/-! # What the fixed sequences do

The state behind each of the sequences that the generator puts together, for any state
before it with an aligned stack.
-/

namespace Backend

section Arithmetic

variable {a b : Long}

theorem Cond.holds_inverse (flags : Flags) (cond : Cond) :
    cond.inverse.holds flags = !cond.holds flags := by
  obtain ⟨zero, sign, overflow⟩ := flags
  cases cond <;> cases zero <;> cases sign <;> cases overflow <;> rfl

/-- The sign of a difference, corrected where it overflows, tells the smaller operand. -/
theorem Flags.compare_sign_ne_overflow (a b : Long) :
    ((Flags.compare a b).sign != (Flags.compare a b).overflow) = decide (a.toInt < b.toInt) := by
  have ha : -2 ^ 31 ≤ a.toInt ∧ a.toInt < 2 ^ 31 := ⟨a.le_toInt, BitVec.toInt_lt⟩
  have hb : -2 ^ 31 ≤ b.toInt ∧ b.toInt < 2 ^ 31 := ⟨b.le_toInt, BitVec.toInt_lt⟩
  have hsign : (Flags.compare a b).sign = decide ((a.toInt - b.toInt).bmod (2 ^ 32) < 0) := by
    rw [Flags.compare, BitVec.msb_eq_toInt, BitVec.toInt_sub]
  have hoverflow : (Flags.compare a b).overflow =
      decide (2 ^ 31 ≤ a.toInt - b.toInt ∨ a.toInt - b.toInt < -2 ^ 31) := by
    simp [Flags.compare, BitVec.ssubOverflow]
  rw [hsign, hoverflow, Bool.eq_iff_iff]
  simp only [bne_iff_ne, ne_eq, decide_eq_decide, decide_eq_true_eq, Int.bmod_def]
  omega

/-- The condition of a relation holds of the flags exactly when the relation does of the
operands. -/
theorem RelOp.holds_cond (op : RelOp) (a b : Long) :
    op.cond.holds (Flags.compare a b) = op.holds a b := by
  have hless := Flags.compare_sign_ne_overflow a b
  have hequal : (Flags.compare a b).zero = decide (a = b) := rfl
  have hnotless : ((Flags.compare a b).sign == (Flags.compare a b).overflow) =
      !decide (a.toInt < b.toInt) := by
    rw [← hless, bne, Bool.not_not]
  rw [Bool.eq_iff_iff]
  cases op <;>
    simp only [cond, Cond.holds, holds, hless, hequal, hnotless, Bool.not_eq_true',
      Bool.or_eq_true, Bool.and_eq_true, decide_eq_true_eq, decide_eq_false_iff_not, ne_eq,
      ← BitVec.toInt_inj] <;> omega

theorem Quad.low_signExtend (a : Long) : Quad.low (a.signExtend 64) = a := by
  apply BitVec.eq_of_getLsbD_eq
  intro i hi
  simp [low, BitVec.getLsbD_signExtend, hi]
  omega

/-- A dividend extended into the upper register is the number itself. -/
theorem Long.toInt_extended (a : Long) :
    BitVec.toInt ((if (a.signExtend 64).msb then BitVec.allOnes 64 else 0 : Quad).low ++ a : Quad) =
      a.toInt := by
  have hmsb : (a.signExtend 64).msb = a.msb := by
    rw [BitVec.msb_eq_toInt, BitVec.msb_eq_toInt, BitVec.toInt_signExtend_of_le (by decide)]
  rw [hmsb, BitVec.toInt_append, BitVec.toInt_eq_msb_cond a]
  cases a.msb with
  | false => simp [Quad.low]
  | true =>
      simp [Quad.low]
      omega

theorem Long.tdiv_inRange (h : ¬ a.Faults b) :
    ¬ (a.toInt.tdiv b.toInt < -0x8000_0000 ∨ 0x8000_0000 ≤ a.toInt.tdiv b.toInt) := by
  have hcases : a ≠ BitVec.intMin 32 ∨ b ≠ -1#32 := by
    by_contra hnot
    simp only [not_or, not_not] at hnot
    exact h (.inr hnot)
  rw [← BitVec.toInt_sdiv_of_ne_or_ne a b hcases, not_or, Int.not_lt, Int.not_le]
  exact ⟨BitVec.le_toInt _, BitVec.toInt_lt⟩

end Arithmetic

namespace Quad

/-- Masking the low bits rounds down to a multiple of 16. -/
theorem toNat_and_neg_sixteen (a : Quad) :
    (a &&& BitVec.ofInt 64 (-16)).toNat = a.toNat / 16 * 16 := by
  have hmask : ∀ i < 64, (BitVec.ofInt 64 (-16)).getLsbD i = decide (4 ≤ i) := by decide
  have hshift : a &&& BitVec.ofInt 64 (-16) = (a >>> 4) <<< 4 := by
    apply BitVec.eq_of_getLsbD_eq
    intro i hi
    rw [BitVec.getLsbD_and, hmask i hi]
    by_cases h : 4 ≤ i
    · simp [h, hi, show 4 + (i - 4) = i by omega]
    · simp [h, show i < 4 by omega]
  rw [hshift, BitVec.toNat_shiftLeft, BitVec.toNat_ushiftRight, Nat.shiftLeft_eq,
    Nat.shiftRight_eq_div_pow]
  have hlt := a.isLt
  omega

end Quad

namespace Machine

variable {m : Machine} {s : State}

theorem steps_label {name : String} (h : m.code[s.pc]? = some (.label name)) :
    m.Steps s s.next := by
  apply Steps.single
  simp [step, h]

theorem steps_jmp {label : String} {line : Nat} (h : m.code[s.pc]? = some (.inst (.jmp label)))
    (htarget : m.target label = some line) : m.Steps s { s with pc := line } := by
  apply Steps.single
  simp [step, h, htarget]

/-- A conditional jump is taken exactly when its condition holds. -/
theorem steps_j {cond : Cond} {label : String} {line : Nat} {flags : Flags}
    (h : m.code[s.pc]? = some (.inst (.j cond label))) (hflags : s.flags = some flags)
    (htarget : m.target label = some line) :
    m.Steps s { s with pc := if cond.holds flags then line else s.pc + 1 } := by
  apply Steps.single
  cases hcond : cond.holds flags <;> simp [step, h, hflags, htarget, hcond, State.next]

theorem divide_extended {a b : Long} (hfaults : ¬ a.Faults b) (hrax : s.rax = a.signExtend 64)
    (hrdx : s.rdx = if (a.signExtend 64).msb then BitVec.allOnes 64 else 0) :
    divide s b = some { s with
      rax := Long.wide (BitVec.ofInt 32 (a.toInt.tdiv b.toInt))
      rdx := Long.wide (BitVec.ofInt 32 (a.toInt.tmod b.toInt)), flags := none } := by
  have hdividend : BitVec.toInt (s.rdx.low ++ s.rax.low : Quad) = a.toInt := by
    rw [hrax, hrdx, Quad.low_signExtend]
    exact Long.toInt_extended a
  have hzero : b ≠ 0 := fun h => hfaults (.inl h)
  simp only [divide, hdividend]
  rw [if_neg (not_or.mpr ⟨hzero, Long.tdiv_inRange hfaults⟩)]

/-- Code that combines the value in `%rax` with the one on the stack, which it drops. -/
def Combines (m : Machine) (code : Code) (left right : Quad) (P : State → Prop) : Prop :=
  ∀ s, m.Holds s.pc code → s.rsp.Aligned → s.rax = left → s.mem s.rsp = right →
    ∃ s', m.Steps s s' ∧ s'.pc = s.pc + code.length ∧ s'.rbx = s.rbx ∧
      s'.rsp = s.rsp + 8#64 ∧ s'.out = s.out ∧ s'.mem = s.mem ∧ P s'

end Machine

attribute [local simp] Machine.execAll Machine.exec Machine.address Machine.readQuad
  Machine.readLong Machine.writeQuad Machine.combineQuad Machine.combineLong State.quad
  State.long State.setQuad State.setLong State.writeLong State.next Operand.top Operand.rax
  Operand.eax Operand.rsi Operand.rsp

namespace Snippet

variable {m : Machine} {s : State} {v w : Quad}

theorem pushValue_steps (hcode : m.Holds s.pc [.inst pushValue]) (hrsp : s.rsp.Aligned) :
    m.Steps s { s with
      pc := s.pc + 1, rsp := s.rsp - 8#64
      mem := Function.update s.mem (s.rsp - 8#64) s.rax } := by
  apply Machine.steps_inst hcode.head
  simp [pushValue, hrsp]

theorem combine_steps {op : AddOp} (hcode : m.Holds s.pc (combine op)) (hrsp : s.rsp.Aligned) :
    m.Steps s { s with
      pc := s.pc + (combine op).length
      rax := Long.wide (op.apply s.rax.low (s.mem s.rsp).low)
      rsp := s.rsp + 8#64, flags := none } := by
  cases op with
  | add =>
      have hexec : m.execAll [.addl .top .eax, dropOperand] s = some { s with
          pc := s.pc + 2, rax := Long.wide (s.rax.low + (s.mem s.rsp).low)
          rsp := s.rsp + 8#64, flags := none } := by
        simp [dropOperand, hrsp]
      exact Machine.steps_of_execAll hexec hcode
  | sub =>
      have hexec : m.execAll [.subl .top .eax, dropOperand] s = some { s with
          pc := s.pc + 2, rax := Long.wide (s.rax.low - (s.mem s.rsp).low)
          rsp := s.rsp + 8#64, flags := none } := by
        simp [dropOperand, hrsp]
      exact Machine.steps_of_execAll hexec hcode

theorem combine_combines (op : AddOp) :
    m.Combines (combine op) v w fun s => s.rax = Long.wide (op.apply v.low w.low) := by
  rintro s hcode hrsp rfl rfl
  exact ⟨_, combine_steps hcode hrsp, rfl, rfl, rfl, rfl, rfl, rfl⟩

/-- The dividend is extended and divided, unless that faults. -/
theorem divide_steps (hcode : m.Holds s.pc scale.divide) (hrsp : s.rsp.Aligned) {a b : Long}
    (ha : s.rax.low = a) (hb : (s.mem s.rsp).low = b) (hfaults : ¬ a.Faults b) :
    m.Steps s { s with
      pc := s.pc + 4, rcx := s.mem s.rsp, rsp := s.rsp + 8#64, flags := none
      rax := Long.wide (BitVec.ofInt 32 (a.toInt.tdiv b.toInt))
      rdx := Long.wide (BitVec.ofInt 32 (a.toInt.tmod b.toInt)) } := by
  have hexec : m.execAll [.popq (.reg .rcx), .cltq, .cqto, .idivl (.reg .ecx)] s = some { s with
      pc := s.pc + 4, rcx := s.mem s.rsp, rsp := s.rsp + 8#64, flags := none
      rax := Long.wide (BitVec.ofInt 32 (a.toInt.tdiv b.toInt))
      rdx := Long.wide (BitVec.ofInt 32 (a.toInt.tmod b.toInt)) } := by
    simp only [Machine.execAll, Machine.exec, hrsp, State.load_of_aligned, Machine.writeQuad,
      State.setQuad, State.next, Machine.readLong, State.long, Option.bind_some,
      Option.bind_eq_bind, ha, hb]
    rw [Machine.divide_extended hfaults]
    · rfl
    · rfl
    · rfl
  exact Machine.steps_of_execAll hexec hcode

theorem scale_steps {op : MulOp} (hcode : m.Holds s.pc (scale op)) (hrsp : s.rsp.Aligned)
    {result : Long} (hresult : op.apply s.rax.low (s.mem s.rsp).low = some result) :
    ∃ rcx rdx, m.Steps s { s with
      pc := s.pc + (scale op).length, rax := result.wide, rcx, rdx
      rsp := s.rsp + 8#64, flags := none } := by
  cases op with
  | mul =>
      cases hresult
      have hexec : m.execAll [.imull .top .eax, dropOperand] s = some { s with
          pc := s.pc + 2, rax := Long.wide (s.rax.low * (s.mem s.rsp).low)
          rsp := s.rsp + 8#64, flags := none } := by
        simp [dropOperand, hrsp]
      exact ⟨s.rcx, s.rdx, Machine.steps_of_execAll hexec hcode⟩
  | div =>
      simp only [MulOp.apply] at hresult
      split at hresult <;> cases hresult
      next hfaults => exact ⟨_, _, divide_steps hcode hrsp rfl rfl hfaults⟩
  | mod =>
      simp only [MulOp.apply] at hresult
      split at hresult <;> cases hresult
      next hfaults =>
        obtain ⟨remainder, hremainder⟩ : ∃ r : Long, r = BitVec.ofInt 32
            (s.rax.low.toInt.tmod (s.mem s.rsp).low.toInt) := ⟨_, rfl⟩
        have hdivide := divide_steps hcode.left hrsp rfl rfl hfaults
        rw [← hremainder] at hdivide ⊢
        refine ⟨s.mem s.rsp, remainder.wide, hdivide.trans ?_⟩
        apply Machine.steps_inst hcode.right.head
        simp [scale, scale.divide]

theorem scale_combines {op : MulOp} {result : Long}
    (hresult : op.apply v.low w.low = some result) :
    m.Combines (scale op) v w fun s => s.rax = result.wide := by
  rintro s hcode hrsp rfl rfl
  obtain ⟨rcx, rdx, hsteps⟩ := scale_steps hcode hrsp hresult
  exact ⟨_, hsteps, rfl, rfl, rfl, rfl, rfl, rfl⟩

/-- The comparison leaves 1 where the relation holds and 0 where it does not. -/
theorem compare_steps {op : RelOp} {other stop : String}
    (hcode : m.Holds s.pc (compare op.cond other stop)) (hrsp : s.rsp.Aligned) :
    m.Steps s { s with
      pc := s.pc + (compare op.cond other stop).length
      rax := Long.wide (if op.holds s.rax.low (s.mem s.rsp).low then 1 else 0)
      rsp := s.rsp + 8#64, flags := none } := by
  have hother : m.target other = some (s.pc + 4) := hcode.labels 4 other rfl
  have hstop : m.target stop = some (s.pc + 6) := hcode.labels 6 stop rfl
  obtain ⟨flags, hflags⟩ : ∃ flags, flags = Flags.compare s.rax.low (s.mem s.rsp).low := ⟨_, rfl⟩
  have hcompare : m.Steps s { s with pc := s.pc + 1, flags := some flags } := by
    apply Machine.steps_inst (hcode.lines 0 _ rfl)
    simp [hflags, hrsp]
  have hjump : m.Steps { s with pc := s.pc + 1, flags := some flags }
      { s with
        pc := if op.cond.inverse.holds flags then s.pc + 4 else s.pc + 2
        flags := some flags } :=
    Machine.steps_j (hcode.lines 1 _ rfl) rfl hother
  -- Both ways meet at the last label.
  have hend : ∀ v, m.Steps { s with pc := s.pc + 6, rax := v, flags := some flags }
      { s with pc := s.pc + 8, rax := v, rsp := s.rsp + 8#64, flags := none } := by
    intro v
    apply (Machine.steps_label (hcode.lines 6 _ rfl)).trans
    apply Machine.steps_inst (hcode.lines 7 _ rfl)
    simp [dropOperand]
  rw [Cond.holds_inverse, hflags, RelOp.holds_cond, ← hflags] at hjump
  cases hholds : op.holds s.rax.low (s.mem s.rsp).low with
  | true =>
      rw [hholds] at hjump
      have hone : m.Steps { s with pc := s.pc + 2, flags := some flags }
          { s with pc := s.pc + 3, rax := Long.wide 1, flags := some flags } := by
        apply Machine.steps_inst (hcode.lines 2 _ rfl)
        simp
      have hskip : m.Steps { s with pc := s.pc + 3, rax := Long.wide 1, flags := some flags }
          { s with pc := s.pc + 6, rax := Long.wide 1, flags := some flags } :=
        Machine.steps_jmp (hcode.lines 3 _ rfl) hstop
      exact hcompare.trans (hjump.trans (hone.trans (hskip.trans (hend _))))
  | false =>
      rw [hholds] at hjump
      have hzero : m.Steps { s with pc := s.pc + 4, flags := some flags }
          { s with pc := s.pc + 6, rax := Long.wide 0, flags := some flags } := by
        apply (Machine.steps_label (hcode.lines 4 _ rfl)).trans
        apply Machine.steps_inst (hcode.lines 5 _ rfl)
        simp
      exact hcompare.trans (hjump.trans (hzero.trans (hend _)))

theorem compare_combines (op : RelOp) (other stop : String) :
    m.Combines (compare op.cond other stop) v w fun s =>
      s.rax = Long.wide (if op.holds v.low w.low then 1 else 0) := by
  rintro s hcode hrsp rfl rfl
  exact ⟨_, compare_steps hcode hrsp, rfl, rfl, rfl, rfl, rfl, rfl⟩

theorem index_steps (hcode : m.Holds s.pc index) (hrsp : s.rsp.Aligned) :
    m.Steps s { s with
      pc := s.pc + index.length, rax := s.rax.low.signExtend 64 * 8#64
      rsi := s.mem s.rsp + s.rax.low.signExtend 64 * 8#64
      rsp := s.rsp + 8#64, flags := none } := by
  have hexec : m.execAll [.cltq, .imulq (.imm 8) .rax, .popq .rsi, .addq .rax .rsi] s =
      some { s with
        pc := s.pc + 4, rax := s.rax.low.signExtend 64 * 8#64
        rsi := s.mem s.rsp + s.rax.low.signExtend 64 * 8#64
        rsp := s.rsp + 8#64, flags := none } := by
    simp [hrsp]
  exact Machine.steps_of_execAll hexec hcode

theorem index_combines : m.Combines index v w fun s => s.rsi = w + v.low.signExtend 64 * 8#64 := by
  rintro s hcode hrsp rfl rfl
  exact ⟨_, index_steps hcode hrsp, rfl, rfl, rfl, rfl, rfl, rfl⟩

/-- The state in which the C library is called: the stack is aligned below two copies of
its pointer. -/
def atCall (s : State) : State :=
  { s with
    pc := s.pc + 3, rsp := (s.rsp - 8#64 - 8#64) &&& BitVec.ofInt 64 (-16), flags := none
    mem := Function.update (Function.update s.mem (s.rsp - 8#64) s.rsp)
      (s.rsp - 8#64 - 8#64) s.rsp }

theorem execAll_atCall (hrsp : s.rsp.Aligned) :
    m.execAll [.pushq .rsp, .pushq .top, .andq (.imm (-16)) .rsp] s = some (atCall s) := by
  have hcopies : (s.rsp - 8#64 - 8#64).Aligned :=
    Quad.aligned_sub_eight (Quad.aligned_sub_eight hrsp)
  simp [atCall, hrsp, hcopies]

theorem library_enter {symbol : String} (hcode : m.Holds s.pc (library symbol))
    (hrsp : s.rsp.Aligned) : m.Steps s (atCall s) :=
  Machine.steps_of_execAll (execAll_atCall hrsp) (hcode.take 3)

section AtCall

variable (hrsp : s.rsp.Aligned) (hroom : 16 ≤ s.rsp.toNat)
include hroom

theorem toNat_copies : (s.rsp - 8#64).toNat = s.rsp.toNat - 8 ∧
    (s.rsp - 8#64 - 8#64).toNat = s.rsp.toNat - 16 := by
  have hfirst : (s.rsp - 8#64).toNat = s.rsp.toNat - 8 := Quad.toNat_sub_eight (by omega)
  refine ⟨hfirst, ?_⟩
  rw [Quad.toNat_sub_eight (by omega), hfirst]
  omega

theorem toNat_rsp_atCall : (atCall s).rsp.toNat = (s.rsp.toNat - 16) / 16 * 16 := by
  rw [atCall, Quad.toNat_and_neg_sixteen, (toNat_copies hroom).2]

/-- Only cells right below the stack pointer are written before the call. -/
theorem mem_atCall_of_not_free (hlimit : m.limit + 24 ≤ s.rsp.toNat) {a : Quad}
    (ha : ¬ m.Free s.rsp a) : (atCall s).mem a = s.mem a := by
  obtain ⟨hfirst, hsecond⟩ := toNat_copies hroom
  have hne : ∀ b : Quad, m.limit ≤ b.toNat → b.toNat < s.rsp.toNat → a ≠ b := by
    rintro b hlow hhigh rfl
    exact ha ⟨hlow, hhigh⟩
  have hmem : (atCall s).mem = Function.update (Function.update s.mem (s.rsp - 8#64) s.rsp)
    (s.rsp - 8#64 - 8#64) s.rsp := rfl
  rw [hmem, Function.update_of_ne, Function.update_of_ne]
  · exact hne _ (by omega) (by omega)
  · exact hne _ (by omega) (by omega)

/-- Behind the call, the stack pointer is read back from its copy. -/
theorem library_leave {symbol : String} (hcode : m.Holds s.pc (library symbol)) {u : State}
    (hpc : u.pc = s.pc + 4) (hu : u.rsp = (atCall s).rsp)
    (hmem : u.mem (u.rsp + 8#64) = s.rsp) :
    m.Steps u { u with pc := s.pc + 5, rsp := s.rsp } := by
  have haligned : (u.rsp + 8#64).Aligned := by
    rw [hu]
    unfold Quad.Aligned
    rw [BitVec.toNat_add, toNat_rsp_atCall hroom, BitVec.toNat_ofNat]
    omega
  have hline : m.code[u.pc]? = some (.inst (.movq (.mem 8 .rsp) .rsp)) := by
    rw [hpc]
    exact hcode.lines 4 _ rfl
  apply Machine.steps_inst hline
  simp [haligned, hpc, hmem]

include hrsp

/-- The nearer one of the copies is one cell above the aligned pointer. -/
theorem mem_atCall_copy : (atCall s).mem ((atCall s).rsp + 8#64) = s.rsp := by
  obtain ⟨hfirst, hsecond⟩ := toNat_copies hroom
  have hnear : ((atCall s).rsp + 8#64).toNat = (s.rsp.toNat - 16) / 16 * 16 + 8 := by
    have hlt := s.rsp.isLt
    rw [BitVec.toNat_add, toNat_rsp_atCall hroom, BitVec.toNat_ofNat]
    omega
  have hmem : (atCall s).mem = Function.update (Function.update s.mem (s.rsp - 8#64) s.rsp)
    (s.rsp - 8#64 - 8#64) s.rsp := rfl
  unfold Quad.Aligned at hrsp
  by_cases heven : 16 ∣ s.rsp.toNat
  · have heq : (atCall s).rsp + 8#64 = s.rsp - 8#64 := by
      rw [← BitVec.toNat_inj]
      omega
    have hne : s.rsp - 8#64 ≠ s.rsp - 8#64 - 8#64 := by
      rw [ne_eq, ← BitVec.toNat_inj]
      omega
    rw [heq, hmem, Function.update_of_ne hne, Function.update_self]
  · have heq : (atCall s).rsp + 8#64 = s.rsp - 8#64 - 8#64 := by
      rw [← BitVec.toNat_inj]
      omega
    rw [heq, hmem, Function.update_self]

end AtCall

/-- A call of `printf` emits what the format says, and keeps the stack pointer and all cells
that the C library may not use. -/
theorem printf_steps (hcode : m.Holds s.pc (library "printf@PLT")) (hrsp : s.rsp.Aligned)
    (hroom : m.limit + 24 ≤ s.rsp.toNat) (hrax : s.rax.low = 0) {event : Output}
    (hevent : m.printed s = some event) :
    ∃ s', m.Steps s s' ∧ s'.pc = s.pc + 5 ∧ s'.rbx = s.rbx ∧ s'.rsp = s.rsp ∧
      s'.out = s.out ++ [event] ∧ ∀ a, ¬ m.Free s.rsp a → s'.mem a = s.mem a := by
  have hcells : 16 ≤ s.rsp.toNat := by omega
  have hlower := toNat_rsp_atCall hcells
  obtain ⟨u, hu⟩ : ∃ u, u = { m.leave "printf@PLT" (atCall s) with out := s.out ++ [event] } :=
    ⟨_, rfl⟩
  have hkept : ∀ a, ¬ m.Free (atCall s).rsp a → u.mem a = (atCall s).mem a := by
    intro a ha
    simp [hu, Machine.leave, ha]
  have hcall : m.Steps (atCall s) u := by
    have hline : m.code[(atCall s).pc]? = some (.inst (.call "printf@PLT")) :=
      hcode.lines 3 _ rfl
    have hcond : 16 ∣ (atCall s).rsp.toNat ∧ (atCall s).rax.low = 0 :=
      ⟨by omega, hrax⟩
    have hprinted : m.printed (atCall s) = some event := hevent
    apply Machine.Steps.single
    simp only [Machine.step, hline, Machine.printf, if_pos hcond, hprinted, hu]
    rfl
  -- The saved pointer stands above the aligned one, where the library keeps every cell.
  have hcopy : u.mem (u.rsp + 8#64) = s.rsp := by
    have hhigher : ¬ m.Free (atCall s).rsp ((atCall s).rsp + 8#64) := by
      rintro ⟨-, hbelow⟩
      have hlt := s.rsp.isLt
      rw [BitVec.toNat_add, BitVec.toNat_ofNat] at hbelow
      omega
    have hrsp_u : u.rsp = (atCall s).rsp := by rw [hu]; rfl
    rw [hrsp_u, hkept _ hhigher, mem_atCall_copy hrsp hcells]
  have hleave := library_leave hcells hcode (by rw [hu]; rfl) (by rw [hu]; rfl) hcopy
  refine ⟨_, (library_enter hcode hrsp).trans (hcall.trans hleave), rfl, by rw [hu]; rfl, rfl,
    by rw [hu], ?_⟩
  intro a ha
  have hfree : ¬ m.Free (atCall s).rsp a := fun h => ha ⟨h.1, by have := h.2; omega⟩
  exact (hkept a hfree).trans (mem_atCall_of_not_free hcells hroom ha)

theorem print_steps {format : String} (hcode : m.Holds s.pc (print format)) (hrsp : s.rsp.Aligned)
    (hroom : m.limit + 24 ≤ s.rsp.toNat) {event : Output}
    (hevent : m.printed { s with rdi := m.symbols format } = some event) :
    ∃ s', m.Steps s s' ∧ s'.pc = s.pc + (print format).length ∧ s'.rbx = s.rbx ∧
      s'.rsp = s.rsp ∧ s'.out = s.out ++ [event] ∧ ∀ a, ¬ m.Free s.rsp a → s'.mem a = s.mem a := by
  obtain ⟨t, ht⟩ : ∃ t, t = { s with pc := s.pc + 2, rax := 0, rdi := m.symbols format } :=
    ⟨_, rfl⟩
  have hload : m.Steps s t := by
    have hexec : m.execAll [.leaq (.rip format) (.reg .rdi), .movl (.imm 0) .eax] s = some t := by
      simp [ht, Long.wide]
    exact Machine.steps_of_execAll hexec hcode.left
  have hcode' : m.Holds t.pc (library "printf@PLT") := by
    rw [ht]
    exact hcode.right
  have hevent' : m.printed t = some event := by
    rw [ht]
    exact hevent
  obtain ⟨s', hsteps, hpc, hrest⟩ :=
    printf_steps hcode' (by rwa [ht]) (by rwa [ht]) (by rw [ht]; rfl) hevent'
  rw [ht] at hpc hrest
  exact ⟨s', hload.trans hsteps, hpc, hrest⟩

/-- A condition is tested by its lower half. -/
theorem jumpIfZero_steps {label : String} {line : Nat} (hcode : m.Holds s.pc (jumpIfZero label))
    (htarget : m.target label = some line) :
    ∃ flags, m.Steps s { s with
      pc := if s.rax.low = 0 then line else s.pc + (jumpIfZero label).length, flags } := by
  obtain ⟨flags, hflags⟩ : ∃ flags, flags = Flags.compare s.rax.low 0 := ⟨_, rfl⟩
  have hcompare : m.Steps s { s with pc := s.pc + 1, flags := some flags } := by
    apply Machine.steps_inst (hcode.lines 0 _ rfl)
    simp [hflags]
  have hjump : m.Steps { s with pc := s.pc + 1, flags := some flags }
      { s with pc := if Cond.e.holds flags then line else s.pc + 2, flags := some flags } :=
    Machine.steps_j (hcode.lines 1 _ rfl) rfl htarget
  have hzero : (Cond.e.holds flags = true) = (s.rax.low = 0) := by
    simp [hflags, Cond.holds, Flags.compare]
  simp only [hzero] at hjump
  exact ⟨some flags, hcompare.trans hjump⟩

end Snippet

end Backend
