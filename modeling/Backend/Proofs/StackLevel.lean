import Backend.Proofs.Routine
import Backend.Proofs.StackContents

/-! # Levels of the stack

While a routine runs, the stack pointer lies below the frame base by the height of the line.
Each line leads to a state of which this holds again, a call of another function to one of which
it holds for that function, while the words are left on the stack by which the caller goes on.
-/

namespace Backend

/-! ## Heights and addresses -/

namespace Quad

/-- The height counts the bytes up to the frame base where the stack pointer does not wrap
around. -/
theorem toNat_add_of_sub_eq {base rsp rsp' : Quad} {h h' : Int}
    (hlevel : rsp.toNat + h = base.toNat) (hsub : base - rsp' = BitVec.ofInt 64 h') (hpos : 0 ≤ h')
    (hroom : h' ≤ h ∨ rsp'.toNat ≤ rsp.toNat ∧ h' - h < 0x8000_0000_0000_0000) :
    rsp'.toNat + h' = base.toNat := by
  have htoNat := congrArg BitVec.toNat hsub
  rw [BitVec.toNat_sub, BitVec.toNat_ofInt] at htoNat
  have hbase := base.isLt
  have hrsp := rsp.isLt
  have hrsp' := rsp'.isLt
  omega

theorem sub_eq_ofInt {base rsp : Quad} {h : Int} (hlevel : rsp.toNat + h = base.toNat) :
    base - rsp = BitVec.ofInt 64 h := by
  apply BitVec.eq_of_toNat_eq
  rw [BitVec.toNat_sub, BitVec.toNat_ofInt]
  have hbase := base.isLt
  have hrsp := rsp.isLt
  omega

end Quad

theorem Inst.ne_of_isTransfer {x : Inst} (h : x.isTransfer = false) :
    (∀ symbol, Line.inst x ≠ .inst (.call symbol)) ∧ Line.inst x ≠ .inst .ret := by
  constructor
  · rintro symbol ⟨⟩
    cases h
  · rintro ⟨⟩
    cases h

theorem Inst.movesFrame_of_plain {src dst : Operand}
    (h : ∀ h, (Inst.movq src dst).height h = some (h + (Inst.movq src dst).lift)) :
    dst.movesFrame = false := by
  have hzero := h 0
  have hone := h 1
  simp only [height] at hzero hone
  grind

theorem Inst.lift_of_tidy {x : Inst} (h : x.tidy = true) :
    x.lift ≤ 0 ∨ x.takesStack = true ∧ x.lift < 0x8000_0000_0000_0000 := by
  cases x with
  | addq src dst =>
      left
      cases src with
      | imm n =>
          have hpos : 0 ≤ n := by simpa using (Bool.and_eq_true_iff.mp h).2
          simp only [lift]
          split <;> omega
      | _ => simp
  | subq src dst =>
      cases src with
      | imm n =>
          have hsmall : n < 0x8000_0000_0000_0000 := by simpa using (Bool.and_eq_true_iff.mp h).2
          by_cases hdst : dst = .reg .rsp
          · subst hdst
            exact .inr ⟨rfl, by simpa using hsmall⟩
          · simp [hdst]
      | _ => simp
  | movq src dst =>
      simp only [lift]
      split <;> simp
  | pushq src => exact .inr ⟨rfl, by simp⟩
  | _ => simp

namespace Machine

variable {m : Machine} {s s' : State}

theorem writeQuad_cell {x : Operand} (hx : x.isCell = true) {v : Quad}
    (h : m.writeQuad s x v = some s') :
    ∃ a, m.address s x = some a ∧ s' = { s with mem := Function.update s.mem a v } := by
  cases x with
  | reg _ | imm _ => cases hx
  | mem disp base | rip symbol =>
      rw [writeQuad, Option.bind_eq_some_iff] at h
      obtain ⟨a, ha, hstore⟩ := h
      unfold State.store at hstore
      split at hstore <;> cases hstore
      exact ⟨a, ha, rfl⟩

/-- Writing a register that is not the frame base keeps it, and the memory. -/
theorem writeQuad_reg {x : Operand} (hx : x.isCell = false) (hrbx : x ≠ .reg .rbx) {v : Quad}
    (h : m.writeQuad s x v = some s') : s'.rbx = s.rbx ∧ s'.mem = s.mem := by
  cases x with
  | reg r =>
      cases r with
      | rbx => exact absurd rfl hrbx
      | eax | ecx | edx | esi => cases h
      | rax | rcx | rsi | rdi | rsp =>
          cases h
          exact ⟨rfl, rfl⟩
  | imm _ => cases h
  | mem _ _ | rip _ => cases hx

theorem combineQuad_reg {op : Quad → Quad → Quad} {src dst : Operand} (hdst : dst.isCell = false)
    (hrbx : dst ≠ .reg .rbx) (h : m.combineQuad s op src dst = some s') :
    s'.rbx = s.rbx ∧ s'.mem = s.mem := by
  simp only [combineQuad, Option.bind_eq_bind, Option.bind_eq_some_iff] at h
  obtain ⟨a, -, b, -, hwrite⟩ := h
  exact writeQuad_reg (s := { s with flags := none }) hdst hrbx hwrite

/-- A tidy line that stands for itself keeps the frame base, and the memory unless it pushes or
stores. -/
theorem exec_plain {x : Inst} (htidy : x.tidy = true)
    (hplain : ∀ h, x.height h = some (h + x.lift)) (h : m.exec s x = some s') :
    s'.rbx = s.rbx ∧ (s'.mem = s.mem ∨
      (∃ src v, x = .pushq src ∧ s'.mem = Function.update s.mem (s.rsp - 8#64) v) ∨
      ∃ src dst a v, x = .movq src dst ∧ m.address s dst = some a ∧
        s'.mem = Function.update s.mem a v) := by
  have hquiet (hx : x.quiet = true) : s'.rbx = s.rbx ∧ s'.mem = s.mem :=
    ⟨(exec_quiet hx h).rbx, (exec_quiet hx h).mem⟩
  have hreg {dst : Operand} (hdst : dst.movesFrame = false) : dst ≠ .reg .rbx := by
    rintro rfl
    cases hdst
  have hmoves {dst : Operand} {h h' : Int}
      (hheight : (if dst.movesFrame then none else some h) = some h') : dst ≠ .reg .rbx := by
    rintro rfl
    cases hheight
  cases x with
  | movq src dst =>
      have hdst := hreg (Inst.movesFrame_of_plain hplain)
      simp only [exec, Option.bind_eq_some_iff] at h
      obtain ⟨v, -, hwrite⟩ := h
      cases hcell : dst.isCell with
      | false => exact (writeQuad_reg hcell hdst hwrite).imp_right .inl
      | true =>
          obtain ⟨a, ha, rfl⟩ := writeQuad_cell hcell hwrite
          exact ⟨rfl, .inr (.inr ⟨src, dst, a, v, rfl, ha, rfl⟩)⟩
  | pushq src =>
      obtain ⟨v, -, -, rfl⟩ := exec_pushq h
      exact ⟨rfl, .inr (.inl ⟨src, v, rfl, rfl⟩)⟩
  | popq dst =>
      have hcell : dst.isCell = false := by simpa [Inst.tidy] using htidy
      exact (writeQuad_reg hcell (hmoves (hplain 0)) (exec_popq h)).imp_right .inl
  | leaq src dst =>
      have hcell : dst.isCell = false := by simpa [Inst.tidy] using htidy
      simp only [exec, Option.bind_eq_some_iff] at h
      obtain ⟨a, -, hwrite⟩ := h
      exact (writeQuad_reg hcell (hmoves (hplain 0)) hwrite).imp_right .inl
  | imulq src dst | andq src dst =>
      have hcell : dst.isCell = false := by simpa [Inst.tidy] using htidy
      exact (combineQuad_reg hcell (hmoves (hplain 0)) h).imp_right .inl
  | addq src dst =>
      have hcell := (Bool.and_eq_true_iff.mp htidy).1
      have hdst : dst ≠ .reg .rbx := by
        rcases Inst.height_addq (hplain 0) with ⟨n, -, rfl, -⟩ | ⟨hdst, -⟩
        · simp
        · exact hreg hdst
      exact (combineQuad_reg (by simpa using hcell) hdst h).imp_right .inl
  | subq src dst =>
      have hcell := (Bool.and_eq_true_iff.mp htidy).1
      have hdst : dst ≠ .reg .rbx := by
        rcases Inst.height_subq (hplain 0) with ⟨n, -, rfl, -⟩ | ⟨hdst, -⟩
        · simp
        · exact hreg hdst
      exact (combineQuad_reg (by simpa using hcell) hdst h).imp_right .inl
  | jmp _ | j _ _ | call _ | ret => cases h
  | _ => exact (hquiet rfl).imp_right .inl

end Machine

/-! ## Where a state stands -/

open Code (InCopy unalign restore)

variable {m : Machine} {decls : List Decl}

/-- A state is at a line of a routine that runs with a frame base. The stack pointer lies below
the base by the height of the line, up to where it is aligned for the C library, and `%rbx` has
the base, up to where a call comes back. What is known instead is the word from which each is
taken back. -/
structure Routine.At (R : Routine m decls) (i : Nat) (base : Quad) (s : State) : Prop where
  pc : s.pc = R.first + i
  line : ∃ line, R.lines[i]? = some line
  based : base.Aligned
  aligned : s.rsp.Aligned
  level : R.lines[i]? ≠ some unalign → R.lines[i + 1]? ≠ some unalign →
    s.rsp.toNat + R.height i = base.toNat
  rbx : 2 ≤ i → R.lines[i]? ≠ some restore → s.rbx = base
  saved : R.lines[i]? = some restore → s.mem s.rsp = base
  copied : R.lines[i]? = some unalign →
    (s.mem (s.rsp + 8#64)).toNat + R.height (i + 1) = base.toNat

/-- Above a frame base lie the words by which the callers go on: the line behind the call, and
the frame base of the caller, which is the height of that line above. -/
inductive Waiting (m : Machine) (decls : List Decl) (mem : Memory) : Quad → List Quad → Prop where
  | last {base : Quad} : Waiting m decls mem base []
  | called {base caller : Quad} {rest : List Quad} (R : Routine m decls) (i : Nat) :
      R.lines[i]? = some restore → mem base = BitVec.ofNat 64 (R.first + i) →
      mem (base + 8#64) = caller → base.toNat + 8 + R.height i = caller.toNat →
      Waiting m decls mem caller rest → Waiting m decls mem base (caller :: rest)

/-- A state is at a line of a routine, and the callers wait. -/
def State.Stands (m : Machine) (decls : List Decl) (base : Quad) (rest : List Quad) (s : State) :
    Prop :=
  ∃ (R : Routine m decls) (i : Nat), R.At i base s ∧ Waiting m decls s.mem base rest

namespace Waiting

variable {mem mem' : Memory} {base : Quad} {rest : List Quad}

/-- The words by which callers go on have to stay as they are. -/
theorem transfer (h : Waiting m decls mem base rest)
    (hmem : ∀ a, base.toNat ≤ a.toNat →
      (∃ b ∈ (base :: rest).dropLast, a = b ∨ a = b + 8#64) → mem' a = mem a) :
    Waiting m decls mem' base rest := by
  induction h with
  | last => exact .last
  | @called base caller rest R i hline hreturn hcaller hlevel hrest ih =>
      have hheight := (R.dvd_height i).2
      have hlt := caller.isLt
      have hnext : (base + 8#64).toNat = base.toNat + 8 := by
        rw [Quad.add_ofNat, Quad.toNat_of_lt (by unfold Word.bound; omega)]
      have hmem_base : base ∈ (base :: caller :: rest).dropLast := by simp
      refine .called R i hline ?_ ?_ hlevel (ih fun a ha hlink => ?_)
      · rw [hmem base (Nat.le_refl _) ⟨base, hmem_base, .inl rfl⟩, hreturn]
      · rw [hmem _ (by omega) ⟨base, hmem_base, .inr rfl⟩, hcaller]
      · obtain ⟨b, hb, hab⟩ := hlink
        exact hmem a (by omega) ⟨b, by simp [hb], hab⟩

/-- They lie at the frame base and above. -/
theorem of_mem_above (h : Waiting m decls mem base rest)
    (hmem : ∀ a, base.toNat ≤ a.toNat → mem' a = mem a) : Waiting m decls mem' base rest :=
  h.transfer fun a ha _ => hmem a ha

end Waiting

namespace Routine

variable {R : Routine m decls} {i : Nat} {base : Quad} {s : State} {line : Line}

theorem isTidy (R : Routine m decls) {i : Nat} {line : Line} (h : R.lines[i]? = some line) :
    line.tidy = true := by
  match i with
  | 0 | 1 =>
      cases h
      rfl
  | i + 2 => exact R.tidy.lines line (List.mem_of_getElem? h)

/-- Only calls into the C library are followed by the line that gives the stack back. -/
theorem isLibrary_of_unalign (R : Routine m decls) {i : Nat} {symbol : String}
    (h : R.lines[i]? = some (.inst (.call symbol))) (hclose : R.lines[i + 1]? = some unalign) :
    Machine.isLibrary symbol = true := by
  rcases R.copy_of_unalign hclose with ⟨k, hk, hlines⟩ | ⟨k, hk, hlines⟩
  · cases hk
    cases h.symm.trans (@Code.getElem?_of_prefix_drop _ _ k 3 _ hlines rfl)
    rfl
  · cases hk
    cases h.symm.trans (@Code.getElem?_of_prefix_drop _ _ k 7 _ hlines rfl)
    rfl

/-- Behind the first two lines. -/
theorem two_le (R : Routine m decls) {i : Nat} {line : Line} (h : R.lines[i]? = some line)
    (hlabel : ∀ name, line ≠ .label name) (hbase : line ≠ .inst (.movq (.reg .rsp) (.reg .rbx))) :
    2 ≤ i := by
  match i with
  | 0 => exact absurd (Option.some.inj h).symm (hlabel _)
  | 1 => exact absurd (Option.some.inj h).symm hbase
  | i + 2 => omega

namespace At

/-- A state that is not in a call. -/
theorem of_level (hpc : s.pc = R.first + i) (hline : R.lines[i]? = some line)
    (hunalign : line ≠ unalign) (hrestore : line ≠ restore) (hbase : base.Aligned)
    (hlevel : s.rsp.toNat + R.height i = base.toNat) (hrbx : 2 ≤ i → s.rbx = base) :
    R.At i base s where
  pc := hpc
  line := ⟨line, hline⟩
  based := hbase
  aligned := by
    have hheight := R.dvd_height i
    unfold Quad.Aligned at hbase ⊢
    omega
  level _ _ := hlevel
  rbx hi _ := hrbx hi
  saved h := absurd (Option.some.inj (hline.symm.trans h)) hrestore
  copied h := absurd (Option.some.inj (hline.symm.trans h)) hunalign

theorem code_eq (h : R.At i base s) (hline : R.lines[i]? = some line) :
    m.code[s.pc]? = some line := by
  rw [h.pc]
  exact R.holds_line hline

/-- Behind a line that is not a call, no call comes back. -/
theorem ne_of_not_call (hline : R.lines[i]? = some line)
    (hcall : ∀ symbol, line ≠ .inst (.call symbol)) {next : Line}
    (hnext : R.lines[i + 1]? = some next) : next ≠ unalign ∧ next ≠ restore := by
  have hnot (h : R.lines[i + 1]? = some unalign ∨ R.lines[i + 1]? = some restore) : False := by
    obtain ⟨symbol, hsymbol⟩ := R.call_before h
    exact hcall symbol (Option.some.inj (hline.symm.trans hsymbol))
  constructor
  · rintro rfl
    exact hnot (.inl hnext)
  · rintro rfl
    exact hnot (.inr hnext)

theorem level_of_ne (h : R.At i base s) (hline : R.lines[i]? = some line)
    (hunalign : line ≠ unalign) (hcall : ∀ symbol, line ≠ .inst (.call symbol)) :
    s.rsp.toNat + R.height i = base.toNat := by
  refine h.level ?_ fun hnext => (ne_of_not_call hline hcall hnext).1 rfl
  rw [hline]
  simpa using hunalign

theorem rbx_of_ne (h : R.At i base s) (hline : R.lines[i]? = some line) (hi : 2 ≤ i)
    (hrestore : line ≠ restore) : s.rbx = base := by
  refine h.rbx hi ?_
  rw [hline]
  simpa using hrestore

/-- Where a state is, it is in every routine that has the line. -/
theorem transfer {R R' : Routine m decls} {i i' : Nat} {base : Quad} {s : State} {line : Line}
    (h : R'.At i' base s) (hpc : s.pc = R.first + i) (hline : R.lines[i]? = some line) :
    R.At i base s := by
  obtain ⟨line', hline'⟩ := h.line
  have hsame := hpc.symm.trans h.pc
  obtain ⟨rfl, hheight⟩ := height_eq hsame hline hline'
  have hfirst : R.first = R'.first := Nat.add_right_cancel hsame
  have hlines {j : Nat} {line : Line} (hj : j < R.lines.length) (hj' : R'.lines[j]? = some line) :
      R.lines[j]? = some line := by
    rw [R.lines_eq hj, hfirst]
    exact R'.holds_line hj'
  have hlt := (List.getElem?_eq_some_iff.mp hline).1
  obtain rfl : line = line' := Option.some.inj (hline.symm.trans (hlines hlt hline'))
  have hat : R.lines[i]? = R'.lines[i]? := hline.trans hline'.symm
  refine ⟨hpc, ⟨_, hline⟩, h.based, h.aligned, fun hne hnext => ?_, fun hi hne => ?_,
    fun hrestore => ?_, fun hunalign => ?_⟩
  · rw [hheight]
    refine h.level (hat ▸ hne) fun hnext' => ?_
    obtain ⟨symbol, hsymbol⟩ := R'.call_before (.inl hnext')
    obtain ⟨next, hj⟩ := R.next_line (hat.trans hsymbol) (by simp)
    exact hnext (hlines (List.getElem?_eq_some_iff.mp hj).1 hnext')
  · exact h.rbx hi (hat ▸ hne)
  · exact h.saved (hat ▸ hrestore)
  · obtain ⟨next, hj⟩ := R.next_line hunalign (by simp)
    obtain ⟨next', hj'⟩ := R'.next_line (hat ▸ hunalign) (by simp)
    rw [(height_eq (by omega) hj hj').2]
    exact h.copied (hat ▸ hunalign)

/-- The next line, where that is no part of a call. -/
theorem forward (h : R.At i base s) (hline : R.lines[i]? = some line)
    (hcall : ∀ symbol, line ≠ .inst (.call symbol)) (hret : line ≠ .inst .ret) {s' : State}
    (hpc : s'.pc = s.pc + 1) (hlevel : s'.rsp.toNat + R.height (i + 1) = base.toNat)
    (hrbx : 1 ≤ i → s'.rbx = base) : R.At (i + 1) base s' := by
  obtain ⟨next, hnext⟩ := R.next_line hline hret
  obtain ⟨hunalign, hrestore⟩ := ne_of_not_call hline hcall hnext
  refine of_level ?_ hnext hunalign hrestore h.based hlevel fun hi => hrbx (by omega)
  rw [hpc, h.pc, Nat.add_assoc]

theorem step_label (h : R.At i base s) {name : String} (hline : R.lines[i]? = some (.label name)) :
    R.At (i + 1) base s.next := by
  have hlevel := h.level_of_ne hline (by simp) (by simp)
  refine h.forward hline (by simp) (by simp) rfl ?_ fun hi => ?_
  · rw [R.height_succ hline (by simp) (by simp)]
    simpa [State.next] using hlevel
  · match i with
    | 0 => cases hi
    | 1 => cases hline
    | i + 2 => exact h.rbx_of_ne hline (by omega) (by simp)

theorem step_skip (h : R.At i base s) {cond : Cond} {label : String}
    (hline : R.lines[i]? = some (.inst (.j cond label))) : R.At (i + 1) base s.next := by
  have hlevel := h.level_of_ne hline (by simp) (by simp)
  have hrbx := h.rbx_of_ne hline (R.two_le hline (by simp) (by simp)) (by simp)
  refine h.forward hline (by simp) (by simp) rfl ?_ fun _ => hrbx
  rw [R.height_succ hline (by simp) (by simp)]
  simpa [State.next] using hlevel

/-- A line that stands for itself moves the stack pointer by what it lifts the height. -/
theorem step_plain (h : R.At i base s) {x : Inst} (hline : R.lines[i]? = some (.inst x))
    (hx : x.isTransfer = false) (hi : 2 ≤ i) (hplain : ∀ h, x.height h = some (h + x.lift))
    {s' : State} (hexec : m.exec s x = some s')
    (hroom : x.takesStack = true → s'.rsp.toNat ≤ s.rsp.toNat) : R.At (i + 1) base s'.next := by
  obtain ⟨hcall, hret⟩ := Inst.ne_of_isTransfer hx
  have hunalign : Line.inst x ≠ unalign := by
    rintro ⟨⟩
    cases hplain 0
  have hrestore : Line.inst x ≠ restore := by
    rintro ⟨⟩
    cases hplain 0
  have hleave : Line.inst x ≠ Code.leave := by
    rintro ⟨⟩
    cases hplain 1
  have hlevel := h.level_of_ne hline hunalign hcall
  have hrbx := h.rbx_of_ne hline hi hrestore
  obtain ⟨hrbx', -⟩ := Machine.exec_plain (R.isTidy hline) hplain hexec
  have hheight : R.height (i + 1) = R.height i + x.lift := R.height_succ hline hret hleave
  have hsub : base - s'.rsp = BitVec.ofInt 64 (R.height i + x.lift) := by
    have hstart : s.height = BitVec.ofInt 64 (R.height i) := by
      rw [State.height, hrbx]
      exact Quad.sub_eq_ofInt hlevel
    have hend := Machine.exec_height (hplain _) hexec hstart
    rwa [State.height, hrbx', hrbx] at hend
  refine h.forward hline hcall hret ?_ ?_ fun _ => hrbx'.trans hrbx
  · rw [State.next, Machine.pc_of_exec hexec]
  rw [hheight]
  refine Quad.toNat_add_of_sub_eq hlevel hsub (hheight ▸ (R.dvd_height _).2) ?_
  rcases Inst.lift_of_tidy (R.isTidy hline) with hlift | ⟨htakes, hlift⟩
  · exact .inl (by omega)
  · exact .inr ⟨hroom htakes, by omega⟩

theorem step_exec (h : R.At i base s) {x : Inst} (hline : R.lines[i]? = some (.inst x))
    (hx : x.isTransfer = false) {s' : State} (hexec : m.exec s x = some s')
    (hroom : x.takesStack = true → s'.rsp.toNat ≤ s.rsp.toNat) : R.At (i + 1) base s'.next := by
  obtain ⟨hcall, hret⟩ := Inst.ne_of_isTransfer hx
  have hpc : s'.next.pc = s.pc + 1 := by
    rw [State.next, Machine.pc_of_exec hexec]
  cases R.role hline hx with
  | enter hi hx =>
      subst hi hx
      cases hexec
      have hlevel : (s.rsp.toNat : Int) + 0 = base.toNat := h.level_of_ne hline (by simp) hcall
      have hheight : R.height 2 = 0 := R.height_succ hline hret (by simp)
      refine h.forward hline hcall hret hpc ?_ fun _ => ?_
      · rw [hheight]
        exact hlevel
      · change s.rsp = base
        exact BitVec.eq_of_toNat_eq (by omega)
  | plain hi hplain => exact h.step_plain hline hx hi hplain hexec hroom
  | leave hx hnext =>
      cases hx
      have hrbx := h.rbx_of_ne hline (R.two_le hline (by simp) (by simp)) (by simp)
      cases hexec
      refine h.forward hline hcall hret hpc ?_ fun _ => hrbx
      rw [R.height_ret hnext, Int.add_zero]
      exact congrArg (fun a : Quad => (a.toNat : Int)) hrbx
  | align symbol hlines =>
      obtain ⟨k, rfl, hlines⟩ := hlines
      have hcode {d : Nat} {line : Line} := @Code.getElem?_of_prefix_drop _ _ k d line hlines
      cases hline.symm.trans (@hcode 2 _ rfl)
      have hrbx := h.rbx_of_ne hline (by omega) (by simp)
      have hnext : R.lines[k + 2 + 1]? = some (.inst (.call symbol)) := @hcode 3 _ rfl
      have hclose : R.lines[k + 2 + 1 + 1]? = some unalign := @hcode 4 _ rfl
      cases hexec
      refine ⟨by rw [hpc, h.pc]; rfl, ⟨_, hnext⟩, h.based, ?_, fun _ hne => absurd hclose hne,
        fun _ _ => hrbx, by simp [hnext], by simp [hnext]⟩
      change 8 ∣ (s.rsp &&& BitVec.ofInt 64 (-16)).toNat
      rw [Quad.toNat_and_neg_sixteen]
      omega
  | unalign hx =>
      cases hx
      have hrbx := h.rbx_of_ne hline (R.two_le hline (by simp) (by simp)) (by simp)
      have hcopied := h.copied hline
      simp only [Machine.exec, Option.bind_eq_some_iff] at hexec
      obtain ⟨v, hread, hwrite⟩ := hexec
      cases Machine.readQuad_rsp hread
      cases hwrite
      exact h.forward hline hcall hret hpc hcopied fun _ => hrbx
  | restore hx =>
      cases hx
      have hlevel := h.level_of_ne hline (by simp) hcall
      have hheight : R.height (i + 1) = R.height i - 8 := R.height_succ hline hret (by simp)
      have hpos := (R.dvd_height (i + 1)).2
      have hlt := base.isLt
      cases Machine.exec_popq hexec
      refine h.forward hline hcall hret hpc ?_ fun _ => h.saved hline
      have hdrop : (s.rsp + 8#64).toNat = s.rsp.toNat + 8 := by
        rw [Quad.add_ofNat, Quad.toNat_of_lt (by unfold Word.bound; omega)]
      change ((s.rsp + 8#64).toNat : Int) + _ = _
      omega

/-- What a line writes is below the frame base, or is a store of the source program. -/
theorem waiting_exec (h : R.At i base s) {x : Inst} (hline : R.lines[i]? = some (.inst x))
    (hx : x.isTransfer = false) {s' : State} (hexec : m.exec s x = some s')
    (hroom : x.takesStack = true → s'.rsp.toNat ≤ s.rsp.toNat) {rest : List Quad}
    (hspares : ∀ src dst a, x = .movq src dst → m.address s dst = some a →
      ∀ b ∈ (base :: rest).dropLast, a ≠ b ∧ a ≠ b + 8#64)
    (hwaiting : Waiting m decls s.mem base rest) : Waiting m decls s'.mem base rest := by
  cases R.role hline hx with
  | enter hi hx | leave hx hnext =>
      cases hx
      cases hexec
      exact hwaiting
  | align symbol hlines =>
      obtain ⟨k, rfl, hlines⟩ := hlines
      cases hline.symm.trans (@Code.getElem?_of_prefix_drop _ _ k 2 _ hlines rfl)
      cases hexec
      exact hwaiting
  | unalign hx =>
      cases hx
      simp only [Machine.exec, Option.bind_eq_some_iff] at hexec
      obtain ⟨v, -, hwrite⟩ := hexec
      cases hwrite
      exact hwaiting
  | restore hx =>
      cases hx
      cases Machine.exec_popq hexec
      exact hwaiting
  | plain hi hplain =>
      obtain ⟨-, hmem | ⟨src, v, rfl, hmem⟩ | ⟨src, dst, a, v, rfl, ha, hmem⟩⟩ :=
        Machine.exec_plain (R.isTidy hline) hplain hexec
      · rwa [hmem]
      · have hlevel := h.level_of_ne hline (by simp) (by simp)
        have hpos := (R.dvd_height i).2
        have htake : (s.rsp - 8#64).toNat + 8 = s.rsp.toNat := by
          obtain ⟨_, -, -, hs'⟩ := Machine.exec_pushq hexec
          have hless := hroom rfl
          rw [hs'] at hless
          exact Quad.toNat_add_of_sub_le (by decide) hless
        refine hwaiting.of_mem_above fun b hb => ?_
        rw [hmem]
        refine Function.update_of_ne ?_ _ _
        rintro rfl
        omega
      · refine hwaiting.transfer fun b _ hlink => ?_
        obtain ⟨link, hmem_link, hb⟩ := hlink
        obtain ⟨hne, hne'⟩ := hspares src dst a rfl ha link hmem_link
        rw [hmem]
        refine Function.update_of_ne ?_ _ _
        rintro rfl
        exact hb.elim hne hne'

/-- A jump stays in the routine, at the same height. -/
theorem step_jump (h : R.At i base s) (hline : R.lines[i]? = some line) {label : String}
    (htarget : line.target? = some label) :
    ∃ j, m.target label = some (R.first + j) ∧ R.At j base { s with pc := R.first + j } := by
  obtain ⟨j, hj, hline', hheight⟩ := R.jump hline htarget
  have hcall : ∀ symbol, line ≠ .inst (.call symbol) := by
    rintro symbol rfl
    cases htarget
  have hunalign : line ≠ unalign := by
    rintro rfl
    cases htarget
  refine ⟨j + 2, hline', of_level rfl hj (by simp) (by simp) h.based ?_ fun _ => ?_⟩
  · rw [hheight]
    exact h.level_of_ne hline hunalign hcall
  · refine h.rbx_of_ne hline (R.two_le hline ?_ ?_) ?_
    · rintro name rfl
      cases htarget
    · rintro rfl
      cases htarget
    · rintro rfl
      cases htarget

/-- A return leads to the line behind the call of the caller that waits. -/
theorem step_ret (h : R.At i base s) (hline : R.lines[i]? = some (.inst .ret))
    (hlines : m.code.length < Word.bound) {caller : Quad} {rest : List Quad}
    (hwaiting : Waiting m decls s.mem base (caller :: rest)) :
    ∃ (R' : Routine m decls) (j : Nat), R'.lines[j]? = some restore ∧
      R'.At j caller { s with pc := (s.mem s.rsp).toNat, rsp := s.rsp + 8#64 } ∧
      Waiting m decls s.mem caller rest := by
  have hlevel := h.level_of_ne hline (by simp) (by simp)
  rw [R.height_ret hline, Int.add_zero] at hlevel
  obtain rfl : s.rsp = base := BitVec.eq_of_toNat_eq (Int.ofNat.inj hlevel)
  cases hwaiting with
  | called R' j hrestore hreturn hcaller hheight hrest =>
      have hpos := (R'.dvd_height j)
      have hbase := h.based
      have hlt := caller.isLt
      have hdrop : (s.rsp + 8#64).toNat = s.rsp.toNat + 8 := by
        rw [Quad.add_ofNat, Quad.toNat_of_lt (by unfold Word.bound; omega)]
      have hpc : (s.mem s.rsp).toNat = R'.first + j := by
        have hbound := (List.getElem?_eq_some_iff.mp (R'.holds_line hrestore)).1
        rw [hreturn, Quad.toNat_of_lt (by omega)]
      unfold Quad.Aligned at hbase
      refine ⟨R', j, hrestore, ⟨hpc, ⟨_, hrestore⟩, ?_, ?_, fun _ _ => ?_, fun _ hne => ?_,
        fun _ => hcaller, by simp [hrestore]⟩, hrest⟩
      · unfold Quad.Aligned
        omega
      · exact Quad.aligned_add_eight hbase
      · change ((s.rsp + 8#64).toNat : Int) + _ = _
        omega
      · exact absurd hrestore hne

end At

end Routine

end Backend
