import Backend.Proofs.StackLevel
import Backend.Proofs.VariableStores

/-! # Calls into the C library

Wherever a run comes to a call into the C library, the stack pointer is a multiple of 16, and
the lines around the call leave the stack as they found it. This follows from the heights of
the lines: the stack pointer lies below the frame base by the height of the line, in the
function that runs and in each one that waits for a call to return.
-/

namespace Backend

namespace Machine

/-! ## Invocations in progress -/

theorem map_base_note (s : State) (calls : List Invocation) :
    (note s calls).map Invocation.base = calls.map Invocation.base := by
  cases calls <;> rfl

namespace Goes

variable {m : Machine} {c c' : Tracked} {line : Line}

theorem bases_eq (h : m.Goes c c') (hline : m.code[c.state.pc]? = some line)
    (hcall : ∀ symbol, line = .inst (.call symbol) → isLibrary symbol = true)
    (hret : line ≠ .inst .ret) : c'.bases = c.bases := by
  unfold Tracked.bases
  rw [h.calls, track_eq_note hline hcall hret, map_base_note]

theorem bases_call (h : m.Goes c c') {symbol : String}
    (hline : m.code[c.state.pc]? = some (.inst (.call symbol)))
    (hsymbol : isLibrary symbol = false) : c'.bases = c'.state.rsp :: c.bases := by
  unfold Tracked.bases
  rw [h.calls, track, hline]
  simp [hsymbol, map_base_note]

theorem bases_ret (h : m.Goes c c') (hline : m.code[c.state.pc]? = some (.inst .ret)) :
    c'.bases = c.bases.tail := by
  unfold Tracked.bases
  rw [h.calls, track, hline, List.map_tail]

end Goes

end Machine

/-! ## Where a run stands -/

open Code (InCopy unalign restore)

variable {m : Machine} {decls : List Decl}

/-- A run stands at a line of a routine, and the callers wait. -/
def Tracked.Sound (m : Machine) (decls : List Decl) (c : Tracked) : Prop :=
  ∀ base rest, c.bases = base :: rest → c.state.Stands m decls base rest

theorem Machine.label_of_target {label : String} {k : Nat} (h : m.target label = some k) :
    m.code[k]? = some (.label label) := by
  obtain ⟨hlt, hline, -⟩ := List.findIdx?_eq_some_iff_getElem.mp h
  rw [List.getElem?_eq_getElem hlt, eq_of_beq hline]

theorem Tracked.Sound.at_line {c : Tracked} (h : c.Sound m decls) {base : Quad} {rest : List Quad}
    (hbases : c.bases = base :: rest) {R : Routine m decls} {i : Nat} {line : Line}
    (hpc : c.state.pc = R.first + i) (hline : R.lines[i]? = some line) : R.At i base c.state := by
  obtain ⟨R', i', hat, -⟩ := h base rest hbases
  exact hat.transfer hpc hline

namespace Machine.Goes

variable {c c' : Tracked}

/-- Behind an instruction that goes on there, unless at a label, control comes from the
instruction. -/
theorem pc_before (h : m.Goes c c') (hlisted : m.Listed decls) (hsound : c.Sound m decls)
    (hbusy : c'.bases ≠ []) {k : Nat} {x : Inst} (hpc : c'.state.pc = k + 1)
    (hx : m.code[k]? = some (.inst x)) (htransfer : x.isTransfer = false)
    (hlabel : ∀ name, m.code[k + 1]? ≠ some (.label name)) : c.state.pc = k := by
  obtain ⟨base, rest, hbases⟩ := Tracked.exists_bases h.busy
  obtain ⟨R, i, hat, hwaiting⟩ := hsound base rest hbases
  obtain ⟨line, hline⟩ := hat.line
  have hcode := hat.code_eq hline
  have hlanded {label : String} {line : Nat} (htarget : m.target label = some line)
      (hstate : c'.state.pc = line) : False := by
    rw [← hstate, hpc] at htarget
    exact hlabel label (label_of_target htarget)
  cases line with
  | segment _ | text | global _ | comm _ _ | string _ _ =>
      have hstep := h.step_of_line hcode (by simp)
      simp [Machine.step, hcode] at hstep
  | label name =>
      have hstep := h.step_of_line hcode (by simp)
      rw [Machine.step, hcode] at hstep
      rw [← Option.some.inj hstep] at hpc
      exact Nat.succ.inj hpc
  | inst y =>
      cases y with
      | jmp label =>
          obtain ⟨j, htarget, -⟩ := hat.step_jump hline rfl
          have hstate := step_jmp hcode htarget (h.step_of_line hcode (by simp))
          exact (hlanded htarget (by rw [hstate])).elim
      | j cond label =>
          obtain ⟨j, htarget, -⟩ := hat.step_jump hline rfl
          rcases step_j hcode htarget (h.step_of_line hcode (by simp)) with hstate | hstate
          · exact (hlanded htarget (by rw [hstate])).elim
          · rw [hstate] at hpc
            exact Nat.succ.inj hpc
      | call symbol =>
          cases hsymbol : isLibrary symbol with
          | true =>
              rw [(h.library ⟨symbol, hcode, hsymbol⟩).pc] at hpc
              exact Nat.succ.inj hpc
          | false =>
              have hstep := h.step_of_line hcode (by simp [hsymbol])
              obtain ⟨entry, htarget, hstate⟩ := step_call hcode hsymbol hstep
              exact (hlanded htarget (by rw [hstate])).elim
      | ret =>
          have hstate := step_ret hcode (h.step_of_line hcode (by simp))
          have hbases' := h.bases_ret hcode
          rw [hbases] at hbases'
          cases rest with
          | nil => exact absurd hbases' hbusy
          | cons caller rest =>
              -- A return leads behind a call, which is a transfer.
              obtain ⟨R', j, hrestore, hat', -⟩ := hat.step_ret hline hlisted.lines hwaiting
              rw [← hstate] at hat'
              have hplace := hat'.pc.symm.trans hpc
              cases j with
              | zero => cases hrestore
              | succ j =>
                  obtain ⟨symbol, hsymbol⟩ := R'.call_before (.inr hrestore)
                  obtain rfl : R'.first + j = k := by omega
                  cases hx.symm.trans (R'.holds_line hsymbol)
                  cases htransfer
      | _ =>
          obtain ⟨s₁, hexec, hstate⟩ := exec_of_step hcode rfl (h.step_of_line hcode (by simp))
          rw [hstate, State.next, pc_of_exec hexec] at hpc
          exact Nat.succ.inj hpc

end Machine.Goes

namespace Machine.Ran

section Back

variable {start : Tracked} (hlisted : m.Listed decls)
  (hstart : ∃ name, m.code[start.state.pc]? = some (.label name)) {c : Tracked}
  {past : List Tracked} (hsound : ∀ c ∈ past, c.Sound m decls) {base : Quad} {rest : List Quad}
include hlisted hstart hsound

/-- The step before a line that control falls into. -/
theorem back (h : m.Ran m.Spares start (c :: past)) (hbases : c.bases = base :: rest)
    {R : Routine m decls} {i : Nat} {x y : Inst} (hpc : c.state.pc = R.first + (i + 1))
    (hx : R.lines[i]? = some (.inst x)) (htransfer : x.isTransfer = false)
    (hy : R.lines[i + 1]? = some (.inst y)) :
    ∃ c₀ past' s₁, past = c₀ :: past' ∧ m.Ran m.Spares start (c₀ :: past') ∧ m.Goes c₀ c ∧
      c₀.bases = base :: rest ∧ R.At i base c₀.state ∧ m.exec c₀.state x = some s₁ ∧
      c.state = s₁.next := by
  have hline := R.holds_line hx
  have hnext := R.holds_line hy
  cases h with
  | start =>
      obtain ⟨name, hname⟩ := hstart
      rw [hpc, hnext] at hname
      cases hname
  | @goes c₀ _ past hran _ hgoes =>
      have hsound₀ := hsound c₀ List.mem_cons_self
      have hpc₀ : c₀.state.pc = R.first + i :=
        hgoes.pc_before hlisted hsound₀ (by simp [hbases]) hpc hline htransfer
          fun name hlabel => by cases hnext.symm.trans hlabel
      have hcode : m.code[c₀.state.pc]? = some (.inst x) := by rw [hpc₀, hline]
      obtain ⟨hcall, hret⟩ := Inst.ne_of_isTransfer htransfer
      have hbases₀ : c₀.bases = base :: rest := by
        rw [← hbases, hgoes.bases_eq hcode (fun symbol h => absurd h (hcall symbol)) hret]
      obtain ⟨s₁, hexec, hstate⟩ := exec_of_step hcode htransfer
        (hgoes.step_of_line hcode fun symbol h => absurd h (hcall symbol))
      exact ⟨c₀, past, s₁, rfl, hran, hgoes, hbases₀, hsound₀.at_line hbases₀ hpc₀ hx, hexec,
        hstate⟩

/-- At the call of a function the frame base is on top of the stack. -/
theorem saved_at_call (h : m.Ran m.Spares start (c :: past)) (hbases : c.bases = base :: rest)
    {R : Routine m decls} {i : Nat} (hat : R.At i base c.state) {symbol : String}
    (hcopy : InCopy (Snippet.call symbol) 1 R.lines i) : c.state.mem c.state.rsp = base := by
  obtain ⟨k, rfl, hlines⟩ := hcopy
  have hpush := @Code.getElem?_of_prefix_drop _ _ k 0 _ hlines rfl
  have hcall := @Code.getElem?_of_prefix_drop _ _ k 1 _ hlines rfl
  obtain ⟨c₀, _, s₁, -, -, -, -, hat₀, hexec, hstate⟩ :=
    h.back hlisted hstart hsound hbases hat.pc hpush rfl hcall
  have hrbx := hat₀.rbx_of_ne hpush (R.two_le hpush (by simp) (by simp)) (by simp)
  obtain ⟨v, hv, -, rfl⟩ := exec_pushq hexec
  cases hv
  rw [hstate, ← hrbx]
  exact Function.update_self _ _ _

/-- The call into the C library is come to by the three lines before it. -/
theorem before_library (h : m.Ran m.Spares start (c :: past)) (hbases : c.bases = base :: rest)
    {R : Routine m decls} {k : Nat} (hat : R.At (k + 3) base c.state) {symbol : String}
    (hlines : Snippet.library symbol <+: R.lines.drop k) :
    ∃ c₂ c₁ c₀ past', past = c₂ :: c₁ :: c₀ :: past' ∧ m.Ran m.Spares start (c₀ :: past') ∧
      (∀ c ∈ past', c.Sound m decls) ∧ c₀.bases = base :: rest ∧ R.At k base c₀.state ∧
      16 ≤ c₀.state.rsp.toNat ∧ c.state = Snippet.atCall c₀.state := by
  have hline {d : Nat} {line : Line} := @Code.getElem?_of_prefix_drop _ _ k d line hlines
  obtain ⟨c₂, past₂, s₃, rfl, hran₂, -, hbases₂, hat₂, hand, hstate⟩ :=
    h.back hlisted hstart hsound hbases hat.pc (@hline 2 _ rfl) rfl (@hline 3 _ rfl)
  obtain ⟨-, hsound₂⟩ := List.forall_mem_cons.mp hsound
  obtain ⟨c₁, past₁, s₂, rfl, hran₁, hgoes₁, hbases₁, hat₁, hpush, hstate₂⟩ :=
    hran₂.back hlisted hstart hsound₂ hbases₂ hat₂.pc (@hline 1 _ rfl) rfl (@hline 2 _ rfl)
  obtain ⟨-, hsound₁⟩ := List.forall_mem_cons.mp hsound₂
  obtain ⟨c₀, past₀, s₁, rfl, hran₀, hgoes₀, hbases₀, hat₀, hcopy, hstate₁⟩ :=
    hran₁.back hlisted hstart hsound₁ hbases₁ hat₁.pc (@hline 0 _ rfl) rfl (@hline 1 _ rfl)
  obtain ⟨-, hsound₀⟩ := List.forall_mem_cons.mp hsound₁
  refine ⟨c₂, c₁, c₀, past₀, rfl, hran₀, hsound₀, hbases₀, hat₀, ?_, ?_⟩
  · have hroom₀ := hgoes₀.room _ (hat₀.code_eq (@hline 0 _ rfl)) rfl
    have hroom₁ := hgoes₁.room _ (hat₁.code_eq (@hline 1 _ rfl)) rfl
    have hrsp₁ : c₁.state.rsp = c₀.state.rsp - 8#64 := by
      obtain ⟨_, -, -, rfl⟩ := exec_pushq hcopy
      rw [hstate₁]
      rfl
    have hrsp₂ : c₂.state.rsp = c₁.state.rsp - 8#64 := by
      obtain ⟨_, -, -, rfl⟩ := exec_pushq hpush
      rw [hstate₂]
      rfl
    rw [hrsp₁] at hroom₀
    rw [hrsp₂] at hroom₁
    have htake₀ := Quad.toNat_add_of_sub_le (by decide) hroom₀
    have htake₁ := Quad.toNat_add_of_sub_le (by decide) hroom₁
    rw [hrsp₁] at htake₁
    omega
  · have hexec : m.execAll [.pushq .rsp, .pushq .top, .andq (.imm (-16)) .rsp] c₀.state =
        some c.state := by
      simp only [execAll, hcopy, Option.bind_some, ← hstate₁, hpush, ← hstate₂, hand, ← hstate]
    exact Option.some.inj (hexec.symm.trans (Snippet.execAll_atCall hat₀.aligned))

/-- What is read is stored to a cell below the frame base, on top of the stack. -/
theorem cell_of_readInt (h : m.Ran m.Spares start (c :: past)) (hbases : c.bases = base :: rest)
    {R : Routine m decls} {k : Nat} (hat : R.At (k + 4) base c.state)
    (hlines : Snippet.readInt <+: R.lines.drop k) :
    c.state.rsi = c.state.rsp ∧ c.state.rsp.toNat + 8 ≤ base.toNat := by
  have hline {d : Nat} {line : Line} := @Code.getElem?_of_prefix_drop _ _ k d line hlines
  obtain ⟨c₂, past₂, s₃, rfl, hran₂, -, hbases₂, hat₂, hzero, hstate⟩ :=
    h.back hlisted hstart hsound hbases hat.pc (@hline 3 _ rfl) rfl (@hline 4 _ rfl)
  obtain ⟨-, hsound₂⟩ := List.forall_mem_cons.mp hsound
  obtain ⟨c₁, past₁, s₂, rfl, hran₁, -, hbases₁, hat₁, hformat, hstate₂⟩ :=
    hran₂.back hlisted hstart hsound₂ hbases₂ hat₂.pc (@hline 2 _ rfl) rfl (@hline 3 _ rfl)
  obtain ⟨-, hsound₁⟩ := List.forall_mem_cons.mp hsound₂
  obtain ⟨c₀, past₀, s₁, rfl, -, -, -, -, haim, hstate₁⟩ :=
    hran₁.back hlisted hstart hsound₁ hbases₁ hat₁.pc (@hline 1 _ rfl) rfl (@hline 2 _ rfl)
  constructor
  · cases hzero
    cases hformat
    cases haim
    rw [hstate, hstate₂, hstate₁]
    rfl
  · have hlevel := hat.level_of_ne (@hline 4 _ rfl) (by simp) (by simp)
    have hpos := (R.dvd_height k).2
    have hheight₁ : R.height (k + 1) = R.height k + 8 :=
      R.height_succ (@hline 0 _ rfl) (by simp) (by simp)
    have hheight₂ : R.height (k + 2) = R.height (k + 1) + 0 :=
      R.height_succ (@hline 1 _ rfl) (by simp) (by simp [Operand.rsi, Operand.rsp])
    have hheight₃ : R.height (k + 3) = R.height (k + 2) + 0 :=
      R.height_succ (@hline 2 _ rfl) (by simp) (by simp)
    have hheight₄ : R.height (k + 4) = R.height (k + 3) + 0 :=
      R.height_succ (@hline 3 _ rfl) (by simp) (by simp)
    omega

/-- The cell that `scanf` is given is the one on top of the stack before the call. -/
theorem given_cell (h : m.Ran m.Spares start (c :: past)) (hbases : c.bases = base :: rest)
    {R : Routine m decls} {k : Nat} (hat : R.At k base c.state) {symbol : String}
    (hlines : Snippet.library symbol <+: R.lines.drop k) {a : Quad}
    (ha : m.Given (Snippet.atCall c.state) a) :
    a = c.state.rsp ∧ a.toNat + 8 ≤ base.toNat := by
  have hline {d : Nat} {line : Line} := @Code.getElem?_of_prefix_drop _ _ k d line hlines
  obtain ⟨hcall, rfl, -⟩ := ha
  have hsymbol : m.code[c.state.pc + 3]? = some (.inst (.call symbol)) := by
    rw [hat.pc, Nat.add_assoc]
    exact R.holds_line (@hline 3 _ rfl)
  rcases R.copy_of_unalign (@hline 4 _ rfl) with ⟨j, hj, hprint⟩ | ⟨j, hj, hread⟩
  · obtain rfl : k = j := by omega
    cases (@hline 3 _ rfl).symm.trans (@Code.getElem?_of_prefix_drop _ _ k 3 _ hprint rfl)
    exact absurd (hsymbol.symm.trans hcall) (by simp)
  · obtain rfl : k = j + 4 := by omega
    obtain ⟨hrsi, hbelow⟩ := h.cell_of_readInt hlisted hstart hsound hbases hat hread
    exact ⟨hrsi, by rw [← hrsi] at hbelow; exact hbelow⟩

/-- What a sequence around a call into the C library does, given that the call keeps what it has
to: the stack is aligned for the call, and left as it was before. -/
theorem library_call (h : m.Ran m.Spares start (c :: past)) (hbases : c.bases = base :: rest)
    {R : Routine m decls} {k : Nat} (hat : R.At k base c.state) {symbol : String}
    (hlines : Snippet.library symbol <+: R.lines.drop k) (hroom : 16 ≤ c.state.rsp.toNat)
    {s : State} (hreturned : m.Returned (Snippet.atCall c.state) s) :
    s.mem (s.rsp + 8#64) = c.state.rsp ∧
      ∀ a, c.state.rsp.toNat ≤ a.toNat → ¬ m.Given (Snippet.atCall c.state) a →
        s.mem a = c.state.mem a := by
  have hlower := Snippet.toNat_rsp_atCall hroom
  obtain ⟨hfirst, hsecond⟩ := Snippet.toNat_copies hroom
  have hlt := c.state.rsp.isLt
  constructor
  · have hnear : (s.rsp + 8#64).toNat = (Snippet.atCall c.state).rsp.toNat + 8 := by
      rw [hreturned.rsp, Quad.add_ofNat, Quad.toNat_of_lt (by unfold Word.bound; omega)]
    rw [hreturned.mem _ (by omega), hreturned.rsp, Snippet.mem_atCall_copy hat.aligned hroom]
    intro hgiven
    have hcell := (h.given_cell hlisted hstart hsound hbases hat hlines hgiven).1
    have htoNat := congrArg BitVec.toNat hcell
    omega
  · intro a ha hgiven
    rw [hreturned.mem a (by omega) hgiven]
    change Function.update (Function.update _ _ _) _ _ a = _
    rw [Function.update_of_ne, Function.update_of_ne]
    · rintro rfl
      omega
    · rintro rfl
      omega

/-- A call that names a library function comes back to the next line. -/
theorem stands_library (h : m.Ran m.Spares start (c :: past)) (hbases : c.bases = base :: rest)
    {R : Routine m decls} {i : Nat} (hat : R.At i base c.state)
    (hwaiting : Waiting m decls c.state.mem base rest) {symbol : String}
    (hline : R.lines[i]? = some (.inst (.call symbol))) {s : State}
    (hreturned : m.Returned c.state s) : s.Stands m decls base rest := by
  have hrbx := hat.rbx_of_ne hline (R.two_le hline (by simp) (by simp)) (by simp)
  have hpos := (R.dvd_height i).2
  have hpc : s.pc = R.first + (i + 1) := by
    rw [hreturned.pc, hat.pc, Nat.add_assoc]
  rcases R.copy_of_call hline with hcopy | ⟨k, rfl, hlines⟩
  · -- A function of the program can have the name, too.
    have hsaved := h.saved_at_call hlisted hstart hsound hbases hat hcopy
    obtain ⟨k, rfl, hlines⟩ := hcopy
    have hnext : R.lines[k + 1 + 1]? = some restore :=
      @Code.getElem?_of_prefix_drop _ _ k 2 _ hlines rfl
    have hgiven : ∀ a, ¬ m.Given c.state a := by
      rintro a ⟨-, -, hclose⟩
      rw [hat.pc, Nat.add_assoc, R.holds_line hnext] at hclose
      cases hclose
    have hlevel := hat.level (by simp [hline]) (by simp [hnext])
    have hheight : R.height (k + 1 + 1) = R.height (k + 1) + 0 :=
      R.height_succ hline (by simp) (by simp)
    refine ⟨R, k + 1 + 1, ⟨hpc, ⟨_, hnext⟩, hat.based, ?_, fun _ _ => ?_, fun _ hne => ?_,
      fun _ => ?_, by simp [hnext]⟩, hwaiting.of_mem_above fun a ha => ?_⟩
    · rw [hreturned.rsp]
      exact hat.aligned
    · rw [hreturned.rsp]
      omega
    · exact absurd hnext hne
    · rw [hreturned.rsp, hreturned.mem _ (Nat.le_refl _) (hgiven _), hsaved]
    · exact hreturned.mem a (by omega) (hgiven a)
  · obtain ⟨c₂, c₁, c₀, past', rfl, hran, hsound₀, hbases₀, hat₀, hroom, hstate⟩ :=
      h.before_library hlisted hstart hsound hbases hat hlines
    have hnext : R.lines[k + 3 + 1]? = some unalign :=
      @Code.getElem?_of_prefix_drop _ _ k 4 _ hlines rfl
    have hlevel := hat₀.level_of_ne (@Code.getElem?_of_prefix_drop _ _ k 0 _ hlines rfl) (by simp)
      (by simp)
    have hpos₀ := (R.dvd_height k).2
    have hlower := Snippet.toNat_rsp_atCall hroom
    rw [hstate] at hreturned hwaiting
    obtain ⟨hcopied, -⟩ :=
      hran.library_call hlisted hstart hsound₀ hbases₀ hat₀ hlines hroom hreturned
    refine ⟨R, k + 3 + 1, ⟨hpc, ⟨_, hnext⟩, hat.based, ?_, fun hne _ => absurd hnext hne,
      fun _ _ => ?_, by simp [hnext], fun _ => ?_⟩, hwaiting.of_mem_above fun a ha => ?_⟩
    · rw [hreturned.rsp, ← hstate]
      exact hat.aligned
    · rw [hreturned.rbx, ← hstate, hrbx]
    · rw [hcopied, R.height_library hlines, hlevel]
    · refine hreturned.mem a (by omega) fun hgiven => ?_
      have hbelow := (hran.given_cell hlisted hstart hsound₀ hbases₀ hat₀ hlines hgiven).2
      omega

/-- The call of a function leads to its routine, and the caller waits. -/
theorem stands_call (h : m.Ran m.Spares start (c :: past)) (hbases : c.bases = base :: rest)
    {R : Routine m decls} {i : Nat} (hat : R.At i base c.state)
    (hwaiting : Waiting m decls c.state.mem base rest) {symbol : String}
    (hline : R.lines[i]? = some (.inst (.call symbol))) (hsymbol : isLibrary symbol = false)
    {c' : Tracked} (hgoes : m.Goes c c') :
    c'.state.Stands m decls c'.state.rsp (base :: rest) := by
  have hcode := hat.code_eq hline
  obtain ⟨entry, htarget, hstate⟩ :=
    step_call hcode hsymbol (hgoes.step_of_line hcode (by simp [hsymbol]))
  have hclose : R.lines[i + 1]? ≠ some unalign := by
    intro hclose
    rw [R.isLibrary_of_unalign hline hclose] at hsymbol
    cases hsymbol
  have hcopy : InCopy (Snippet.call symbol) 1 R.lines i := by
    refine (R.copy_of_call hline).resolve_right ?_
    rintro ⟨k, rfl, hlines⟩
    exact hclose (@Code.getElem?_of_prefix_drop _ _ k 4 _ hlines rfl)
  have hnext : R.lines[i + 1]? = some restore := by
    obtain ⟨k, rfl, hlines⟩ := hcopy
    exact @Code.getElem?_of_prefix_drop _ _ k 2 _ hlines rfl
  -- The name is declared, so the call does not lead to a jump target.
  obtain ⟨d, hd, rfl⟩ := (R.declared_of_call hline).resolve_left hclose
  obtain ⟨R', rfl⟩ := hlisted.entries entry d.name (label_of_target htarget) (hlisted.dots d hd)
  have hsaved := h.saved_at_call hlisted hstart hsound hbases hat hcopy
  have hlevel := hat.level (by simp [hline]) hclose
  have hheight : R.height (i + 1) = R.height i + 0 := R.height_succ hline (by simp) (by simp)
  have hpos := (R.dvd_height i).2
  have hbelow : (c.state.rsp - 8#64).toNat + 8 = c.state.rsp.toNat := by
    have hroom := hgoes.room _ hcode rfl
    rw [hstate] at hroom
    exact Quad.toNat_add_of_sub_le (by decide) hroom
  have hback : c.state.rsp - 8#64 + 8#64 = c.state.rsp := BitVec.sub_add_cancel _ _
  rw [hstate]
  refine ⟨R', 0, .of_level rfl rfl (by simp) (by simp) (Quad.aligned_sub_eight hat.aligned)
    (Int.add_zero _) (by simp), .called R (i + 1) hnext ?_ ?_ ?_ ?_⟩
  · rw [← Nat.add_assoc, ← hat.pc]
    exact Function.update_self _ _ _
  · change Function.update c.state.mem _ _ (c.state.rsp - 8#64 + 8#64) = base
    rw [hback, Function.update_of_ne, hsaved]
    intro heq
    have htoNat := congrArg BitVec.toNat heq
    omega
  · change ((c.state.rsp - 8#64).toNat : Int) + 8 + R.height (i + 1) = base.toNat
    omega
  · refine hwaiting.of_mem_above fun a ha => Function.update_of_ne ?_ _ _
    rintro rfl
    omega

/-- Where a run stands, it stands after one more step. -/
theorem sound_step (h : m.Ran m.Spares start (c :: past)) (hc : c.Sound m decls)
    (hspares : m.Spares c) {c' : Tracked} (hgoes : m.Goes c c') : c'.Sound m decls := by
  obtain ⟨base, rest, hbases⟩ := Tracked.exists_bases hgoes.busy
  obtain ⟨R, i, hat, hwaiting⟩ := hc base rest hbases
  obtain ⟨line, hline⟩ := hat.line
  have hcode := hat.code_eq hline
  -- Where the invocations stay the same, so do the bases.
  have hstay (hcall : ∀ symbol, line = .inst (.call symbol) → isLibrary symbol = true)
      (hret : line ≠ .inst .ret) (hstands : c'.state.Stands m decls base rest) :
      c'.Sound m decls := by
    intro base' rest' hbases'
    rw [hgoes.bases_eq hcode hcall hret, hbases] at hbases'
    cases hbases'
    exact hstands
  cases line with
  | segment _ | text | global _ | comm _ _ | string _ _ =>
      have hstep := hgoes.step_of_line hcode (by simp)
      simp [step, hcode] at hstep
  | label name =>
      have hstep := hgoes.step_of_line hcode (by simp)
      rw [step, hcode] at hstep
      refine hstay (by simp) (by simp) ?_
      rw [← Option.some.inj hstep]
      exact ⟨R, i + 1, hat.step_label hline, hwaiting⟩
  | inst x =>
      cases x with
      | jmp label =>
          obtain ⟨j, htarget, hat'⟩ := hat.step_jump hline rfl
          refine hstay (by simp) (by simp) ?_
          rw [step_jmp hcode htarget (hgoes.step_of_line hcode (by simp))]
          exact ⟨R, j, hat', hwaiting⟩
      | j cond label =>
          obtain ⟨j, htarget, hat'⟩ := hat.step_jump hline rfl
          refine hstay (by simp) (by simp) ?_
          rcases step_j hcode htarget (hgoes.step_of_line hcode (by simp)) with hstate | hstate
          · rw [hstate]
            exact ⟨R, j, hat', hwaiting⟩
          · rw [hstate]
            exact ⟨R, i + 1, hat.step_skip hline, hwaiting⟩
      | call symbol =>
          cases hsymbol : isLibrary symbol with
          | true =>
              refine hstay (by simp [hsymbol]) (by simp) ?_
              exact h.stands_library hlisted hstart hsound hbases hat hwaiting hline
                (hgoes.library ⟨symbol, hcode, hsymbol⟩)
          | false =>
              intro base' rest' hbases'
              rw [hgoes.bases_call hcode hsymbol, hbases] at hbases'
              cases hbases'
              exact h.stands_call hlisted hstart hsound hbases hat hwaiting hline hsymbol hgoes
      | ret =>
          intro base' rest' hbases'
          rw [hgoes.bases_ret hcode, hbases] at hbases'
          cases hbases'
          obtain ⟨R', j, -, hat', hwaiting'⟩ := hat.step_ret hline hlisted.lines hwaiting
          rw [step_ret hcode (hgoes.step_of_line hcode (by simp))]
          exact ⟨R', j, hat', hwaiting'⟩
      | _ =>
          obtain ⟨s₁, hexec, hstate⟩ := exec_of_step hcode rfl (hgoes.step_of_line hcode (by simp))
          have hroom := hgoes.room _ hcode
          rw [hstate] at hroom
          refine hstay (by simp) (by simp) ?_
          rw [hstate]
          refine ⟨R, i + 1, hat.step_exec hline rfl hexec hroom,
            hat.waiting_exec hline rfl hexec hroom ?_ hwaiting⟩
          intro src dst a heq ha
          rw [← hbases]
          exact hspares a ((stored_eq (heq ▸ hcode)).trans ha)

end Back

/-- A run that enters a function stands at every point of it. -/
theorem sound {start : Tracked} {run : List Tracked} (h : m.Ran m.Spares start run)
    (hlisted : m.Listed decls) {name : String}
    (hentry : m.code[start.state.pc]? = some (.label name)) (hname : name.toList.head? ≠ some '.')
    (hbases : start.bases = [start.state.rsp]) (hrsp : start.state.rsp.Aligned) :
    ∀ c ∈ run, c.Sound m decls := by
  induction h with
  | start =>
      obtain ⟨R, hfirst⟩ := hlisted.entries _ _ hentry hname
      rw [List.forall_mem_singleton]
      intro base rest hbases'
      rw [hbases] at hbases'
      cases hbases'
      exact ⟨R, 0, .of_level hfirst.symm rfl (by simp) (by simp) hrsp (Int.add_zero _) (by simp),
        .last⟩
  | goes hran hspares hgoes ih =>
      obtain ⟨hc, hsound⟩ := List.forall_mem_cons.mp ih
      exact List.forall_mem_cons.mpr
        ⟨hran.sound_step hlisted ⟨name, hentry⟩ hsound hc hspares hgoes, ih⟩

end Machine.Ran

/-! ## Sequences around calls -/

/-- The run from `before` to `c` is through the lines that align the stack for a call into the C
library. If the call keeps what it has to, the line behind it takes the stack pointer back, and
leaves every cell from there on, but for one that `scanf` is given, as it was before. -/
structure Machine.Brackets (m : Machine) (symbol : String) (before c : Tracked) : Prop where
  lines : Snippet.library symbol <+: m.code.drop before.state.pc
  place : c.state.pc = before.state.pc + 3
  aligned : 16 ∣ c.state.rsp.toNat
  given : ∀ a, m.Given c.state a → a = before.state.rsp
  leaves : ∀ s, m.Returned c.state s → ∃ t, m.step s = some t ∧ t.pc = before.state.pc + 5 ∧
    t.rsp = before.state.rsp ∧ t.rbx = before.state.rbx ∧
    ∀ a, before.state.rsp.toNat ≤ a.toNat → ¬ m.Given c.state a → t.mem a = before.state.mem a

theorem Machine.Ran.brackets {start c : Tracked} {past : List Tracked}
    (h : m.Ran m.Spares start (c :: past)) (hlisted : m.Listed decls)
    (hstart : ∃ name, m.code[start.state.pc]? = some (.label name))
    (hsound : ∀ c ∈ past, c.Sound m decls) {base : Quad} {rest : List Quad}
    (hbases : c.bases = base :: rest) {R : Routine m decls} {k : Nat}
    (hat : R.At (k + 3) base c.state) {symbol : String}
    (hlines : Snippet.library symbol <+: R.lines.drop k) :
    ∃ c₂ c₁ before rest, past = c₂ :: c₁ :: before :: rest ∧ m.Brackets symbol before c := by
  obtain ⟨c₂, c₁, before, past', rfl, hran, hsound₀, hbases₀, hat₀, hroom, hstate⟩ :=
    h.before_library hlisted hstart hsound hbases hat hlines
  have hlower := Snippet.toNat_rsp_atCall hroom
  refine ⟨c₂, c₁, before, past', rfl, ?_, by rw [hstate]; rfl, ?_, ?_, ?_⟩
  · rw [hat₀.pc]
    exact hlines.trans (R.drop_lines_prefix k)
  · rw [hstate]
    omega
  · intro a ha
    rw [hstate] at ha
    exact (hran.given_cell hlisted hstart hsound₀ hbases₀ hat₀ hlines ha).1
  · intro s hreturned
    rw [hstate] at hreturned ⊢
    obtain ⟨hcopied, hkept⟩ :=
      hran.library_call hlisted hstart hsound₀ hbases₀ hat₀ hlines hroom hreturned
    have hline : m.code[s.pc]? = some unalign := by
      rw [hreturned.pc, Snippet.atCall, hat₀.pc, Nat.add_assoc, Nat.add_assoc]
      exact R.holds_line (@Code.getElem?_of_prefix_drop _ _ k 4 _ hlines rfl)
    have haligned : (s.rsp + 8#64).Aligned := by
      rw [hreturned.rsp, ← hstate]
      exact Quad.aligned_add_eight hat.aligned
    have hexec : m.exec s (.movq (.mem 8 .rsp) (.reg .rsp)) =
        some { s with rsp := before.state.rsp } := by
      simp [exec, readQuad, address, State.quad, haligned, hcopied, writeQuad, State.setQuad]
    refine ⟨_, step_of_exec hline hexec, ?_, rfl, hreturned.rbx, hkept⟩
    rw [State.next, hreturned.pc, Snippet.atCall]

/-! ## Functions of a program -/

/-- A listing has the code of functions of a program, and labels in this code only. Their frames
and spans are below 2⁶² bytes, and no name looks like a label of the generator's. -/
structure Machine.Lists (m : Machine) (r : Program) (functions : List Func) : Prop where
  subset : functions ⊆ r.functions
  frames : ∀ f ∈ functions, f.frameSize < 0x4000_0000_0000_0000
  spans : ∀ f ∈ functions, ∀ span ∈ f.body.spans, span < 0x4000_0000_0000_0000
  dots : ∀ d ∈ r.decls, d.name.toList.head? ≠ some '.'
  code : ∃ pool n n' code before after,
    Func.codeAll { decls := r.decls, pool } functions n = .ok code n' ∧
      m.code = before ++ code ++ after ∧ before.labels = [] ∧ after.labels = []
  lines : m.code.length < Word.bound

/-- The listing of a whole program is such a listing. -/
theorem Program.lists_of_text {r : Program} {n n₁ n₂ : Nat} {data text : Code} {pool : Pool}
    (hdata : r.data n = .ok (data, pool) n₁) (htext : r.text pool n₁ = .ok text n₂)
    (hm : m.code = data ++ text)
    (hframes : ∀ f ∈ r.functions, f.frameSize < 0x4000_0000_0000_0000)
    (hspans : ∀ f ∈ r.functions, ∀ span ∈ f.body.spans, span < 0x4000_0000_0000_0000)
    (hdots : ∀ d ∈ r.decls, d.name.toList.head? ≠ some '.')
    (hlines : m.code.length < Word.bound) : m.Lists r r.functions := by
  obtain ⟨before, functions, after, hfunctions, hlisting, hbefore, hafter⟩ := listing_eq hdata htext
  exact ⟨List.Subset.refl _, hframes, hspans, hdots,
    ⟨pool, n₁, n₂, functions, before, after, hfunctions, hm.trans hlisting, hbefore, hafter⟩,
    hlines⟩

/-- A run is at the entry of a function, with the stack pointer at a cell. -/
structure Machine.Enters (m : Machine) (r : Program) (f : Func) (start : Tracked) : Prop where
  call : ∃ d left, r.decls[f.decl]? = some d ∧
    m.code[start.state.pc]? = some (.label d.name) ∧
    start.calls = [{ symbol := d.name, base := start.state.rsp, left }]
  rsp : start.state.rsp.Aligned

theorem Machine.Lists.listed {p r : Program} {functions : List Func} (h : m.Lists r functions)
    (hlayout : p.layout = .ok r) : m.Listed r.decls := by
  obtain ⟨pool, n, n', code, before, after, hcode, hm, hbefore, hafter⟩ := h.code
  refine Func.listed (fun f hf => ?_) hcode hm hbefore hafter h.dots h.lines
  have hitem := Program.mem_functions_iff.mp (h.subset hf)
  exact (Item.whole_of_layoutAll (Program.layout_eq_ok_iff.mp hlayout) hitem).compact
    (h.frames f hf) (h.spans f hf)

/-- The stack pointer is at a cell, and a call into the C library has been come to by the lines
that bracket it. A function of the program can have the name of a library function, and calls of
that function are told from calls into the C library by the line behind them. -/
structure Machine.KeepsStack (m : Machine) (decls : List Decl) (c : Tracked)
    (past : List Tracked) : Prop where
  aligned : c.state.rsp.Aligned
  calls : ∀ symbol, m.code[c.state.pc]? = some (.inst (.call symbol)) →
    isLibrary symbol = true →
    (m.code[c.state.pc + 1]? = some unalign ∨ ∀ d ∈ decls, d.name ≠ symbol) →
    ∃ c₂ c₁ c₀ rest, past = c₂ :: c₁ :: c₀ :: rest ∧ m.Brackets symbol c₀ c

theorem Machine.Ran.keepsStack {start c : Tracked} {past : List Tracked}
    (h : m.Ran m.Spares start (c :: past)) {r : Program} (hlisted : m.Listed r.decls) {f : Func}
    (henters : m.Enters r f start) (hbusy : c.calls ≠ []) : m.KeepsStack r.decls c past := by
  obtain ⟨⟨d, left, hd, hentry, hcalls⟩, hrsp⟩ := henters
  have hdots := hlisted.dots d (List.mem_of_getElem? hd)
  have hbases : start.bases = [start.state.rsp] := by
    rw [Tracked.bases, hcalls]
    rfl
  obtain ⟨hc, hpast⟩ := List.forall_mem_cons.mp (h.sound hlisted hentry hdots hbases hrsp)
  obtain ⟨base, rest, hbases_c⟩ := Tracked.exists_bases hbusy
  obtain ⟨R, i, hat, -⟩ := hc base rest hbases_c
  refine ⟨hat.aligned, fun symbol hline hsymbol hown => ?_⟩
  obtain ⟨line, hi⟩ := hat.line
  cases (hat.code_eq hi).symm.trans hline
  obtain ⟨next, hnext⟩ := R.next_line hi (by simp)
  have hplace : m.code[c.state.pc + 1]? = some next := by
    rw [hat.pc, Nat.add_assoc]
    exact R.holds_line hnext
  have hclose : R.lines[i + 1]? = some unalign := by
    rcases hown with hclose | hnames
    · rw [hnext, ← hplace, hclose]
    · refine (R.declared_of_call hi).resolve_right ?_
      rintro ⟨d, hd, hname⟩
      exact hnames d hd hname
  rcases R.copy_of_call hi with ⟨k, rfl, hcall⟩ | ⟨k, rfl, hcopy⟩
  · cases hclose.symm.trans (@Code.getElem?_of_prefix_drop _ _ k 2 _ hcall rfl)
  · exact h.brackets hlisted ⟨d.name, hentry⟩ hpast hbases_c hat hcopy

/-- Calls into the C library find the stack aligned and leave it as it was. Let a listing have the
code of functions of a program that is laid out, and let a run enter one of them with `%rsp` at a
cell, and go through any calls. Then this holds wherever the run stands before it returns, if the
source program spares the words in which calls in progress keep the line to return to and the
frame base of the caller. In a program that is well-formed and accepted, it spares them if it
stores to no cell of the stack but those of variables of the invocations in progress. -/
theorem Program.library_calls_keep_stack {p r : Program} (hlayout : p.layout = .ok r)
    {functions : List Func} {m : Machine} (hlists : m.Lists r functions) {f : Func}
    (hf : f ∈ functions) {start : Tracked} (henters : m.Enters r f start) :
    (∀ c past, m.Ran m.Spares start (c :: past) → c.calls ≠ [] → m.KeepsStack r.decls c past) ∧
    ∀ (source : Program) (scope : Scope) (bottom : Nat), source.WellFormed →
      source.resolve scope = (p, .ok ()) → functions = r.functions →
      start.state.rsp.toNat ≤ bottom →
      start.state.rsp.toNat + 16 + 8 * (paramsAt r.decls f.decl).length ≤ Word.bound →
      ∀ c past, m.Ran (m.Confined r bottom) start (c :: past) → c.calls ≠ [] →
        m.KeepsStack r.decls c past := by
  have hlisted := hlists.listed hlayout
  refine ⟨fun c past hran => hran.keepsStack hlisted henters, ?_⟩
  intro source scope bottom hwf hresolve hall hbottom hroom c past hran
  obtain ⟨d, left, hd, hentry, hcalls⟩ := henters.call
  obtain ⟨pool, n, n', code, before, after, hcode, hm, hbefore, hafter⟩ := hlists.code
  subst hall
  refine Machine.Ran.keepsStack ?_ hlisted henters
  refine ran_spares hwf hresolve hlayout hcode hlists.dots hm hbefore hafter hlists.lines hf hd
    hentry hcalls rfl rfl hbottom ?_ hran
  unfold Word.bound at hroom
  omega

/-! ## Runs of small programs -/

/-- A machine with the listing of a program. -/
def Program.machine (r : Program) : Machine where
  code := (r.generate 0).written
  symbols label := if label = FormatString.readInt then 0x900#64 else 0x800#64
  text a := if a = 0x900#64 then "%d" else "\n"
  limit := 0x1000
  library _ s := s

/-- A run that enters `main`. -/
def Tracked.atMain (pc : Nat) (rsp : Quad) (mem : Memory) : Tracked where
  state := {
    pc, rsp, mem, rax := 0, rbx := 0, rcx := 0, rdx := 0, rsi := 0, rdi := 0, flags := none
    out := [] }
  calls := [{ symbol := "main", base := rsp, left := fun _ => 0 }]

namespace Echo

def print : Func where
  decl := 1
  body := .ofStmts [] [.write (.var "n")]

/-- Writes a number that it reads, and ends the line. -/
def main : Func where
  decl := 2
  body := .ofStmts [] [.expr (.call "print" [.read]), .writeln]

def program : Program where
  decls := [.param 1 .int "n",
    { line := 1, name := "print", base := .int, kind := .func [0] },
    { line := 2, name := "main", base := .int, kind := .func [] }]
  items := [.func print, .func main]

def resolved : Program := (program.resolve .block).1

def laidOut : Program := resolved.layout.toOption.getD {}

def laidOutMain : Func := (laidOut.functions[1]?).getD main

/-- The stack pointer is not a multiple of 16. -/
def start : Tracked := .atMain 20 0x1ff8#64 fun _ => 0

/-- The place and the number of invocations behind a number of steps, and the stack pointer
three steps before and there. -/
def seen (P : Tracked → Prop) [DecidablePred P] (steps : Nat) : Option (Nat × Nat × Quad × Quad) :=
  match laidOut.machine.trace? P start steps with
  | some (c :: _ :: _ :: before :: _) =>
      some (c.state.pc, c.calls.length, before.state.rsp, c.state.rsp)
  | _ => none

/-- The stack pointer is a multiple of 16 before the call in the inner function, and not before
the one behind it. -/
theorem both_writes_bracketed :
    (∃ before c past, laidOut.machine.Ran laidOut.machine.Spares start (c :: past) ∧
      before ∈ past ∧ c.calls.length = 2 ∧ before.state.rsp = 0x1fe0#64 ∧
      c.state.rsp = 0x1fd0#64 ∧ laidOut.machine.Brackets "printf@PLT" before c) ∧
    ∃ before c past, laidOut.machine.Ran (laidOut.machine.Confined laidOut 0x2000) start
        (c :: past) ∧
      before ∈ past ∧ c.calls.length = 1 ∧ before.state.rsp = 0x1ff8#64 ∧
      c.state.rsp = 0x1fe0#64 ∧ laidOut.machine.Brackets "printf@PLT" before c := by
  have hlayout : resolved.layout = .ok laidOut := rfl
  have hlists : laidOut.machine.Lists laidOut laidOut.functions :=
    Program.lists_of_text (n := 0) rfl rfl rfl (by decide) (by decide) (by decide) (by decide)
  have henters : laidOut.machine.Enters laidOut laidOutMain start :=
    ⟨⟨_, _, rfl, rfl, rfl⟩, by decide⟩
  obtain ⟨hspares, hconfined⟩ :=
    Program.library_calls_keep_stack hlayout hlists (by decide) henters
  have hwrite {P : Tracked → Prop} [DecidablePred P]
      (hkeeps : ∀ c past, laidOut.machine.Ran P start (c :: past) → c.calls ≠ [] →
        laidOut.machine.KeepsStack laidOut.decls c past)
      {steps pc depth : Nat} {high low : Quad}
      (hseen : seen P steps = some (pc, depth + 1, high, low))
      (hline : laidOut.machine.code[pc]? = some (.inst (.call "printf@PLT"))) :
      ∃ before c past, laidOut.machine.Ran P start (c :: past) ∧ before ∈ past ∧
        c.calls.length = depth + 1 ∧ before.state.rsp = high ∧ c.state.rsp = low ∧
        laidOut.machine.Brackets "printf@PLT" before c := by
    unfold seen at hseen
    split at hseen
    next c _ _ before _ hrun =>
      simp only [Option.some.injEq, Prod.mk.injEq] at hseen
      obtain ⟨rfl, hdepth, rfl, rfl⟩ := hseen
      have hran := Machine.ran_of_trace? hrun
      have hkept := hkeeps c _ hran (List.ne_nil_of_length_eq_add_one hdepth)
      obtain ⟨_, _, _, _, hpast, hbefore⟩ := hkept.calls _ hline rfl (.inr (by decide))
      cases hpast
      exact ⟨before, c, _, hran, by simp, hdepth, rfl, rfl, hbefore⟩
    next => cases hseen
  refine ⟨@hwrite _ _ hspares 25 16 _ _ _ (by decide +kernel) rfl,
    @hwrite _ _ (hconfined program .block 0x2000 (by decide +kernel) rfl rfl (by decide)
      (by decide)) 36 43 _ _ _ (by decide +kernel) rfl⟩

end Echo

namespace Overwritten

/-- Stores the line of a call to its parameter. -/
def assign : Func where
  decl := 2
  body := .ofStmts [] [.expr (.setVar "n" (.num 30))]

/-- Calls the other function without an argument. That function then has its parameter where
the caller keeps the line to return to. -/
def main : Func where
  decl := 3
  body := .ofStmts [] [
    .ifThen (.var "k") (.block (.ofStmts [] [.expr (.call "main" [.num 0]), .writeln])),
    .expr (.call "assign" [])]

def program : Program where
  decls := [.param 1 .int "n", .param 2 .int "k",
    { line := 1, name := "assign", base := .int, kind := .func [0] },
    { line := 2, name := "main", base := .int, kind := .func [1] }]
  items := [.func assign, .func main]

/-- The last call is refused, behind everything that is annotated. -/
def annotated : Program := (program.resolve .block).1

def laidOut : Program := annotated.layout.toOption.getD {}

def laidOutMain : Func := (laidOut.functions[1]?).getD main

/-- The argument is 1. -/
def start : Tracked := .atMain 13 0x1ff8#64 fun a => if a = 0x2008#64 then 1 else 0

end Overwritten

namespace Namesake

def printf : Func where
  decl := 0
  body := .ofStmts [] []

/-- Calls a function that has the name of a library function. -/
def main : Func where
  decl := 1
  body := .ofStmts [] [.expr (.call "printf@PLT" [])]

def program : Program where
  decls := [{ line := 1, name := "printf@PLT", base := .int, kind := .func [] },
    { line := 2, name := "main", base := .int, kind := .func [] }]
  items := [.func printf, .func main]

def resolved : Program := (program.resolve .block).1

def laidOut : Program := resolved.layout.toOption.getD {}

def laidOutMain : Func := (laidOut.functions[1]?).getD main

def start : Tracked := .atMain 11 0x2000#64 fun _ => 0

end Namesake

/-- A run enters a function and stores to variables only, and comes to `call printf@PLT` with a
stack pointer that is not a multiple of 16. -/
def Program.Misaligns (r : Program) (f : Func) (start : Tracked) (bottom : Nat) : Prop :=
  r.machine.Lists r r.functions ∧ r.machine.Enters r f start ∧
    ∃ c past, r.machine.Ran (r.machine.Confined r bottom) start (c :: past) ∧ c.calls ≠ [] ∧
      r.machine.code[c.state.pc]? = some (.inst (.call "printf@PLT")) ∧ ¬ 16 ∣ c.state.rsp.toNat

/-- It is not enough that the source program stores to variables only. If a call has too few
arguments, a parameter can be in the word with the line to return to, and the run comes to a call
into the C library past the lines before it. Nor is every call by the name of a library function
a call into the library. -/
theorem Program.library_calls_misaligned :
    (Overwritten.annotated.layout = .ok Overwritten.laidOut ∧
      Overwritten.laidOut.Misaligns Overwritten.laidOutMain Overwritten.start 0x3000) ∧
    Namesake.program.WellFormed ∧ Namesake.program.resolve .block = (Namesake.resolved, .ok ()) ∧
      Namesake.resolved.layout = .ok Namesake.laidOut ∧
      Namesake.laidOut.Misaligns Namesake.laidOutMain Namesake.start 0x3000 := by
  have hrun {r : Program} {start : Tracked} {steps pc depth : Nat} {rsp : Quad}
      (h : ((r.machine.trace? (r.machine.Confined r 0x3000) start steps).bind List.head?).map
        (fun c => (c.state.pc, c.calls.length, c.state.rsp)) = some (pc, depth + 1, rsp))
      (hline : r.machine.code[pc]? = some (.inst (.call "printf@PLT"))) (hrsp : ¬ 16 ∣ rsp.toNat) :
      ∃ c past, r.machine.Ran (r.machine.Confined r 0x3000) start (c :: past) ∧ c.calls ≠ [] ∧
        r.machine.code[c.state.pc]? = some (.inst (.call "printf@PLT")) ∧
        ¬ 16 ∣ c.state.rsp.toNat := by
    obtain ⟨c, past, hran, hvalues⟩ := Machine.exists_ran h
    simp only [Prod.mk.injEq] at hvalues
    obtain ⟨rfl, hdepth, rfl⟩ := hvalues
    exact ⟨c, past, hran, List.ne_nil_of_length_eq_add_one hdepth, hline, hrsp⟩
  refine ⟨⟨rfl, ?_, ⟨⟨_, _, rfl, rfl, rfl⟩, by decide⟩, ?_⟩, by decide +kernel, rfl, rfl, ?_,
    ⟨⟨_, _, rfl, rfl, rfl⟩, by decide⟩, ?_⟩
  · exact lists_of_text (n := 0) rfl rfl rfl (by decide) (by decide) (by decide) (by decide)
  · exact @hrun Overwritten.laidOut Overwritten.start 29 30 0 0x1fe8#64 (by decide +kernel) rfl
      (by decide)
  · exact lists_of_text (n := 0) rfl rfl rfl (by decide) (by decide) (by decide) (by decide)
  · exact @hrun Namesake.laidOut Namesake.start 3 14 0 0x1ff8#64 (by decide +kernel) rfl
      (by decide)

end Backend
