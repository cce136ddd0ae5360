import Backend.Proofs.Invocation
import Backend.Proofs.StackPicture

/-! # Stacks that fit a picture

The words of a picture are found in memory, each where the picture has it, and the source
program stores to none of them. A line leads from a stack that fits the picture before it to
one that fits the picture behind it.
-/

namespace Backend

namespace Quad

theorem add_ofNat (a : Quad) (n : Nat) : a + BitVec.ofNat 64 n = BitVec.ofNat 64 (a.toNat + n) := by
  rw [BitVec.ofNat_add, BitVec.ofNat_toNat, BitVec.setWidth_eq]

theorem ofNat_toNat (a : Quad) : BitVec.ofNat 64 a.toNat = a := by
  rw [BitVec.ofNat_toNat, BitVec.setWidth_eq]

theorem toNat_of_lt {n : Nat} (h : n < Word.bound) : (BitVec.ofNat 64 n).toNat = n := by
  rw [BitVec.toNat_ofNat]
  exact Nat.mod_eq_of_lt h

theorem eq_of_ofNat_eq {n k : Nat} (hn : n < Word.bound) (hk : k < Word.bound)
    (h : BitVec.ofNat 64 n = BitVec.ofNat 64 k) : n = k := by
  have htoNat := congrArg BitVec.toNat h
  rwa [toNat_of_lt hn, toNat_of_lt hk] at htoNat

/-- A word is taken from an address that does not wrap around. -/
theorem toNat_add_of_sub_le {a : Quad} {n : Nat} (hn : n < Word.bound)
    (h : (a - BitVec.ofNat 64 n).toNat ≤ a.toNat) :
    (a - BitVec.ofNat 64 n).toNat + n = a.toNat := by
  have hlt := a.isLt
  unfold Word.bound at hn
  rw [BitVec.toNat_sub, BitVec.toNat_ofNat] at h ⊢
  omega

end Quad

/-! ## Words in memory -/

/-- What the words of a picture are compared with. -/
structure Ground where
  mem : Memory
  rsi : Quad
  call : Invocation
  /-- Where the stack of the invocation starts. -/
  foot : Nat
  /-- The words that the source program does not store to. -/
  safe : Nat → Prop

namespace Picture

/-- A picture fits the words from an address on. -/
def Fits (g : Ground) : Picture → Nat → Prop
  | [], a => a = g.foot
  | .value line :: σ, a =>
      g.safe a ∧ g.mem (BitVec.ofNat 64 a) = g.call.left line ∧ Fits g σ (a + 8)
  | .base :: σ, a => g.safe a ∧ g.mem (BitVec.ofNat 64 a) = g.call.base ∧ Fits g σ (a + 8)
  | .link bytes :: σ, a => g.safe a ∧
      g.mem (BitVec.ofNat 64 a) = BitVec.ofNat 64 (a + bytes) ∧ 8 ∣ a ∧ Fits g σ (a + 8)
  | .room bytes :: σ, a => Fits g σ (a + bytes)
  | .target :: σ, a => g.rsi = BitVec.ofNat 64 a ∧ Fits g σ (a + 8)
  | .pad :: σ, a => Fits g σ a ∨ Fits g σ (a + 8)
  | .unset :: σ, a => Fits g σ a

variable {g g' : Ground} {σ : Picture} {a : Nat}

theorem Fits.tail {chunk : Chunk} (h : Fits g (chunk :: σ) a) (hpad : chunk ≠ .pad) :
    σ.Fits g (a + chunk.bytes) := by
  cases chunk with
  | value _ | base => exact h.2.2
  | link _ => exact h.2.2.2
  | room _ | unset => exact h
  | target => exact h.2
  | pad => exact absurd rfl hpad

theorem Fits.le (h : σ.Fits g a) : a + σ.bytes ≤ g.foot := by
  induction σ generalizing a with
  | nil => exact Nat.le_of_eq h
  | cons chunk rest ih =>
      rw [bytes_cons]
      by_cases hpad : chunk = .pad
      · subst hpad
        rw [Chunk.bytes]
        rcases h with h | h
        · have hle := ih h
          omega
        · have hle := ih h
          omega
      · have hle := ih (h.tail hpad)
        omega

/-- A picture goes on fitting while the safe words that it has stay safe and as they are. -/
theorem Fits.transfer (h : σ.Fits g a) (hfoot : g'.foot = g.foot)
    (hbase : g'.call.base = g.call.base)
    (hmem : ∀ w, a ≤ w → g.safe w →
      g'.safe w ∧ g'.mem (BitVec.ofNat 64 w) = g.mem (BitVec.ofNat 64 w))
    (hleft : ∀ line, .value line ∈ σ → g'.call.left line = g.call.left line)
    (hrsi : .target ∈ σ → g'.rsi = g.rsi) : σ.Fits g' a := by
  induction σ generalizing a with
  | nil =>
      rw [Fits, hfoot]
      exact h
  | cons chunk rest ih =>
      have hnext {b : Nat} (hb : a ≤ b) (hrest : Fits g rest b) : Fits g' rest b := by
        apply ih hrest
        · exact fun w hw => hmem w (Nat.le_trans hb hw)
        · exact fun line hline => hleft line (List.mem_cons_of_mem _ hline)
        · exact fun htarget => hrsi (List.mem_cons_of_mem _ htarget)
      cases chunk with
      | value line =>
          obtain ⟨hsafe, hword, hrest⟩ := h
          obtain ⟨hsafe', hsame⟩ := hmem a (Nat.le_refl a) hsafe
          refine ⟨hsafe', ?_, hnext (Nat.le_add_right _ _) hrest⟩
          rw [hsame, hword, hleft line List.mem_cons_self]
      | base =>
          obtain ⟨hsafe, hword, hrest⟩ := h
          obtain ⟨hsafe', hsame⟩ := hmem a (Nat.le_refl a) hsafe
          refine ⟨hsafe', ?_, hnext (Nat.le_add_right _ _) hrest⟩
          rw [hsame, hword, hbase]
      | link bytes =>
          obtain ⟨hsafe, hword, haligned, hrest⟩ := h
          obtain ⟨hsafe', hsame⟩ := hmem a (Nat.le_refl a) hsafe
          exact ⟨hsafe', hsame.trans hword, haligned, hnext (Nat.le_add_right _ _) hrest⟩
      | room bytes => exact hnext (Nat.le_add_right _ _) h
      | target =>
          exact ⟨(hrsi List.mem_cons_self).trans h.1, hnext (Nat.le_add_right _ _) h.2⟩
      | pad => exact h.imp (hnext (Nat.le_refl a)) (hnext (Nat.le_add_right _ _))
      | unset => exact hnext (Nat.le_refl a) h

/-- Behind the alignment lie two words with the address of what lies under them, and one of the
two is the second word of the stack. -/
theorem Fits.saved (h : Fits g (.pad :: .link 16 :: .link 8 :: σ) a) :
    ∃ b, a ≤ b ∧ g.mem (BitVec.ofNat 64 (a + 8)) = BitVec.ofNat 64 (b + 16) ∧
      σ.Fits g (b + 16) := by
  rcases h with ⟨-, -, -, -, hword, -, hσ⟩ | ⟨-, hword, -, -, -, -, hσ⟩
  · exact ⟨a, Nat.le_refl a, hword, hσ⟩
  · exact ⟨a + 8, Nat.le_add_right a 8, hword, hσ⟩

theorem fits_reserve {bytes : Nat} : (reserve bytes σ).Fits g a ↔ σ.Fits g (a + bytes) := by
  unfold reserve
  split
  next hzero => rw [hzero, Nat.add_zero]
  next => rfl

theorem fits_pushed {lines : List Nat} : (pushed lines σ).Fits g a ↔
    (∀ i line, lines[i]? = some line →
      g.safe (a + 8 * i) ∧ g.mem (BitVec.ofNat 64 (a + 8 * i)) = g.call.left line) ∧
    σ.Fits g (a + 8 * lines.length) := by
  induction lines generalizing a with
  | nil => simp [pushed]
  | cons first rest ih =>
      change _ ∧ _ ∧ (pushed rest σ).Fits g (a + 8) ↔ _
      rw [ih, List.length_cons, Nat.mul_add_one, Nat.add_assoc, Nat.add_comm 8]
      constructor
      · rintro ⟨hsafe, hword, hrest, hσ⟩
        refine ⟨fun i line hline => ?_, hσ⟩
        cases i with
        | zero =>
            cases hline
            exact ⟨hsafe, hword⟩
        | succ i =>
            rw [Nat.mul_add_one, Nat.add_comm (8 * i), ← Nat.add_assoc]
            exact hrest i line hline
      · rintro ⟨hwords, hσ⟩
        obtain ⟨hsafe, hword⟩ := hwords 0 first rfl
        refine ⟨hsafe, hword, fun i line hline => ?_, hσ⟩
        have hnext := hwords (i + 1) line hline
        rwa [Nat.mul_add_one, Nat.add_comm (8 * i), ← Nat.add_assoc] at hnext

/-- Behind a call, the arguments are just as many words. -/
theorem Fits.passed {lines : List Nat} (h : Fits g (.base :: pushed lines σ) a) :
    Fits g (.unset :: .base :: reserve (8 * lines.length) σ) a :=
  ⟨h.1, h.2.1, fits_reserve.mpr (fits_pushed.mp h.2.2).2⟩

theorem mem_of_mem_reserve {chunk : Chunk} {bytes : Nat} (h : chunk ∈ reserve bytes σ)
    (hroom : chunk ≠ .room bytes) : chunk ∈ σ := by
  unfold reserve at h
  split at h
  · exact h
  · exact List.mem_of_ne_of_mem hroom h

end Picture

/-! ## What instructions leave alone -/

/-- The memory, the stack pointer and the frame base stay as they are, and so does `%rsi` where
it is not aimed. -/
structure State.Keeps (s s' : State) (aims : Prop) : Prop where
  mem : s'.mem = s.mem
  rsp : s'.rsp = s.rsp
  rbx : s'.rbx = s.rbx
  rsi : ¬ aims → s'.rsi = s.rsi

theorem State.keeps_writeLong {s s' : State} {x : Operand} {v : Long}
    (h : s.writeLong x v = some s') : s.Keeps s' (x = .reg .rsi ∨ x = .reg .esi) := by
  cases x with
  | reg r => cases r <;> cases h <;> exact ⟨rfl, rfl, rfl, by simp⟩
  | imm _ | mem _ _ | rip _ => cases h

namespace Machine

variable {m : Machine} {s s' : State}

theorem keeps_writeQuad {x : Operand} (hx : x.quiet = true) {v : Quad}
    (h : m.writeQuad s x v = some s') : s.Keeps s' (x = .reg .rsi ∨ x = .reg .esi) := by
  cases x with
  | reg r =>
      cases r with
      | rbx | rsp => cases hx
      | eax | ecx | edx | esi => cases h
      | rax | rcx | rsi | rdi =>
          cases h
          exact ⟨rfl, rfl, rfl, by simp⟩
  | imm _ | mem _ _ | rip _ => cases hx

theorem keeps_combineQuad {op : Quad → Quad → Quad} {src dst : Operand} (hdst : dst.quiet = true)
    (h : m.combineQuad s op src dst = some s') :
    s.Keeps s' (dst = .reg .rsi ∨ dst = .reg .esi) := by
  simp only [combineQuad, Option.bind_eq_bind, Option.bind_eq_some_iff] at h
  obtain ⟨a, -, b, -, hwrite⟩ := h
  obtain ⟨hmem, hrsp, hrbx, hrsi⟩ := keeps_writeQuad hdst hwrite
  exact ⟨hmem, hrsp, hrbx, hrsi⟩

theorem keeps_combineLong {op : Long → Long → Long} {src dst : Operand}
    (h : m.combineLong s op src dst = some s') :
    s.Keeps s' (dst = .reg .rsi ∨ dst = .reg .esi) := by
  simp only [combineLong, Option.bind_eq_bind, Option.bind_eq_some_iff] at h
  obtain ⟨a, -, b, -, hwrite⟩ := h
  obtain ⟨hmem, hrsp, hrbx, hrsi⟩ := State.keeps_writeLong hwrite
  exact ⟨hmem, hrsp, hrbx, hrsi⟩

theorem exec_quiet {i : Inst} (hi : i.quiet = true) (h : m.exec s i = some s') :
    s.Keeps s' (i.aims = true) := by
  cases i with
  | movq src dst | leaq src dst =>
      simp only [exec, Option.bind_eq_some_iff] at h
      obtain ⟨v, -, hwrite⟩ := h
      simpa [Inst.aims] using keeps_writeQuad hi hwrite
  | addq src dst | subq src dst | imulq src dst | andq src dst =>
      simpa [Inst.aims] using keeps_combineQuad hi h
  | movl src dst =>
      simp only [exec, Option.bind_eq_some_iff] at h
      obtain ⟨v, -, hwrite⟩ := h
      simpa [Inst.aims] using State.keeps_writeLong hwrite
  | addl src dst | subl src dst | imull src dst =>
      simpa [Inst.aims] using keeps_combineLong h
  | negl dst =>
      simp only [exec, Option.bind_eq_bind, Option.bind_eq_some_iff] at h
      obtain ⟨v, -, hwrite⟩ := h
      obtain ⟨hmem, hrsp, hrbx, hrsi⟩ := State.keeps_writeLong hwrite
      exact ⟨hmem, hrsp, hrbx, by simpa [Inst.aims] using hrsi⟩
  | cmpl src dst =>
      simp only [exec, Option.bind_eq_bind, Option.bind_eq_some_iff] at h
      obtain ⟨a, -, b, -, hs'⟩ := h
      cases hs'
      exact ⟨rfl, rfl, rfl, fun _ => rfl⟩
  | cltq | cqto =>
      cases h
      exact ⟨rfl, rfl, rfl, fun _ => rfl⟩
  | idivl src =>
      simp only [exec, Option.bind_eq_some_iff] at h
      obtain ⟨v, -, hdivide⟩ := h
      unfold divide at hdivide
      dsimp only at hdivide
      split at hdivide <;> cases hdivide
      exact ⟨rfl, rfl, rfl, fun _ => rfl⟩
  | pushq _ | popq _ | jmp _ | j _ _ | call _ | ret => cases hi

theorem readQuad_rsp {disp : Int} {v : Quad} (h : m.readQuad s (.mem disp .rsp) = some v) :
    v = s.mem (s.rsp + BitVec.ofInt 64 disp) := by
  change s.load (s.rsp + BitVec.ofInt 64 disp) = some v at h
  unfold State.load at h
  split at h <;> cases h
  rfl

theorem exec_pushq {src : Operand} (h : m.exec s (.pushq src) = some s') :
    ∃ v, m.readQuad s src = some v ∧ (s.rsp - 8#64).Aligned ∧
      s' = { s with rsp := s.rsp - 8#64, mem := Function.update s.mem (s.rsp - 8#64) v } := by
  simp only [exec, Option.bind_eq_bind, Option.bind_eq_some_iff] at h
  obtain ⟨v, hv, hstore⟩ := h
  unfold State.store at hstore
  split at hstore
  next haligned =>
    cases hstore
    exact ⟨v, hv, haligned, rfl⟩
  next => cases hstore

theorem exec_popq {dst : Operand} (h : m.exec s (.popq dst) = some s') :
    m.writeQuad { s with rsp := s.rsp + 8#64 } dst (s.mem s.rsp) = some s' := by
  simp only [exec, Option.bind_eq_bind, Option.bind_eq_some_iff] at h
  obtain ⟨v, hload, hwrite⟩ := h
  unfold State.load at hload
  split at hload <;> cases hload
  exact hwrite

theorem exec_store {dst : Operand} (hdst : dst.isCell = true)
    (h : m.exec s (.movq .rax dst) = some s') :
    ∃ a, m.address s dst = some a ∧ s' = { s with mem := Function.update s.mem a s.rax } := by
  cases dst with
  | reg _ | imm _ => cases hdst
  | mem disp base | rip symbol =>
      simp only [exec, Option.bind_eq_some_iff] at h
      obtain ⟨_, hread, hwrite⟩ := h
      cases hread
      rw [writeQuad, Option.bind_eq_some_iff] at hwrite
      obtain ⟨a, ha, hstore⟩ := hwrite
      unfold State.store at hstore
      split at hstore <;> cases hstore
      exact ⟨a, ha, rfl⟩

end Machine

/-! ## Lines that go on with the next line -/

/-- The stack of an invocation as a state has it. -/
def State.ground (s : State) (call : Invocation) (foot : Nat) (safe : Nat → Prop) : Ground where
  mem := s.mem
  rsi := s.rsi
  call := call
  foot := foot
  safe := safe

/-- Where an invocation stands that runs some code. -/
structure Footing (o : Outline) (call : Invocation) (foot : Nat) (safe : Nat → Prop) : Prop where
  below : ∀ w, w + o.frame < foot → safe w
  bounded : ∀ w, safe w → w < Word.bound
  foot_lt : foot < Word.bound
  returns : o.returns → foot = call.base.toNat

/-- The stack fits a picture, and `%rbx` has the frame base where the picture says so. -/
structure Poised (s : State) (call : Invocation) (foot : Nat) (safe : Nat → Prop)
    (σ : Picture) : Prop where
  fits : σ.Fits (s.ground call foot safe) s.rsp.toNat
  based : σ.head? ≠ some .unset → s.rbx = call.base

section Lines

variable {s s' : State} {call : Invocation} {foot : Nat} {safe : Nat → Prop} {σ σ' : Picture}

/-- What was pushed before the line of a state stays noted. -/
theorem Picture.Fits.later {a : Nat} (h : σ.Fits (s.ground call foot safe) a)
    (hbefore : ∀ line, .value line ∈ σ → line < s.pc)
    (hmem : ∀ w, a ≤ w → safe w → s'.mem (BitVec.ofNat 64 w) = s.mem (BitVec.ofNat 64 w))
    (hrsi : .target ∈ σ → s'.rsi = s.rsi) : σ.Fits (s'.ground (call.noted s) foot safe) a := by
  refine h.transfer rfl rfl (fun w hw hsafe => ⟨hsafe, hmem w hw hsafe⟩) ?_ hrsi
  intro line hline
  exact Function.update_of_ne (Nat.ne_of_lt (hbefore line hline)) _ _

/-- The stack behind the line of a state, where it fits a picture again. -/
structure Settles (s s' : State) (call : Invocation) (foot : Nat) (safe : Nat → Prop)
    (σ' : Picture) : Prop where
  poised : Poised s' (call.noted s) foot safe σ'
  kept : ∀ w, foot ≤ w → safe w → s'.mem (BitVec.ofNat 64 w) = s.mem (BitVec.ofNat 64 w)

theorem Settles.of_mem_eq (hmem : s'.mem = s.mem)
    (hfits : σ'.Fits (s.ground call foot safe) s'.rsp.toNat)
    (hbefore : ∀ line, .value line ∈ σ' → line < s.pc) (hrsi : .target ∈ σ' → s'.rsi = s.rsi)
    (hrbx : σ'.head? ≠ some .unset → s'.rbx = call.base) : Settles s s' call foot safe σ' where
  poised := ⟨hfits.later hbefore (fun _ _ _ => by rw [hmem]) hrsi, hrbx⟩
  kept _ _ _ := by rw [hmem]

/-- A part of the stack is given back. -/
theorem Settles.of_drop {n : Nat} (hfoot : foot < Word.bound)
    (hfits : σ'.Fits (s.ground call foot safe) n) (hσ' : σ'.Calm)
    (hbefore : ∀ line, .value line ∈ σ' → line < s.pc) (hmem : s'.mem = s.mem)
    (hrsp : s'.rsp = BitVec.ofNat 64 n) (hrbx : s'.rbx = call.base) :
    Settles s s' call foot safe σ' := by
  have hle : n + σ'.bytes ≤ foot := hfits.le
  refine .of_mem_eq hmem ?_ hbefore (fun h => absurd h hσ'.still) fun _ => hrbx
  rw [hrsp, Quad.toNat_of_lt (by omega)]
  exact hfits

/-- A word is pushed below the frame. -/
theorem Settles.of_push {o : Outline} (hfooting : Footing o call foot safe)
    (hpoised : Poised s call foot safe σ) (hframe : o.frame ≤ σ.bytes)
    (hunset : σ.head? ≠ some .unset) (hbefore : ∀ line, .value line ∈ σ → line < s.pc)
    (hroom : (s.rsp - 8#64).toNat ≤ s.rsp.toNat) {v : Quad} {chunk : Chunk}
    (hchunk : ∀ g : Ground, g.safe (s.rsp - 8#64).toNat →
      g.mem (BitVec.ofNat 64 (s.rsp - 8#64).toNat) = v → g.call = call.noted s →
      σ.Fits g ((s.rsp - 8#64).toNat + 8) → Picture.Fits g (chunk :: σ) (s.rsp - 8#64).toNat) :
    Settles s { s with rsp := s.rsp - 8#64, mem := Function.update s.mem (s.rsp - 8#64) v } call
      foot safe (chunk :: σ) := by
  have hle : s.rsp.toNat + σ.bytes ≤ foot := hpoised.fits.le
  have hadd : (s.rsp - 8#64).toNat + 8 = s.rsp.toNat :=
    Quad.toNat_add_of_sub_le (by decide) hroom
  have habove : ∀ w, s.rsp.toNat ≤ w → safe w →
      Function.update s.mem (s.rsp - 8#64) v (BitVec.ofNat 64 w) = s.mem (BitVec.ofNat 64 w) := by
    intro w hw hsafe
    apply Function.update_of_ne
    intro heq
    have htoNat := congrArg BitVec.toNat heq
    rw [Quad.toNat_of_lt (hfooting.bounded w hsafe)] at htoNat
    omega
  refine ⟨⟨hchunk _ ?_ ?_ rfl ?_, fun _ => hpoised.based hunset⟩, fun w hw => habove w (by omega)⟩
  · exact hfooting.below _ (by omega)
  · rw [Quad.ofNat_toNat]
    exact Function.update_self _ _ _
  · rw [hadd]
    exact hpoised.fits.later hbefore habove fun _ => rfl

theorem Draws.settles {o : Outline} {marks : Marked} {i : Inst}
    (h : Draws o marks s.pc (.inst i) σ σ') (hexec : o.machine.exec s i = some s')
    (hfooting : Footing o call foot safe) (hpoised : Poised s call foot safe σ)
    (hbefore : ∀ line, .value line ∈ σ → line < s.pc)
    (hroom : i.takesStack = true → s'.rsp.toNat ≤ s.rsp.toNat)
    (hstores : ∀ src dst a, i = .movq src dst → o.machine.address s dst = some a →
      ∀ w, s.rsp.toNat ≤ w → safe w → a ≠ BitVec.ofNat 64 w) :
    Settles s s' call foot safe σ' := by
  have hfits := hpoised.fits
  have hle : s.rsp.toNat + σ.bytes ≤ foot := hfits.le
  have hfoot := hfooting.foot_lt
  have hbelow {chunk : Chunk} {τ : Picture} (h : ∀ line, .value line ∈ chunk :: τ → line < s.pc)
      (line : Nat) (hline : .value line ∈ τ) : line < s.pc :=
    h line (List.mem_cons_of_mem _ hline)
  cases h with
  | quiet hquiet haims hunset =>
      obtain ⟨hmem, hrsp, hrbx, hrsi⟩ := Machine.exec_quiet hquiet hexec
      refine .of_mem_eq hmem (by rwa [hrsp]) hbefore ?_ fun _ => ?_
      · exact fun htarget => hrsi fun h => haims h htarget
      · rw [hrbx, hpoised.based hunset]
  | store hdst hσ =>
      obtain ⟨a, ha, rfl⟩ := Machine.exec_store hdst hexec
      have habove : ∀ w, s.rsp.toNat ≤ w → safe w →
          Function.update s.mem a s.rax (BitVec.ofNat 64 w) = s.mem (BitVec.ofNat 64 w) :=
        fun w hw hsafe => Function.update_of_ne (hstores _ _ a rfl ha w hw hsafe).symm _ _
      exact ⟨⟨hfits.later hbefore habove fun _ => rfl, hpoised.based⟩,
        fun w hw => habove w (by omega)⟩
  | push hframe hunset =>
      obtain ⟨v, hv, -, rfl⟩ := Machine.exec_pushq hexec
      cases hv
      refine .of_push hfooting hpoised hframe hunset hbefore (hroom rfl) ?_
      intro g hsafe hword hcall hrest
      refine ⟨hsafe, ?_, hrest⟩
      rw [hword, hcall]
      change s.rax = Function.update call.left s.pc s.rax s.pc
      rw [Function.update_self]
  | keep hframe hσ =>
      obtain ⟨v, hv, -, rfl⟩ := Machine.exec_pushq hexec
      cases hv
      refine .of_push hfooting hpoised hframe hσ.based hbefore (hroom rfl) ?_
      intro g hsafe hword hcall hrest
      refine ⟨hsafe, ?_, hrest⟩
      rw [hword, hcall, hpoised.based hσ.based]
      rfl
  | link hframe hunset =>
      obtain ⟨v, hv, haligned, rfl⟩ := Machine.exec_pushq hexec
      cases hv
      refine .of_push hfooting hpoised hframe hunset hbefore (hroom rfl) ?_
      intro g hsafe hword _ hrest
      refine ⟨hsafe, ?_, haligned, hrest⟩
      rw [hword, ← Quad.add_ofNat, BitVec.sub_add_cancel]
  | @copy σ hframe =>
      obtain ⟨v, hv, haligned, rfl⟩ := Machine.exec_pushq hexec
      obtain ⟨-, hlink, -, -⟩ := hfits
      have hadd : (s.rsp - 8#64).toNat + 8 = s.rsp.toNat :=
        Quad.toNat_add_of_sub_le (by decide) (hroom rfl)
      refine .of_push hfooting hpoised (Nat.le_add_left_of_le hframe) (by simp) hbefore
        (hroom rfl) ?_
      intro g hsafe hword _ hrest
      refine ⟨hsafe, ?_, haligned, hrest⟩
      rw [Quad.ofNat_toNat] at hlink
      rw [hword, Machine.readQuad_rsp hv, BitVec.ofInt_ofNat, BitVec.add_zero]
      change s.mem s.rsp = _ at hlink
      rw [hlink, ← hadd]
  | pop hdst hσ =>
      obtain ⟨hmem, hrsp, hrbx, -⟩ := Machine.keeps_writeQuad hdst (Machine.exec_popq hexec)
      refine .of_drop hfoot hfits.2.2 hσ (hbelow hbefore) hmem ?_ ?_
      · rw [hrsp, Quad.add_ofNat]
      · rw [hrbx]
        exact hpoised.based (by simp)
  | @take n bytes σ hn hbytes hunset =>
      cases hexec
      refine .of_mem_eq rfl ?_ (by simpa using hbefore) (fun _ => rfl)
        fun _ => hpoised.based hunset
      change σ.Fits _ ((s.rsp - BitVec.ofInt 64 n).toNat + bytes)
      have hless := hroom rfl
      change (s.rsp - BitVec.ofInt 64 n).toNat ≤ s.rsp.toNat at hless
      rw [hn] at hless ⊢
      rw [Quad.toNat_add_of_sub_le hbytes hless]
      exact hfits
  | drop hn hpad hunset hσ =>
      cases hexec
      refine .of_drop hfoot (hfits.tail hpad) hσ (hbelow hbefore) rfl ?_ ?_
      · rw [← Quad.add_ofNat, ← hn]
      · exact hpoised.based (by simpa using hunset)
  | restore hσ =>
      have hpopped := Machine.exec_popq hexec
      cases hpopped
      obtain ⟨-, hbase, hrest⟩ := hfits
      rw [Quad.ofNat_toNat] at hbase
      exact .of_drop hfoot hrest hσ (fun line h => hbefore line (by simp [h])) rfl
        (Quad.add_ofNat _ _) hbase
  | @align σ =>
      cases hexec
      refine .of_mem_eq rfl ?_ (by simpa using hbefore) (fun _ => rfl)
        fun _ => hpoised.based (by simp)
      have haligned : 8 ∣ s.rsp.toNat := hfits.2.2.1
      have hand := Quad.toNat_and_neg_sixteen s.rsp
      change Picture.Fits _ _ (s.rsp &&& BitVec.ofInt 64 (-16)).toNat ∨
        Picture.Fits _ _ ((s.rsp &&& BitVec.ofInt 64 (-16)).toNat + 8)
      rw [hand]
      by_cases hsixteen : 16 ∣ s.rsp.toNat
      · left
        rwa [Nat.div_mul_cancel hsixteen]
      · right
        have hdown : s.rsp.toNat / 16 * 16 + 8 = s.rsp.toNat := by omega
        rwa [hdown]
  | unalign hσ =>
      obtain ⟨v, hv, hwrite⟩ := Option.bind_eq_some_iff.mp hexec
      cases hwrite
      obtain ⟨b, -, hword, hrest⟩ := hfits.saved
      refine .of_drop hfoot hrest hσ (fun line h => hbefore line (by simp [h])) rfl ?_ ?_
      · rw [Machine.readQuad_rsp hv, BitVec.ofInt_ofNat, Quad.add_ofNat]
        exact hword
      · exact hpoised.based (by simp)
  | aim hstill =>
      cases hexec
      refine ⟨⟨⟨?_, ?_⟩, fun _ => hpoised.based (by simp)⟩, fun _ _ _ => rfl⟩
      · exact (Quad.ofNat_toNat s.rsp).symm
      · exact Picture.Fits.later hfits (hbelow hbefore) (fun _ _ _ => rfl)
          fun h => absurd h hstill
  | enter hreturns =>
      cases hexec
      refine .of_mem_eq rfl hfits (by simp) (by simp) fun _ => ?_
      apply BitVec.eq_of_toNat_eq
      exact hfits.trans (hfooting.returns hreturns)
  | leave hreturns hσ =>
      cases hexec
      refine .of_mem_eq rfl ?_ (by simp) (by simp) fun _ => hpoised.based hσ.based
      change s.rbx.toNat = foot
      rw [hpoised.based hσ.based, hfooting.returns hreturns]
  | call | print | scan | ret | jump | branch => cases hexec

theorem Draws.settles_library {o : Outline} {marks : Marked} {symbol : String}
    (h : Draws o marks s.pc (.inst (.call symbol)) σ σ')
    (hline : o.machine.code[s.pc]? = some (.inst (.call symbol)))
    (hreturned : o.machine.Returned s s') (hfooting : Footing o call foot safe)
    (hpoised : Poised s call foot safe σ) (hbefore : ∀ line, .value line ∈ σ → line < s.pc) :
    Settles s s' call foot safe σ' := by
  have hfits := hpoised.fits
  have hle : s.rsp.toNat + σ.bytes ≤ foot := hfits.le
  have hkept : ∀ w, s.rsp.toNat ≤ w → safe w → ¬ o.machine.Given s (BitVec.ofNat 64 w) →
      s'.mem (BitVec.ofNat 64 w) = s.mem (BitVec.ofNat 64 w) := by
    intro w hw hsafe
    exact hreturned.mem _ (by rwa [Quad.toNat_of_lt (hfooting.bounded w hsafe)])
  cases h with
  | quiet hquiet => cases hquiet
  | @call x args line pushes ends _ τ hcall hsite hk hframe hσ =>
      -- The line behind the call does not restore an aligned stack.
      have hnext := hsite.held.right.lines 2 _ rfl
      have hgiven : ∀ a, ¬ o.machine.Given s a := by
        rintro a ⟨-, -, hrestore⟩
        rw [hk, Nat.add_assoc, hnext] at hrestore
        cases hrestore
      have habove : ∀ w, s.rsp.toNat ≤ w → safe w →
          s'.mem (BitVec.ofNat 64 w) = s.mem (BitVec.ofNat 64 w) :=
        fun w hw hsafe => hkept w hw hsafe (hgiven _)
      have hpassed := hfits.passed
      rw [List.length_map] at hpassed
      refine ⟨⟨?_, by simp⟩, fun w hw => habove w (by omega)⟩
      rw [hreturned.rsp]
      refine hpassed.later (fun line hvalue => hbefore line ?_) habove ?_
      · have hτ : .value line ∈ τ := Picture.mem_of_mem_reserve (by simpa using hvalue) (by simp)
        simp [Picture.pushed, hτ]
      · intro htarget
        exact absurd (Picture.mem_of_mem_reserve (by simpa using htarget) (by simp)) hσ.still
  | print hσ =>
      have hgiven : ∀ a, ¬ o.machine.Given s a := by
        rintro a ⟨hscan, -⟩
        exact absurd (hline.symm.trans hscan) (by simp)
      have habove : ∀ w, s.rsp.toNat ≤ w → safe w →
          s'.mem (BitVec.ofNat 64 w) = s.mem (BitVec.ofNat 64 w) :=
        fun w hw hsafe => hkept w hw hsafe (hgiven _)
      refine ⟨⟨?_, fun _ => ?_⟩, fun w hw => habove w (by omega)⟩
      · rw [hreturned.rsp]
        exact hfits.later hbefore habove fun h => absurd h (by simp [hσ.still])
      · rw [hreturned.rbx]
        exact hpoised.based (by simp)
  | @scan τ hstill =>
      -- The word that is stored to lies under the two copies of its address.
      have hscanned : ∀ b, s.rsp.toNat ≤ b →
          Picture.Fits (s.ground call foot safe) (.link 16 :: .link 8 :: .target :: τ) b →
          Picture.Fits (s'.ground (call.noted s) foot safe) (.link 16 :: .link 8 :: .room 8 :: τ)
              b ∧
            ∀ w, foot ≤ w → safe w →
              s'.mem (BitVec.ofNat 64 w) = s.mem (BitVec.ofNat 64 w) := by
        rintro b hb ⟨hsafe, hword, haligned, hsafe', hword', haligned', hrsi, hτ⟩
        have hlt : b + 8 + 8 + 8 + τ.bytes ≤ foot := hτ.le
        have hfoot := hfooting.foot_lt
        have hother : ∀ w, s.rsp.toNat ≤ w → safe w → w ≠ b + 8 + 8 →
            s'.mem (BitVec.ofNat 64 w) = s.mem (BitVec.ofNat 64 w) := by
          intro w hw hsafe hne
          refine hkept w hw hsafe ?_
          rintro ⟨-, heq, -⟩
          exact hne (Quad.eq_of_ofNat_eq (hfooting.bounded w hsafe) (by omega) (heq.trans hrsi))
        refine ⟨⟨hsafe, ?_, haligned, hsafe', ?_, haligned', ?_⟩, fun w hw hsafe => ?_⟩
        · exact (hother b hb hsafe (by omega)).trans hword
        · exact (hother (b + 8) (by omega) hsafe' (by omega)).trans hword'
        · refine hτ.later (fun line h => hbefore line (by simp [h])) ?_ ?_
          · exact fun w hw hsafe => hother w (by omega) hsafe (by omega)
          · exact fun h => absurd h hstill
        · exact hother w (by omega) hsafe (by omega)
      have hbased : s'.rbx = call.base := by
        rw [hreturned.rbx]
        exact hpoised.based (by simp)
      rcases hfits with hfits | hfits
      · obtain ⟨hfits', hkept⟩ := hscanned _ (Nat.le_refl _) hfits
        exact ⟨⟨by rw [hreturned.rsp]; exact .inl hfits', fun _ => hbased⟩, hkept⟩
      · obtain ⟨hfits', hkept⟩ := hscanned _ (Nat.le_add_right _ _) hfits
        exact ⟨⟨by rw [hreturned.rsp]; exact .inr hfits', fun _ => hbased⟩, hkept⟩

end Lines

end Backend
