import Backend.Proofs.CallStack

/-! # Steps through calls

A step goes on in the innermost invocation, calls another one or returns to the one beneath.
Each time the stack fits again, a function that is entered finds its arguments, and code that
is left finds the stack as it was.
-/

namespace Backend

/-- What an invocation finds that has just been called: the line behind the call at its frame
base, and above the caller's frame base what the code of each argument left in `%rax`. -/
def Handover (m : Machine) (r : Program) (cx : CodeEnv) (mem : Memory)
    (callee caller : Invocation) : Prop :=
  ∃ f g x args line pushes ends, r.Names f caller.symbol ∧ (x, args) ∈ f.body.calls ∧
    CallSite m cx x args line pushes ends callee.symbol ∧ r.Names g callee.symbol ∧
    (paramsAt r.decls g.decl).length = args.count ∧
    mem callee.base = BitVec.ofNat 64 (line + pushes.length + 2) ∧
    ∀ i stop, ends[i]? = some stop →
      mem (callee.base + BitVec.ofNat 64 (16 + 8 * i)) = caller.left (line + stop)

theorem Draws.ne_unset {o : Outline} {marks : Marked} {k : Nat} {i : Inst} {σ σ' : Picture}
    (h : Draws o marks k (.inst i) σ σ') (hi : i ≠ .ret) : σ' ≠ [.unset] := by
  rintro rfl
  cases h with
  | quiet _ _ hunset => exact hunset rfl
  | store _ hσ | pop _ hσ | drop _ _ _ hσ | restore hσ | unalign hσ | jump _ hσ | branch _ hσ =>
      exact hσ.based rfl
  | ret => exact hi rfl

namespace Machine

variable {m : Machine} {s s' : State}

theorem track_eq_note {line : Line} (hline : m.code[s.pc]? = some line)
    (hcall : ∀ symbol, line = .inst (.call symbol) → isLibrary symbol = true)
    (hret : line ≠ .inst .ret) (calls : List Invocation) :
    m.track s s' calls = note s calls := by
  unfold track
  rw [hline]
  split
  next symbol heq =>
    cases heq
    rw [if_pos (hcall symbol rfl)]
  next heq =>
    cases heq
    exact absurd rfl hret
  next => rfl

theorem exec_of_step {i : Inst} (hline : m.code[s.pc]? = some (.inst i))
    (hi : i.isTransfer = false) (h : m.step s = some s') :
    ∃ s₁, m.exec s i = some s₁ ∧ s' = s₁.next := by
  unfold step at h
  rw [hline] at h
  cases i with
  | jmp _ | j _ _ | call _ | ret => cases hi
  | _ =>
      obtain ⟨s₁, hs₁, heq⟩ := Option.map_eq_some_iff.mp h
      exact ⟨s₁, hs₁, heq.symm⟩

theorem step_call {symbol : String} (hline : m.code[s.pc]? = some (.inst (.call symbol)))
    (hsymbol : isLibrary symbol = false) (h : m.step s = some s') :
    ∃ line, m.target symbol = some line ∧
      s' = { s with
        pc := line, rsp := s.rsp - 8#64
        mem := Function.update s.mem (s.rsp - 8#64) (BitVec.ofNat 64 (s.pc + 1)) } := by
  obtain ⟨hprint, hscan⟩ : symbol ≠ "printf@PLT" ∧ symbol ≠ "scanf@PLT" := by
    simpa [isLibrary] using hsymbol
  have henter : m.enter s symbol = some s' := by
    unfold step at h
    rw [hline] at h
    split at h <;> grind
  simp only [enter, Option.bind_eq_bind, Option.bind_eq_some_iff] at henter
  obtain ⟨line, htarget, s₁, hstore, hs'⟩ := henter
  unfold State.store at hstore
  split at hstore <;> cases hstore
  cases hs'
  exact ⟨line, htarget, rfl⟩

theorem step_jmp {label : String} (hline : m.code[s.pc]? = some (.inst (.jmp label))) {k : Nat}
    (htarget : m.target label = some k) (h : m.step s = some s') : s' = { s with pc := k } := by
  unfold step at h
  rw [hline] at h
  change (m.target label).map _ = _ at h
  rw [htarget] at h
  exact (Option.some.inj h).symm

theorem step_j {cond : Cond} {label : String}
    (hline : m.code[s.pc]? = some (.inst (.j cond label))) {k : Nat}
    (htarget : m.target label = some k) (h : m.step s = some s') :
    s' = { s with pc := k } ∨ s' = s.next := by
  unfold step at h
  rw [hline] at h
  obtain ⟨flags, -, h⟩ := Option.bind_eq_some_iff.mp h
  split at h
  · rw [htarget] at h
    exact .inl (Option.some.inj h).symm
  · exact .inr (Option.some.inj h).symm

theorem step_ret (hline : m.code[s.pc]? = some (.inst .ret)) (h : m.step s = some s') :
    s' = { s with pc := (s.mem s.rsp).toNat, rsp := s.rsp + 8#64 } := by
  unfold step at h
  rw [hline] at h
  obtain ⟨line, hload, hs'⟩ := Option.bind_eq_some_iff.mp h
  unfold State.load at hload
  split at hload <;> cases hload
  cases hs'
  rfl

theorem Goes.step_of_line {c c' : Tracked} {line : Line} (h : m.Goes c c')
    (hline : m.code[c.state.pc]? = some line)
    (hcall : ∀ symbol, line = .inst (.call symbol) → isLibrary symbol = false) :
    m.step c.state = some c'.state := by
  refine h.step ?_
  rintro ⟨symbol, hsymbol, hlibrary⟩
  rw [hcall symbol (Option.some.inj (hline.symm.trans hsymbol))] at hlibrary
  cases hlibrary

end Machine

section Standing

variable {m : Machine} {cx : CodeEnv}

/-- A step has called a function. The line to return to is pushed on the caller's stack, which
has the arguments behind the frame base, and nothing else changes. -/
structure Called (r : Program) (bottom : Nat) (s s' : State) (level : Level m cx)
    (rest : List Invocation) (callee : Invocation) (count : Nat) : Prop where
  below : callee.base.toNat + 8 = s.rsp.toNat
  returns : s'.mem callee.base = BitVec.ofNat 64 (s.pc + 1)
  room : s.rsp.toNat + 8 + 8 * count + level.frame ≤ level.foot
  mem : ∀ w, callee.base.toNat < w → w < Word.bound →
    s'.mem (BitVec.ofNat 64 w) = s.mem (BitVec.ofNat 64 w)
  safe : ∀ w, r.Safe bottom (level.call :: rest) w →
    (callee.base.toNat ≤ w ∧ w < callee.base.toNat + 16 ∨
      callee.base.toNat + 16 + 8 * count ≤ w) →
    r.Safe bottom (callee :: level.call.noted s :: rest) w

namespace Called

variable {r : Program} {bottom : Nat} {s s' : State} {level : Level m cx}
  {rest : List Invocation} {callee : Invocation} {count : Nat}

theorem of_state (hlinked : Linked m r cx) {entry : Nat}
    (hstate : s' = { s with
      pc := entry, rsp := s.rsp - 8#64
      mem := Function.update s.mem (s.rsp - 8#64) (BitVec.ofNat 64 (s.pc + 1)) })
    (hbase : callee.base = s.rsp - 8#64) (hless : (s.rsp - 8#64).toNat ≤ s.rsp.toNat)
    (hroom : s.rsp.toNat + 8 + 8 * count + level.frame ≤ level.foot) {g : Func}
    (hnames : r.Names g callee.symbol) (hparams : (paramsAt r.decls g.decl).length = count)
    (hfew : count < 0x2000_0000_0000_0000) : Called r bottom s s' level rest callee count where
  below := by
    rw [hbase]
    exact Quad.toNat_add_of_sub_le (by decide) hless
  returns := by
    rw [hstate, hbase]
    exact Function.update_self _ _ _
  room := hroom
  mem w hw hbound := by
    rw [hstate]
    apply Function.update_of_ne
    rw [← hbase, ← Quad.ofNat_toNat callee.base]
    exact fun heq => Nat.ne_of_gt hw (Quad.eq_of_ofNat_eq hbound (Nat.lt_trans hw hbound) heq)
  safe w hw hrange := by
    rw [← r.safe_noted bottom level.call s rest] at hw
    refine ⟨hw.1, hw.2.1, List.forall_mem_cons.mpr ⟨?_, hw.2.2⟩⟩
    exact hlinked.not_mem_slots hnames hparams hfew hrange

/-- Safe words behind the arguments stay safe and as they are. -/
theorem behind (h : Called r bottom s s' level rest callee count) {w : Nat}
    (hsafe : r.Safe bottom (level.call :: rest) w) (hw : s.rsp.toNat + 8 + 8 * count ≤ w) :
    r.Safe bottom (callee :: level.call.noted s :: rest) w ∧
      s'.mem (BitVec.ofNat 64 w) = s.mem (BitVec.ofNat 64 w) := by
  have hbelow := h.below
  exact ⟨h.safe w hsafe (by omega), h.mem w (by omega) hsafe.2.1⟩

theorem outside (h : Called r bottom s s' level rest callee count) {w : Nat}
    (hsafe : r.Safe bottom (level.call :: rest) w) (hw : level.foot ≤ w) :
    r.Safe bottom (callee :: level.call.noted s :: rest) w ∧
      s'.mem (BitVec.ofNat 64 w) = s.mem (BitVec.ofNat 64 w) := by
  have hroom := h.room
  exact h.behind hsafe (by omega)

/-- The frames of older invocations lie above the frame of the callee. -/
theorem sound (h : Called r bottom s s' level rest callee count) (hlinked : Linked m r cx)
    (hsound : level.Sound r bottom rest) {g : Func} (hnames : r.Names g callee.symbol)
    (hparams : (paramsAt r.decls g.decl).length = count) (hfew : count < 0x2000_0000_0000_0000)
    {sheet : Sheet (g.outline m cx)} :
    Level.Sound ⟨g, g.frameSize, True, sheet, callee, callee.base.toNat⟩ r bottom
      (level.call.noted s :: rest) := by
  have habove := hsound.above
  have hbottom := hsound.foot_le
  have hbelow := h.below
  have hroom := h.room
  refine ⟨hnames, ?_, ?_, callee.base.isLt, fun _ => rfl⟩
  · simp only [List.forall_mem_cons] at habove ⊢
    refine ⟨fun a ha => ?_, fun a ha => ?_, fun call hcall a ha => ?_⟩
    · have hbound := hlinked.slots g callee hnames (by rwa [hparams]) a ha
      omega
    · have hlow := habove.1 a ha
      omega
    · have hlow := habove.2 call hcall a ha
      omega
  · change callee.base.toNat ≤ bottom
    omega

/-- The caller waits with the picture behind its call. -/
theorem waits {lines : List Nat} (h : Called r bottom s s' level rest callee lines.length)
    (hsound : level.Sound r bottom rest) {τ : Picture}
    (hfits : Picture.Fits (s.ground level.call level.foot (r.Safe bottom (level.call :: rest)))
      (.base :: Picture.pushed lines τ) s.rsp.toNat)
    (hbefore : ∀ line, .value line ∈ τ → line < s.pc) (hτ : τ.Calm)
    (hline : s.pc + 1 < Word.bound) (hnext : level.sheet.At (s.pc + 1)
      (.unset :: .base :: Picture.reserve (8 * lines.length) τ)) :
    (level.noted s).Waits r bottom s'.mem (r.Safe bottom (callee :: level.call.noted s :: rest))
      rest callee.base.toNat := by
  obtain ⟨hsafe, hword, hpushed⟩ := hfits
  obtain ⟨-, hrest⟩ := Picture.fits_pushed.mp hpushed
  have hbelow := h.below
  have hroom := h.room
  refine ⟨hsound.noted s, s.pc + 1, _, ?_, ?_, hline, hnext, (hτ.reserve _).still, ?_, ?_, ?_⟩
  · refine h.safe _ (hsound.footing.below _ ?_) (by omega)
    change _ + level.frame < level.foot
    omega
  · rw [Quad.ofNat_toNat, h.returns]
  · rw [hbelow]
    exact h.safe _ hsafe (by omega)
  · rw [hbelow]
    exact (h.mem _ (by omega) hsafe.2.1).trans hword
  · rw [hbelow, Picture.fits_reserve]
    refine hrest.transfer rfl rfl (fun w hw hsafe => h.behind hsafe hw) (fun line hvalue => ?_)
      fun htarget => absurd htarget hτ.still
    exact Function.update_of_ne (Nat.ne_of_lt (hbefore line hvalue)) _ _

/-- The callee finds the words that the arguments were pushed with. -/
theorem argument {lines : List Nat} (h : Called r bottom s s' level rest callee lines.length)
    {τ : Picture}
    (hfits : Picture.Fits (s.ground level.call level.foot (r.Safe bottom (level.call :: rest)))
      (.base :: Picture.pushed lines τ) s.rsp.toNat)
    (hbefore : ∀ line ∈ lines, line < s.pc) {i line : Nat} (hline : lines[i]? = some line) :
    s'.mem (callee.base + BitVec.ofNat 64 (16 + 8 * i)) = (level.call.noted s).left line := by
  obtain ⟨hwords, -⟩ := Picture.fits_pushed.mp hfits.2.2
  obtain ⟨hsafe, hword⟩ := hwords i line hline
  have hbelow := h.below
  have haddress : callee.base.toNat + (16 + 8 * i) = s.rsp.toNat + 8 + 8 * i := by omega
  have hne := Nat.ne_of_lt (hbefore line (List.mem_of_getElem? hline))
  rw [Quad.add_ofNat, haddress, h.mem _ (by omega) hsafe.2.1]
  exact hword.trans (Function.update_of_ne hne _ _).symm

end Called

/-- A run stands at a line of its innermost level, and the stack fits. Words from the foot of
the first level up to the roof are as they were. -/
structure Standing (r : Program) (bottom roof : Nat) (origin : Level m cx)
    (outer : List Invocation) (mem₀ : Memory) (c : Tracked) (level : Level m cx)
    (rest : List Invocation) (σ : Picture) : Prop where
  calls : c.calls = level.call :: rest
  sound : level.Sound r bottom rest
  beneath : Beneath r bottom origin outer c.state.mem (r.Safe bottom (level.call :: rest)) level
    rest
  line : level.sheet.At c.state.pc σ
  poised : Poised c.state level.call level.foot (r.Safe bottom (level.call :: rest)) σ
  passed : σ = [.unset] → ∃ caller others, rest = caller :: others ∧
    Handover m r cx c.state.mem level.call caller
  kept : ∀ w, origin.foot ≤ w → w < roof → r.Safe bottom (level.call :: rest) w ∧
    c.state.mem (BitVec.ofNat 64 w) = mem₀ (BitVec.ofNat 64 w)

variable {r : Program} {bottom roof : Nat} {origin level : Level m cx}
  {outer rest : List Invocation} {mem₀ : Memory} {c c' : Tracked} {σ σ' : Picture}

namespace Standing

/-- A step within the innermost level. -/
theorem stay (h : Standing r bottom roof origin outer mem₀ c level rest σ)
    (hcalls : c'.calls = Machine.note c.state c.calls)
    (hsettles : Settles c.state c'.state level.call level.foot
      (r.Safe bottom (level.call :: rest)) σ')
    (hline : level.sheet.At c'.state.pc σ')
    (hpassed : σ' = [.unset] → σ = [.unset] ∧ c'.state.mem = c.state.mem) :
    Standing r bottom roof origin outer mem₀ c' (level.noted c.state) rest σ' := by
  have hsafe := r.safe_noted bottom level.call c.state rest
  have hfoot := h.beneath.foot_le
  refine ⟨?_, h.sound.noted _, ?_, hline, ?_, ?_, ?_⟩
  · rw [hcalls, h.calls]
    rfl
  · change Beneath r bottom origin outer _ (r.Safe bottom (level.call.noted c.state :: rest)) _ _
    rw [hsafe]
    exact (h.beneath.noted c.state).transfer
      fun w hw hsafe => ⟨hsafe, hsettles.kept w hw hsafe⟩
  · change Poised _ _ _ (r.Safe bottom (level.call.noted c.state :: rest)) _
    rw [hsafe]
    exact hsettles.poised
  · intro hunset
    obtain ⟨hσ, hmem⟩ := hpassed hunset
    rw [hmem]
    exact h.passed hσ
  · intro w hw hroof
    obtain ⟨hsafe', hsame⟩ := h.kept w hw hroof
    refine ⟨?_, (hsettles.kept w (Nat.le_trans hfoot hw) hsafe').trans hsame⟩
    change r.Safe bottom (level.call.noted c.state :: rest) w
    rwa [hsafe]

/-- The sheet of a function ends with more room than there are addresses, so that its code is
left by a return only. -/
theorem not_at_stop (h : Standing r bottom roof origin outer mem₀ c level rest σ)
    (hroom : level.sheet.stop = [.room Word.bound]) (hstop : σ = level.sheet.stop) : False := by
  have hfits := h.poised.fits
  rw [hstop, hroom] at hfits
  have hle : _ ≤ level.foot := hfits.le
  have hlt := h.sound.foot_lt
  simp only [Picture.bytes_cons, Picture.bytes_nil, Chunk.bytes] at hle
  omega

/-- The end of a sheet is only come to by code that is not inside. -/
theorem not_at_end (h : Standing r bottom roof origin outer mem₀ c level rest σ)
    (hinside : c.calls.length = outer.length + 1 →
      c.state.pc < origin.sheet.first + origin.sheet.marks.length)
    (hend : c.state.pc = level.sheet.first + level.sheet.marks.length)
    (hstop : σ = level.sheet.stop) : False := by
  have hcalls := h.calls
  cases h.beneath with
  | first =>
      rw [hcalls] at hinside
      exact Nat.ne_of_lt (hinside rfl) hend
  | called hroom => exact h.not_at_stop hroom hstop

/-- What the source program stores to is not safe. -/
theorem stores (h : Standing r bottom roof origin outer mem₀ c level rest σ)
    (hconfined : m.Confined r bottom c) {a : Quad} (ha : m.stored c.state = some a) {w : Nat}
    (hw : c.state.rsp.toNat ≤ w) (hsafe : r.Safe bottom (level.call :: rest) w) :
    a ≠ BitVec.ofNat 64 w := by
  rintro rfl
  obtain ⟨hbottom, hbound, hslots⟩ := hsafe
  have htoNat := Quad.toNat_of_lt hbound
  have honStack : m.OnStack bottom c.state.rsp (BitVec.ofNat 64 w) := by
    unfold Machine.OnStack
    rw [htoNat]
    exact ⟨.inr hw, hbottom⟩
  obtain ⟨call, hcall, hslot⟩ := hconfined _ ha honStack
  rw [h.calls] at hcall
  rw [htoNat] at hslot
  exact hslots call hcall hslot

/-- A step in which the machine calls the C library is one in which the library may do what it
does. -/
theorem goes (h : Standing r bottom roof origin outer mem₀ c level rest σ)
    (hadvances : m.Advances r bottom c c') : m.Goes c c' :=
  hadvances.goes (by simp [h.calls])

variable (h : Standing r bottom roof origin outer mem₀ c level rest σ) (hgoes : m.Goes c c')
include h hgoes

/-- A step to another line of the sheet with the same picture. -/
theorem step_goto {line : Line} {k : Nat} (hline : m.code[c.state.pc]? = some line)
    (hcall : ∀ symbol, line ≠ .inst (.call symbol)) (hret : line ≠ .inst .ret)
    (hstate : c'.state = { c.state with pc := k }) (hnext : level.sheet.At k σ) :
    Standing r bottom roof origin outer mem₀ c' (level.noted c.state) rest σ := by
  refine h.stay ?_ ?_ (by rwa [hstate]) fun hσ => ⟨hσ, by rw [hstate]⟩
  · rw [hgoes.calls, Machine.track_eq_note hline (fun symbol heq => absurd heq (hcall symbol))
      hret]
  · rw [hstate]
    exact .of_mem_eq rfl h.poised.fits h.line.before (fun _ => rfl) h.poised.based

theorem step_exec (hconfined : m.Confined r bottom c) {i : Inst} (hi : i.isTransfer = false)
    (hline : m.code[c.state.pc]? = some (.inst i))
    (hdraws : Draws ⟨m, cx, level.func.body.calls, level.frame, level.returns⟩ level.sheet.marks
      c.state.pc (.inst i) σ σ')
    (hnext : level.sheet.At (c.state.pc + 1) σ') :
    Standing r bottom roof origin outer mem₀ c' (level.noted c.state) rest σ' := by
  have hcall : ∀ symbol, .inst i ≠ Line.inst (.call symbol) := by
    rintro symbol ⟨⟩
    cases hi
  obtain ⟨s₁, hexec, hs'⟩ := Machine.exec_of_step hline hi
    (hgoes.step_of_line hline fun symbol heq => absurd heq (hcall symbol))
  have hroom := hgoes.room i hline
  rw [hs'] at hroom
  have hsettles := hdraws.settles hexec h.sound.footing h.poised h.line.before hroom ?_
  · refine h.stay ?_ ?_ ?_ fun hσ => absurd hσ (hdraws.ne_unset ?_)
    · rw [hgoes.calls, Machine.track_eq_note hline fun symbol heq => absurd heq (hcall symbol)]
      rintro ⟨⟩
      cases hi
    · rw [hs']
      exact ⟨⟨hsettles.poised.fits, hsettles.poised.based⟩, hsettles.kept⟩
    · rw [hs', State.next, Machine.pc_of_exec hexec]
      exact hnext
    · rintro rfl
      cases hi
  · rintro src dst a rfl ha w hw hsafe
    exact h.stores hconfined ((Machine.stored_eq hline).trans ha) hw hsafe

theorem step_library {symbol : String} (hsymbol : Machine.isLibrary symbol = true)
    (hline : m.code[c.state.pc]? = some (.inst (.call symbol)))
    (hdraws : Draws ⟨m, cx, level.func.body.calls, level.frame, level.returns⟩ level.sheet.marks
      c.state.pc (.inst (.call symbol)) σ σ')
    (hnext : level.sheet.At (c.state.pc + 1) σ') :
    Standing r bottom roof origin outer mem₀ c' (level.noted c.state) rest σ' := by
  have hreturned := hgoes.library ⟨symbol, hline, hsymbol⟩
  refine h.stay ?_ ?_ (by rwa [hreturned.pc]) fun hσ => absurd hσ (hdraws.ne_unset (by simp))
  · rw [hgoes.calls, Machine.track_eq_note hline _ (by simp)]
    intro other heq
    cases heq
    exact hsymbol
  · exact hdraws.settles_library hline hreturned h.sound.footing h.poised h.line.before

omit h hgoes in
/-- A call leads to the start of a function, which finds the arguments. -/
theorem step_call (hlinked : Linked m r cx) {x : Ident} {args : Node .args} {line : Nat}
    {pushes : Code} {ends : List Nat} {symbol : String} {τ : Picture}
    (h : Standing r bottom roof origin outer mem₀ c level rest
      (.base :: Picture.pushed (ends.map (line + ·)) τ))
    (hgoes : m.Goes c c') (hsymbol : Machine.isLibrary symbol = false)
    (hline : m.code[c.state.pc]? = some (.inst (.call symbol)))
    (hcall : (x, args) ∈ level.func.body.calls)
    (hsite : CallSite m cx x args line pushes ends symbol)
    (hpc : c.state.pc = line + pushes.length + 1) (hframe : level.frame ≤ τ.bytes) (hτ : τ.Calm)
    (hnext : level.sheet.At (c.state.pc + 1)
      (.unset :: .base :: Picture.reserve (8 * ends.length) τ)) :
    ∃ level' rest', Standing r bottom roof origin outer mem₀ c' level' rest' [.unset] := by
  obtain ⟨g, hnames, hparams⟩ := hlinked.callee level.func symbol x args line pushes ends
    h.sound.named.1 hcall hsite
  obtain ⟨sheet, htarget, hstart, hstop⟩ := hlinked.entry g symbol hnames
  obtain ⟨entry, htarget', hstate⟩ := Machine.step_call hline hsymbol
    (hgoes.step_of_line hline (by simp [hsymbol]))
  obtain rfl : sheet.first = entry := Option.some.inj (htarget.symm.trans htarget')
  obtain ⟨callee, rfl, hbase, hcalls⟩ : ∃ callee : Invocation, callee.symbol = symbol ∧
      callee.base = c.state.rsp - 8#64 ∧
      c'.calls = callee :: level.call.noted c.state :: rest := by
    refine ⟨{ symbol, base := c.state.rsp - 8#64, left := fun _ => 0 }, rfl, rfl, ?_⟩
    rw [hgoes.calls, h.calls, Machine.track, hline, hstate]
    simp only [hsymbol]
    rfl
  have hcount : (ends.map (line + ·)).length = args.count := by
    rw [List.length_map, hsite.arguments.length_eq]
  have hcalled : Called r bottom c.state c'.state level rest callee
      (ends.map (line + ·)).length := by
    have hroom := hgoes.room _ hline rfl
    rw [hstate] at hroom
    have hle : _ ≤ level.foot := h.poised.fits.2.2.le
    rw [Picture.bytes_pushed] at hle
    refine .of_state hlinked hstate hbase hroom (by omega) hnames (hparams.trans hcount.symm) ?_
    rw [hcount]
    exact Nat.lt_trans hsite.few (by decide)
  -- The variables of the callee are new and all lie below the feet of the levels that wait.
  have hbeneath : Beneath r bottom origin outer c'.state.mem
      (r.Safe bottom (callee :: level.call.noted c.state :: rest)) (level.noted c.state) rest :=
    (h.beneath.noted c.state).transfer fun w hw hsafe => hcalled.outside hsafe hw
  have hpushed : ∀ stop ∈ ends.map (line + ·), stop < c.state.pc := fun stop hstop =>
    h.line.before stop
      (List.mem_cons_of_mem _ (List.mem_append_left _ (List.mem_map_of_mem hstop)))
  have hwaits := hcalled.waits h.sound h.poised.fits
    (fun line hvalue => h.line.before line (by simp [Picture.pushed, hvalue])) hτ ?_ ?_
  · refine ⟨⟨g, g.frameSize, True, sheet, callee, callee.base.toNat⟩, _, hcalls,
      hcalled.sound hlinked h.sound hnames (hparams.trans hcount.symm)
        (by rw [hcount]; exact Nat.lt_trans hsite.few (by decide)),
      @Beneath.called _ _ _ _ _ _ _ _ _ (level.noted c.state) rest hstop rfl hwaits hbeneath, ?_,
      ⟨?_, by simp⟩, fun _ => ⟨_, _, rfl, ?_⟩, ?_⟩
    · rw [hstate]
      have hat := sheet.at_start
      rwa [hstart] at hat
    · rw [hstate]
      exact congrArg BitVec.toNat hbase.symm
    · refine ⟨level.func, g, x, args, line, pushes, ends, h.sound.named, hcall, hsite, hnames,
        hparams, ?_, fun i stop hstop => ?_⟩
      · rw [hcalled.returns, hpc]
      · exact hcalled.argument h.poised.fits hpushed (by simp [hstop])
    · intro w hw hroof
      obtain ⟨hsafe, hsame⟩ := h.kept w hw hroof
      obtain ⟨hsafe', hsame'⟩ := hcalled.outside hsafe (Nat.le_trans h.beneath.foot_le hw)
      exact ⟨hsafe', hsame'.trans hsame⟩
  · have hlt := (List.getElem?_eq_some_iff.mp hline).1
    have hlines := hlinked.lines
    omega
  · rw [List.length_map]
    exact hnext

/-- A return leads to the caller that waits beneath, unless it ends the first invocation. -/
theorem step_ret (hreturns : level.returns) (hline : m.code[c.state.pc]? = some (.inst .ret))
    (hσ : σ = []) :
    (origin.returns ∧ c'.calls = outer) ∨
      ∃ caller rest' σ', Standing r bottom roof origin outer mem₀ c' caller rest' σ' := by
  obtain ⟨hcalls, -, hbeneath, -, hpoised, -, hkept⟩ := h
  have hfits := hpoised.fits
  subst hσ
  cases hbeneath with
  | first =>
      refine .inl ⟨hreturns, ?_⟩
      rw [hgoes.calls, hcalls, Machine.track, hline]
      rfl
  | @called _ caller rest hstop hfoot hwaits hbeneath =>
      obtain ⟨hsound, line, σ, -, hword, hbound, hat, htarget, hcaller⟩ := hwaits
      have hstate := Machine.step_ret hline (hgoes.step_of_line hline (by simp))
      have hrsp : c.state.rsp.toNat = level.foot := hfits
      -- With one invocation fewer there are fewer variables to store to.
      have hless : ∀ w, r.Safe bottom (level.call :: caller.call :: rest) w →
          r.Safe bottom (caller.call :: rest) w := fun w hw =>
        ⟨hw.1, hw.2.1, fun call hcall => hw.2.2 call (List.mem_cons_of_mem _ hcall)⟩
      have hle : level.foot + 8 + Picture.bytes (.unset :: .base :: σ) ≤ caller.foot := hcaller.le
      have hlt := hsound.foot_lt
      refine .inr
        ⟨caller, rest, .unset :: .base :: σ, ?_, hsound, ?_, ?_, ⟨?_, by simp⟩, by simp, ?_⟩
      · rw [hgoes.calls, hcalls, Machine.track, hline]
        rfl
      · rw [hstate]
        exact hbeneath.transfer fun w _ hw => ⟨hless w hw, rfl⟩
      · rw [← hrsp, Quad.ofNat_toNat] at hword
        rw [hstate, hword]
        change caller.sheet.At (BitVec.ofNat 64 line).toNat _
        rwa [Quad.toNat_of_lt hbound]
      · rw [hstate]
        change Picture.Fits _ _ (c.state.rsp + 8#64).toNat
        rw [Quad.add_ofNat, hrsp, Quad.toNat_of_lt (by omega)]
        exact hcaller.transfer rfl rfl (fun w _ hw => ⟨hless w hw, rfl⟩) (fun _ _ => rfl)
          fun h => absurd h (by simpa using htarget)
      · intro w hw hroof
        obtain ⟨hsafe, hsame⟩ := hkept w hw hroof
        rw [hstate]
        exact ⟨hless w hsafe, hsame⟩

theorem step (hconfined : m.Confined r bottom c) (hlinked : Linked m r cx)
    (hinside : c.calls.length = outer.length + 1 →
      c.state.pc < origin.sheet.first + origin.sheet.marks.length) :
    (origin.returns ∧ c'.calls = outer) ∨
      ∃ level' rest' σ', Standing r bottom roof origin outer mem₀ c' level' rest' σ' := by
  rcases h.line.cases with ⟨hend, hstop⟩ | ⟨line, σ', hline, hdraws, hnext⟩
  · exact (h.not_at_end hinside hend hstop).elim
  change m.code[c.state.pc]? = some line at hline
  cases line with
  | segment _ | text | global _ | comm _ _ | string _ _ => cases hdraws
  | label name =>
      cases hdraws
      have hstep := hgoes.step_of_line hline (by simp)
      rw [Machine.step, hline] at hstep
      exact .inr ⟨_, _, _, h.step_goto hgoes hline (by simp) (by simp)
        (Option.some.inj hstep).symm hnext⟩
  | inst i =>
      cases i with
      | jmp name =>
          cases hdraws with
          | quiet hquiet => cases hquiet
          | jump hmark hσ =>
              obtain ⟨k, htarget, hat⟩ := Sheet.at_label hmark
              have hstate := Machine.step_jmp hline htarget (hgoes.step_of_line hline (by simp))
              exact .inr ⟨_, _, _, h.step_goto hgoes hline (by simp) (by simp) hstate hat⟩
      | j cond name =>
          cases hdraws with
          | quiet hquiet => cases hquiet
          | branch hmark hσ =>
              obtain ⟨k, htarget, hat⟩ := Sheet.at_label hmark
              rcases Machine.step_j hline htarget (hgoes.step_of_line hline (by simp)) with
                hstate | hstate
              · exact .inr ⟨_, _, _, h.step_goto hgoes hline (by simp) (by simp) hstate hat⟩
              · exact .inr ⟨_, _, _, h.step_goto hgoes hline (by simp) (by simp) hstate hnext⟩
      | call symbol =>
          cases hsymbol : Machine.isLibrary symbol with
          | true => exact .inr ⟨_, _, _, h.step_library hgoes hsymbol hline hdraws hnext⟩
          | false =>
              cases hdraws with
              | quiet hquiet => cases hquiet
              | print | scan => cases hsymbol
              | call hcall hsite hpc hframe hτ =>
                  obtain ⟨level', rest', hstanding⟩ := step_call hlinked h hgoes hsymbol hline
                    hcall hsite hpc hframe hτ hnext
                  exact .inr ⟨level', rest', _, hstanding⟩
      | ret =>
          cases hdraws with
          | quiet hquiet => cases hquiet
          | ret hreturns _ => exact h.step_ret hgoes hreturns hline rfl
      | _ => exact .inr ⟨_, _, _, h.step_exec hgoes hconfined rfl hline hdraws hnext⟩

omit h hgoes in
/-- What stands at the start of a run stands at every later point of it. -/
theorem run (hlinked : Linked m r cx) (horigin : ¬ origin.returns) {start : Tracked}
    (hpc : start.state.pc = origin.sheet.first) (hdepth : start.calls.length = outer.length + 1)
    (hstart : ∃ level rest σ, Standing r bottom roof origin outer mem₀ start level rest σ)
    (hruns : m.Runs r bottom start origin.sheet.marks.length c) :
    ∃ level rest σ, Standing r bottom roof origin outer mem₀ c level rest σ := by
  induction hruns with
  | refl => exact hstart
  | tail _ hnext ih =>
      obtain ⟨hinside, hadvances⟩ := hnext
      obtain ⟨level, rest, σ, h⟩ := ih
      refine (h.step (h.goes hadvances) hadvances.confined hlinked fun hcalls => ?_).resolve_left
        fun hend => horigin hend.1
      rw [← hpc]
      exact (hinside (hcalls.trans hdepth.symm)).2

/-- Behind the line that sets the frame base, a function has it and finds its arguments. -/
theorem entered (hinside : c.calls.length = outer.length + 1 →
      c.state.pc < origin.sheet.first + origin.sheet.marks.length)
    (hline : m.code[c.state.pc]? = some (.inst (.movq .rsp (.reg .rbx)))) :
    ∃ callee caller others, c'.calls = callee :: caller :: others ∧
      c'.state.rbx = callee.base ∧ Handover m r cx c'.state.mem callee caller := by
  rcases h.line.cases with ⟨hend, hstop⟩ | ⟨line, σ', hline', hdraws, -⟩
  · exact (h.not_at_end hinside hend hstop).elim
  cases hline.symm.trans hline'
  cases hdraws with
  | quiet hquiet => cases hquiet
  | enter hreturns =>
      obtain ⟨caller, others, rfl, hhandover⟩ := h.passed rfl
      obtain ⟨s₁, hexec, hstate⟩ := Machine.exec_of_step hline rfl
        (hgoes.step_of_line hline (by simp))
      cases hexec
      refine ⟨level.call.noted c.state, caller, others, ?_, ?_, ?_⟩
      · rw [hgoes.calls, Machine.track_eq_note hline (by simp) (by simp), h.calls]
        rfl
      · rw [hstate]
        apply BitVec.eq_of_toNat_eq
        exact h.poised.fits.trans (h.sound.returns hreturns)
      · rw [hstate]
        exact hhandover

omit hgoes in
/-- At the end of the code of the first level, the stack is what it was at the start. -/
theorem ended (hstop : origin.sheet.stop = []) (hdepth : c.calls.length = outer.length + 1)
    (hpc : c.state.pc = origin.sheet.first + origin.sheet.marks.length) :
    c.state.rsp.toNat = origin.foot ∧ c.state.rbx = origin.call.base := by
  obtain ⟨hcalls, hsound, hbeneath, hline, hpoised, -, -⟩ := h
  have hrest : rest.length = outer.length := by
    rw [hcalls] at hdepth
    exact Nat.succ.inj hdepth
  cases hbeneath with
  | first hbase =>
      rw [hpc] at hline
      have hσ : σ = [] := hline.eq_stop.trans hstop
      subst hσ
      exact ⟨hpoised.fits, (hpoised.based (by simp)).trans hbase⟩
  | called _ _ _ hbeneath =>
      have hle := hbeneath.length_le
      rw [List.length_cons] at hrest
      omega

end Standing

end Standing

end Backend
