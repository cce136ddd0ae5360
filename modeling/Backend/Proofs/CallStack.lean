import Backend.Proofs.StackContents

/-! # Stacks of invocations

The code of an invocation has a picture at every line, and the stack of the innermost one fits
the picture of the line that is next. Beneath it are the stacks of the invocations that wait:
each one fits the picture behind its call, and the word on top of it leads back to that line.
-/

namespace Backend

/-! ## Sheets -/

/-- Code that a machine holds, with the picture of every line. -/
structure Sheet (o : Outline) where
  first : Nat
  start : Picture
  marks : Marked
  stop : Picture
  walk : Walk o marks first start marks stop
  held : o.machine.Holds first (marks.map Prod.snd)
  bare : ∀ line, .value line ∉ start

theorem Drawn.exists_sheet {o : Outline} {k : Nat} {σ σ' : Picture} {code : Code}
    (h : Drawn o k σ code σ') (hheld : o.machine.Holds k code) (hbare : ∀ line, .value line ∉ σ) :
    ∃ sheet : Sheet o, sheet.first = k ∧ sheet.start = σ ∧ sheet.stop = σ' ∧
      sheet.marks.length = code.length := by
  obtain ⟨marks, rfl, hwalk⟩ := h
  exact ⟨⟨k, σ, marks, σ', hwalk marks (List.Subset.refl _), hheld, hbare⟩, rfl, rfl, rfl,
    (List.length_map _).symm⟩

namespace Sheet

variable {o : Outline} {sheet : Sheet o} {k : Nat} {σ : Picture}

/-- A sheet has a line, or its end, with a picture. -/
def At (sheet : Sheet o) (k : Nat) (σ : Picture) : Prop :=
  ∃ before after, sheet.marks = before ++ after ∧ k = sheet.first + before.length ∧
    Walk o sheet.marks sheet.first sheet.start before σ ∧ Walk o sheet.marks k σ after sheet.stop

theorem at_start (sheet : Sheet o) : sheet.At sheet.first sheet.start :=
  ⟨[], sheet.marks, rfl, rfl, .nil, sheet.walk⟩

theorem At.before (h : sheet.At k σ) : ∀ line, .value line ∈ σ → line < k := by
  obtain ⟨before, after, -, rfl, hbefore, -⟩ := h
  exact hbefore.pushed_before fun line hline => absurd hline (sheet.bare line)

theorem At.le (h : sheet.At k σ) : k ≤ sheet.first + sheet.marks.length := by
  obtain ⟨before, after, hmarks, rfl, -, -⟩ := h
  rw [hmarks, List.length_append]
  omega

/-- At the end nothing is drawn any more. Any other line is drawn, and the next one is again a
line of the sheet. -/
theorem At.cases (h : sheet.At k σ) :
    (k = sheet.first + sheet.marks.length ∧ σ = sheet.stop) ∨
    ∃ line σ', o.machine.code[k]? = some line ∧ Draws o sheet.marks k line σ σ' ∧
      sheet.At (k + 1) σ' := by
  obtain ⟨before, after, hmarks, hk, hbefore, hafter⟩ := h
  cases hafter with
  | nil =>
      rw [List.append_nil] at hmarks
      exact .inl ⟨by rw [hk, hmarks], rfl⟩
  | @cons _ line rest _ σ' _ hline hrest =>
      refine .inr ⟨line, σ', ?_, hline, before ++ [(σ, line)], rest, ?_, ?_, ?_, hrest⟩
      · rw [hk]
        apply sheet.held.lines
        rw [hmarks]
        simp
      · rw [hmarks, List.append_assoc]
        rfl
      · rw [hk, List.length_append]
        rfl
      · rw [hk] at hline
        exact hbefore.append (.cons hline .nil)

theorem At.eq_stop (h : sheet.At (sheet.first + sheet.marks.length) σ) : σ = sheet.stop := by
  obtain ⟨before, after, hmarks, hk, -, hafter⟩ := h
  have hlength := congrArg List.length hmarks
  rw [List.length_append] at hlength
  have hnil : after = [] := List.length_eq_zero_iff.mp (by omega)
  subst hnil
  cases hafter
  rfl

/-- A label of a sheet is found with the picture that it has there. -/
theorem at_label {name : String} (h : (σ, .label name) ∈ sheet.marks) :
    ∃ line, o.machine.target name = some line ∧ sheet.At line σ := by
  obtain ⟨before, after, hmarks⟩ := List.append_of_mem h
  refine ⟨sheet.first + before.length, ?_, before, (σ, .label name) :: after, hmarks, rfl, ?_⟩
  · apply sheet.held.labels
    rw [hmarks]
    simp
  · have hwalk := sheet.walk
    have hsplit : Walk o sheet.marks sheet.first sheet.start (before ++ (σ, .label name) :: after)
        sheet.stop := by
      rw [← hmarks]
      exact hwalk
    obtain ⟨σ₁, hbefore, hafter⟩ := hsplit.split
    cases hafter with
    | cons hline hrest => exact ⟨hbefore, .cons hline hrest⟩

end Sheet

/-! ## Levels -/

/-- Words that no invocation in progress has a variable in. -/
def Program.Safe (r : Program) (bottom : Nat) (calls : List Invocation) (w : Nat) : Prop :=
  w < bottom ∧ w < Word.bound ∧ ∀ call ∈ calls, (w : Int) ∉ r.slots call

theorem Program.safe_noted (r : Program) (bottom : Nat) (call : Invocation) (s : State)
    (rest : List Invocation) :
    r.Safe bottom (call.noted s :: rest) = r.Safe bottom (call :: rest) := by
  funext w
  simp only [Safe, List.forall_mem_cons]
  rfl

/-- The function of a symbol. -/
def Program.Names (r : Program) (f : Func) (symbol : String) : Prop :=
  .func f ∈ r.items ∧ ∃ d, r.decls[f.decl]? = some d ∧ d.name = symbol

/-- Where the code of a function stands. -/
def Func.outline (f : Func) (m : Machine) (cx : CodeEnv) : Outline where
  machine := m
  cx := cx
  calls := f.body.calls
  frame := f.frameSize
  returns := True

/-- A machine has the functions of a program. What a function calls is a function with as many
parameters as there are arguments, and the variables of an invocation are in the frame and
where the arguments are. -/
structure Linked (m : Machine) (r : Program) (cx : CodeEnv) : Prop where
  callee : ∀ f symbol x args line pushes ends, .func f ∈ r.items → (x, args) ∈ f.body.calls →
    CallSite m cx x args line pushes ends symbol →
    ∃ g, r.Names g symbol ∧ (paramsAt r.decls g.decl).length = args.count
  entry : ∀ g symbol, r.Names g symbol → ∃ sheet : Sheet (g.outline m cx),
    m.target symbol = some sheet.first ∧ sheet.start = [.unset] ∧
      sheet.stop = [.room Word.bound]
  slots : ∀ g call, r.Names g call.symbol →
    (paramsAt r.decls g.decl).length < 0x2000_0000_0000_0000 → ∀ a ∈ r.slots call,
    call.base.toNat ≤ a + g.frameSize ∧ a < call.base.toNat ∨
      call.base.toNat + 16 ≤ a ∧ a < call.base.toNat + 16 + 8 * (paramsAt r.decls g.decl).length
  lines : m.code.length < Word.bound

/-- An invocation has no variable where the line to return to and the caller's frame base are,
nor behind its arguments. -/
theorem Linked.not_mem_slots {m : Machine} {r : Program} {cx : CodeEnv} (h : Linked m r cx)
    {g : Func} {call : Invocation} (hnames : r.Names g call.symbol) {count : Nat}
    (hcount : (paramsAt r.decls g.decl).length = count) (hfew : count < 0x2000_0000_0000_0000)
    {w : Nat} (hw : call.base.toNat ≤ w ∧ w < call.base.toNat + 16 ∨
      call.base.toNat + 16 + 8 * count ≤ w) : (w : Int) ∉ r.slots call := by
  intro hslot
  have hbound := h.slots g call hnames (by omega) w hslot
  omega

/-- An invocation with the code that it runs and the start of its stack. -/
structure Level (m : Machine) (cx : CodeEnv) where
  func : Func
  frame : Nat
  returns : Prop
  sheet : Sheet ⟨m, cx, func.body.calls, frame, returns⟩
  call : Invocation
  foot : Nat

namespace Level

variable {m : Machine} {cx : CodeEnv}

/-- The invocation is at the line of a state. -/
def noted (level : Level m cx) (s : State) : Level m cx :=
  { level with call := level.call.noted s }

/-- A level stands above the frames of the invocations that it comes after. -/
structure Sound (level : Level m cx) (r : Program) (bottom : Nat) (rest : List Invocation) :
    Prop where
  named : r.Names level.func level.call.symbol
  above : ∀ call ∈ level.call :: rest, ∀ a ∈ r.slots call, (level.foot : Int) ≤ a + level.frame
  foot_le : level.foot ≤ bottom
  foot_lt : level.foot < Word.bound
  returns : level.returns → level.foot = level.call.base.toNat

variable {level : Level m cx} {r : Program} {bottom : Nat} {rest : List Invocation}

theorem Sound.footing (h : level.Sound r bottom rest) :
    Footing ⟨m, cx, level.func.body.calls, level.frame, level.returns⟩ level.call level.foot
      (r.Safe bottom (level.call :: rest)) where
  below w hw := by
    have hfoot := h.foot_le
    have hlt := h.foot_lt
    change w + level.frame < level.foot at hw
    refine ⟨by omega, by omega, fun call hcall hslot => ?_⟩
    have hle := h.above call hcall w hslot
    omega
  bounded _ hw := hw.2.1
  foot_lt := h.foot_lt
  returns := h.returns

theorem Sound.noted (h : level.Sound r bottom rest) (s : State) :
    (level.noted s).Sound r bottom rest where
  named := h.named
  above := by
    have habove := h.above
    simp only [List.forall_mem_cons] at habove ⊢
    exact habove
  foot_le := h.foot_le
  foot_lt := h.foot_lt
  returns := h.returns

/-- The level of a caller while the function runs that it called. The stack fits the picture
behind the call, from the word on that lies above the return address. -/
structure Waits (caller : Level m cx) (r : Program) (bottom : Nat) (mem : Memory)
    (safe : Nat → Prop) (rest : List Invocation) (base : Nat) : Prop where
  sound : caller.Sound r bottom rest
  resumes : ∃ line σ, safe base ∧ mem (BitVec.ofNat 64 base) = BitVec.ofNat 64 line ∧
    line < Word.bound ∧ caller.sheet.At line (.unset :: .base :: σ) ∧ .target ∉ σ ∧
    Picture.Fits ⟨mem, 0, caller.call, caller.foot, safe⟩ (.unset :: .base :: σ) (base + 8)

end Level

section Beneath

variable {m : Machine} {cx : CodeEnv}

/-- What is beneath a level: nothing that is known beneath the first one, and a caller that
waits beneath every other one. -/
inductive Beneath (r : Program) (bottom : Nat) (origin : Level m cx) (outer : List Invocation)
    (mem : Memory) (safe : Nat → Prop) : Level m cx → List Invocation → Prop where
  | first {call : Invocation} : call.base = origin.call.base →
      Beneath r bottom origin outer mem safe { origin with call } outer
  | called {level caller : Level m cx} {rest : List Invocation} :
      level.sheet.stop = [.room Word.bound] → level.foot = level.call.base.toNat →
      caller.Waits r bottom mem safe rest level.foot →
      Beneath r bottom origin outer mem safe caller rest →
      Beneath r bottom origin outer mem safe level (caller.call :: rest)

variable {r : Program} {bottom : Nat} {origin level : Level m cx} {outer rest : List Invocation}
  {mem mem' : Memory} {safe safe' : Nat → Prop}

theorem Level.Waits.lt_foot {caller : Level m cx} {base : Nat}
    (h : caller.Waits r bottom mem safe rest base) : base < caller.foot := by
  obtain ⟨-, line, σ, -, -, -, -, -, hfits⟩ := h
  have hle : _ ≤ caller.foot := hfits.le
  rw [Picture.bytes_cons, Chunk.bytes] at hle
  omega

theorem Level.Waits.transfer {caller : Level m cx} {base : Nat}
    (h : caller.Waits r bottom mem safe rest base)
    (hmem : ∀ w, base ≤ w → safe w →
      safe' w ∧ mem' (BitVec.ofNat 64 w) = mem (BitVec.ofNat 64 w)) :
    caller.Waits r bottom mem' safe' rest base := by
  obtain ⟨hsound, line, σ, hsafe, hword, hline, hat, htarget, hfits⟩ := h
  obtain ⟨hsafe', hsame⟩ := hmem base (Nat.le_refl base) hsafe
  refine ⟨hsound, line, σ, hsafe', hsame.trans hword, hline, hat, htarget, ?_⟩
  exact hfits.transfer rfl rfl (fun w hw => hmem w (by omega)) (fun _ _ => rfl) fun _ => rfl

namespace Beneath

theorem foot_le (h : Beneath r bottom origin outer mem safe level rest) :
    level.foot ≤ origin.foot := by
  induction h with
  | first => exact Nat.le_refl _
  | called _ _ hwaits _ ih => exact Nat.le_trans (Nat.le_of_lt hwaits.lt_foot) ih

theorem length_le (h : Beneath r bottom origin outer mem safe level rest) :
    outer.length ≤ rest.length := by
  induction h with
  | first => exact Nat.le_refl _
  | called _ _ _ _ ih => exact Nat.le_succ_of_le ih

/-- Safe words from the foot of a level on carry what is beneath it. -/
theorem transfer (h : Beneath r bottom origin outer mem safe level rest)
    (hmem : ∀ w, level.foot ≤ w → safe w →
      safe' w ∧ mem' (BitVec.ofNat 64 w) = mem (BitVec.ofNat 64 w)) :
    Beneath r bottom origin outer mem' safe' level rest := by
  induction h with
  | first hbase => exact .first hbase
  | called hstop hfoot hwaits _ ih =>
      refine .called hstop hfoot (hwaits.transfer hmem) (ih fun w hw => hmem w ?_)
      exact Nat.le_trans (Nat.le_of_lt hwaits.lt_foot) hw

theorem noted (h : Beneath r bottom origin outer mem safe level rest) (s : State) :
    Beneath r bottom origin outer mem safe (level.noted s) rest := by
  cases h with
  | first hbase => exact .first hbase
  | called hstop hfoot hwaits hrest => exact .called hstop hfoot hwaits hrest

end Beneath

end Beneath

end Backend
