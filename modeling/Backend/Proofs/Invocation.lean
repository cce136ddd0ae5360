import Backend.Proofs.Preservation
import Backend.Proofs.Storage
import Mathlib.Data.List.Nodup

/-! # Runs through calls

A run is followed together with the invocations that are in progress. It is asked of every step
that the stack pointer does not wrap around, and that what the source program stores to a cell
of the stack goes to a variable of an invocation in progress. The C library is a function of the
machine in one kind of run, and may do whatever leaves what it has to keep in another.
-/

namespace Backend

/-- A call of a function that has not returned yet. -/
structure Invocation where
  symbol : String
  /-- The frame base, which is the stack pointer at the entry. -/
  base : Quad
  /-- What `%rax` had when the invocation was last at a line. -/
  left : Nat → Quad

/-- An invocation is at the line of a state. -/
def Invocation.noted (call : Invocation) (s : State) : Invocation :=
  { call with left := Function.update call.left s.pc s.rax }

/-- A machine state with the invocations in progress, the innermost one first. -/
structure Tracked where
  state : State
  calls : List Invocation

/-- The frame bases of the invocations in progress. -/
def Tracked.bases (c : Tracked) : List Quad := c.calls.map Invocation.base

theorem Tracked.exists_bases {c : Tracked} (h : c.calls ≠ []) :
    ∃ base rest, c.bases = base :: rest := by
  unfold bases
  cases hcalls : c.calls with
  | nil => exact absurd hcalls h
  | cons call others => exact ⟨_, _, rfl⟩

/-! ## Variables in progress -/

/-- The addresses of the cells of a variable. -/
def Decl.cells (base : Quad) (d : Decl) : List Int :=
  match d.offset with
  | .ok (some offset) => (List.range d.width).map fun i => base.toNat + offset + 8 * i
  | .ok none | .error _ => []

/-- The addresses of the cells of an invocation's parameters and locals. -/
def Program.slots (r : Program) (call : Invocation) : List Int :=
  r.functions.flatMap fun f =>
    if r.decls[f.decl]?.map Decl.name = some call.symbol then
      (paramsAt r.decls f.decl ++ f.body.locals).flatMap fun id =>
        r.decls[id]?.elim [] (Decl.cells call.base)
    else []

theorem Decl.mem_cells_iff {base : Quad} {d : Decl} {a : Int} :
    a ∈ d.cells base ↔
      ∃ offset i, d.offset = .ok (some offset) ∧ i < d.width ∧ a = base.toNat + offset + 8 * i := by
  unfold cells
  split
  next offset hoffset => simp [hoffset, eq_comm]
  next hoffset => simp [hoffset]
  next hoffset => simp [hoffset]

namespace Program

theorem mem_slots_iff {r : Program} {call : Invocation} {a : Int} :
    a ∈ r.slots call ↔ ∃ f d id v, .func f ∈ r.items ∧ r.decls[f.decl]? = some d ∧
      d.name = call.symbol ∧ id ∈ paramsAt r.decls f.decl ++ f.body.locals ∧
      r.decls[id]? = some v ∧ a ∈ v.cells call.base := by
  simp only [slots, List.mem_flatMap, mem_functions_iff]
  constructor
  · rintro ⟨f, hf, ha⟩
    split at ha
    next hname =>
      obtain ⟨d, hd, hname⟩ := Option.map_eq_some_iff.mp hname
      obtain ⟨id, hid, ha⟩ := List.mem_flatMap.mp ha
      cases hv : r.decls[id]? with
      | none =>
          rw [hv] at ha
          cases ha
      | some v =>
          rw [hv] at ha
          exact ⟨f, d, id, v, hf, hd, hname, hid, hv, ha⟩
    next => cases ha
  · rintro ⟨f, d, id, v, hf, hd, hname, hid, hv, ha⟩
    refine ⟨f, hf, ?_⟩
    rw [hd, Option.map_some, hname, if_pos rfl]
    refine List.mem_flatMap.mpr ⟨id, hid, ?_⟩
    rw [hv]
    exact ha

/-- Functions of one name are the same. -/
theorem NamesDistinct.func_eq {r : Program} (h : r.NamesDistinct) {f g : Func}
    (hf : .func f ∈ r.items) (hg : .func g ∈ r.items) {d e : Decl}
    (hd : r.decls[f.decl]? = some d) (he : r.decls[g.decl]? = some e) (hname : d.name = e.name) :
    f = g := by
  have hitems := List.inj_on_of_nodup_map h hf hg
  simp only [Item.name?, Item.id, hd, he, hname, Option.map_some, Item.func.injEq,
    forall_const] at hitems
  exact hitems

section Layout

variable {p q r : Program} {scope : Scope} (hwf : p.WellFormed)
  (hresolve : p.resolve scope = (q, .ok ())) (hlayout : q.layout = .ok r) {f : Func}
  (hf : .func f ∈ r.items)
include hwf hresolve hlayout hf

theorem frameSize_lt : f.frameSize < Word.bound := by
  have hnodup : q.listed.Nodup := by
    rw [listed_of_resolve hresolve]
    exact hwf.once
  have hall := Item.layoutAll_forall
    (P := fun _ item => ∀ g, item = .func g → g.frameSize < Word.bound) ?_ (fun h _ _ => h)
    (layout_eq_ok_iff.mp hlayout) hnodup
  · exact hall (.func f) hf f rfl
  · intro item item' decls decls' h _ g hg
    cases item with
    | var id =>
        cases hg
        cases (Item.layout_var h).1
    | func g₀ =>
        simp only [Item.layout, except_bind_eq_ok_iff, Prod.exists, except_pure_eq_ok_iff,
          Prod.mk.injEq, Word.mul_eq_ok_iff] at h
        obtain ⟨body, frame, -, _, ⟨hlt, rfl⟩, rfl, -⟩ := h
        cases hg
        exact hlt

theorem width_param {id : DeclId} (hid : id ∈ paramsAt r.decls f.decl) {v : Decl}
    (hv : r.decls[id]? = some v) : v.width = 1 := by
  have hsame := layout_sameButSlots hlayout
  have hmem : some f.decl ∈ p.items.map Item.funcDecl? := by
    rw [← funcDecls_of_resolve hresolve, ← funcDecls_of_layout hlayout]
    exact List.mem_map_of_mem hf
  obtain ⟨item, hitem, hdecl⟩ := List.mem_map.mp hmem
  obtain ⟨v₀, hv₀, hbare⟩ := hsame.exists_of_getElem? hv
  rw [decls_of_resolve hresolve] at hv₀
  rw [hsame.paramsAt_eq, decls_of_resolve hresolve] at hid
  apply Decl.width_eq_one_of_isParam
  rw [Decl.kind_eq_of_bare hbare]
  cases item with
  | var id => cases hdecl
  | func g =>
      rw [← Option.some.inj hdecl] at hid
      exact hwf.params g hitem id hid v₀ hv₀

/-- The variables of an invocation lie in the bytes that its function reserves below the frame
base, and in a word for each parameter above the return address and the frame base of the
caller. -/
theorem slots_bound (hfew : (paramsAt r.decls f.decl).length < 0x2000_0000_0000_0000) {d : Decl}
    (hd : r.decls[f.decl]? = some d) {call : Invocation} (hsymbol : call.symbol = d.name) {a : Int}
    (ha : a ∈ r.slots call) :
    call.base.toNat ≤ a + f.frameSize ∧ a < call.base.toNat ∨
      call.base.toNat + 16 ≤ a ∧
        a < call.base.toNat + 16 + 8 * (paramsAt r.decls f.decl).length := by
  obtain ⟨g, e, id, v, hg, he, hname, hid, hv, hcell⟩ := mem_slots_iff.mp ha
  have hnames := namesDistinct_of_layout hresolve hlayout
  obtain rfl := hnames.func_eq hf hg hd he (hsymbol.symm.trans hname.symm)
  obtain ⟨offset, i, hoffset, hi, rfl⟩ := Decl.mem_cells_iff.mp hcell
  obtain ⟨hparams, hlocals, -⟩ := placed_of_layout hwf hresolve hlayout hf
  have hsize := frameSize_lt hwf hresolve hlayout hf
  unfold Word.bound at hsize
  rcases List.mem_append.mp hid with hid | hid
  · obtain ⟨j, hj, hslot⟩ := hparams id hid v hv
    have hlt := (List.getElem?_eq_some_iff.mp hj).1
    have hwidth := width_param hwf hresolve hlayout hf hid hv
    have heq := Decl.offset_param hslot hoffset
    rw [Word.toSigned_of_lt (by unfold Word.bound; omega)] at heq
    cases heq
    right
    omega
  · obtain ⟨slot, hslot, hdepth, hstop⟩ := hlocals id hid v hv
    obtain ⟨last, hlast, heq⟩ := Decl.offset_local hslot hdepth hoffset
    rw [Word.toSigned_of_lt (by unfold Word.bound; omega)] at heq
    cases heq
    left
    omega

end Layout

end Program

/-! ## Steps -/

/-- Whether an instruction moves the stack pointer down. -/
def Inst.takesStack : Inst → Bool
  | .pushq _ | .call _ | .subq _ (.reg .rsp) => true
  | _ => false

namespace Machine

/-- Whether a symbol is a function of the C library. -/
def isLibrary (symbol : String) : Bool := symbol == "printf@PLT" || symbol == "scanf@PLT"

/-- The innermost invocation is at the line of a state. -/
def note (s : State) : List Invocation → List Invocation
  | [] => []
  | call :: rest => call.noted s :: rest

/-- The invocations in progress after a step. -/
def track (m : Machine) (s s' : State) (calls : List Invocation) : List Invocation :=
  match m.code[s.pc]? with
  | some (.inst (.call symbol)) =>
      if isLibrary symbol then note s calls
      else { symbol, base := s'.rsp, left := fun _ => 0 } :: note s calls
  | some (.inst .ret) => calls.tail
  | _ => note s calls

/-- The cells of a stack that ends before `bottom`. One that has grown over its limit has more
cells. -/
def OnStack (m : Machine) (bottom : Nat) (rsp a : Quad) : Prop :=
  (m.limit ≤ a.toNat ∨ rsp.toNat ≤ a.toNat) ∧ a.toNat < bottom

/-- The cell that a library function is called for, with the stack aligned. -/
def Handed (m : Machine) (s : State) (a : Quad) : Prop :=
  a = s.rsi ∧ m.code[s.pc + 1]? = some (.inst (.movq (.mem 8 .rsp) .rsp))

/-- A step of a run in which the stack is used as the source program and the C library may. -/
structure Advances (m : Machine) (r : Program) (bottom : Nat) (c c' : Tracked) : Prop where
  step : m.step c.state = some c'.state
  calls : c'.calls = m.track c.state c'.state c.calls
  room : ∀ x, m.code[c.state.pc]? = some (.inst x) → x.takesStack = true →
    c'.state.rsp.toNat ≤ c.state.rsp.toNat
  stores : ∀ src dst a, m.code[c.state.pc]? = some (.inst (.movq src dst)) →
    m.address c.state dst = some a → m.OnStack bottom c.state.rsp a →
    ∃ call ∈ c.calls, (a.toNat : Int) ∈ r.slots call
  library : ∀ symbol, m.code[c.state.pc]? = some (.inst (.call symbol)) →
    isLibrary symbol = true → ∀ a, ¬ m.Free c.state.rsp a → ¬ m.Handed c.state a →
    c'.state.mem a = c.state.mem a

/-- A state is at a call into the C library. -/
def AtLibrary (m : Machine) (s : State) : Prop :=
  ∃ symbol, m.code[s.pc]? = some (.inst (.call symbol)) ∧ isLibrary symbol = true

/-- The cell that `scanf` is called to store to. -/
def Given (m : Machine) (s : State) (a : Quad) : Prop :=
  m.code[s.pc]? = some (.inst (.call "scanf@PLT")) ∧ m.Handed s a

/-- A function of the C library has returned, and kept what it has to. -/
structure Returned (m : Machine) (s s' : State) : Prop where
  pc : s'.pc = s.pc + 1
  rsp : s'.rsp = s.rsp
  rbx : s'.rbx = s.rbx
  mem : ∀ a, s.rsp.toNat ≤ a.toNat → ¬ m.Given s a → s'.mem a = s.mem a

/-- A step of a run through functions and their calls. The C library may do whatever leaves
what it has to keep, and the stack pointer does not wrap around. -/
structure Goes (m : Machine) (c c' : Tracked) : Prop where
  busy : c.calls ≠ []
  step : ¬ m.AtLibrary c.state → m.step c.state = some c'.state
  library : m.AtLibrary c.state → m.Returned c.state c'.state
  calls : c'.calls = m.track c.state c'.state c.calls
  room : ∀ x, m.code[c.state.pc]? = some (.inst x) → x.takesStack = true →
    c'.state.rsp.toNat ≤ c.state.rsp.toNat

/-- The cell that the source program stores to at the line of a state. -/
def stored (m : Machine) (s : State) : Option Quad :=
  match m.code[s.pc]? with
  | some (.inst (.movq _ dst)) => m.address s dst
  | _ => none

/-- The source program stores to no cell of the stack but those of variables of the invocations
in progress. -/
def Confined (m : Machine) (r : Program) (bottom : Nat) (c : Tracked) : Prop :=
  ∀ a ∈ m.stored c.state, m.OnStack bottom c.state.rsp a →
    ∃ call ∈ c.calls, (a.toNat : Int) ∈ r.slots call

/-- The source program does not store to the words in which the calls in progress keep the line
to return to and the frame base of the caller. -/
def Spares (m : Machine) (c : Tracked) : Prop :=
  ∀ a ∈ m.stored c.state, ∀ base ∈ c.bases.dropLast, a ≠ base ∧ a ≠ base + 8#64

/-- The states of a run, the last one first, where every step is made from a state with a
property. -/
inductive Ran (m : Machine) (P : Tracked → Prop) (start : Tracked) : List Tracked → Prop where
  | start : Ran m P start [start]
  | goes {c c' : Tracked} {past : List Tracked} :
      Ran m P start (c :: past) → P c → m.Goes c c' → Ran m P start (c' :: c :: past)

/-- The innermost invocation of `start` is in code of the given length. -/
def Inside (start : Tracked) (length : Nat) (c : Tracked) : Prop :=
  c.calls.length = start.calls.length →
    start.state.pc ≤ c.state.pc ∧ c.state.pc < start.state.pc + length

/-- A run of code, through the functions that it calls, up to the first line behind it. -/
def Runs (m : Machine) (r : Program) (bottom : Nat) (start : Tracked) (length : Nat) :
    Tracked → Prop :=
  Relation.ReflTransGen (fun c c' => Inside start length c ∧ m.Advances r bottom c c') start

variable {m : Machine} {r : Program} {bottom : Nat}

theorem stored_eq {s : State} {src dst : Operand}
    (hline : m.code[s.pc]? = some (.inst (.movq src dst))) : m.stored s = m.address s dst := by
  rw [stored, hline]

theorem Advances.confined {c c' : Tracked} (h : m.Advances r bottom c c') :
    m.Confined r bottom c := by
  intro a ha
  unfold stored at ha
  split at ha
  next src dst hline => exact h.stores src dst a hline ha
  next => cases ha

theorem step_library {s s' : State} {symbol : String}
    (hline : m.code[s.pc]? = some (.inst (.call symbol)))
    (hlibrary : isLibrary symbol = true) (h : m.step s = some s') :
    s'.pc = s.pc + 1 ∧ s'.rsp = s.rsp ∧ s'.rbx = s.rbx ∧
      ∀ a, ¬ m.Free s.rsp a → (symbol = "scanf@PLT" → a ≠ s.rsi) → s'.mem a = s.mem a := by
  unfold step at h
  rw [hline] at h
  simp only [isLibrary, Bool.or_eq_true, beq_iff_eq] at hlibrary
  rcases hlibrary with rfl | rfl
  · change m.printf s = some s' at h
    simp only [printf, Option.bind_eq_bind] at h
    split at h
    · obtain ⟨event, -, hs'⟩ := Option.bind_eq_some_iff.mp h
      cases hs'
      exact ⟨rfl, rfl, rfl, fun a ha _ => if_neg ha⟩
    · cases h
  · change m.scanf s = some s' at h
    unfold scanf at h
    split at h
    · unfold State.store at h
      split at h <;> cases h
      refine ⟨rfl, rfl, rfl, fun a ha hne => ?_⟩
      exact (Function.update_of_ne (hne rfl) _ _).trans (if_neg ha)
    · cases h

/-- What the machine has for a function of the C library is a way for it to return. -/
theorem Advances.goes {c c' : Tracked} (h : m.Advances r bottom c c') (hbusy : c.calls ≠ []) :
    m.Goes c c' where
  busy := hbusy
  step _ := h.step
  library hlibrary := by
    obtain ⟨symbol, hline, hsymbol⟩ := hlibrary
    obtain ⟨hpc, hrsp, hrbx, hmem⟩ := step_library hline hsymbol h.step
    refine ⟨hpc, hrsp, hrbx, fun a ha hgiven => ?_⟩
    have hused : ¬ m.Free c.state.rsp a := fun hfree => absurd hfree.2 (Nat.not_lt_of_le ha)
    by_cases hhanded : m.Handed c.state a
    · refine hmem a hused ?_
      rintro rfl
      exact absurd ⟨hline, hhanded⟩ hgiven
    · exact h.library symbol hline hsymbol a hused hhanded
  calls := h.calls
  room := h.room

/-! ## Runs that are computed -/

instance (m : Machine) (bottom : Nat) (rsp a : Quad) : Decidable (m.OnStack bottom rsp a) :=
  inferInstanceAs (Decidable (_ ∧ _))

-- The instances are named, since the one for all words would be found first.
instance (m : Machine) (r : Program) (bottom : Nat) : DecidablePred (m.Confined r bottom) :=
  fun c => Option.decidableForallMem (m.stored c.state)

instance (m : Machine) : DecidablePred m.Spares := fun c =>
  @Option.decidableForallMem _ _ (fun _ => List.decidableBAll _ _) (m.stored c.state)

/-- Whether a step uses the stack as it may, where it does not call a library function. -/
def permits (m : Machine) (r : Program) (bottom : Nat) (c : Tracked) (s' : State) : Bool :=
  match m.code[c.state.pc]? with
  | some (.inst (.movq _ dst)) => (m.address c.state dst).all fun a =>
      m.OnStack bottom c.state.rsp a → ∃ call ∈ c.calls, (a.toNat : Int) ∈ r.slots call
  | some (.inst (.call symbol)) =>
      isLibrary symbol = false ∧ s'.rsp.toNat ≤ c.state.rsp.toNat
  | some (.inst x) => x.takesStack = true → s'.rsp.toNat ≤ c.state.rsp.toNat
  | _ => true

/-- Make a number of steps that do not call a library function. -/
def run? (m : Machine) (r : Program) (bottom : Nat) (start : Tracked) (length : Nat) :
    Nat → Option Tracked
  | 0 => some start
  | steps + 1 => (m.run? r bottom start length steps).bind fun c =>
      (m.step c.state).bind fun s' =>
        if c.calls.length = start.calls.length ∧ (c.state.pc < start.state.pc ∨
          start.state.pc + length ≤ c.state.pc) then none
        else if m.permits r bottom c s' then
          some { state := s', calls := m.track c.state s' c.calls }
        else none

theorem advances_of_permits {c : Tracked} {s' : State} (hstep : m.step c.state = some s')
    (h : m.permits r bottom c s' = true) :
    m.Advances r bottom c { state := s', calls := m.track c.state s' c.calls } where
  step := hstep
  calls := rfl
  room x hline hx := by
    unfold permits at h
    rw [hline] at h
    cases x with
    | movq _ _ => cases hx
    | call _ => exact (of_decide_eq_true h).2
    | _ => exact of_decide_eq_true h hx
  stores src dst a hline ha hstack := by
    unfold permits at h
    rw [hline] at h
    change Option.all _ _ = true at h
    rw [ha] at h
    exact of_decide_eq_true h hstack
  library symbol hline hsymbol := by
    unfold permits at h
    rw [hline] at h
    have hnone := (of_decide_eq_true h).1
    rw [hsymbol] at hnone
    cases hnone

theorem advances_of_run? {start c' : Tracked} {length steps : Nat}
    (h : m.run? r bottom start length (steps + 1) = some c') :
    ∃ c, m.run? r bottom start length steps = some c ∧ Inside start length c ∧
      m.Advances r bottom c c' := by
  obtain ⟨c, hc, h⟩ := Option.bind_eq_some_iff.mp h
  obtain ⟨s', hstep, h⟩ := Option.bind_eq_some_iff.mp h
  split at h
  · cases h
  next hinside =>
    split at h
    next hpermits =>
      cases h
      exact ⟨c, hc, fun _ => by omega, advances_of_permits hstep hpermits⟩
    next => cases h

theorem runs_of_run? {start c : Tracked} {length steps : Nat}
    (h : m.run? r bottom start length steps = some c) : m.Runs r bottom start length c := by
  induction steps generalizing c with
  | zero =>
      cases h
      exact .refl
  | succ steps ih =>
      obtain ⟨c₀, hc₀, hinside, hadvances⟩ := advances_of_run? h
      exact (ih hc₀).tail ⟨hinside, hadvances⟩

/-- Whether a step leaves room on the stack, and calls a library function with the stack aligned
only. -/
def allows (m : Machine) (c : Tracked) (s' : State) : Bool :=
  match m.code[c.state.pc]? with
  | some (.inst (.call symbol)) => s'.rsp.toNat ≤ c.state.rsp.toNat ∧
      (isLibrary symbol = true →
        m.code[c.state.pc + 1]? = some (.inst (.movq (.mem 8 .rsp) .rsp)))
  | some (.inst x) => x.takesStack = true → s'.rsp.toNat ≤ c.state.rsp.toNat
  | _ => true

/-- Make a number of steps from states with a property. -/
def trace? (m : Machine) (P : Tracked → Prop) [DecidablePred P] (start : Tracked) :
    Nat → Option (List Tracked)
  | 0 => some [start]
  | steps + 1 => (m.trace? P start steps).bind fun
      | [] => none
      | c :: past => (m.step c.state).bind fun s' =>
          if c.calls ≠ [] ∧ P c ∧ m.allows c s' then
            some ({ state := s', calls := m.track c.state s' c.calls } :: c :: past)
          else none

theorem returned_of_step {s s' : State} {symbol : String}
    (hline : m.code[s.pc]? = some (.inst (.call symbol))) (hsymbol : isLibrary symbol = true)
    (hclose : m.code[s.pc + 1]? = some (.inst (.movq (.mem 8 .rsp) .rsp)))
    (h : m.step s = some s') : m.Returned s s' := by
  obtain ⟨hpc, hrsp, hrbx, hmem⟩ := step_library hline hsymbol h
  refine ⟨hpc, hrsp, hrbx, fun a ha hgiven => hmem a (fun hfree => ?_) ?_⟩
  · exact absurd hfree.2 (Nat.not_lt_of_le ha)
  · rintro rfl rfl
    exact hgiven ⟨hline, rfl, hclose⟩

theorem goes_of_allows {c : Tracked} {s' : State} (hstep : m.step c.state = some s')
    (hbusy : c.calls ≠ []) (h : m.allows c s' = true) :
    m.Goes c { state := s', calls := m.track c.state s' c.calls } where
  busy := hbusy
  step _ := hstep
  library hlibrary := by
    obtain ⟨symbol, hline, hsymbol⟩ := hlibrary
    unfold allows at h
    rw [hline] at h
    exact returned_of_step hline hsymbol ((of_decide_eq_true h).2 hsymbol) hstep
  calls := rfl
  room x hline hx := by
    unfold allows at h
    rw [hline] at h
    cases x with
    | call _ => exact (of_decide_eq_true h).1
    | _ => exact of_decide_eq_true h hx

theorem ran_of_trace? {P : Tracked → Prop} [DecidablePred P] {start : Tracked} {steps : Nat}
    {run : List Tracked} (h : m.trace? P start steps = some run) : m.Ran P start run := by
  induction steps generalizing run with
  | zero =>
      cases h
      exact .start
  | succ steps ih =>
      obtain ⟨past, hpast, h⟩ := Option.bind_eq_some_iff.mp h
      cases past with
      | nil => cases h
      | cons c past =>
          obtain ⟨s', hstep, h⟩ := Option.bind_eq_some_iff.mp h
          split at h
          next hgoes =>
            cases h
            exact .goes (ih hpast) hgoes.2.1 (goes_of_allows hstep hgoes.1 hgoes.2.2)
          next => cases h

theorem exists_ran {P : Tracked → Prop} [DecidablePred P] {start : Tracked} {steps : Nat}
    {α : Type} {view : Tracked → α} {a : α}
    (h : ((m.trace? P start steps).bind List.head?).map view = some a) :
    ∃ c past, m.Ran P start (c :: past) ∧ view c = a := by
  obtain ⟨c, hc, rfl⟩ := Option.map_eq_some_iff.mp h
  obtain ⟨run, hrun, hhead⟩ := Option.bind_eq_some_iff.mp hc
  obtain ⟨past, rfl⟩ := List.head?_eq_some_iff.mp hhead
  exact ⟨c, past, ran_of_trace? hrun, rfl⟩

end Machine

end Backend
