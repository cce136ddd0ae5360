import Backend.Proofs.CallSteps
import Backend.Proofs.Drawing
import Backend.Tree.Build

/-! # The calling convention

Arguments are pushed from the last to the first, the caller's frame base on top of them, and
the call pushes the line to return to. A function that is called so finds its arguments at the
offsets of its parameters, through any number of calls that call again, and the caller finds
its stack as it was.
-/

namespace Backend

/-! ## Calls of a program -/

namespace Node

theorem mem_callees_of_mem_calls {l : Layer} {n : Node l} {x : Ident} {args : Node .args}
    (h : (x, args) ∈ n.calls) : x ∈ n.callees := by
  induction n with
  | assign _ _ _ iha ihb | rel _ _ _ _ iha ihb | add _ _ _ _ iha ihb | mul _ _ _ _ iha ihb
  | cons _ _ iha ihb =>
      rcases List.mem_append.mp h with h | h
      · exact List.mem_append_left _ (iha h)
      · exact List.mem_append_right _ (ihb h)
  | call _ y args ih =>
      rcases List.mem_cons.mp h with h | h
      · cases h
        exact List.mem_cons_self
      · exact List.mem_cons_of_mem _ (ih h)
  | comp _ _ ih | sum _ _ ih | term _ _ ih | unary _ _ ih | neg _ _ ih | addrOf _ _ ih
  | deref _ _ ih | factor _ _ ih | paren _ _ ih | setElem _ _ _ ih | elem _ _ _ ih => exact ih h
  | setVar | setDeref | var | num | str | read | nil => cases h

/-- The arguments of a call have their calls in the same node. -/
theorem calls_subset_of_mem {l : Layer} {n : Node l} {x : Ident} {args : Node .args}
    (h : (x, args) ∈ n.calls) : args.calls ⊆ n.calls := by
  induction n with
  | assign _ _ _ iha ihb | rel _ _ _ _ iha ihb | add _ _ _ _ iha ihb | mul _ _ _ _ iha ihb
  | cons _ _ iha ihb =>
      rcases List.mem_append.mp h with h | h
      · exact List.subset_append_of_subset_left _ (iha h)
      · exact List.subset_append_of_subset_right _ (ihb h)
  | call _ y args ih =>
      rcases List.mem_cons.mp h with h | h
      · cases h
        exact List.subset_cons_self _ _
      · exact List.subset_cons_of_subset _ (ih h)
  | comp _ _ ih | sum _ _ ih | term _ _ ih | unary _ _ ih | neg _ _ ih | addrOf _ _ ih
  | deref _ _ ih | factor _ _ ih | paren _ _ ih | setElem _ _ _ ih | elem _ _ _ ih => exact ih h
  | setVar | setDeref | var | num | str | read | nil => cases h

end Node

theorem Clause.calls_subset_of_mem {f : Form} {c : Clause f} {x : Ident} {args : Node .args}
    (h : (x, args) ∈ c.calls) : args.calls ⊆ c.calls := by
  obtain ⟨e, he, hcall⟩ := List.mem_flatMap.mp h
  intro call hmem
  exact List.mem_flatMap.mpr ⟨e, he, Node.calls_subset_of_mem hcall hmem⟩

theorem Typed.count_bound {decls : List Decl} {Γ : Meaning} :
    ∀ {args args' : Node .args} {ts : List Ty}, Typed decls Γ args args' ts →
      args'.count = ts.length
  | _, _, _, .nil => rfl
  | _, _, _, .cons _ hrest => by rw [Node.count, count_bound hrest, List.length_cons]

/-- A call in an accepted node is of a function in scope, with an argument for each parameter. -/
theorem Typed.calls_bound {decls : List Decl} {Γ : Meaning} {l : Layer} {n n' : Node l}
    {ts : List Ty} (h : Typed decls Γ n n' ts) {x : Ident} {args : Node .args}
    (hx : (x, args) ∈ n'.calls) :
    ∃ id d, x.decl = some id ∧ decls[id]? = some d ∧ d.isFunc = true ∧
      d.params.length = args.count := by
  induction h with
  | @call _ _ _ d _ _ _ hmeans hfunc hargs hformals ih =>
      rcases List.mem_cons.mp hx with heq | hx
      · cases heq
        obtain ⟨id, -, hd, rfl⟩ := hmeans
        exact ⟨id, d, rfl, hd, hfunc, by rw [hformals.length_eq, hargs.count_bound]⟩
      · exact ih hx
  | assign _ _ _ iha ihb | rel _ _ iha ihb | add _ _ iha ihb | mul _ _ iha ihb
  | cons _ _ iha ihb =>
      rcases List.mem_append.mp hx with hx | hx
      · exact iha hx
      · exact ihb hx
  | comp _ ih | sum _ ih | term _ ih | unary _ ih | neg _ ih | addrOf _ _ _ ih | deref _ _ ih
  | factor _ ih | paren _ ih | setElem _ _ _ _ ih | elem _ _ _ _ ih => exact ih hx
  | setVar | setDeref | var | num | str | read | nil => cases hx

namespace Program

section Calls

variable {p q r : Program} {scope : Scope} (hwf : p.WellFormed)
  (hresolve : p.resolve scope = (q, .ok ())) (hlayout : q.layout = .ok r)
include hwf hresolve hlayout

theorem isFunc_false_of_var {id : DeclId} (hid : .var id ∈ r.items) {d : Decl}
    (hd : q.decls[id]? = some d) : d.isFunc = false := by
  have hmem : Item.bare (.var id) ∈ q.items.map Item.bare := by
    rw [← layout_items hlayout]
    exact List.mem_map_of_mem hid
  obtain ⟨item, hitem, hbare⟩ := List.mem_map.mp hmem
  have hvar : id ∈ p.vars := by
    rw [← vars_of_resolve hresolve]
    cases item with
    | var id' =>
        cases hbare
        exact List.mem_flatMap.mpr ⟨_, hitem, List.mem_singleton_self id⟩
    | func f => cases hbare
  rw [decls_of_resolve hresolve] at hd
  exact hwf.kindsAgree.vars id hvar d hd

/-- What a function calls is a function of the program with as many parameters as there are
arguments. -/
theorem callee_of_call {f : Func} (hf : .func f ∈ r.items) {x : Ident} {args : Node .args}
    (hcall : (x, args) ∈ f.body.calls) :
    ∃ g, .func g ∈ r.items ∧ x.decl = some g.decl ∧
      (paramsAt r.decls g.decl).length = args.count := by
  obtain ⟨e, he, hcall⟩ := List.mem_flatMap.mp hcall
  obtain ⟨id, hid, hmem⟩ := callees_of_layout hresolve hlayout hf he hwf.kindsAgree
    (Node.mem_callees_of_mem_calls hcall)
  obtain ⟨f₀, hf₀, -, hbody⟩ := func_of_layout hlayout hf
  rw [← Clause.exprs_bare, hbody, Clause.exprs_bare] at he
  obtain ⟨Γ, e₀, t, htyped, -⟩ := typed_of_resolve hresolve hf₀ he
  obtain ⟨id', d, hid', hd, hfunc, hcount⟩ := htyped.calls_bound hcall
  obtain rfl : id = id' := Option.some.inj (hid.symm.trans hid')
  obtain ⟨item, hitem, rfl⟩ := List.mem_map.mp hmem
  cases item with
  | var id =>
      rw [isFunc_false_of_var hwf hresolve hlayout hitem hd] at hfunc
      cases hfunc
  | func g =>
      refine ⟨g, hitem, hid, ?_⟩
      rw [(layout_sameButSlots hlayout).paramsAt_eq, paramsAt]
      change q.decls[g.decl]? = some d at hd
      rw [hd]
      exact hcount

variable {pool : Pool} {k k' : Nat} {code before after : Code}
  (hcode : Func.codeAll { decls := r.decls, pool } r.functions k = .ok code k')
  (hdots : ∀ d ∈ r.decls, d.name.toList.head? ≠ some '.') {m : Machine}
  (hm : m.code = before ++ code ++ after) (hbefore : before.labels = [])
  (hlines : m.code.length < Word.bound)
include hcode hdots hm hbefore hlines

theorem linked : Linked m r { decls := r.decls, pool } where
  callee f symbol x args line pushes ends hf hcall hsite := by
    obtain ⟨g, hg, hdecl, hcount⟩ := callee_of_call hwf hresolve hlayout hf hcall
    obtain ⟨id, d, hid, hd, hname⟩ := hsite.callee
    obtain rfl : g.decl = id := Option.some.inj (hdecl.symm.trans hid)
    exact ⟨g, ⟨hg, d, hd, hname⟩, hcount⟩
  entry g symbol hnames := by
    obtain ⟨hg, d, hd, rfl⟩ := hnames
    obtain ⟨line, own, k, k', htarget, hown, hheld⟩ := holds_function hcode
      (namesDistinct_of_layout hresolve hlayout) hdots hm hbefore hg hd
    have hdrawn : Drawn (g.outline m { decls := r.decls, pool }) line [.unset] own
        [.room Word.bound] :=
      Func.drawn_code hown hheld (List.Subset.refl _) trivial rfl
        (frameSize_lt hwf hresolve hlayout hg)
    obtain ⟨sheet, rfl, hstart, hstop, -⟩ := hdrawn.exists_sheet hheld (by simp)
    exact ⟨sheet, htarget, hstart, hstop⟩
  slots g call hnames hfew a ha := by
    obtain ⟨hg, d, hd, hname⟩ := hnames
    exact slots_bound hwf hresolve hlayout hg hfew hd hname.symm ha
  lines := hlines

end Calls

end Program

/-! ## Arguments and parameters -/

/-- A function has been entered by a call in the code of its caller. Its frame base is set, and
at the offset of each parameter is what the code of the argument left in `%rax`. -/
def Receives (m : Machine) (r : Program) (cx : CodeEnv) (s : State)
    (callee caller : Invocation) : Prop :=
  s.rbx = callee.base ∧
  ∃ f g x args line pushes ends, r.Names f caller.symbol ∧ (x, args) ∈ f.body.calls ∧
    CallSite m cx x args line pushes ends callee.symbol ∧ r.Names g callee.symbol ∧
    s.mem s.rbx = BitVec.ofNat 64 (line + pushes.length + 2) ∧
    ∀ i < args.count, ∃ stop id v, ends[i]? = some stop ∧
      (paramsAt r.decls g.decl)[i]? = some id ∧ r.decls[id]? = some v ∧
      (i + 2 < 0x1000_0000_0000_0000 → ∃ offset, v.offset = .ok (some offset)) ∧
      ∀ offset, v.offset = .ok (some offset) →
        s.mem (s.rbx + BitVec.ofInt 64 offset) = caller.left (line + stop)

namespace Program

variable {p q r : Program} {scope : Scope} (hwf : p.WellFormed)
  (hresolve : p.resolve scope = (q, .ok ())) (hlayout : q.layout = .ok r)
include hwf hresolve hlayout

/-- The parameters of a function have the positions in which they are listed. -/
theorem slot_of_param {g : Func} (hg : .func g ∈ r.items) {i : Nat} {id : DeclId}
    (hid : (paramsAt r.decls g.decl)[i]? = some id) :
    ∃ v, r.decls[id]? = some v ∧ v.slot = some ⟨1, i⟩ := by
  have hlisted : r.listed = p.listed :=
    (listed_of_layout hlayout).trans (listed_of_resolve hresolve)
  have hlength : r.decls.length = p.decls.length := by
    rw [← decls_of_resolve hresolve]
    simpa using congrArg List.length (layout_sameButSlots hlayout)
  have hmem := List.mem_of_getElem? hid
  have hitem : ((Item.func g).listed r.decls).Nodup := by
    have honce := hwf.once
    rw [← hlisted] at honce
    exact (List.nodup_flatMap.mp honce).1 _ hg
  have hlt : id < r.decls.length := by
    rw [hlength]
    apply hwf.inRange
    rw [← hlisted]
    exact List.mem_flatMap.mpr
      ⟨_, hg, List.mem_cons_of_mem _ (List.mem_append_left _ hmem)⟩
  have hv := List.getElem?_eq_getElem hlt
  obtain ⟨hparams, -⟩ := placed_of_layout hwf hresolve hlayout hg
  obtain ⟨j, hj, hslot⟩ := hparams id hmem _ hv
  have hnodup := (List.nodup_append.mp (List.nodup_cons.mp hitem).2).1
  obtain rfl : i = j :=
    (List.getElem?_inj (List.getElem?_eq_some_iff.mp hid).1 hnodup).mp (hid.trans hj.symm)
  exact ⟨_, hv, hslot⟩

theorem receives {m : Machine} {pool : Pool} {s : State} {callee caller : Invocation}
    (hbase : s.rbx = callee.base)
    (h : Handover m r { decls := r.decls, pool } s.mem callee caller) :
    Receives m r { decls := r.decls, pool } s callee caller := by
  obtain ⟨f, g, x, args, line, pushes, ends, hf, hcall, hsite, hg, hcount, hreturn, hwords⟩ := h
  refine ⟨hbase, f, g, x, args, line, pushes, ends, hf, hcall, hsite, hg, ?_, fun i hi => ?_⟩
  · rw [hbase, hreturn]
  have hparam := List.getElem?_eq_getElem (Nat.lt_of_lt_of_eq hi hcount.symm)
  have hstop := List.getElem?_eq_getElem (Nat.lt_of_lt_of_eq hi hsite.arguments.length_eq.symm)
  obtain ⟨v, hv, hslot⟩ := slot_of_param hwf hresolve hlayout hg.1 hparam
  refine ⟨_, _, v, hstop, hparam, hv, fun hsmall => ⟨_, Decl.offset_eq_of_param hslot hsmall⟩, ?_⟩
  intro offset hoffset
  have hfew := hsite.few
  have heq := Decl.offset_param hslot hoffset
  rw [Word.toSigned_of_lt (by unfold Word.bound; omega)] at heq
  cases heq
  have hword : BitVec.ofInt 64 (16 + 8 * (i : Int)) = BitVec.ofNat 64 (16 + 8 * i) := by
    rw [← BitVec.ofInt_natCast]
    rfl
  rw [hbase, ← hwords i _ hstop, hword]

section Start

variable {f : Func} {m : Machine} {cx : CodeEnv} {start : Tracked} {caller : Invocation}
  {outer : List Invocation} {bottom : Nat}

omit hwf hresolve hlayout in
/-- A run of code of a function starts with an empty picture, on top of what the caller has
pushed. -/
theorem standing_start (hnames : r.Names f caller.symbol)
    (hcalls : start.calls = caller :: outer) (hbase : start.state.rbx = caller.base)
    (hframe : start.state.rsp.toNat + f.frameSize ≤ start.state.rbx.toNat)
    (hbottom : start.state.rbx.toNat ≤ bottom)
    (hslots : ∀ call ∈ start.calls, ∀ a ∈ r.slots call,
      (start.state.rbx.toNat : Int) ≤ a + f.frameSize)
    {sheet : Sheet ⟨m, cx, f.body.calls, 0, False⟩} (hfirst : sheet.first = start.state.pc)
    (hstart : sheet.start = []) :
    Standing r bottom (start.state.rbx.toNat - f.frameSize)
      ⟨f, 0, False, sheet, caller, start.state.rsp.toNat⟩ outer start.state.mem start
      ⟨f, 0, False, sheet, caller, start.state.rsp.toNat⟩ outer [] := by
  rw [hcalls] at hslots
  refine ⟨hcalls, ⟨hnames, fun call hcall a ha => ?_, ?_, start.state.rsp.isLt, False.elim⟩,
    .first rfl, ?_, ⟨rfl, fun _ => hbase⟩, by simp, fun w hw hroof => ⟨⟨?_, ?_, ?_⟩, rfl⟩⟩
  · have hle := hslots call hcall a ha
    change (start.state.rsp.toNat : Int) ≤ a + (0 : Nat)
    omega
  · change start.state.rsp.toNat ≤ bottom
    omega
  · have hat := sheet.at_start
    rwa [hfirst, hstart] at hat
  · omega
  · have hlt := start.state.rbx.isLt
    unfold Word.bound
    omega
  · intro call hcall hslot
    have hle := hslots call hcall w hslot
    omega

end Start

end Program

/-- The calling convention. Let a run go through the code of a call and through the functions
that are called on the way. Wherever a function sets its frame base, it has received the
arguments of the call that entered it. If the run comes to the line behind the code, the stack
pointer and the frame base are those of the start, and so are the words that the caller had
pushed below its frame. -/
theorem Program.calls_pass_arguments_and_keep_stack {p q r : Program} {scope : Scope}
    (hwf : p.WellFormed) (hresolve : p.resolve scope = (q, .ok ())) (hlayout : q.layout = .ok r)
    {n n₁ n₂ : Nat} {data text : Code} {pool : Pool} (hdata : r.data n = .ok (data, pool) n₁)
    (htext : r.text pool n₁ = .ok text n₂)
    (hdots : ∀ d ∈ r.decls, d.name.toList.head? ≠ some '.') {m : Machine}
    (hm : m.code = data ++ text) (hlines : m.code.length < Word.bound) {f : Func}
    (hf : .func f ∈ r.items) {d : Decl} (hd : r.decls[f.decl]? = some d) {x : Ident}
    {args : Node .args} (hcall : (x, args) ∈ f.body.calls) {mark : Mark} {access : Access}
    {k k' : Nat} {code : Code}
    (hcode : (Node.call mark x args).code { decls := r.decls, pool } access k = .ok code k')
    {start : Tracked} (hheld : m.Holds start.state.pc code) {caller : Invocation}
    {outer : List Invocation} (hcalls : start.calls = caller :: outer)
    (hsymbol : caller.symbol = d.name) (hbase : start.state.rbx = caller.base)
    (hframe : start.state.rsp.toNat + f.frameSize ≤ start.state.rbx.toNat) {bottom : Nat}
    (hbottom : start.state.rbx.toNat ≤ bottom)
    (hslots : ∀ call ∈ start.calls, ∀ a ∈ r.slots call,
      (start.state.rbx.toNat : Int) ≤ a + f.frameSize) :
    (∀ c c', m.Runs r bottom start code.length c → Machine.Inside start code.length c →
      m.Advances r bottom c c' → m.code[c.state.pc]? = some (.inst (.movq .rsp (.reg .rbx))) →
      ∃ callee caller rest, c'.calls = callee :: caller :: rest ∧
        Receives m r { decls := r.decls, pool } c'.state callee caller) ∧
    ∀ c, m.Runs r bottom start code.length c → c.calls.length = start.calls.length →
      c.state.pc = start.state.pc + code.length →
      c.state.rsp = start.state.rsp ∧ c.state.rbx = start.state.rbx ∧
        ∀ a : Quad, start.state.rsp.toNat ≤ a.toNat →
          a.toNat + f.frameSize < start.state.rbx.toNat → c.state.mem a = start.state.mem a := by
  obtain ⟨before, functions, after, hfunctions, hlisting, hbefore, -⟩ := listing_eq hdata htext
  have hlinked := linked hwf hresolve hlayout hfunctions hdots (hm.trans hlisting) hbefore hlines
  have hdrawn : Drawn ⟨m, { decls := r.decls, pool }, f.body.calls, 0, False⟩ start.state.pc []
      code [] := by
    refine (Node.drawn_code hcode hheld ?_ (Nat.zero_le _) ⟨by simp, by simp⟩).level (by decide)
    rw [Node.calls, List.cons_subset]
    exact ⟨hcall, Clause.calls_subset_of_mem hcall⟩
  obtain ⟨sheet, hfirst, hstart, hstop, hlength⟩ := hdrawn.exists_sheet hheld (by simp)
  have hstanding := standing_start ⟨hf, d, hd, hsymbol.symm⟩ hcalls hbase hframe hbottom hslots
    hfirst hstart
  have hdepth : start.calls.length = outer.length + 1 := congrArg List.length hcalls
  rw [← hlength, ← hfirst]
  constructor
  · intro c c' hruns hinside hadvances hline
    obtain ⟨level, rest, σ, h⟩ :=
      Standing.run hlinked False.elim hfirst.symm hdepth ⟨_, _, _, hstanding⟩ hruns
    have hwithin : c.calls.length = outer.length + 1 →
        c.state.pc < sheet.first + sheet.marks.length := by
      intro hlevel
      rw [hfirst]
      exact (hinside (hlevel.trans hdepth.symm)).2
    obtain ⟨callee, caller, others, hcalls, hrbx, hhandover⟩ :=
      h.entered (h.goes hadvances) hwithin hline
    exact ⟨callee, caller, others, hcalls, receives hwf hresolve hlayout hrbx hhandover⟩
  · intro c hruns hlevel hpc
    obtain ⟨level, rest, σ, h⟩ :=
      Standing.run hlinked False.elim hfirst.symm hdepth ⟨_, _, _, hstanding⟩ hruns
    obtain ⟨hrsp, hrbx⟩ := h.ended hstop (hlevel.trans hdepth) hpc
    refine ⟨BitVec.eq_of_toNat_eq hrsp, hrbx.trans hbase.symm, fun a hlow hhigh => ?_⟩
    have hkept := (h.kept a.toNat hlow (by omega)).2
    rwa [Quad.ofNat_toNat] at hkept

namespace Descent

/-- Calls itself until its first parameter is 0. The argument of the inner call is also stored
to that parameter. -/
def down : Func where
  decl := 2
  body := .ofStmts [] [.ifThen (.var "n")
    (.expr (.call "down" [.setVar "n" (.add (.var "n") .sub (.num 1)), .var "k"]))]

/-- Calls the other function while an operand is on the stack. -/
def main : Func where
  decl := 3
  body := .ofStmts [] [.expr (.add (.call "down" [.num 1, .num 8]) .add (.num 5))]

def program : Program where
  decls := [.param 1 .int "n", .param 1 .int "k",
    { line := 1, name := "down", base := .int, kind := .func [0, 1] },
    { line := 2, name := "main", base := .int, kind := .func [] }]
  items := [.func down, .func main]

def resolved : Program := (program.resolve .block).1

def laidOut : Program := resolved.layout.toOption.getD {}

def dataSection : Code × Pool :=
  match laidOut.data 0 with
  | .ok result _ => result
  | .error .. => ([], [])

def textSection : Code :=
  match laidOut.text dataSection.2 0 with
  | .ok code _ => code
  | .error .. => []

def machine : Machine where
  code := dataSection.1 ++ textSection
  symbols _ := 0x800#64
  text _ := ""
  limit := 0x1000
  library _ s := s

def laidOutMain : Func := (laidOut.functions[1]?).getD main

/-- The call in the main function and its code. -/
def outerCall : Ident × Node .args := (laidOutMain.body.calls[0]?).getD ({ name := "" }, .nil)

def outerCode : Code :=
  match (Node.call {} outerCall.1 outerCall.2).code { decls := laidOut.decls, pool := [] }
    .value 0 with
  | .ok code _ => code
  | .error .. => []

/-- The operand 5 has been pushed. -/
def start : Tracked where
  state := {
    pc := 35, rax := 5, rbx := 0x2000#64, rcx := 0, rdx := 0, rsi := 0, rdi := 0, rsp := 0x1ff8#64
    flags := none, mem := fun a => if a = 0x1ff8#64 then 5 else 0, out := [] }
  calls := [{ symbol := "main", base := 0x2000#64, left := fun _ => 0 }]

/-- The run after a number of steps. -/
def after (steps : Nat) : Option Tracked :=
  machine.run? laidOut 0x2000 start outerCode.length steps

/-- The inner invocation receives its two arguments, and behind the outer call the operand is
still on top of the stack. -/
theorem inner_call_receives :
    (∃ c callee caller rest, machine.Runs laidOut 0x2000 start outerCode.length c ∧
      c.calls = callee :: caller :: rest ∧ rest.length = 1 ∧
      c.state.mem (c.state.rbx + 16#64) = 0 ∧ c.state.mem (c.state.rbx + 24#64) = 8 ∧
      Receives machine laidOut { decls := laidOut.decls, pool := [] } c.state callee caller) ∧
    ∃ c, machine.Runs laidOut 0x2000 start outerCode.length c ∧ c.state.pc = 43 ∧
      c.state.rsp = 0x1ff8#64 ∧ c.state.rbx = 0x2000#64 ∧ c.state.mem 0x1ff8#64 = 5 := by
  have hwf : program.WellFormed := by decide +kernel
  have hresolve : program.resolve .block = (resolved, .ok ()) := rfl
  have hlayout : resolved.layout = .ok laidOut := rfl
  have hdata : laidOut.data 0 = .ok (dataSection.1, []) 0 := rfl
  have htext : laidOut.text [] 0 = .ok textSection 3 := rfl
  have hmain : .func laidOutMain ∈ laidOut.items := by decide
  obtain ⟨k, hcode⟩ : ∃ k, (Node.call {} outerCall.1 outerCall.2).code
      { decls := laidOut.decls, pool := [] } .value 0 = .ok outerCode k := by
    have hsome : outerCode ≠ [] := by decide +kernel
    unfold outerCode at hsome ⊢
    split
    next code k hcode => exact ⟨k, hcode⟩
    next herror =>
      rw [herror] at hsome
      exact absurd rfl hsome
  have hlisting : machine.code = machine.code.take 35 ++ outerCode ++ machine.code.drop 43 := rfl
  have hheld : machine.Holds start.state.pc outerCode :=
    Machine.holds_of_code_eq hlisting (by decide) (by decide)
  obtain ⟨hreceives, hkeeps⟩ := Program.calls_pass_arguments_and_keep_stack hwf hresolve hlayout
    hdata htext (by decide) rfl (by decide) hmain rfl (by decide) hcode hheld rfl rfl rfl
    (by decide) (Nat.le_refl _) (by decide)
  constructor
  · have hinner : (after 25).map (fun c => (c.calls.length, c.state.mem (c.state.rbx + 16#64),
        c.state.mem (c.state.rbx + 24#64))) = some (3, 0, 8) := by decide +kernel
    have hline : (after 24).map (fun c => machine.code[c.state.pc]?) =
        some (some (.inst (.movq .rsp (.reg .rbx)))) := by decide +kernel
    obtain ⟨c', hc', hvalues⟩ := Option.map_eq_some_iff.mp hinner
    obtain ⟨c, hc, hinside, hadvances⟩ := Machine.advances_of_run? hc'
    rw [after, hc] at hline
    obtain ⟨callee, caller, rest, hcalls, hreceived⟩ :=
      hreceives c c' (Machine.runs_of_run? hc) hinside hadvances (Option.some.inj hline)
    simp only [hcalls, Prod.mk.injEq] at hvalues
    exact ⟨c', callee, caller, rest, Machine.runs_of_run? hc', hcalls,
      by simpa using hvalues.1, hvalues.2.1, hvalues.2.2, hreceived⟩
  · have hend : (after 41).map (fun c => (c.state.pc, c.calls.length)) = some (43, 1) := by
      decide +kernel
    obtain ⟨c, hc, hvalues⟩ := Option.map_eq_some_iff.mp hend
    obtain ⟨hpc, hdepth⟩ := Prod.mk.inj hvalues
    have hruns := Machine.runs_of_run? hc
    obtain ⟨hrsp, hrbx, hkept⟩ := hkeeps c hruns hdepth hpc
    exact ⟨c, hruns, hpc, hrsp, hrbx, hkept 0x1ff8#64 (by decide) (by decide)⟩

end Descent

end Backend
