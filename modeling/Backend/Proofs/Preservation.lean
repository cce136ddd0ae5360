import Backend.Proofs.Cells
import Backend.Proofs.Function
import Backend.Proofs.Generation

/-! # Compiled programs keep their meaning

The code of an expression is run from any state of a machine that is in an activation of
the expression's function, and the code of a function from its label in the listing of the
whole program.
-/

namespace Backend

/-- The activation that a machine is in: `%rbx` has the frame base, and all below the stack
pointer is free. -/
def Machine.activation (m : Machine) (s : State) (cx : CodeEnv) : Activation where
  decls := cx.decls
  pool := cx.pool
  symbols := m.symbols
  base := s.rbx
  limit := m.limit
  top := s.rsp.toNat

/-- The code of an expression without calls and input leaves the expression's value in `%rax`
and the memory that evaluation leads to, wherever the code stands in a listing. -/
theorem Program.expression_code_preserves_meaning {p q r : Program} {scope : Scope}
    (hwf : p.WellFormed) (hresolve : p.resolve scope = (q, .ok ())) (hlayout : q.layout = .ok r)
    {f : Func} (hf : .func f ∈ r.items) {whole e : Expr} (hwhole : whole ∈ f.body.exprs)
    (he : e ∈ whole.parts) {cx : CodeEnv} {n n' : Nat} {code : Code}
    (hcode : e.code cx .value n = .ok code n') {m : Machine} {before after : Code}
    (hm : m.code = before ++ code ++ after)
    (hbefore : ∀ i, n ≤ i → i < n' → .label (Label.jump i) ∉ before) {s : State}
    (hpc : s.pc = before.length) (hrsp : s.rsp.Aligned)
    (hframe : r.Framed f (m.activation s cx)) (hroom : m.limit + e.room ≤ s.rsp.toNat)
    {v : Quad} {μ : Memory}
    (heval : e.eval (m.activation s cx) .value 0 s.mem = some (v, μ)) :
    ∃ s', m.Steps s s' ∧ s'.pc = before.length + code.length ∧ s'.rax = v ∧ s'.rbx = s.rbx ∧
      s'.rsp = s.rsp ∧ s'.out = s.out ∧
      ∀ a, (m.activation s cx).Reachable a → s'.mem a = μ a := by
  have hsupports : (m.activation s cx).Supports e := by
    obtain ⟨huses, hindexed⟩ := Node.subset_of_mem_parts he
    exact (supports_of_layout hwf hresolve hlayout hf hframe hwhole).mono huses hindexed
  have hsimulated : e.Simulated (m.activation s cx) m :=
    Node.simulated_of_supports ⟨rfl, rfl⟩ hsupports
  have hnumbered := Node.numbered_code hcode
  have hholds : m.Holds s.pc code := by
    rw [hpc]
    apply Machine.holds_of_code_eq hm hnumbered.nodup
    intro name hname hdefined
    obtain ⟨i, hlow, hhigh, rfl⟩ := hnumbered.named name hname
    exact hbefore i hlow hhigh (Code.mem_labels_iff.mp hdefined)
  obtain ⟨s', hreached, hrax⟩ := hsimulated hcode heval nofun hholds
    ⟨rfl, hrsp, Nat.le_refl _, hroom, fun _ _ => rfl⟩
  refine ⟨s', hreached.steps, ?_, hrax, hreached.rbx, hreached.rsp, hreached.out, hreached.agree⟩
  rw [hreached.pc, hpc]

namespace Countdown

/-- The function as it is laid out. -/
def laidOutMain : Func := (laidOut.functions[0]?).getD main

/-- The product of the loop's body and its code, which has `a[n]` for an operand. -/
def product : Expr := laidOutMain.body.exprs.get ⟨2, by decide⟩

def productCode : Code :=
  match product.code { decls := laidOut.decls, pool := [] } .value 0 with
  | .ok code _ => code
  | .error .. => []

/-- A machine whose stack starts at `0x1000`, with `total` below it. -/
def productMachine : Machine where
  code := [.label "main", .inst (.movq .rsp (.reg .rbx))] ++ productCode ++ Snippet.epilogue
  symbols _ := 0x800#64
  text _ := ""
  limit := 0x1000
  library _ s := s

/-- The parameter is 1, and so is the index of the only element that is not 0. -/
def productState : State where
  pc := 2
  rax := 0
  rbx := 0x2000#64
  rcx := 0
  rdx := 0
  rsi := 0
  rdi := 0
  rsp := 0x1fe0#64
  flags := none
  mem a := if a = 0x2010#64 then 1 else if a = 0x1ff0#64 then 7 else 0
  out := []

theorem product_code_computes :
    ∃ s', productMachine.Steps productState s' ∧ s'.pc = 2 + productCode.length ∧
      s'.rax = 42#64 ∧ s'.rsp = 0x1fe0#64 ∧ s'.mem 0x1fe0#64 = 42#64 := by
  have hmain : .func laidOutMain ∈ laidOut.items := by decide
  have hproduct : product ∈ laidOutMain.body.exprs ∧ product ∈ product.parts := by decide
  have hcode : product.code { decls := laidOut.decls, pool := [] } .value 0 =
      .ok productCode 0 := rfl
  have hlisting : productMachine.code =
      [.label "main", .inst (.movq .rsp (.reg .rbx))] ++ productCode ++ Snippet.epilogue := rfl
  have hsymbol : Activation.Reachable (productMachine.activation productState
      { decls := laidOut.decls, pool := [] }) 0x800#64 := by decide
  have hframe : laidOut.Framed laidOutMain
      (productMachine.activation productState { decls := laidOut.decls, pool := [] }) :=
    ⟨rfl, by decide, by decide, by decide, fun _ _ _ _ => hsymbol⟩
  have heval : product.eval (productMachine.activation productState
      { decls := laidOut.decls, pool := [] }) .value 0 productState.mem =
      some (42#64, Function.update productState.mem 0x1fe0#64 42#64) := rfl
  obtain ⟨s', hsteps, hpc, hrax, -, hrsp, -, hmem⟩ :=
    Program.expression_code_preserves_meaning wellFormed resolve_program layout_resolved hmain
      hproduct.1 hproduct.2 hcode hlisting (fun _ _ h => absurd h (Nat.not_lt_zero _)) rfl
      (by decide) hframe (by decide) heval
  exact ⟨s', hsteps, hpc, hrax, hrsp, hmem _ (by decide)⟩

end Countdown

/-- Every text of the listing is found at its symbol, up to the first NUL. -/
def Machine.Loaded (m : Machine) : Prop :=
  ∀ name contents, .string name contents ∈ m.code → m.text (m.symbols name) = untilNul contents

theorem labels_globalStorage {decls : List Decl} {items : List Item} {n n' : Nat} {code : Code}
    (h : globalStorage decls items n = .ok code n') : Code.labels code = [] := by
  induction items generalizing n n' code with
  | nil =>
      obtain ⟨rfl, -⟩ := Emit.pure_eq_ok_iff.mp h
      rfl
  | cons item rest ih =>
      cases item with
      | func _ => exact ih h
      | var id =>
          simp only [globalStorage, Emit.bind_eq_ok_iff, Emit.pure_eq_ok_iff] at h
          obtain ⟨d, _, -, size, _, -, others, _, hothers, rfl, -⟩ := h
          have hlabels := ih hothers
          exact hlabels

theorem Pool.labels_code (pool : Pool) : Code.labels pool.code = [] := by
  simp [Code.labels, Pool.code, List.filterMap_map]

namespace Program

section Listing

variable {r : Program} {n n₁ n₂ : Nat} {data text : Code} {pool : Pool}
  (hdata : r.data n = .ok (data, pool) n₁)
include hdata

theorem labels_data : Code.labels data = [] := by
  simp only [Program.data, Emit.bind_eq_ok_iff, Emit.pure_eq_ok_iff, Prod.mk.injEq] at hdata
  obtain ⟨storage, _, hstorage, _, _, -, ⟨rfl, rfl⟩, -⟩ := hdata
  rw [Code.labels_append, Code.labels_append, labels_globalStorage hstorage, Pool.labels_code]
  rfl

theorem texts_of_data {m : Machine} (hloaded : m.Loaded) (hm : m.code = data ++ text) :
    m.Texts pool := by
  simp only [Program.data, Emit.bind_eq_ok_iff, Emit.pure_eq_ok_iff, Prod.mk.injEq] at hdata
  obtain ⟨storage, _, -, literals, _, -, ⟨rfl, rfl⟩, -⟩ := hdata
  have hformat : ∀ name contents, .string name contents ∈ FormatString.code →
      m.text (m.symbols name) = untilNul contents := by
    intro name contents hmem
    apply hloaded
    simp [hm, hmem]
  refine ⟨?_, ?_, ?_, ?_⟩
  · exact hformat FormatString.writeInt "%d " (by decide)
  · exact hformat FormatString.writeString "%s " (by decide)
  · exact hformat FormatString.newline "\n" (by decide)
  · intro contents label hmem
    apply hloaded
    have hline : .string label contents ∈ Pool.code literals := List.mem_map.mpr ⟨_, hmem, rfl⟩
    simp [hm, hline]

end Listing

section Names

variable {p q r : Program} {scope : Scope}

theorem namesDistinct_of_layout (hresolve : p.resolve scope = (q, .ok ()))
    (hlayout : q.layout = .ok r) : r.NamesDistinct := by
  have hnames : ∀ id : DeclId, r.decls[id]?.map Decl.name = p.decls[id]?.map Decl.name := by
    intro id
    have hbare := (layout_sameButSlots hlayout).getElem? id
    rw [decls_of_resolve hresolve] at hbare
    have hname := congrArg (Option.map Decl.name) hbare
    rw [Option.map_map, Option.map_map] at hname
    exact hname
  have heq : r.items.map (Item.name? r.decls) = p.items.map (Item.name? p.decls) := by
    have hids := (ids_of_layout hlayout).trans (ids_of_resolve hresolve)
    have hmap := congrArg (List.map fun id => p.decls[id]?.map Decl.name) hids
    rw [List.map_map, List.map_map] at hmap
    have hown : Item.name? r.decls = fun item => p.decls[item.id]?.map Decl.name :=
      funext fun item => hnames item.id
    rw [hown]
    exact hmap
  rw [NamesDistinct, heq]
  exact (resolve_eq_ok_iff_allAdmitted.mp hresolve).2.nodup List.nodup_nil

theorem functions_sublist (r : Program) : (r.functions.map Item.func).Sublist r.items := by
  unfold functions
  induction r.items with
  | nil => exact List.Sublist.refl _
  | cons item rest ih =>
      cases item with
      | var id => exact ih.cons _
      | func f => exact ih.cons_cons _

theorem NamesDistinct.functions (h : r.NamesDistinct) :
    (r.functions.map fun f => r.decls[f.decl]?.map Decl.name).Nodup := by
  have hnodup := List.Nodup.sublist (r.functions_sublist.map (Item.name? r.decls)) h
  rwa [List.map_map] at hnodup

section Functions

variable {pool : Pool} {k k' : Nat} {code before after : Code}
  (hcode : Func.codeAll { decls := r.decls, pool } r.functions k = .ok code k')
  (hnames : r.NamesDistinct) (hdots : ∀ d ∈ r.decls, d.name.toList.head? ≠ some '.') {m : Machine}
  (hm : m.code = before ++ code ++ after) (hbefore : before.labels = [])
include hcode hnames hdots hm hbefore

/-- The code of the functions is held, given that no name looks like a label of the
generator's. -/
theorem holds_functions : m.Holds before.length code := by
  have hnodup := Func.nodup_labels_codeAll hcode hnames.functions fun i e he =>
    Label.jump_ne_of_head (hdots e he) i
  exact Machine.holds_of_code_eq hm hnodup fun name _ => by simp [hbefore]

/-- The code of a function is held at its label. -/
theorem holds_function {f : Func} (hf : .func f ∈ r.items) {d : Decl}
    (hd : r.decls[f.decl]? = some d) :
    ∃ line own k k', m.target d.name = some line ∧
      f.code { decls := r.decls, pool } k = .ok own k' ∧ m.Holds line own := by
  have hholds := holds_functions hcode hnames hdots hm hbefore
  obtain ⟨_, _, hsplit⟩ := List.append_of_mem (mem_functions_iff.mpr hf)
  rw [hsplit] at hcode
  obtain ⟨earlier, own, later, k, k', hown, rfl⟩ := Func.codeAll_append hcode
  refine ⟨_, own, k, k', ?_, hown, hholds.left.right⟩
  obtain ⟨d', body', hd', -, rfl⟩ := Func.code_eq_ok hown
  obtain rfl : d = d' := Option.some.inj (hd.symm.trans hd')
  exact hholds.left.right.labels 0 d.name rfl

end Functions

/-- The listing of a program has the code of its functions between lines without labels. -/
theorem listing_eq {n n₁ n₂ : Nat} {data text : Code} {pool : Pool}
    (hdata : r.data n = .ok (data, pool) n₁) (htext : r.text pool n₁ = .ok text n₂) :
    ∃ before functions after,
      Func.codeAll { decls := r.decls, pool } r.functions n₁ = .ok functions n₂ ∧
      data ++ text = before ++ functions ++ after ∧ before.labels = [] ∧ after.labels = [] := by
  unfold Program.text at htext
  split at htext
  next =>
    simp only [Emit.bind_eq_ok_iff, Emit.pure_eq_ok_iff] at htext
    obtain ⟨functions, _, hfunctions, rfl, rfl⟩ := htext
    refine ⟨data ++ [.text, .global "main"], functions,
      [.segment ".note.GNU-stack,\"\",@progbits"], hfunctions, by simp, ?_, rfl⟩
    rw [Code.labels_append, labels_data hdata]
    rfl
  next => cases htext

end Names

/-- The code of a function without calls and input leads from its label to a return, where
the frame is dropped, the output and the memory are those of an execution of the body, and
`%rax` has the value that is returned. -/
theorem function_code_preserves_meaning {p q r : Program} {scope : Scope} (hwf : p.WellFormed)
    (hresolve : p.resolve scope = (q, .ok ())) (hlayout : q.layout = .ok r) {n n₁ n₂ : Nat}
    {data text : Code} {pool : Pool} (hdata : r.data n = .ok (data, pool) n₁)
    (htext : r.text pool n₁ = .ok text n₂)
    (hdots : ∀ d ∈ r.decls, d.name.toList.head? ≠ some '.') {f : Func} (hf : .func f ∈ r.items)
    {d : Decl} (hd : r.decls[f.decl]? = some d) {m : Machine} (hm : m.code = data ++ text)
    (hloaded : m.Loaded) {s : State} (hpc : m.target d.name = some s.pc) (hrsp : s.rsp.Aligned)
    (hroom : m.limit + f.frameSize + f.body.room ≤ s.rsp.toNat)
    (hframe : r.Framed f (m.entered s { decls := r.decls, pool } f)) {printed : List Output}
    {μ : Memory} {flow : Flow}
    (hexec : Exec (m.entered s { decls := r.decls, pool } f) f.body s.mem printed μ flow) :
    ∃ s', m.Steps s s' ∧ m.code[s'.pc]? = some (.inst .ret) ∧ s'.rbx = s.rsp ∧ s'.rsp = s.rsp ∧
      (∀ v ∈ flow.value, s'.rax = v) ∧ s'.out = s.out ++ printed ∧
      ∀ a, (m.entered s { decls := r.decls, pool } f).Reachable a → s'.mem a = μ a := by
  obtain ⟨-, -, hsize, hspans⟩ := placed_of_layout hwf hresolve hlayout hf
  have hnames := namesDistinct_of_layout hresolve hlayout
  obtain ⟨before, functions, after, hfunctions, hlisting, hbefore, -⟩ := listing_eq hdata htext
  obtain ⟨line, code, k, k', htarget, hcode, hholds⟩ :=
    holds_function hfunctions hnames hdots (hm.trans hlisting) hbefore hf hd
  obtain rfl : s.pc = line := Option.some.inj (hpc.symm.trans htarget)
  have hexprs : ∀ e ∈ f.body.exprs,
      e.Simulated (m.entered s { decls := r.decls, pool } f) m := fun e he =>
    Node.simulated_of_supports ⟨rfl, rfl⟩
      (supports_of_layout hwf hresolve hlayout hf hframe he)
  exact Func.code_returns hcode hholds hrsp hsize hroom (texts_of_data hdata hloaded hm) hexprs
    hspans hexec

end Program

namespace Countdown

def dataSection : Code × Pool :=
  match laidOut.data 0 with
  | .ok result _ => result
  | .error .. => ([], [])

def textSection : Code :=
  match laidOut.text dataSection.2 1 with
  | .ok code _ => code
  | .error .. => []

/-- A machine that has loaded the whole listing. -/
def machine : Machine where
  code := dataSection.1 ++ textSection
  symbols name :=
    if name = "total" then 0x800#64
    else if name = FormatString.writeInt then 0x808#64
    else if name = FormatString.newline then 0x810#64
    else if name = FormatString.writeString then 0x818#64
    else if name = FormatString.readInt then 0x820#64
    else 0x828#64
  text a :=
    if a = 0x808#64 then "%d "
    else if a = 0x810#64 then "\n"
    else if a = 0x818#64 then "%s "
    else if a = 0x820#64 then "%d"
    else "off"
  limit := 0x1000
  library _ s := s

/-- The function is called with the argument 1. -/
def entry : State where
  pc := 9
  rax := 0
  rbx := 0
  rcx := 0
  rdx := 0
  rsi := 0
  rdi := 0
  rsp := 0x2000#64
  flags := none
  mem a := if a = 0x2010#64 then 1 else 0
  out := []

def activation : Activation :=
  machine.entered entry { decls := laidOut.decls, pool := dataSection.2 } laidOutMain

/-- One turn of the loop adds 3, which is half of what is written. -/
theorem executes : ∃ μ, Exec activation laidOutMain.body entry.mem [.int 6] μ (.leave (some 3)) ∧
    μ 0x800#64 = 3 := by
  -- The element, the loop with its three assignments, the choice and the return.
  refine ⟨_, .block
    (.consNext (.eval rfl)
    (.consNext
      (.loopNext rfl ?_
        (.braces (.block
          (.consNext (.eval rfl) (.consNext (.eval rfl) (.consNext (.eval rfl) .nil)))))
        (.loopEnd rfl ?_))
    (.consNext (.ifTrue rfl ?_ (.write rfl (.int _)))
    (.consLeave (.ret rfl))))), ?_⟩
  all_goals decide

theorem main_code_returns :
    ∃ s', machine.Steps entry s' ∧ machine.code[s'.pc]? = some (.inst .ret) ∧
      s'.rsp = 0x2000#64 ∧ s'.rax = 3 ∧ s'.out = [.int 6] ∧ s'.mem 0x800#64 = 3 := by
  have hmain : .func laidOutMain ∈ laidOut.items := by decide
  have hdata : laidOut.data 0 = .ok dataSection 1 := rfl
  have htext : laidOut.text dataSection.2 1 = .ok textSection 10 := rfl
  have hdots : ∀ d ∈ laidOut.decls, d.name.toList.head? ≠ some '.' := by decide
  have hloaded : machine.Loaded := by
    have htexts : ∀ t ∈ machine.code.filterMap fun
        | .string name contents => some (name, contents)
        | _ => none, machine.text (machine.symbols t.1) = untilNul t.2 := by decide
    intro name contents hmem
    exact htexts (name, contents) (List.mem_filterMap.mpr ⟨_, hmem, rfl⟩)
  have hsymbol : activation.Reachable 0x800#64 := by decide
  have hframe : laidOut.Framed laidOutMain activation := by
    refine ⟨rfl, by decide, by decide, by decide, ?_⟩
    intro id d hid hd
    have hitems : laidOut.items = [.var 0, .func laidOutMain] := rfl
    obtain rfl : id = 0 := by simpa [hitems] using hid
    cases hd
    exact hsymbol
  obtain ⟨μ, hexec, htotal⟩ := executes
  obtain ⟨s', hsteps, hreturn, -, hrsp, hrax, hout, hmem⟩ :=
    Program.function_code_preserves_meaning wellFormed resolve_program layout_resolved hdata htext
      hdots hmain rfl rfl hloaded (by decide) (by decide) (by decide) hframe hexec
  exact ⟨s', hsteps, hreturn, hrsp, hrax 3 rfl, hout, (hmem _ hsymbol).trans htotal⟩

end Countdown

end Backend
