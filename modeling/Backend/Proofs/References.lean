import Backend.Proofs.Symbols

/-! # What a listing refers to

Operands and calls refer to symbols. The code of an expression refers to globals, functions
and literals, and printing and reading to formats and the C library. In the listing of a
resolved and laid out program all of these are defined, up to the C library.
-/

namespace Backend

@[simp]
def Operand.symbol? : Operand → Option String
  | .rip symbol => some symbol
  | .reg _ | .imm _ | .mem .. => none

/-- The symbols that an instruction refers to, jump targets apart. -/
@[simp]
def Inst.references : Inst → List String
  | .movq src dst | .movl src dst | .leaq src dst | .addq src dst | .addl src dst
  | .subq src dst | .subl src dst | .imulq src dst | .imull src dst | .andq src dst
  | .cmpl src dst => src.symbol?.toList ++ dst.symbol?.toList
  | .negl x | .idivl x | .pushq x | .popq x => x.symbol?.toList
  | .call symbol => [symbol]
  | .jmp _ | .j .. | .cltq | .cqto | .ret => []

@[simp]
def Line.references : Line → List String
  | .inst i => i.references
  | _ => []

namespace Code

/-- The symbols that code refers to. -/
def references (code : Code) : List String := code.flatMap Line.references

/-- Code that refers to known symbols only. -/
def RefersTo (known : String → Prop) (code : Code) : Prop :=
  ∀ symbol ∈ references code, known symbol

section RefersTo

variable {known : String → Prop} {a b : Code} {line : Line}

@[simp]
theorem refersTo_nil : RefersTo known [] := nofun

@[simp]
theorem refersTo_append : RefersTo known (a ++ b) ↔ RefersTo known a ∧ RefersTo known b := by
  simp only [RefersTo, references, List.flatMap_append, List.forall_mem_append]

@[simp]
theorem refersTo_cons :
    RefersTo known (line :: a) ↔ (∀ symbol ∈ line.references, known symbol) ∧ RefersTo known a := by
  simp only [RefersTo, references, List.flatMap_cons, List.forall_mem_append]

theorem refersTo_of_inst_not_mem (h : ∀ i, .inst i ∉ a) : RefersTo known a := by
  intro symbol hsymbol
  obtain ⟨line, hline, hsymbol⟩ := List.mem_flatMap.mp hsymbol
  cases line with
  | inst i => exact absurd hline (h i)
  | segment _ | text | global _ | comm _ _ _ | string _ _ | label _ => cases hsymbol

end RefersTo

end Code

/-- What listings of every program may refer to: formats and functions of the C library. -/
structure KnowsLibrary (known : String → Prop) : Prop where
  formats : ∀ symbol ∈ Code.symbols FormatString.code, known symbol
  printf : known "printf@PLT"
  scanf : known "scanf@PLT"

namespace Snippet

open Operand

variable {known : String → Prop}

@[simp]
theorem refersTo_compare (cond : Cond) (other stop : String) :
    Code.RefersTo known (compare cond other stop) := by
  simp [compare, dropOperand, top, eax, rsp]

@[simp]
theorem refersTo_combine (op : AddOp) : Code.RefersTo known (combine op) := by
  cases op <;> simp [combine, dropOperand, top, eax, rsp]

@[simp]
theorem refersTo_scale (op : MulOp) : Code.RefersTo known (scale op) := by
  cases op <;> simp [scale, scale.divide, dropOperand, top, eax, rsp]

@[simp]
theorem refersTo_index : Code.RefersTo known index := by
  simp [index, rax, rsi]

@[simp]
theorem refersTo_epilogue : Code.RefersTo known epilogue := by
  simp [epilogue, rsp]

@[simp]
theorem refersTo_jumpIfZero (label : String) : Code.RefersTo known (jumpIfZero label) := by
  simp [jumpIfZero, eax]

@[simp]
theorem refersTo_reserving {bytes : Nat} {body : Code} :
    Code.RefersTo known (reserving bytes body) ↔ body.RefersTo known := by
  unfold reserving
  split <;> simp [rsp]

@[simp]
theorem refersTo_call {symbol : String} : Code.RefersTo known (call symbol) ↔ known symbol := by
  simp [call]

@[simp]
theorem refersTo_library {symbol : String} :
    Code.RefersTo known (library symbol) ↔ known symbol := by
  simp [library, top, rsp]

theorem refersTo_readInt (h : KnowsLibrary known) : readInt.RefersTo known := by
  have hformat := h.formats FormatString.readInt (by decide)
  simp [readInt, hformat, h.scanf, top, eax, rsi, rsp]

theorem refersTo_print (h : KnowsLibrary known) {format : String}
    (hformat : format ∈ Code.symbols FormatString.code) : (print format).RefersTo known := by
  simp [print, h.formats format hformat, h.printf, eax]

end Snippet

theorem Ty.refersTo_print {known : String → Prop} (hlibrary : KnowsLibrary known) {t : Ty}
    {n n' : Nat} {c : Code} (h : t.print n = .ok c n') : c.RefersTo known := by
  unfold print at h
  split at h
  · obtain ⟨rfl, -⟩ := Emit.pure_eq_ok_iff.mp h
    have hprint := Snippet.refersTo_print hlibrary (by decide : FormatString.writeInt ∈ _)
    simpa [Operand.eax] using hprint
  · obtain ⟨rfl, -⟩ := Emit.pure_eq_ok_iff.mp h
    have hprint := Snippet.refersTo_print hlibrary (by decide : FormatString.writeString ∈ _)
    simpa [Operand.rax, Operand.rsi] using hprint
  · exact absurd h Emit.missing_ne_ok

/-- What the code of a node refers to for itself: variables that have no place in the frame,
functions that are called, and literals. -/
structure CodeEnv.Knows {l : Layer} (cx : CodeEnv) (known : String → Prop) (x : Node l) : Prop where
  uses : ∀ y ∈ x.uses, ∀ id d, y.decl = some id → cx.decls[id]? = some d →
    d.offset = .ok none → known d.name
  callees : ∀ y ∈ x.callees, ∀ id d, y.decl = some id → cx.decls[id]? = some d → known d.name
  literals : ∀ text ∈ x.literals, ∀ label, cx.pool.lookup text = some label → known label

namespace CodeEnv

variable {cx : CodeEnv} {known : String → Prop} {l l' l'' : Layer} {x : Node l} {y : Node l'}
  {z : Node l''}

theorem Knows.mono (h : cx.Knows known x) (huses : y.uses ⊆ x.uses)
    (hcallees : y.callees ⊆ x.callees) (hliterals : y.literals ⊆ x.literals) :
    cx.Knows known y where
  uses name hname := h.uses name (huses hname)
  callees name hname := h.callees name (hcallees hname)
  literals text htext := h.literals text (hliterals htext)

theorem Knows.parts (h : cx.Knows known x) (huses : x.uses = y.uses ++ z.uses)
    (hcallees : x.callees = y.callees ++ z.callees)
    (hliterals : x.literals = y.literals ++ z.literals) : cx.Knows known y ∧ cx.Knows known z := by
  constructor
  · apply h.mono <;> simp [*]
  · apply h.mono <;> simp [*]

theorem decl_eq_ok {name : Ident} {n n' : Nat} {d : Decl} (h : cx.decl name n = .ok d n') :
    ∃ id, name.decl = some id ∧ cx.decls[id]? = some d := by
  unfold decl at h
  cases hid : name.decl with
  | none =>
      rw [hid] at h
      exact absurd h Emit.missing_ne_ok
  | some id =>
      rw [hid] at h
      exact ⟨id, rfl, declared_eq_ok_iff.mp (Emit.ofExcept_eq_ok_iff.mp h).1⟩

variable {name : Ident} (hname : name ∈ x.uses)
include hname

theorem Knows.cell (h : cx.Knows known x) {d : Decl} {n n' : Nat}
    (hd : cx.decl name n = .ok d n') {cell : Operand} {k k' : Nat}
    (hcell : d.cell k = .ok cell k') : ∀ symbol ∈ cell.symbol?, known symbol := by
  obtain ⟨id, hid, hget⟩ := decl_eq_ok hd
  rcases Decl.cell_eq_ok hcell with ⟨_, rfl⟩ | ⟨hoffset, rfl⟩
  · simp
  · simpa using h.uses name hname id d hid hget hoffset

theorem Knows.element (h : cx.Knows known x) {index : Emit Code}
    (hindex : ∀ {n c n'}, index n = .ok c n' → c.RefersTo known) {n n' : Nat} {c : Code}
    (hcode : cx.element name index n = .ok c n') : c.RefersTo known := by
  simp only [CodeEnv.element, Emit.bind_eq_ok_iff, Emit.pure_eq_ok_iff] at hcode
  obtain ⟨d, _, hd, base, _, hbase, ci, _, hci, rfl, -⟩ := hcode
  obtain ⟨src, _, hsrc, rfl | rfl⟩ := Decl.arrayBase_eq_ok hbase
  · simpa [Snippet.pushValue, Operand.rax, hindex hci] using h.cell hname hd hsrc
  · simpa [Snippet.pushValue, Operand.rax, hindex hci] using h.cell hname hd hsrc

end CodeEnv

theorem Pool.label_eq_ok {pool : Pool} {text label : String} {n n' : Nat}
    (h : pool.label text n = .ok label n') : pool.lookup text = some label := by
  unfold Pool.label at h
  cases hlookup : pool.lookup text with
  | none =>
      rw [hlookup] at h
      exact absurd h Emit.missing_ne_ok
  | some found =>
      rw [hlookup] at h
      rw [(Emit.pure_eq_ok_iff.mp h).1]

section References

variable {cx : CodeEnv} {known : String → Prop} (hlibrary : KnowsLibrary known)
include hlibrary

theorem Node.refersTo_code {l : Layer} {x : Node l} (hx : cx.Knows known x) {access : Access}
    {n n' : Nat} {c : Code} (h : x.code cx access n = .ok c n') : c.RefersTo known := by
  induction x generalizing access n n' c with
  | comp _ x ih | sum _ x ih | term _ x ih | unary _ x ih | factor _ x ih | paren _ x ih =>
      exact ih (hx.mono (.refl _) (.refl _) (.refl _)) h
  | assign _ target value iht ihv =>
      simp only [code, Emit.bind_eq_ok_iff, Emit.pure_eq_ok_iff] at h
      obtain ⟨cv, k, hcv, ct, k', hct, rfl, rfl⟩ := h
      obtain ⟨ht, hv⟩ := hx.parts rfl rfl rfl
      exact Code.refersTo_append.mpr ⟨ihv hv hcv, iht ht hct⟩
  | setVar _ y | setDeref _ y =>
      simp only [code, Emit.bind_eq_ok_iff, Emit.pure_eq_ok_iff] at h
      obtain ⟨d, _, hd, cell, _, hcell, rfl, rfl⟩ := h
      simpa [Snippet.pushValue, Snippet.storeAtRsi, Operand.rax, Operand.rsi] using
        hx.cell (List.mem_singleton_self y) hd hcell
  | setElem _ y index ih | elem _ y index ih =>
      simp only [code, Emit.bind_eq_ok_iff, Emit.pure_eq_ok_iff] at h
      obtain ⟨ce, k, hce, rfl, rfl⟩ := h
      have hindex : cx.Knows known index := hx.mono (List.subset_cons_self _ _) (.refl _) (.refl _)
      have helement := hx.element List.mem_cons_self (ih hindex) hce
      cases access <;>
        simp [helement, Snippet.pushValue, Snippet.storeAtRsi, Operand.rax, Operand.rsi]
  | rel _ a op b iha ihb =>
      simp only [code, Emit.bind_eq_ok_iff, Emit.pure_eq_ok_iff] at h
      obtain ⟨other, _, -, stop, _, -, cb, k, hcb, ca, k', hca, rfl, rfl⟩ := h
      obtain ⟨ha, hb⟩ := hx.parts rfl rfl rfl
      simp [ihb hb hcb, iha ha hca, Snippet.pushValue, Operand.rax]
  | add _ a op b iha ihb | mul _ a op b iha ihb | cons a b iha ihb =>
      simp only [code, Emit.bind_eq_ok_iff, Emit.pure_eq_ok_iff] at h
      obtain ⟨cb, k, hcb, ca, k', hca, rfl, rfl⟩ := h
      obtain ⟨ha, hb⟩ := hx.parts rfl rfl rfl
      simp [ihb hb hcb, iha ha hca, Snippet.pushValue, Operand.rax]
  | neg _ x ih | deref _ x ih =>
      simp only [code, Emit.bind_eq_ok_iff, Emit.pure_eq_ok_iff] at h
      obtain ⟨co, k, hco, rfl, rfl⟩ := h
      have hoperand := ih (hx.mono (.refl _) (.refl _) (.refl _)) hco
      simp [hoperand, Operand.rax, Operand.eax]
  | addrOf _ x ih =>
      simp only [code] at h
      split at h
      · exact absurd h Emit.missing_ne_ok
      · exact ih (hx.mono (.refl _) (.refl _) (.refl _)) h
  | var _ y =>
      simp only [code, Emit.bind_eq_ok_iff, Emit.pure_eq_ok_iff] at h
      obtain ⟨d, _, hd, load, _, hload, rfl, rfl⟩ := h
      obtain ⟨src, _, hsrc, rfl | rfl⟩ := Decl.load_eq_ok hload
      · simpa [Operand.rax] using hx.cell (List.mem_singleton_self y) hd hsrc
      · simpa [Operand.rax] using hx.cell (List.mem_singleton_self y) hd hsrc
  | call _ y args ih =>
      simp only [code, Emit.bind_eq_ok_iff, Emit.pure_eq_ok_iff] at h
      obtain ⟨d, _, hd, pushes, _, hpushes, size, _, -, rfl, rfl⟩ := h
      obtain ⟨id, hid, hget⟩ := CodeEnv.decl_eq_ok hd
      have hname := hx.callees y List.mem_cons_self id d hid hget
      have hargs := ih (hx.mono (.refl _) (List.subset_cons_self _ _) (.refl _)) hpushes
      split <;> simp [hargs, hname, Operand.rsp]
  | num _ value | nil =>
      obtain ⟨rfl, rfl⟩ := Emit.pure_eq_ok_iff.mp h
      simp [Operand.rax]
  | read _ =>
      obtain ⟨rfl, rfl⟩ := Emit.pure_eq_ok_iff.mp h
      exact Snippet.refersTo_readInt hlibrary
  | str _ text =>
      simp only [code, Emit.bind_eq_ok_iff, Emit.pure_eq_ok_iff] at h
      obtain ⟨label, _, hlabel, rfl, rfl⟩ := h
      simpa [Operand.rax] using
        hx.literals text (List.mem_singleton_self text) label (Pool.label_eq_ok hlabel)

theorem Clause.refersTo_code {f : Form} {x : Clause f} (hx : ∀ e ∈ x.exprs, cx.Knows known e)
    {n n' : Nat} {c : Code} (h : x.code cx n = .ok c n') : c.RefersTo known := by
  induction x generalizing n n' c with
  | eval _ e =>
      cases e with
      | none =>
          obtain ⟨rfl, -⟩ := Emit.pure_eq_ok_iff.mp h
          exact Code.refersTo_nil
      | some e => exact Node.refersTo_code hlibrary (hx e (List.mem_singleton_self e)) h
  | braces _ b ih | present s ih => exact ih hx h
  | ifElse _ cond t e iht ihe =>
      simp only [exprs, List.forall_mem_cons, List.forall_mem_append] at hx
      simp only [code, Emit.bind_eq_ok_iff, Emit.pure_eq_ok_iff] at h
      obtain ⟨_, _, -, _, _, -, _, _, -, cc, k, hcc, ct, k', hct, ce, k'', hce, rfl, -⟩ := h
      simp [Node.refersTo_code hlibrary hx.1 hcc, iht hx.2.1 hct, ihe hx.2.2 hce]
  | loop _ cond s ih =>
      simp only [exprs, List.forall_mem_cons] at hx
      simp only [code, Emit.bind_eq_ok_iff, Emit.pure_eq_ok_iff] at h
      obtain ⟨_, _, -, _, _, -, cc, k, hcc, cs, k', hcs, rfl, -⟩ := h
      simp [Node.refersTo_code hlibrary hx.1 hcc, ih hx.2 hcs]
  | ret _ e =>
      cases e with
      | none =>
          obtain ⟨rfl, -⟩ := Emit.pure_eq_ok_iff.mp h
          exact Snippet.refersTo_epilogue
      | some e =>
          simp only [code, Emit.bind_eq_ok_iff, Emit.pure_eq_ok_iff] at h
          obtain ⟨value, k, hvalue, rfl, -⟩ := h
          simp [Node.refersTo_code hlibrary (hx e (List.mem_singleton_self e)) hvalue]
  | write _ e =>
      cases e with
      | none =>
          obtain ⟨rfl, -⟩ := Emit.pure_eq_ok_iff.mp h
          exact Snippet.refersTo_print hlibrary (by decide)
      | some e =>
          simp only [code, Emit.bind_eq_ok_iff, Emit.pure_eq_ok_iff] at h
          obtain ⟨print, _, hprint, value, k, hvalue, rfl, -⟩ := h
          exact Code.refersTo_append.mpr
            ⟨Node.refersTo_code hlibrary (hx e (List.mem_singleton_self e)) hvalue,
              Ty.refersTo_print hlibrary hprint⟩
  | absent | nil =>
      obtain ⟨rfl, -⟩ := Emit.pure_eq_ok_iff.mp h
      exact Code.refersTo_nil
  | cons s rest ihs ihrest =>
      simp only [exprs, List.forall_mem_append] at hx
      simp only [code, Emit.bind_eq_ok_iff, Emit.pure_eq_ok_iff] at h
      obtain ⟨first, k, hfirst, others, k', hothers, rfl, -⟩ := h
      exact Code.refersTo_append.mpr ⟨ihs hx.1 hfirst, ihrest hx.2 hothers⟩
  | block _ own stmts _ span ih =>
      simp only [code, Emit.bind_eq_ok_iff, Emit.pure_eq_ok_iff] at h
      obtain ⟨body, k, hbody, rfl, -⟩ := h
      exact Snippet.refersTo_reserving.mpr (ih hx hbody)

theorem Func.refersTo_code {f : Func} (hf : ∀ e ∈ f.body.exprs, cx.Knows known e) {n n' : Nat}
    {code : Code} (h : f.code cx n = .ok code n') : code.RefersTo known := by
  obtain ⟨d, body, -, hbody, rfl⟩ := code_eq_ok h
  have hprologue : f.prologue.RefersTo known := by
    unfold prologue
    split <;> simp [Operand.rsp]
  simp [hprologue, Clause.refersTo_code hlibrary hf hbody]

theorem Func.refersTo_codeAll {fs : List Func}
    (hfs : ∀ f ∈ fs, ∀ e ∈ f.body.exprs, cx.Knows known e) {n n' : Nat} {code : Code}
    (h : codeAll cx fs n = .ok code n') : code.RefersTo known := by
  induction fs generalizing n code with
  | nil =>
      obtain ⟨rfl, -⟩ := Emit.pure_eq_ok_iff.mp h
      exact Code.refersTo_nil
  | cons f rest ih =>
      rw [List.forall_mem_cons] at hfs
      simp only [codeAll, Emit.bind_eq_ok_iff, Emit.pure_eq_ok_iff] at h
      obtain ⟨first, k, hfirst, others, _, hothers, rfl, rfl⟩ := h
      exact Code.refersTo_append.mpr ⟨refersTo_code hlibrary hfs.1 hfirst, ih hfs.2 hothers⟩

end References

namespace Program

section Layout

variable {p q r : Program} {scope : Scope} (hresolve : p.resolve scope = (q, .ok ()))
  (hlayout : q.layout = .ok r) {f : Func} (hf : .func f ∈ r.items) {e : Expr}
  (he : e ∈ f.body.exprs)
include hresolve hlayout hf he

/-- What a function calls is an item of the program. -/
theorem callees_of_layout (hkinds : p.KindsAgree) {x : Ident} (hx : x ∈ e.callees) :
    ∃ id, x.decl = some id ∧ id ∈ r.items.map Item.id := by
  obtain ⟨f₀, hf₀, -, hbody⟩ := func_of_layout hlayout hf
  rw [← Clause.exprs_bare, hbody, Clause.exprs_bare] at he
  obtain ⟨Γ, e₀, t, htyped, hscope⟩ := typed_of_resolve hresolve hf₀ he
  obtain ⟨id, d, hid, hmeans, hd, hfunc⟩ := htyped.callees_bound hx
  refine ⟨id, hid, ?_⟩
  rw [ids_of_layout hlayout]
  rcases List.mem_append.mp (hscope x.name id hmeans) with hvar | hitem
  · have hvars : id ∈ p.vars := by
      rw [← vars_of_resolve hresolve]
      exact List.mem_flatMap.mpr ⟨.func f₀, hf₀, hvar⟩
    rw [decls_of_resolve hresolve] at hd
    rw [hkinds.vars id hvars d hd] at hfunc
    cases hfunc
  · exact hitem

/-- A variable that a function uses by its symbol is an item of the program. -/
theorem globals_of_layout (honce : p.listed.Nodup) {x : Ident} (hx : x ∈ e.uses) {id : DeclId}
    (hid : x.decl = some id) {d : Decl} (hd : r.decls[id]? = some d)
    (hoffset : d.offset = .ok none) : id ∈ r.items.map Item.id := by
  rw [← listed_of_resolve hresolve] at honce
  obtain ⟨hparams, hlocals, -⟩ := layout_placed hlayout honce hf
  obtain ⟨id', d', hid', hvisible, -, -⟩ := uses_of_layout hresolve hlayout hf he hx
  obtain rfl : id = id' := Option.some.inj (hid.symm.trans hid')
  simp only [visible, List.mem_append] at hvisible
  rcases hvisible with (hparam | hlocal) | hitem
  · obtain ⟨i, -, hslot⟩ := hparams id hparam d hd
    cases Decl.offset_param hslot hoffset
  · obtain ⟨slot, hslot, hdepth, -⟩ := hlocals id hlocal d hd
    obtain ⟨_, -, hnone⟩ := Decl.offset_local hslot hdepth hoffset
    cases hnone
  · exact hitem

theorem knows_of_layout (honce : p.listed.Nodup) (hkinds : p.KindsAgree) {pool : Pool}
    {known : String → Prop}
    (hitems : ∀ id ∈ r.items.map Item.id, ∀ d, r.decls[id]? = some d → known d.name)
    (hpool : ∀ text label, pool.lookup text = some label → known label) :
    CodeEnv.Knows { decls := r.decls, pool } known e where
  uses x hx id d hid hd hoffset :=
    hitems id (globals_of_layout hresolve hlayout hf he honce hx hid hd hoffset) d hd
  callees x hx id d hid hd := by
    obtain ⟨id', hid', hitem⟩ := callees_of_layout hresolve hlayout hf he hkinds hx
    obtain rfl : id = id' := Option.some.inj (hid.symm.trans hid')
    exact hitems id hitem d hd
  literals text _ label := hpool text label

end Layout

/-- A listing refers to symbols that it defines and to functions of the C library. -/
theorem refersTo_generate {p q r : Program} {scope : Scope} (honce : p.listed.Nodup)
    (hkinds : p.KindsAgree) (hresolve : p.resolve scope = (q, .ok ())) (hlayout : q.layout = .ok r)
    {n : Nat} (hok : (r.generate n).result = .ok ()) {known : String → Prop}
    (hdefined : ∀ symbol ∈ (r.generate n).written.symbols, known symbol)
    (hprintf : known "printf@PLT") (hscanf : known "scanf@PLT") :
    (r.generate n).written.RefersTo known := by
  obtain ⟨k, targets, -, -, hperm⟩ := symbols_generate hok
  obtain ⟨data, pool, k', text, hdata, htext, hwritten⟩ := generate_eq_ok hok
  obtain ⟨functions, hfunctions, rfl⟩ := text_eq_ok htext
  have hlibrary : KnowsLibrary known := by
    refine ⟨fun symbol hsymbol => hdefined symbol (hperm.mem_iff.mpr ?_), hprintf, hscanf⟩
    exact List.mem_append_right _ (List.mem_append_left _ hsymbol)
  have hitems : ∀ id ∈ r.items.map Item.id, ∀ d, r.decls[id]? = some d → known d.name := by
    intro id hid d hd
    obtain ⟨item, hitem, rfl⟩ := List.mem_map.mp hid
    have hname : item.name? r.decls = some d.name := by simp [Item.name?, hd]
    have hnames := List.mem_filterMap.mpr ⟨item, hitem, hname⟩
    exact hdefined d.name (hperm.mem_iff.mpr (List.mem_append_left _ hnames))
  have hpool : ∀ text label, pool.lookup text = some label → known label := by
    intro text label hlookup
    apply hdefined
    obtain ⟨before, after, hpool, -⟩ := List.lookup_eq_some_iff.mp hlookup
    obtain ⟨storage, -, -, rfl⟩ := data_eq_ok hdata
    simp [hwritten, Pool.symbols_code, hpool]
  have hcode : functions.RefersTo known :=
    Func.refersTo_codeAll hlibrary (fun f hf e he => knows_of_layout hresolve hlayout
      (mem_functions_iff.mp hf) he honce hkinds hitems hpool) hfunctions
  have hstorage : data.RefersTo known := Code.refersTo_of_inst_not_mem (inst_not_mem_data hdata)
  simp [hwritten, hcode, hstorage]

/-- Symbols of a listing are unique and closed. No symbol is defined twice, and the numbers in
the names of literals and jump targets are those that the counter went through, each used
once, so a later run defines none of these names again. Every instruction stands in the code
of a function, and the jumps of a function lead to its own labels. Every other symbol that
is referred to is defined, up to the two functions of the C library. -/
theorem generated_symbols_unique_and_closed {p q r : Program} {scope : Scope}
    (honce : p.listed.Nodup) (hkinds : p.KindsAgree) (hresolve : p.resolve scope = (q, .ok ()))
    (hlayout : q.layout = .ok r) (hdots : ∀ d ∈ r.decls, d.name.toList.head? ≠ some '.') {n : Nat}
    {out : Generated} (hout : r.generate n = out) (hok : out.result = .ok ()) :
    out.written.symbols.Nodup ∧
      (∀ i, out.written.symbols.count (Label.jump i) + out.written.symbols.count (Label.literal i) =
        if n ≤ i ∧ i < out.labels then 1 else 0) ∧
      (∀ (next : Program) (m i : Nat), (∀ d ∈ next.decls, d.name.toList.head? ≠ some '.') →
        out.labels ≤ m →
        (Label.jump i ∈ out.written.symbols → Label.jump i ∉ (next.generate m).written.symbols) ∧
        (Label.literal i ∈ out.written.symbols →
          Label.literal i ∉ (next.generate m).written.symbols)) ∧
      (∃ pool before codes after, out.written = before ++ codes.flatten ++ after ∧
        (∀ i, .inst i ∉ before ∧ .inst i ∉ after) ∧
        List.Forall₂ (fun f own => (∃ k k', Func.code { decls := r.decls, pool } f k = .ok own k') ∧
          ∀ line ∈ own, ∀ target, line.target? = some target → .label target ∈ own)
          r.functions codes) ∧
      ∀ symbol ∈ out.written.references, symbol ∈ out.written.symbols ∨
        symbol = "printf@PLT" ∨ symbol = "scanf@PLT" := by
  subst hout
  have hnames := namesDistinct_of_layout hresolve hlayout
  refine ⟨nodup_symbols hdots hok hnames, count_symbols hdots hok hnames, ?_, exists_codes hok,
    refersTo_generate honce hkinds hresolve hlayout hok (fun _ hsymbol => .inl hsymbol)
      (.inr (.inl rfl)) (.inr (.inr rfl))⟩
  intro next m i hnext hm
  obtain ⟨k, hlow, hhigh, hjump, hliteral⟩ := exists_numbers hdots hok
  refine ⟨fun hi hagain => ?_, fun hi hagain => ?_⟩
  · have hlt := ((hjump i).mp hi).2
    have hge := le_of_mem_symbols hnext (.inl hagain)
    omega
  · have hlt := ((hliteral i).mp hi).2
    have hge := le_of_mem_symbols hnext (.inr hagain)
    omega

end Program

namespace Countdown

theorem listings_apart :
    (laidOut.generate 3).result = .ok () ∧ (laidOut.generate 3).written.symbols.Nodup ∧
      (laidOut.generate 3).written.symbols.count (Label.jump 4) +
        (laidOut.generate 3).written.symbols.count (Label.literal 4) = 1 ∧
      Label.jump 4 ∉ (laidOut.generate (laidOut.generate 3).labels).written.symbols ∧
      "total" ∈ (laidOut.generate 3).written.references ∧
      "total" ∈ (laidOut.generate 3).written.symbols := by
  have hok : (laidOut.generate 3).result = .ok () := rfl
  have hdots : ∀ d ∈ laidOut.decls, d.name.toList.head? ≠ some '.' := by decide
  have hjump : Label.jump 4 ∈ (laidOut.generate 3).written.symbols := by decide
  have hused : "total" ∈ (laidOut.generate 3).written.references := by decide
  obtain ⟨hnodup, hcount, hnext, -, hdefined⟩ :=
    Program.generated_symbols_unique_and_closed wellFormed.once wellFormed.kindsAgree
      resolve_program layout_resolved hdots rfl hok
  refine ⟨hok, hnodup, (hcount 4).trans (if_pos (by decide)),
    (hnext laidOut _ 4 hdots (Nat.le_refl _)).1 hjump, hused, ?_⟩
  exact (hdefined "total" hused).resolve_right (by decide)

end Countdown

end Backend
