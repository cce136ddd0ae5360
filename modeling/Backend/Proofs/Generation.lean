import Backend.Codegen.Program
import Backend.Proofs.Layout

/-! # Resolved programs do not fail in the generator

Whatever the generator looks up was established before: bindings, types and operands of
`&` by resolution, slots by the layout, labels of literals by the data section. Overflows
of checked arithmetic apart, only a program without a function `main` is refused.
-/

namespace Backend

namespace Emit

variable {α β : Type}

/-- A computation that fails by an overflow only. -/
def OnlyOverflows (x : Emit α) : Prop :=
  ∀ n stop n', x n = .error stop n' → ∃ o, stop = .overflow o

theorem bind_eq_error_iff {x : Emit α} {f : α → Emit β} {n n' : Nat} {stop : Stop} :
    (x >>= f) n = .error stop n' ↔
      x n = .error stop n' ∨ ∃ a k, x n = .ok a k ∧ f a k = .error stop n' := by
  change EStateM.bind x f n = _ ↔ _
  unfold EStateM.bind
  cases x n <;> simp

namespace OnlyOverflows

theorem pure (a : α) : OnlyOverflows (pure a : Emit α) := by
  intro n stop n' h
  cases h

theorem bind {x : Emit α} {f : α → Emit β} (hx : OnlyOverflows x)
    (hf : ∀ a n n', x n = .ok a n' → OnlyOverflows (f a)) : OnlyOverflows (x >>= f) := by
  intro n stop n' h
  rcases bind_eq_error_iff.mp h with h | ⟨a, k, ha, h⟩
  · exact hx n stop n' h
  · exact hf a n k ha k stop n' h

theorem checked (x : Except Overflow α) : OnlyOverflows (checked x) := by
  intro n stop n' h
  cases x with
  | ok a => cases h
  | error o =>
      cases h
      exact ⟨o, rfl⟩

theorem ofExcept {x : Except Error α} {a : α} (h : x = .ok a) : OnlyOverflows (ofExcept x) := by
  subst h
  exact pure a

theorem fresh : OnlyOverflows fresh := by
  apply bind
  · intro n stop n' h
    cases h
  · intro n _ _ _
    apply bind (checked _)
    intro _ _ _ _ n stop n' h
    cases h

theorem jumpLabel : OnlyOverflows jumpLabel :=
  fresh.bind fun _ _ _ _ => pure _

theorem literalLabel : OnlyOverflows literalLabel :=
  fresh.bind fun _ _ _ _ => pure _

end OnlyOverflows

end Emit

open Emit (OnlyOverflows)

/-- What the code of a node needs is there: slots of variables, functions to call, places
under `&` and labels of literals. -/
structure CodeEnv.Covers {l : Layer} (cx : CodeEnv) (x : Node l) : Prop where
  uses : ∀ y ∈ x.uses, ∃ id d, y.decl = some id ∧ cx.decls[id]? = some d ∧ d.slot.isSome
  callees : ∀ y ∈ x.callees, ∃ id d, y.decl = some id ∧ cx.decls[id]? = some d
  addressed : ∀ f ∈ x.addressed, f.place.isSome
  literals : ∀ text ∈ x.literals, (cx.pool.lookup text).isSome

namespace CodeEnv

variable {cx : CodeEnv} {l l' : Layer} {x : Node l} {y : Node l'}

theorem Covers.mono (h : cx.Covers x) (huses : y.uses ⊆ x.uses) (hcallees : y.callees ⊆ x.callees)
    (haddressed : y.addressed ⊆ x.addressed) (hliterals : y.literals ⊆ x.literals) :
    cx.Covers y where
  uses z hz := h.uses z (huses hz)
  callees z hz := h.callees z (hcallees hz)
  addressed f hf := h.addressed f (haddressed hf)
  literals text ht := h.literals text (hliterals ht)

theorem decl_eq_pure {y : Ident} {id : DeclId} {d : Decl} (hid : y.decl = some id)
    (hd : cx.decls[id]? = some d) : cx.decl y = pure d := by
  simp only [decl, hid, declared_eq_ok_iff.mpr hd]
  rfl

theorem decl_onlyOverflows {y : Ident} {id : DeclId} {d : Decl} (hid : y.decl = some id)
    (hd : cx.decls[id]? = some d) : OnlyOverflows (cx.decl y) := by
  rw [decl_eq_pure hid hd]
  exact .pure d

/-- A variable is found, and it has a slot. -/
theorem Covers.decl (h : cx.Covers x) {y : Ident} (hy : y ∈ x.uses) :
    OnlyOverflows (cx.decl y) ∧ ∀ d n n', cx.decl y n = .ok d n' → d.slot.isSome := by
  obtain ⟨id, d, hid, hd, hslot⟩ := h.uses y hy
  refine ⟨decl_onlyOverflows hid hd, ?_⟩
  intro d' n n' hd'
  simp only [CodeEnv.decl, hid, Emit.ofExcept_eq_ok_iff, declared_eq_ok_iff, hd,
    Option.some.injEq] at hd'
  rw [← hd'.1]
  exact hslot

end CodeEnv

namespace Decl

variable {d : Decl}

theorem cell_onlyOverflows (h : d.slot.isSome) : OnlyOverflows d.cell := by
  obtain ⟨slot, hslot⟩ := Option.isSome_iff_exists.mp h
  simp only [cell, hslot]
  apply (OnlyOverflows.checked _).bind
  intro offset n n' hoffset
  cases offset <;> exact .pure _

theorem arrayBase_onlyOverflows (h : d.slot.isSome) : OnlyOverflows d.arrayBase := by
  apply (cell_onlyOverflows h).bind
  intro cell n n' hcell
  split <;> exact .pure _

theorem load_onlyOverflows (h : d.slot.isSome) (access : Access) :
    OnlyOverflows (d.load access) := by
  cases access with
  | address => exact (cell_onlyOverflows h).bind fun _ _ _ _ => .pure _
  | value =>
      simp only [load]
      split
      · exact arrayBase_onlyOverflows h
      · exact arrayBase_onlyOverflows h
      · exact (cell_onlyOverflows h).bind fun _ _ _ _ => .pure _

end Decl

theorem CodeEnv.Covers.element {cx : CodeEnv} {l : Layer} {x : Node l} (h : cx.Covers x)
    {y : Ident} (hy : y ∈ x.uses) {index : Emit Code} (hindex : OnlyOverflows index) :
    OnlyOverflows (cx.element y index) := by
  obtain ⟨hdecl, hslot⟩ := h.decl hy
  apply hdecl.bind
  intro d n n' hd
  apply (Decl.arrayBase_onlyOverflows (hslot d n n' hd)).bind
  intro base _ _ _
  exact hindex.bind fun _ _ _ _ => .pure _

theorem Pool.label_onlyOverflows {pool : Pool} {text : String} (h : (pool.lookup text).isSome) :
    OnlyOverflows (pool.label text) := by
  obtain ⟨label, hlabel⟩ := Option.isSome_iff_exists.mp h
  simp only [Pool.label, hlabel]
  exact .pure label

/-- Where a node has all it needs, its code can only fail by an overflow. -/
theorem Node.code_onlyOverflows {cx : CodeEnv} {l : Layer} {x : Node l} (h : cx.Covers x)
    (access : Access) : OnlyOverflows (x.code cx access) := by
  induction x generalizing access with
  | comp m x ih | sum m x ih | term m x ih | unary m x ih | factor m x ih | paren m x ih =>
      exact ih (h.mono (.refl _) (.refl _) (.refl _) (.refl _)) access
  | num m n | read m | nil => exact .pure _
  | str m text =>
      have hlabel := h.literals text (List.mem_singleton_self text)
      exact (Pool.label_onlyOverflows hlabel).bind fun _ _ _ _ => .pure _
  | var m y =>
      obtain ⟨hdecl, hslot⟩ := h.decl (List.mem_singleton_self y)
      apply hdecl.bind
      intro d n n' hd
      exact (Decl.load_onlyOverflows (hslot d n n' hd) access).bind fun _ _ _ _ => .pure _
  | setVar m y | setDeref m y =>
      obtain ⟨hdecl, hslot⟩ := h.decl (List.mem_singleton_self y)
      apply hdecl.bind
      intro d n n' hd
      exact (Decl.cell_onlyOverflows (hslot d n n' hd)).bind fun _ _ _ _ => .pure _
  | elem m y i ih | setElem m y i ih =>
      have hindex : cx.Covers i :=
        h.mono (List.subset_cons_self _ _) (.refl _) (.refl _) (.refl _)
      have helement := h.element List.mem_cons_self (ih hindex .value)
      exact helement.bind fun _ _ _ _ => .pure _
  | neg m x ih | deref m x ih =>
      have hx : cx.Covers x := h.mono (.refl _) (.refl _) (.refl _) (.refl _)
      exact (ih hx .value).bind fun _ _ _ _ => .pure _
  | addrOf m x ih =>
      have hx : cx.Covers x :=
        h.mono (.refl _) (.refl _) (List.subset_cons_self _ _) (.refl _)
      have hplace := Option.isSome_iff_ne_none.mp (h.addressed x List.mem_cons_self)
      rw [code, if_neg (by simpa using hplace)]
      exact ih hx .address
  | add m a op b iha ihb | mul m a op b iha ihb | cons a b iha ihb | assign m a b iha ihb =>
      have ha : cx.Covers a := h.mono (by simp [uses]) (by simp [callees]) (by simp [addressed])
        (by simp [literals])
      have hb : cx.Covers b := h.mono (by simp [uses]) (by simp [callees]) (by simp [addressed])
        (by simp [literals])
      -- In each of the four, the part on the right comes first.
      apply (ihb hb .value).bind
      intro right _ _ _
      exact (iha ha .value).bind fun _ _ _ _ => .pure _
  | rel m a op b iha ihb =>
      have ha : cx.Covers a := h.mono (by simp [uses]) (by simp [callees]) (by simp [addressed])
        (by simp [literals])
      have hb : cx.Covers b := h.mono (by simp [uses]) (by simp [callees]) (by simp [addressed])
        (by simp [literals])
      apply OnlyOverflows.jumpLabel.bind
      intro other _ _ _
      apply OnlyOverflows.jumpLabel.bind
      intro stop _ _ _
      apply (ihb hb .value).bind
      intro right _ _ _
      exact (iha ha .value).bind fun _ _ _ _ => .pure _
  | call m y as ih =>
      have hargs : cx.Covers as :=
        h.mono (.refl _) (List.subset_cons_self _ _) (.refl _) (.refl _)
      obtain ⟨id, d, hid, hd⟩ := h.callees y List.mem_cons_self
      apply (CodeEnv.decl_onlyOverflows hid hd).bind
      intro d _ _ _
      apply (ih hargs .value).bind
      intro pushes _ _ _
      exact (OnlyOverflows.checked _).bind fun _ _ _ _ => .pure _

namespace Clause

theorem code_onlyOverflows {cx : CodeEnv} {f : Form} {c : Clause f}
    (hexprs : ∀ e ∈ c.exprs, cx.Covers e)
    (hwritten : ∀ e ∈ c.written, e.ty = .int ∨ e.ty = .string) : OnlyOverflows (c.code cx) := by
  induction c with
  | absent | nil => exact .pure _
  | eval line e =>
      cases e with
      | none => exact .pure _
      | some e => exact e.code_onlyOverflows (hexprs e (by simp [exprs])) .value
  | ret line e =>
      cases e with
      | none => exact .pure _
      | some e =>
          have hvalue := e.code_onlyOverflows (hexprs e (by simp [exprs])) .value
          exact hvalue.bind fun _ _ _ _ => .pure _
  | write line e =>
      cases e with
      | none => exact .pure _
      | some e =>
          have hvalue := e.code_onlyOverflows (hexprs e (by simp [exprs])) .value
          have hprint : OnlyOverflows e.ty.print := by
            rcases hwritten e (by simp [written]) with hty | hty
            · rw [hty]
              exact .pure _
            · rw [hty]
              exact .pure _
          exact hprint.bind fun _ _ _ _ => hvalue.bind fun _ _ _ _ => .pure _
  | braces line s ih | present s ih => exact ih hexprs hwritten
  | ifElse line e s t ihs iht =>
      simp only [exprs, List.forall_mem_cons, List.forall_mem_append] at hexprs
      simp only [written, List.forall_mem_append] at hwritten
      obtain ⟨hcond, hthen, helse⟩ := hexprs
      apply OnlyOverflows.jumpLabel.bind
      intro start _ _ _
      apply OnlyOverflows.jumpLabel.bind
      intro other _ _ _
      apply OnlyOverflows.jumpLabel.bind
      intro stop _ _ _
      apply (e.code_onlyOverflows hcond .value).bind
      intro _ _ _ _
      apply (ihs hthen hwritten.1).bind
      intro _ _ _ _
      exact (iht helse hwritten.2).bind fun _ _ _ _ => .pure _
  | loop line e s ih =>
      simp only [exprs, List.forall_mem_cons] at hexprs
      apply OnlyOverflows.jumpLabel.bind
      intro start _ _ _
      apply OnlyOverflows.jumpLabel.bind
      intro stop _ _ _
      apply (e.code_onlyOverflows hexprs.1 .value).bind
      intro _ _ _ _
      exact (ih hexprs.2 hwritten).bind fun _ _ _ _ => .pure _
  | cons s t ihs iht =>
      simp only [exprs, List.forall_mem_append] at hexprs
      simp only [written, List.forall_mem_append] at hwritten
      apply (ihs hexprs.1 hwritten.1).bind
      intro _ _ _ _
      exact (iht hexprs.2 hwritten.2).bind fun _ _ _ _ => .pure _
  | block line ids stmts size span ih =>
      exact (ih hexprs hwritten).bind fun _ _ _ _ => .pure _

/-- The literals of a statement's expressions are literals of the statement. -/
theorem literals_of_mem_exprs {f : Form} {c : Clause f} {e : Expr} (he : e ∈ c.exprs) :
    e.literals ⊆ c.literals := by
  induction c with
  | absent | nil => simp [exprs] at he
  | eval line e' | ret line e' | write line e' =>
      cases e' with
      | none => simp [exprs] at he
      | some e' =>
          cases List.mem_singleton.mp he
          exact List.Subset.refl _
  | braces line s ih | present s ih | block line ids s size span ih => exact ih he
  | ifElse line c s t ihs iht =>
      simp only [exprs, List.mem_cons, List.mem_append] at he
      simp only [literals, List.append_assoc]
      rcases he with rfl | he | he
      · exact List.subset_append_left _ _
      · exact List.Subset.trans (ihs he)
          (List.subset_append_of_subset_right _ (List.subset_append_left _ _))
      · exact List.Subset.trans (iht he)
          (List.subset_append_of_subset_right _ (List.subset_append_right _ _))
  | loop line c s ih =>
      rcases List.mem_cons.mp he with rfl | he
      · exact List.subset_append_left _ _
      · exact List.Subset.trans (ih he) (List.subset_append_right _ _)
  | cons s t ihs iht =>
      rcases List.mem_append.mp he with he | he
      · exact List.Subset.trans (ihs he) (List.subset_append_left _ _)
      · exact List.Subset.trans (iht he) (List.subset_append_right _ _)

end Clause

namespace Pool

theorem assign_onlyOverflows (texts : List String) : OnlyOverflows (assign texts) := by
  induction texts with
  | nil => exact .pure _
  | cons text rest ih =>
      apply OnlyOverflows.literalLabel.bind
      intro label _ _ _
      exact ih.bind fun _ _ _ _ => .pure _

/-- Every text that was to get a label has one. -/
theorem lookup_isSome_of_assign {texts : List String} {pool : Pool} {n n' : Nat}
    (h : assign texts n = .ok pool n') {text : String} (ht : text ∈ texts) :
    (pool.lookup text).isSome := by
  induction texts generalizing pool n with
  | nil => cases ht
  | cons first rest ih =>
      simp only [assign, Emit.bind_eq_ok_iff, Emit.pure_eq_ok_iff] at h
      obtain ⟨label, k, -, others, k', hothers, rfl, rfl⟩ := h
      rw [List.lookup_cons]
      by_cases heq : text = first
      · simp [heq]
      · have hrest := (List.mem_cons.mp ht).resolve_left heq
        rw [beq_false_of_ne heq]
        exact ih hothers hrest

end Pool

theorem globalStorage_onlyOverflows {decls : List Decl} {items : List Item}
    (h : ∀ id, .var id ∈ items → ∃ d, decls[id]? = some d) :
    OnlyOverflows (globalStorage decls items) := by
  induction items with
  | nil => exact .pure _
  | cons item rest ih =>
      have hrest := ih fun id hid => h id (List.mem_cons_of_mem _ hid)
      cases item with
      | func f => exact hrest
      | var id =>
          obtain ⟨d, hd⟩ := h id List.mem_cons_self
          apply (OnlyOverflows.ofExcept (declared_eq_ok_iff.mpr hd)).bind
          intro _ _ _ _
          apply (OnlyOverflows.checked _).bind
          intro _ _ _ _
          exact hrest.bind fun _ _ _ _ => .pure _

theorem Func.codeAll_onlyOverflows {cx : CodeEnv} {fs : List Func}
    (hdecls : ∀ f ∈ fs, ∃ d, cx.decls[f.decl]? = some d)
    (hcodes : ∀ f ∈ fs, OnlyOverflows (f.body.code cx)) : OnlyOverflows (codeAll cx fs) := by
  induction fs with
  | nil => exact .pure _
  | cons f rest ih =>
      rw [List.forall_mem_cons] at hdecls hcodes
      obtain ⟨d, hd⟩ := hdecls.1
      have hf : OnlyOverflows (f.code cx) := by
        apply (OnlyOverflows.ofExcept (declared_eq_ok_iff.mpr hd)).bind
        intro _ _ _ _
        exact hcodes.1.bind fun _ _ _ _ => .pure _
      apply hf.bind
      intro _ _ _ _
      exact (ih hdecls.2 hcodes.2).bind fun _ _ _ _ => .pure _

namespace Program

theorem mem_functions_iff {p : Program} {f : Func} : f ∈ p.functions ↔ .func f ∈ p.items := by
  simp only [functions, List.mem_filterMap]
  constructor
  · rintro ⟨item, hitem, heq⟩
    cases item with
    | var id => cases heq
    | func g =>
        cases heq
        exact hitem
  · intro hf
    exact ⟨.func f, hf, rfl⟩

/-- Some function of the program is called `main`. -/
def DeclaresMain (p : Program) : Prop :=
  ∃ f d, .func f ∈ p.items ∧ p.decls[f.decl]? = some d ∧ d.name = "main"

theorem hasMain_iff {p : Program} : p.hasMain = true ↔ p.DeclaresMain := by
  simp [hasMain, DeclaresMain, List.any_eq_true, mem_functions_iff, Option.any_eq_true]

theorem declaresMain_iff {p : Program} :
    p.DeclaresMain ↔ ∃ id d, some id ∈ p.items.map Item.funcDecl? ∧ p.decls[id]? = some d ∧
      d.name = "main" := by
  constructor
  · rintro ⟨f, d, hf, hd, hname⟩
    exact ⟨f.decl, d, List.mem_map_of_mem hf, hd, hname⟩
  · rintro ⟨id, d, hid, hd, hname⟩
    obtain ⟨item, hitem, heq⟩ := List.mem_map.mp hid
    cases item with
    | var _ => cases heq
    | func f =>
        cases heq
        exact ⟨f, d, hitem, hd, hname⟩

/-- Neither resolution nor layout changes what functions there are and how they are called. -/
theorem declaresMain_of_layout {p q r : Program} {scope : Scope}
    (hresolve : p.resolve scope = (q, .ok ())) (hlayout : q.layout = .ok r) :
    r.DeclaresMain ↔ p.DeclaresMain := by
  have hsame := layout_sameButSlots hlayout
  rw [decls_of_resolve hresolve] at hsame
  rw [declaresMain_iff, declaresMain_iff, funcDecls_of_layout hlayout,
    funcDecls_of_resolve hresolve]
  constructor
  · rintro ⟨id, d, hid, hd, hname⟩
    obtain ⟨d₀, hd₀, hbare⟩ := hsame.exists_of_getElem? hd
    exact ⟨id, d₀, hid, hd₀, by rw [← Decl.name_eq_of_bare hbare, hname]⟩
  · rintro ⟨id, d, hid, hd, hname⟩
    obtain ⟨d₀, hd₀, hbare⟩ := hsame.symm.exists_of_getElem? hd
    exact ⟨id, d₀, hid, hd₀, by rw [← Decl.name_eq_of_bare hbare, hname]⟩

theorem declared_of_layout {p q r : Program} {scope : Scope}
    (hresolve : p.resolve scope = (q, .ok ())) (hlayout : q.layout = .ok r) {item : Item}
    (hitem : item ∈ r.items) : ∃ d, r.decls[item.id]? = some d := by
  have hid : item.id ∈ q.items.map Item.id := by
    rw [← ids_of_layout hlayout]
    exact List.mem_map_of_mem hitem
  obtain ⟨item₀, hitem₀, heq⟩ := List.mem_map.mp hid
  obtain ⟨d₀, hd₀⟩ := declared_of_resolve hresolve hitem₀
  obtain ⟨d, hd, -⟩ := (layout_sameButSlots hlayout).symm.exists_of_getElem? hd₀
  exact ⟨d, by rw [← heq, hd]⟩

theorem visible_subset_listed {p : Program} {f : Func} (hf : .func f ∈ p.items) :
    p.visible f ⊆ p.listed := by
  intro id hid
  simp only [visible, List.mem_append] at hid
  rw [mem_listed_iff]
  rcases hid with hid | hid
  · exact ⟨.func f, hf, .inr (List.mem_append.mpr hid)⟩
  · obtain ⟨item, hitem, rfl⟩ := List.mem_map.mp hid
    exact ⟨item, hitem, .inl rfl⟩

/-- With the labels of its own literals, every expression of a resolved and laid out
program has all that its code needs. -/
theorem covers_of_layout {p q r : Program} {scope : Scope}
    (hresolve : p.resolve scope = (q, .ok ())) (hlayout : q.layout = .ok r) {pool : Pool}
    (hpool : ∀ text ∈ r.literals, (pool.lookup text).isSome) {f : Func} (hf : .func f ∈ r.items)
    {e : Expr} (he : e ∈ f.body.exprs) : CodeEnv.Covers { decls := r.decls, pool } e := by
  obtain ⟨f₀, hf₀, hdecl, hbody⟩ := func_of_layout hlayout hf
  have he₀ : e ∈ f₀.body.exprs := by
    rw [← Clause.exprs_bare, ← hbody, Clause.exprs_bare]
    exact he
  obtain ⟨Γ, e₀, t, htyped, -⟩ := typed_of_resolve hresolve hf₀ he₀
  refine ⟨?_, ?_, fun g hg => htyped.addressed_place hg, ?_⟩
  · intro x hx
    obtain ⟨id, d, hid, hvisible, hd, -⟩ := uses_of_layout hresolve hlayout hf he hx
    rw [visible_of_layout hlayout hdecl hbody] at hvisible
    exact ⟨id, d, hid, hd, layout_slot hlayout (visible_subset_listed hf₀ hvisible) hd⟩
  · intro x hx
    obtain ⟨id, d₀, hid, -, hd₀, -⟩ := htyped.callees_bound hx
    obtain ⟨d, hd, -⟩ := (layout_sameButSlots hlayout).symm.exists_of_getElem? hd₀
    exact ⟨id, d, hid, hd⟩
  · intro text ht
    apply hpool
    have hbodies := Clause.literals_of_mem_exprs he ht
    exact List.mem_flatMap.mpr ⟨f, mem_functions_iff.mpr hf, hbodies⟩

section Generator

variable {p q r : Program} {scope : Scope} (hresolve : p.resolve scope = (q, .ok ()))
  (hlayout : q.layout = .ok r)
include hresolve hlayout

theorem data_onlyOverflows : OnlyOverflows r.data := by
  have hstorage : OnlyOverflows (globalStorage r.decls r.items) :=
    globalStorage_onlyOverflows fun id hid => declared_of_layout hresolve hlayout hid
  apply hstorage.bind
  intro storage _ _ _
  exact (Pool.assign_onlyOverflows _).bind fun _ _ _ _ => .pure _

theorem codeAll_onlyOverflows {pool : Pool}
    (hpool : ∀ text ∈ r.literals, (pool.lookup text).isSome) :
    OnlyOverflows (Func.codeAll { decls := r.decls, pool } r.functions) := by
  apply Func.codeAll_onlyOverflows
  · intro f hf
    exact declared_of_layout hresolve hlayout (mem_functions_iff.mp hf)
  · intro f hf
    have hf := mem_functions_iff.mp hf
    obtain ⟨f₀, hf₀, -, hbody⟩ := func_of_layout hlayout hf
    apply Clause.code_onlyOverflows
    · intro e he
      exact covers_of_layout hresolve hlayout hpool hf he
    · intro e he
      rw [← Clause.written_bare, hbody, Clause.written_bare] at he
      exact written_of_resolve hresolve hf₀ he

end Generator

theorem lookup_isSome_of_data {r : Program} {n n' : Nat} {data : Code} {pool : Pool}
    (h : r.data n = .ok (data, pool) n') {text : String} (ht : text ∈ r.literals) :
    (pool.lookup text).isSome := by
  simp only [Program.data, Emit.bind_eq_ok_iff, Emit.pure_eq_ok_iff, Prod.mk.injEq] at h
  obtain ⟨storage, k, -, pool', k', hpool, ⟨-, rfl⟩, -⟩ := h
  exact Pool.lookup_isSome_of_assign hpool (List.mem_eraseDups.mpr ht)

/-- A text section fails by an overflow, or for want of a function `main`. -/
theorem text_eq_error {p q r : Program} {scope : Scope}
    (hresolve : p.resolve scope = (q, .ok ())) (hlayout : q.layout = .ok r) {pool : Pool}
    (hpool : ∀ text ∈ r.literals, (pool.lookup text).isSome) {n n' : Nat} {stop : Stop}
    (h : r.text pool n = .error stop n') :
    (∃ o, stop = .overflow o) ∨ stop = .error .noMain ∧ ¬ p.DeclaresMain := by
  by_cases hmain : r.hasMain = true
  · simp only [text, hmain, if_true] at h
    have hcodes := codeAll_onlyOverflows hresolve hlayout hpool
    exact .inl ((hcodes.bind fun _ _ _ _ => .pure _) n stop n' h)
  · have hdeclares : ¬ p.DeclaresMain := by
      rwa [← declaresMain_of_layout hresolve hlayout, ← hasMain_iff]
    rw [text, if_neg hmain] at h
    cases h
    exact .inr ⟨rfl, hdeclares⟩

theorem declaresMain_of_text {p q r : Program} {scope : Scope}
    (hresolve : p.resolve scope = (q, .ok ())) (hlayout : q.layout = .ok r) {pool : Pool}
    {n n' : Nat} {code : Code} (h : r.text pool n = .ok code n') : p.DeclaresMain := by
  rw [← declaresMain_of_layout hresolve hlayout, ← hasMain_iff]
  by_contra hmain
  rw [text, if_neg hmain] at h
  cases h

/-- For a resolved and laid out program, overflows apart, the data section is always
generated, the text section exactly when there is a function `main`, and without one the
generator refuses the program after writing just the data section. -/
theorem generate_succeeds_iff_main {p q r : Program} {scope : Scope}
    (hresolve : p.resolve scope = (q, .ok ())) (hlayout : q.layout = .ok r) :
    (∀ n stop n', r.data n = .error stop n' → ∃ o, stop = .overflow o) ∧
    (∀ n data pool n', r.data n = .ok (data, pool) n' →
      ∀ k stop k', r.text pool k = .error stop k' →
        (∃ o, stop = .overflow o) ∨ stop = .error .noMain ∧ ¬ p.DeclaresMain) ∧
    ∀ n, (∀ o, (r.generate n).result ≠ .error (.overflow o)) →
      ((r.generate n).result = .ok () ↔ p.DeclaresMain) ∧
      (¬ p.DeclaresMain → (r.generate n).result = .error (.error .noMain) ∧
        ∃ pool n', r.data n = .ok ((r.generate n).written, pool) n') := by
  refine ⟨data_onlyOverflows hresolve hlayout, ?_, ?_⟩
  · intro n data pool n' hdata k stop k' htext
    exact text_eq_error hresolve hlayout (fun _ => lookup_isSome_of_data hdata) htext
  · intro n hoverflow
    unfold generate at hoverflow ⊢
    cases hdata : r.data n with
    | error stop n' =>
        obtain ⟨o, rfl⟩ := data_onlyOverflows hresolve hlayout n stop n' hdata
        rw [hdata] at hoverflow
        exact absurd rfl (hoverflow o)
    | ok result n' =>
        obtain ⟨data, pool⟩ := result
        cases htext : r.text pool n' with
        | ok code k =>
            have hmain := declaresMain_of_text hresolve hlayout htext
            simp [htext, hmain]
        | error stop k =>
            rcases text_eq_error hresolve hlayout (fun _ => lookup_isSome_of_data hdata) htext with
              ⟨o, rfl⟩ | ⟨rfl, hmain⟩
            · simp only [hdata, htext] at hoverflow
              exact absurd rfl (hoverflow o)
            · simp [htext, hmain]

end Program

namespace Countdown

def resolved : Program := (program.resolve .function).1

def laidOut : Program := resolved.layout.toOption.getD {}

theorem resolve_program : program.resolve .function = (resolved, .ok ()) := by
  rfl

theorem layout_resolved : resolved.layout = .ok laidOut := by
  rfl

/-- The program without its function. -/
def storage : Program := { program with items := [.var 0] }

def storageLaidOut : Program := storage.layout.toOption.getD {}

theorem generated_and_refused :
    (laidOut.generate 0).result = .ok () ∧
      (storageLaidOut.generate 0).result = .error (.error .noMain) ∧
      ∃ pool n', storageLaidOut.data 0 = .ok ((storageLaidOut.generate 0).written, pool) n' := by
  have hresolve : storage.resolve .block = (storage, .ok ()) := by rfl
  have hlayout : storage.layout = .ok storageLaidOut := by rfl
  obtain ⟨-, -, hgenerate⟩ := Program.generate_succeeds_iff_main resolve_program layout_resolved
  obtain ⟨-, -, hrefuse⟩ := Program.generate_succeeds_iff_main hresolve hlayout
  have hmain : program.DeclaresMain := ⟨main, _, by simp [program], rfl, rfl⟩
  have hnone : ¬ storage.DeclaresMain := by simp [Program.DeclaresMain, storage]
  have hfits : ∀ o, (laidOut.generate 0).result ≠ .error (.overflow o) := by
    intro o
    cases o <;> decide
  have hsmall : ∀ o, (storageLaidOut.generate 0).result ≠ .error (.overflow o) := by
    intro o
    cases o <;> decide
  exact ⟨(hgenerate 0 hfits).1.mpr hmain, (hrefuse 0 hsmall).2 hnone⟩

end Countdown

end Backend
