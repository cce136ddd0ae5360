import Backend.Proofs.Occurrence
import Backend.Proofs.StaticSemantics

/-! # What the names of a resolved program are bound to

In a resolved program every name of a function's body is bound to a parameter or local
of that function or to a top-level declaration.
-/

namespace Backend

theorem Meaning.declare_mem {decls : List Decl} {Γ : Meaning} {ids : List DeclId}
    {P : DeclId → Prop} (hΓ : ∀ name id, Γ name = some id → P id) (hids : ∀ id ∈ ids, P id)
    {name : String} {id : DeclId} (h : Γ.declare decls ids name = some id) : P id := by
  rw [declare, Option.or_eq_some_iff] at h
  rcases h with h | ⟨-, h⟩
  · exact hids id (List.mem_reverse.mp (List.mem_of_find?_eq_some h))
  · exact hΓ name id h

theorem Rules.leave_mem {cx : Rules} {outer inner : Meaning} {P : DeclId → Prop}
    (houter : ∀ name id, outer name = some id → P id)
    (hinner : ∀ name id, inner name = some id → P id) {name : String} {id : DeclId}
    (h : cx.leave outer inner name = some id) : P id := by
  cases hscope : cx.scope with
  | function =>
      simp only [leave, hscope] at h
      exact hinner name id h
  | block =>
      simp only [leave, hscope] at h
      exact houter name id h

namespace Accepted

variable {cx : Rules} {f : Form} {Γ Γ' : Meaning} {c c' : Clause f}

theorem locals_eq (h : Accepted cx Γ c c' Γ') : c'.locals = c.locals := by
  induction h <;> simp_all [Clause.locals]

/-- The expressions of an accepted statement are typed where only declarations in scope
before it and locals of its own have names. So are the names behind it. -/
theorem typed_of_mem (h : Accepted cx Γ c c' Γ') {P : DeclId → Prop}
    (hΓ : ∀ name id, Γ name = some id → P id) (hlocals : ∀ id ∈ c.locals, P id) :
    (∀ e' ∈ c'.exprs, ∃ Γ₁ e t, Typed cx.decls Γ₁ e e' [t] ∧
      ∀ name id, Γ₁ name = some id → P id) ∧
    ∀ name id, Γ' name = some id → P id := by
  induction h with
  | empty | leave _ | newline | absent | nil => exact ⟨by simp [Clause.exprs], hΓ⟩
  | @eval Γ _ _ _ _ hd | @ret Γ _ _ _ hd | @write Γ _ _ _ _ hd _ =>
      refine ⟨?_, hΓ⟩
      intro e' he'
      cases List.mem_singleton.mp he'
      exact ⟨Γ, _, _, hd, hΓ⟩
  | braces _ ih | present _ ih => exact ih hΓ hlocals
  | @ifElse Γ _ _ _ c c' _ _ _ _ hdc _ _ iht ihe =>
      simp only [Clause.locals, List.mem_append] at hlocals
      obtain ⟨hthen, hΓ₁⟩ := iht hΓ (fun id hid => hlocals id (.inl hid))
      obtain ⟨helse, hΓ₂⟩ := ihe hΓ₁ (fun id hid => hlocals id (.inr hid))
      refine ⟨?_, hΓ₂⟩
      intro e' he'
      simp only [Clause.exprs, List.mem_cons, List.mem_append] at he'
      rcases he' with rfl | he' | he'
      · exact ⟨Γ, c, .int, hdc, hΓ⟩
      · exact hthen e' he'
      · exact helse e' he'
  | @loop Γ _ _ c c' _ _ hdc _ ih =>
      obtain ⟨hbody, hΓ'⟩ := ih hΓ hlocals
      refine ⟨?_, hΓ'⟩
      intro e' he'
      rcases List.mem_cons.mp he' with rfl | he'
      · exact ⟨Γ, c, .int, hdc, hΓ⟩
      · exact hbody e' he'
  | cons _ _ ihs ihrest =>
      simp only [Clause.locals, List.mem_append] at hlocals
      obtain ⟨hfirst, hΓ₁⟩ := ihs hΓ (fun id hid => hlocals id (.inl hid))
      obtain ⟨hothers, hΓ₂⟩ := ihrest hΓ₁ (fun id hid => hlocals id (.inr hid))
      refine ⟨?_, hΓ₂⟩
      intro e' he'
      rcases List.mem_append.mp he' with he' | he'
      · exact hfirst e' he'
      · exact hothers e' he'
  | block _ ih =>
      simp only [Clause.locals, List.mem_append] at hlocals
      -- The names of the block are those around it and those of its own locals.
      have hinner := fun name id =>
        @Meaning.declare_mem cx.decls _ _ P hΓ (fun id hid => hlocals id (.inl hid)) name id
      obtain ⟨hstmts, hΓ'⟩ := ih hinner (fun id hid => hlocals id (.inr hid))
      exact ⟨hstmts, fun name id => Rules.leave_mem hΓ hΓ'⟩

/-- Only integers and strings are written. -/
theorem written_ty (h : Accepted cx Γ c c' Γ') {e : Expr} (he : e ∈ c'.written) :
    e.ty = .int ∨ e.ty = .string := by
  induction h with
  | write hd ht =>
      cases List.mem_singleton.mp he
      rw [hd.ty_eq]
      exact ht
  | ifElse _ _ _ iha ihb | cons _ _ iha ihb =>
      rcases List.mem_append.mp he with he | he
      · exact iha he
      · exact ihb he
  | braces _ ih | present _ ih | loop _ _ ih | block _ ih => exact ih he
  | empty | eval _ | leave _ | ret _ | newline | absent | nil => simp [Clause.written] at he

end Accepted

namespace Item

/-- What resolving an item leaves as it is stays the same throughout a program. -/
theorem AllAdmitted.map_eq {α : Type} {g : Item → α} {decls : List Decl} {scope : Scope}
    (hg : ∀ before item item', Admitted decls scope before item item' → g item' = g item)
    {before items items' : List Item} (h : AllAdmitted decls scope before items items') :
    items'.map g = items.map g := by
  induction h with
  | nil => rfl
  | cons hadmitted _ ih => rw [List.map_cons, List.map_cons, ih, hg _ _ _ hadmitted]

namespace Admitted

variable {decls : List Decl} {scope : Scope} {before : List Item} {item item' : Item}

theorem id_eq (h : Admitted decls scope before item item') : item'.id = item.id := by
  cases h <;> rfl

theorem funcDecl?_eq (h : Admitted decls scope before item item') :
    item'.funcDecl? = item.funcDecl? := by
  cases h <;> rfl

theorem listed_eq (h : Admitted decls scope before item item') :
    item'.listed decls = item.listed decls := by
  cases h with
  | var => rfl
  | func _ _ _ _ haccepted => simp only [listed, haccepted.locals_eq]

theorem vars_eq (h : Admitted decls scope before item item') :
    item'.vars decls = item.vars decls := by
  cases h with
  | var => rfl
  | func _ _ _ _ haccepted => simp only [vars, haccepted.locals_eq]

end Admitted

end Item

namespace Program

/-- The declarations that a function's body can name. -/
def visible (p : Program) (f : Func) : List DeclId :=
  paramsAt p.decls f.decl ++ f.body.locals ++ p.items.map Item.id

theorem itemNames_mem {decls : List Decl} {items : List Item} {name : String} {id : DeclId}
    (h : itemNames decls items name = some id) : id ∈ items.map Item.id :=
  List.mem_of_find?_eq_some h

/-- A resolved item stems from an admitted one. -/
theorem admitted_of_resolve {p q : Program} {scope : Scope} (h : p.resolve scope = (q, .ok ()))
    {item' : Item} (hitem' : item' ∈ q.items) :
    ∃ (place : Nat) (item : Item), p.items[place]? = some item ∧
      item.Admitted p.decls scope (p.items.take place) item' := by
  obtain ⟨-, hall⟩ := resolve_eq_ok_iff_allAdmitted.mp h
  obtain ⟨hlength, hplaces⟩ := Item.allAdmitted_iff.mp hall
  obtain ⟨place, hplace⟩ := List.getElem?_of_mem hitem'
  have hlt : place < p.items.length := by
    rw [← hlength]
    exact (List.getElem?_eq_some_iff.mp hplace).1
  have hitem := List.getElem?_eq_getElem hlt
  exact ⟨place, _, hitem, by simpa using hplaces place _ _ hitem hplace⟩

theorem decls_of_resolve {p q : Program} {scope : Scope} (h : p.resolve scope = (q, .ok ())) :
    q.decls = p.decls :=
  (resolve_eq_ok_iff_allAdmitted.mp h).1

theorem ids_of_resolve {p q : Program} {scope : Scope} (h : p.resolve scope = (q, .ok ())) :
    q.items.map Item.id = p.items.map Item.id :=
  (resolve_eq_ok_iff_allAdmitted.mp h).2.map_eq fun _ _ _ => Item.Admitted.id_eq

theorem funcDecls_of_resolve {p q : Program} {scope : Scope}
    (h : p.resolve scope = (q, .ok ())) :
    q.items.map Item.funcDecl? = p.items.map Item.funcDecl? :=
  (resolve_eq_ok_iff_allAdmitted.mp h).2.map_eq fun _ _ _ => Item.Admitted.funcDecl?_eq

theorem listed_of_resolve {p q : Program} {scope : Scope} (h : p.resolve scope = (q, .ok ())) :
    q.listed = p.listed := by
  obtain ⟨hdecls, hall⟩ := resolve_eq_ok_iff_allAdmitted.mp h
  rw [listed, listed, List.flatMap_def, List.flatMap_def, hdecls,
    hall.map_eq fun _ _ _ => Item.Admitted.listed_eq]

theorem vars_of_resolve {p q : Program} {scope : Scope} (h : p.resolve scope = (q, .ok ())) :
    q.vars = p.vars := by
  obtain ⟨hdecls, hall⟩ := resolve_eq_ok_iff_allAdmitted.mp h
  rw [vars, vars, List.flatMap_def, List.flatMap_def, hdecls,
    hall.map_eq fun _ _ _ => Item.Admitted.vars_eq]

/-- Every item of a resolved program has a declaration. -/
theorem declared_of_resolve {p q : Program} {scope : Scope} (h : p.resolve scope = (q, .ok ()))
    {item : Item} (hitem : item ∈ q.items) : ∃ d, q.decls[item.id]? = some d := by
  obtain ⟨place, item₀, -, hadmitted⟩ := admitted_of_resolve h hitem
  obtain ⟨d, hd, -⟩ := hadmitted.decl
  exact ⟨d, by rw [decls_of_resolve h, hadmitted.id_eq, hd]⟩

theorem written_of_resolve {p q : Program} {scope : Scope} (h : p.resolve scope = (q, .ok ()))
    {f : Func} (hf : .func f ∈ q.items) {e : Expr} (he : e ∈ f.body.written) :
    e.ty = .int ∨ e.ty = .string := by
  obtain ⟨place, item, -, hadmitted⟩ := admitted_of_resolve h hf
  cases hadmitted with
  | func _ _ _ _ haccepted => exact haccepted.written_ty he

/-- Every expression of a resolved program is typed where only what its function can
name has a name. -/
theorem typed_of_resolve {p q : Program} {scope : Scope} (h : p.resolve scope = (q, .ok ()))
    {f : Func} (hf : .func f ∈ q.items) {e : Expr} (he : e ∈ f.body.exprs) :
    ∃ Γ e₀ t, Typed q.decls Γ e₀ e [t] ∧ ∀ name id, Γ name = some id → id ∈ q.visible f := by
  obtain ⟨place, item, hitem, hadmitted⟩ := admitted_of_resolve h hf
  obtain ⟨hdecls, -⟩ := resolve_eq_ok_iff_allAdmitted.mp h
  cases hadmitted with
  | @func f₀ d body Γ hd _ _ _ haccepted =>
      have hnames : ∀ name id,
          (itemNames p.decls (p.items.take place ++ [.func f₀])).declare p.decls d.params name =
            some id → id ∈ q.visible { f₀ with body } := by
        intro name id
        refine Meaning.declare_mem ?_ ?_
        · intro name id hid
          have hmem := itemNames_mem hid
          rw [← take_succ_of_getElem? hitem] at hmem
          have hids : id ∈ q.items.map Item.id := by
            rw [ids_of_resolve h]
            exact List.map_subset _ (List.take_subset _ _) hmem
          exact List.mem_append_right _ hids
        · intro id hid
          simp [visible, paramsAt, hdecls, hd, hid]
      have hlocals : ∀ id ∈ f₀.body.locals, id ∈ q.visible { f₀ with body } := by
        intro id hid
        rw [← haccepted.locals_eq] at hid
        simp [visible, hid]
      obtain ⟨hexprs, -⟩ := haccepted.typed_of_mem hnames hlocals
      rw [hdecls]
      exact hexprs e he

end Program

end Backend
