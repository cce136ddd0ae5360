import Mathlib.Data.List.Find
import Mathlib.Data.List.Perm.Basic
import Backend.Proofs.Erasure
import Backend.Proofs.References

/-! # Renaming locals apart

Give every parameter and local of a program a name of its own, which no other local and no
item has, and let every use of it follow. Shadowing is then gone, each name can only mean
what it was bound to, and the program is accepted with the same bindings, also where locals
stay in scope to the end of their function. Names of locals never reach the code, so it is
the same.
-/

namespace Backend

/-- The parameters and locals an item lists. -/
def Item.locals (decls : List Decl) : Item → List DeclId
  | .var _ => []
  | .func f => paramsAt decls f.decl ++ f.body.locals

def Program.locals (p : Program) : List DeclId :=
  p.items.flatMap (Item.locals p.decls)

/-- New names for some declarations. -/
structure Renaming where
  ids : List DeclId
  name : DeclId → String

namespace Renaming

def decl (ν : Renaming) (id : DeclId) (d : Decl) : Decl :=
  if id ∈ ν.ids then { d with name := ν.name id } else d

def decls (ν : Renaming) (decls : List Decl) : List Decl :=
  decls.mapIdx ν.decl

/-- A use follows the declaration it is bound to. -/
def ident (ν : Renaming) (x : Ident) : Ident :=
  match x.decl with
  | some id => if id ∈ ν.ids then { x with name := ν.name id } else x
  | none => x

/-- A resolved program under new names. -/
def program (ν : Renaming) (q : Program) : Program where
  decls := ν.decls q.decls
  items := q.items.map (Item.mapIdent ν.ident)

/-- The new names are for exactly the parameters and locals of a program. They differ from
each other and from the names of all items. -/
structure Apart (ν : Renaming) (p : Program) : Prop where
  ids : ν.ids = p.locals
  distinct : ∀ id ∈ ν.ids, ∀ id' ∈ ν.ids, ν.name id = ν.name id' → id = id'
  fresh : ∀ id ∈ ν.ids, ∀ item ∈ p.items, item.name? p.decls ≠ some (ν.name id)

variable (ν : Renaming)

theorem getElem?_decls (decls : List Decl) (id : DeclId) :
    (ν.decls decls)[id]? = decls[id]?.map (ν.decl id) := by
  rw [Renaming.decls, List.getElem?_mapIdx]

variable {ν}

theorem decl_of_mem {id : DeclId} (h : id ∈ ν.ids) (d : Decl) :
    ν.decl id d = { d with name := ν.name id } := if_pos h

theorem decl_of_not_mem {id : DeclId} (h : id ∉ ν.ids) (d : Decl) : ν.decl id d = d := if_neg h

@[simp]
theorem kind_decl (id : DeclId) (d : Decl) : (ν.decl id d).kind = d.kind := by
  unfold decl
  split <;> rfl

@[simp]
theorem slot_decl (id : DeclId) (d : Decl) : (ν.decl id d).slot = d.slot := by
  unfold decl
  split <;> rfl

@[simp]
theorem ty_decl (id : DeclId) (d : Decl) : (ν.decl id d).ty = d.ty := by
  unfold decl
  split <;> rfl

@[simp]
theorem params_decl (id : DeclId) (d : Decl) : (ν.decl id d).params = d.params := by
  rw [Decl.params, Decl.params, kind_decl]

@[simp]
theorem isFunc_decl (id : DeclId) (d : Decl) : (ν.decl id d).isFunc = d.isFunc := by
  rw [Decl.isFunc, Decl.isFunc, kind_decl]

/-! ## Typing under new names -/

/-- What the names meant before, they mean under the new names. A name that is not renamed is
that of an item. -/
def Carries (ν : Renaming) (top : String → Prop) (Γ Δ : Meaning) : Prop :=
  ∀ name id, Γ name = some id → (id ∈ ν.ids ∧ Δ (ν.name id) = some id) ∨
    (id ∉ ν.ids ∧ top name ∧ Δ name = some id)

section Typing

variable {decls : List Decl} {top : String → Prop} {Γ Δ : Meaning}

theorem means (hΔ : ν.Carries top Γ Δ) {x x' : Ident} {d : Decl} (h : Means decls Γ x x' d) :
    ∃ id, Means (ν.decls decls) Δ (ν.ident x') (ν.ident x') (ν.decl id d) := by
  obtain ⟨id, hid, hd, rfl⟩ := h
  refine ⟨id, id, ?_, by rw [getElem?_decls, hd, Option.map_some], ?_⟩
  · rcases hΔ x.name id hid with ⟨hmem, hnew⟩ | ⟨hmem, -, hold⟩
    · simpa [ident, hmem] using hnew
    · simpa [ident, hmem] using hold
  · by_cases hmem : id ∈ ν.ids <;> simp [ident, hmem]

theorem formals {ids : List DeclId} {ts : List Ty} (h : Formals decls ids ts) :
    Formals (ν.decls decls) ids ts := by
  refine List.Forall₂.imp ?_ h
  rintro id t ⟨d, hd, rfl⟩
  exact ⟨ν.decl id d, by rw [getElem?_decls, hd, Option.map_some], ty_decl id d⟩

/-- An accepted node is accepted under the new names, with the same bindings and types. -/
theorem typed (hΔ : ν.Carries top Γ Δ) {l : Layer} {x x' : Node l} {ts : List Ty}
    (h : Typed decls Γ x x' ts) :
    Typed (ν.decls decls) Δ (x'.mapIdent ν.ident) (x'.mapIdent ν.ident) ts := by
  induction h with
  | assign _ _ haccepts iht ihv => exact .assign iht ihv haccepts
  | comp _ ih => exact .comp ih
  | sum _ ih => exact .sum ih
  | term _ ih => exact .term ih
  | unary _ ih => exact .unary ih
  | factor _ ih => exact .factor ih
  | paren _ ih => exact .paren ih
  | neg _ ih => exact .neg ih
  | deref _ hpointee ih => exact .deref ih hpointee
  | rel _ _ iha ihb => exact .rel iha ihb
  | add _ _ iha ihb => exact .add iha ihb
  | mul _ _ iha ihb => exact .mul iha ihb
  | addrOf hx haddress hplace ih =>
      refine .addrOf ih haddress ?_
      rwa [← Option.not_isNone, Node.isNone_place_mapIdent, Option.not_isNone, hx.place_isSome]
  | @setVar m x x' d hx hfunc harray =>
      obtain ⟨id, hmeans⟩ := means hΔ hx
      rw [← @ty_decl ν id d]
      exact .setVar hmeans (by rwa [isFunc_decl]) (by rwa [ty_decl])
  | setElem hx hfunc helement _ ih =>
      obtain ⟨id, hmeans⟩ := means hΔ hx
      exact .setElem hmeans (by rwa [isFunc_decl]) (by rwa [ty_decl]) ih
  | setDeref hx hfunc hpointee =>
      obtain ⟨id, hmeans⟩ := means hΔ hx
      exact .setDeref hmeans (by rwa [isFunc_decl]) (by rwa [ty_decl])
  | @var m x x' d hx hfunc =>
      obtain ⟨id, hmeans⟩ := means hΔ hx
      rw [← @ty_decl ν id d]
      exact .var hmeans (by rwa [isFunc_decl])
  | elem hx hfunc helement _ ih =>
      obtain ⟨id, hmeans⟩ := means hΔ hx
      exact .elem hmeans (by rwa [isFunc_decl]) (by rwa [ty_decl]) ih
  | @call m x x' d args args' ts hx hfunc _ hformals ih =>
      obtain ⟨id, hmeans⟩ := means hΔ hx
      rw [← @ty_decl ν id d]
      exact .call hmeans (by rwa [isFunc_decl]) ih (by simpa using formals hformals)
  | num => exact .num
  | str => exact .str
  | read => exact .read
  | nil => exact .nil
  | cons _ _ iharg ihrest => exact .cons iharg ihrest

/-- No two of the renamed declarations have the same name, nor has one that of an item. -/
structure Clear (ν : Renaming) (top : String → Prop) : Prop where
  distinct : ∀ id ∈ ν.ids, ∀ id' ∈ ν.ids, ν.name id = ν.name id' → id = id'
  fresh : ∀ id ∈ ν.ids, ¬ top (ν.name id)

namespace Clear

variable (hν : ν.Clear top) {ids : List DeclId} (hids : ∀ id ∈ ids, id ∈ ν.ids)
include hν hids

/-- A new name finds its own declaration, no matter what else is declared. -/
theorem declare_name {id : DeclId} (hid : id ∈ ν.ids)
    (h : Δ (ν.name id) = some id ∨ id ∈ ids ∧ decls[id]?.isSome) :
    Δ.declare (ν.decls decls) ids (ν.name id) = some id := by
  unfold Meaning.declare
  cases hfind : ids.reverse.find? fun j => (ν.decls decls)[j]?.any (·.name == ν.name id) with
  | some j =>
      have hj : j ∈ ν.ids := hids j (List.mem_reverse.mp (List.mem_of_find?_eq_some hfind))
      have hname := List.find?_some hfind
      rw [getElem?_decls] at hname
      obtain ⟨d, hd⟩ : ∃ d, decls[j]? = some d := by
        cases hd : decls[j]? with
        | none => simp [hd] at hname
        | some d => exact ⟨d, rfl⟩
      simp only [hd, Option.map_some, decl_of_mem hj, Option.any_some, beq_iff_eq] at hname
      rw [Option.some_or, hν.distinct j hj id hid hname]
  | none =>
      rcases h with h | ⟨hmem, hsome⟩
      · rw [Option.none_or, h]
      · obtain ⟨d, hd⟩ := Option.isSome_iff_exists.mp hsome
        have hnone := List.find?_eq_none.mp hfind id (List.mem_reverse.mpr hmem)
        simp [getElem?_decls, hd, decl_of_mem hid] at hnone

/-- The name of an item is not hidden. -/
theorem declare_top {name : String} (htop : top name) :
    Δ.declare (ν.decls decls) ids name = Δ name := by
  unfold Meaning.declare
  have hnone : ids.reverse.find? (fun j => (ν.decls decls)[j]?.any (·.name == name)) = none := by
    rw [List.find?_eq_none]
    intro j hj hname
    have hj := hids j (List.mem_reverse.mp hj)
    apply hν.fresh j hj
    cases hd : decls[j]? with
    | none => simp [getElem?_decls, hd] at hname
    | some d =>
        simp only [getElem?_decls, hd, Option.map_some, decl_of_mem hj, Option.any_some,
          beq_iff_eq] at hname
        rwa [hname]
  rw [hnone, Option.none_or]

/-- More locals on the side of the new names do no harm. -/
theorem carries_left (hΔ : ν.Carries top Γ Δ) :
    ν.Carries top Γ (Δ.declare (ν.decls decls) ids) := by
  intro name id hname
  rcases hΔ name id hname with ⟨hid, hnew⟩ | ⟨hid, htop, hold⟩
  · exact .inl ⟨hid, hν.declare_name hids hid (.inl hnew)⟩
  · exact .inr ⟨hid, htop, by rw [hν.declare_top hids htop, hold]⟩

theorem carries_declare (hΔ : ν.Carries top Γ Δ) :
    ν.Carries top (Γ.declare decls ids) (Δ.declare (ν.decls decls) ids) := by
  intro name id hname
  rw [Meaning.declare, Option.or_eq_some_iff] at hname
  rcases hname with hfind | ⟨-, hname⟩
  · have hmem := List.mem_reverse.mp (List.mem_of_find?_eq_some hfind)
    have hsome : decls[id]?.isSome := by
      have hany := List.find?_some hfind
      cases hd : decls[id]? with
      | none => simp [hd] at hany
      | some d => rfl
    exact .inl ⟨hids id hmem, hν.declare_name hids (hids id hmem) (.inr ⟨hmem, hsome⟩)⟩
  · exact hν.carries_left hids hΔ name id hname

end Clear

/-- An accepted statement is accepted under the new names. Where locals end with their block,
they may then as well stay to the end of the function. -/
theorem accepted {scope : Scope} (hν : ν.Clear top) {cx : Rules}
    (hscope : cx.scope = .function → scope = .function) {Γ' : Meaning} {f : Form} {c c' : Clause f}
    (h : Accepted cx Γ c c' Γ') (hlocals : ∀ id ∈ c.locals, id ∈ ν.ids)
    (hΔ : ν.Carries top Γ Δ) :
    ∃ Δ', Accepted { cx with decls := ν.decls cx.decls, scope } Δ (c'.mapIdent ν.ident)
        (c'.mapIdent ν.ident) Δ' ∧
      ν.Carries top Γ' Δ' ∧ ∀ Γ₀, ν.Carries top Γ₀ Δ → ν.Carries top Γ₀ Δ' := by
  induction h generalizing Δ with
  | empty => exact ⟨Δ, .empty, hΔ, fun _ h => h⟩
  | eval he => exact ⟨Δ, .eval (typed hΔ he), hΔ, fun _ h => h⟩
  | leave hret => exact ⟨Δ, .leave hret, hΔ, fun _ h => h⟩
  | ret he => exact ⟨Δ, .ret (typed hΔ he), hΔ, fun _ h => h⟩
  | newline => exact ⟨Δ, .newline, hΔ, fun _ h => h⟩
  | write he ht => exact ⟨Δ, .write (typed hΔ he) ht, hΔ, fun _ h => h⟩
  | absent => exact ⟨Δ, .absent, hΔ, fun _ h => h⟩
  | nil => exact ⟨Δ, .nil, hΔ, fun _ h => h⟩
  | braces _ ih =>
      obtain ⟨Δ', hb, hΔ', hkeeps⟩ := ih hlocals hΔ
      exact ⟨Δ', .braces hb, hΔ', hkeeps⟩
  | present _ ih =>
      obtain ⟨Δ', hs, hΔ', hkeeps⟩ := ih hlocals hΔ
      exact ⟨Δ', .present hs, hΔ', hkeeps⟩
  | loop he _ ih =>
      obtain ⟨Δ', hs, hΔ', hkeeps⟩ := ih hlocals hΔ
      exact ⟨Δ', .loop (typed hΔ he) hs, hΔ', hkeeps⟩
  | ifElse he _ _ iht ihe =>
      obtain ⟨Δ₁, ht, hΔ₁, hkeeps⟩ := iht (fun id hid => hlocals id (List.mem_append_left _ hid)) hΔ
      obtain ⟨Δ₂, he', hΔ₂, hkeeps'⟩ :=
        ihe (fun id hid => hlocals id (List.mem_append_right _ hid)) hΔ₁
      exact ⟨Δ₂, .ifElse (typed hΔ he) ht he', hΔ₂, fun Γ₀ h => hkeeps' Γ₀ (hkeeps Γ₀ h)⟩
  | cons _ _ ihs ihrest =>
      obtain ⟨Δ₁, hs, hΔ₁, hkeeps⟩ := ihs (fun id hid => hlocals id (List.mem_append_left _ hid)) hΔ
      obtain ⟨Δ₂, hrest, hΔ₂, hkeeps'⟩ :=
        ihrest (fun id hid => hlocals id (List.mem_append_right _ hid)) hΔ₁
      exact ⟨Δ₂, .cons hs hrest, hΔ₂, fun Γ₀ h => hkeeps' Γ₀ (hkeeps Γ₀ h)⟩
  | @block Γ Γ' line size span ids stmts stmts' _ ih =>
      have hown : ∀ id ∈ ids, id ∈ ν.ids := fun id hid => hlocals id (List.mem_append_left _ hid)
      obtain ⟨Δ', hstmts, hΔ', hkeeps⟩ :=
        ih (fun id hid => hlocals id (List.mem_append_right _ hid)) (hν.carries_declare hown hΔ)
      have hkeeps' : ∀ Γ₀, ν.Carries top Γ₀ Δ → ν.Carries top Γ₀ Δ' :=
        fun Γ₀ h => hkeeps Γ₀ (hν.carries_left hown h)
      refine ⟨_, .block hstmts, ?_, ?_⟩
      · cases hold : cx.scope with
        | function =>
            cases hscope hold
            simpa only [Rules.leave, hold] using hΔ'
        | block =>
            -- The new names of this block stay visible or not, without effect on the others.
            cases scope with
            | function => simpa only [Rules.leave, hold] using hkeeps' Γ hΔ
            | block => simpa only [Rules.leave, hold] using hΔ
      · cases scope with
        | function => exact hkeeps'
        | block => exact fun _ h => h

end Typing

/-! ## Programs under new names -/

@[simp]
theorem base_decl (id : DeclId) (d : Decl) : (ν.decl id d).base = d.base := by
  unfold decl
  split <;> rfl

theorem usable {decls : List Decl} {id : DeclId} (h : Usable decls id) :
    Usable (ν.decls decls) id := by
  obtain ⟨d, hd, hcheck⟩ := h
  refine ⟨ν.decl id d, by rw [getElem?_decls, hd, Option.map_some], ?_⟩
  rw [Decl.checkVariable_eq_ok_iff] at hcheck ⊢
  simpa using hcheck

end Renaming

theorem Item.listed_eq_cons (decls : List Decl) (item : Item) :
    item.listed decls = item.id :: item.locals decls := by
  cases item <;> rfl

namespace Program

theorem mem_locals_iff {p : Program} {id : DeclId} :
    id ∈ p.locals ↔ ∃ f, .func f ∈ p.items ∧ id ∈ paramsAt p.decls f.decl ++ f.body.locals := by
  rw [locals, List.mem_flatMap]
  constructor
  · rintro ⟨item, hitem, hid⟩
    cases item with
    | var i => cases hid
    | func f => exact ⟨f, hitem, hid⟩
  · rintro ⟨f, hf, hid⟩
    exact ⟨.func f, hf, hid⟩

theorem locals_of_resolve {p q : Program} {scope : Scope} (h : p.resolve scope = (q, .ok ())) :
    q.locals = p.locals := by
  obtain ⟨hdecls, hall⟩ := resolve_eq_ok_iff_allAdmitted.mp h
  rw [locals, locals, List.flatMap_def, List.flatMap_def, hdecls, hall.map_eq]
  intro before item item' hadmitted
  cases hadmitted with
  | var => rfl
  | func _ _ _ _ haccepted => simp only [Item.locals, haccepted.locals_eq]

theorem locals_of_layout {p r : Program} (h : p.layout = .ok r) : r.locals = p.locals := by
  have hparams := (layout_sameButSlots h).paramsAt_eq
  rw [locals, locals, List.flatMap_def, List.flatMap_def, ← map_of_layout _ h]
  · congr 2
    funext item
    cases item <;> simp [Item.locals, hparams]
  · intro item
    cases item <;> simp [Item.locals, Item.bare, Clause.locals_bare]

/-- Parameters and locals are on the stack. -/
theorem slot_of_mem_locals {p r : Program} (honce : p.listed.Nodup) (hlayout : p.layout = .ok r)
    {id : DeclId} (hid : id ∈ r.locals) {d : Decl} (hd : r.decls[id]? = some d) :
    ∃ s, d.slot = some s ∧ s.depth ≠ 0 := by
  obtain ⟨f, hf, hid⟩ := mem_locals_iff.mp hid
  obtain ⟨hparams, hlocals, -⟩ := layout_placed hlayout honce hf
  rcases List.mem_append.mp hid with hid | hid
  · obtain ⟨i, -, hslot⟩ := hparams id hid d hd
    exact ⟨_, hslot, Nat.one_ne_zero⟩
  · obtain ⟨s, hslot, hdepth, -⟩ := hlocals id hid d hd
    exact ⟨s, hslot, Nat.ne_of_gt (Nat.lt_of_lt_of_le (by decide) hdepth)⟩

/-- Items and locals are told apart where nothing is listed twice. -/
theorem id_not_mem_locals {p : Program} (honce : p.listed.Nodup) {item : Item}
    (hitem : item ∈ p.items) : item.id ∉ p.locals := by
  have hperm : (p.items.map Item.id ++ p.locals).Perm p.listed := by
    rw [listed, funext (Item.listed_eq_cons p.decls)]
    exact List.map_append_flatMap_perm p.items Item.id (Item.locals p.decls)
  have hnodup := (hperm.nodup_iff.mpr honce)
  intro hlocal
  exact List.disjoint_of_nodup_append hnodup (List.mem_map_of_mem hitem) hlocal

end Program

@[simp]
theorem Clause.locals_mapIdent {f : Form} (ρ : Ident → Ident) (c : Clause f) :
    (c.mapIdent ρ).locals = c.locals := by
  induction c <;> simp_all [mapIdent, locals]

@[simp]
theorem Item.id_mapIdent (ρ : Ident → Ident) (item : Item) : (item.mapIdent ρ).id = item.id := by
  cases item <;> rfl

namespace Renaming

section Program

variable {ν : Renaming} {p q : Program} {scope : Scope} (hν : ν.Apart p) (hwf : p.WellFormed)

include hν hwf in
theorem Apart.id_not_mem {item : Item} (hitem : item ∈ p.items) : item.id ∉ ν.ids := by
  rw [hν.ids]
  exact p.id_not_mem_locals hwf.once hitem

include hν hwf in
/-- Items keep their declarations. -/
theorem Apart.getElem?_item {item : Item} (hitem : item ∈ p.items) :
    (ν.decls p.decls)[item.id]? = p.decls[item.id]? := by
  rw [getElem?_decls]
  cases p.decls[item.id]? with
  | none => rfl
  | some d => rw [Option.map_some, decl_of_not_mem (hν.id_not_mem hwf hitem)]

include hν in
theorem Apart.clear : ν.Clear fun name => ∃ item ∈ p.items, item.name? p.decls = some name where
  distinct := hν.distinct
  fresh := by
    rintro id hid ⟨item, hitem, hname⟩
    exact hν.fresh id hid item hitem hname

include hν hwf in
/-- The names of items mean the same. -/
theorem Apart.itemNames_eq {items items' : List Item} (hitems : items ⊆ p.items)
    (hids : items'.map Item.id = items.map Item.id) :
    itemNames (ν.decls p.decls) items' = itemNames p.decls items := by
  funext name
  rw [itemNames, itemNames, hids]
  apply List.find?_congr
  intro id hid
  obtain ⟨item, hitem, rfl⟩ := List.mem_map.mp hid
  rw [hν.getElem?_item hwf (hitems hitem)]

include hν hwf in
theorem Apart.carries_itemNames {items items' : List Item} (hitems : items ⊆ p.items)
    (hids : items'.map Item.id = items.map Item.id) :
    ν.Carries (fun name => ∃ item ∈ p.items, item.name? p.decls = some name)
      (itemNames p.decls items) (itemNames (ν.decls p.decls) items') := by
  intro name id hname
  rw [hν.itemNames_eq hwf hitems hids]
  have hany := List.find?_some hname
  obtain ⟨item, hitem, rfl⟩ := List.mem_map.mp (List.mem_of_find?_eq_some hname)
  refine .inr ⟨hν.id_not_mem hwf (hitems hitem), ⟨item, hitems hitem, ?_⟩, hname⟩
  cases hd : p.decls[item.id]? with
  | none => simp [hd] at hany
  | some d => simpa [Item.name?, hd] using hany

include hν hwf in
/-- An item that was admitted is admitted under the new names. -/
theorem Apart.admitted {scope' : Scope} (hscope : scope = .function → scope' = .function)
    {place : Nat} {item item' : Item} (hitem : p.items[place]? = some item)
    (h : item.Admitted p.decls scope (p.items.take place) item') {before : List Item}
    (hbefore : before.map Item.id = (p.items.take place).map Item.id) :
    (item'.mapIdent ν.ident).Admitted (ν.decls p.decls) scope' before
      (item'.mapIdent ν.ident) := by
  have hmem : item ∈ p.items := List.mem_of_getElem? hitem
  have hown := hν.getElem?_item hwf hmem
  -- The names of the items before it are the same as well.
  have hnames : before.map (Item.name? (ν.decls p.decls)) =
      (p.items.take place).map (Item.name? p.decls) := by
    have hname? : ∀ decls, Item.name? decls = (fun id => decls[id]?.map Decl.name) ∘ Item.id :=
      fun _ => rfl
    rw [hname?, ← List.map_map, hbefore, List.map_map]
    apply List.map_congr_left
    intro other hother
    change (ν.decls p.decls)[other.id]?.map _ = _
    rw [hν.getElem?_item hwf (List.mem_of_mem_take hother)]
    rfl
  cases h with
  | @var id d hd hcheck hfresh =>
      exact .var (hown.trans hd) hcheck (by rwa [hnames])
  | @func f d body Γ hd hfresh hparams hlocals haccepted =>
      have hpart : ∀ id ∈ d.params ++ f.body.locals, id ∈ ν.ids := by
        intro id hid
        rw [hν.ids]
        refine Program.mem_locals_iff.mpr ⟨f, hmem, ?_⟩
        rwa [paramsAt, hd, Option.elim_some]
      have hids : (before ++ [Item.func { f with body := body.mapIdent ν.ident }]).map Item.id =
          (p.items.take place ++ [Item.func f]).map Item.id := by
        rw [List.map_append, List.map_append, hbefore]
        rfl
      have hsubset : p.items.take place ++ [.func f] ⊆ p.items := by
        rw [← Program.take_succ_of_getElem? hitem]
        exact List.take_subset _ _
      have hstart : ν.Carries _
          ((itemNames p.decls (p.items.take place ++ [.func f])).declare p.decls d.params) _ :=
        hν.clear.carries_declare (fun id hid => hpart id (List.mem_append_left _ hid))
          (hν.carries_itemNames hwf hsubset hids)
      obtain ⟨Δ', hbody, -⟩ := accepted hν.clear hscope haccepted
        (fun id hid => hpart id (List.mem_append_right _ hid)) hstart
      refine .func (hown.trans hd) (by rwa [hnames]) (fun id hid => usable (hparams id hid)) ?_
        hbody
      intro id hid
      rw [Func.mapIdent, Clause.locals_mapIdent, haccepted.locals_eq] at hid
      exact usable (hlocals id hid)

include hν hwf in
/-- Under the new names a resolved program is resolved, with the bindings and types it has. -/
theorem Apart.resolve_program (h : p.resolve scope = (q, .ok ())) {scope' : Scope}
    (hscope : scope = .function → scope' = .function) :
    (ν.program q).resolve scope' = (ν.program q, .ok ()) := by
  have hdecls := Program.decls_of_resolve h
  have hplaces := Item.allAdmitted_iff.mp (Program.resolve_eq_ok_iff_allAdmitted.mp h).2
  rw [Program.resolve_eq_ok_iff_allAdmitted, Item.allAdmitted_iff, program, hdecls]
  refine ⟨rfl, rfl, ?_⟩
  intro place item item' hitem hitem'
  rw [hitem] at hitem'
  cases hitem'
  rw [List.getElem?_map, Option.map_eq_some_iff] at hitem
  obtain ⟨bound, hbound, rfl⟩ := hitem
  have hlt : place < p.items.length := by
    rw [← hplaces.1]
    exact (List.getElem?_eq_some_iff.mp hbound).1
  obtain ⟨old, hold⟩ : ∃ old, p.items[place]? = some old := ⟨_, List.getElem?_eq_getElem hlt⟩
  apply hν.admitted hwf hscope hold (hplaces.2 place old bound hold hbound)
  rw [List.nil_append, List.map_take, List.map_take, List.map_map, ← Program.ids_of_resolve h]
  congr 1
  exact List.map_congr_left fun item _ => item.id_mapIdent ν.ident

end Program

/-! ## Layout and code under new names -/

@[simp]
theorem decl_ident (ν : Renaming) (x : Ident) : (ν.ident x).decl = x.decl := by
  unfold ident
  split
  · split <;> simp_all
  · rfl

theorem decls_place (ν : Renaming) (decls : List Decl) (id : DeclId) (depth position : Nat) :
    ν.decls (place decls id depth position) = place (ν.decls decls) id depth position := by
  apply List.ext_getElem?
  intro j
  rw [getElem?_decls, place_getElem?, place_getElem?, getElem?_decls]
  by_cases hid : id = j
  · rw [if_pos hid, if_pos hid, Option.map_map, Option.map_map]
    congr 1
    funext d
    by_cases hmem : j ∈ ν.ids <;> simp [decl, hmem]
  · rw [if_neg hid, if_neg hid]

/-- The layout takes no notice of names. -/
theorem laidAlike (ν : Renaming) :
    LaidAlike fun ids decls decls' => AgreeAt ids (ν.decls decls) decls' where
  width := by
    intro ids decls decls' h id
    rw [AgreeAt.laidAlike.width h id, getElem?_decls, Option.map_map]
    congr 1
    funext d
    simp [Decl.width]
  params := by
    intro ids decls decls' h id
    rw [AgreeAt.laidAlike.params h id, paramsAt, paramsAt, getElem?_decls]
    cases decls[id]? <;> simp
  place := by
    intro ids decls decls' h id depth position
    rw [decls_place]
    exact h.place id depth position

end Renaming

/-- The cell of a parameter or local does not show its name. -/
theorem Decl.cell_congr {d d' : Decl} (hslot : d'.slot = d.slot) (hkind : d'.kind = d.kind)
    {s : Slot} (hs : d.slot = some s) (hdepth : s.depth ≠ 0) : d'.cell = d.cell := by
  have hoffset : d'.offset = d.offset := by
    rw [offset, offset, width, width, hslot, hkind]
  rw [cell, cell, hslot, hs, hoffset]
  dsimp only
  cases hd : d.offset with
  | error o => rfl
  | ok offset =>
      cases offset with
      | some offset => rfl
      | none =>
          obtain ⟨depth, position⟩ := s
          by_cases hone : depth = 1
          · subst hone
            cases offset_param hs hd
          · have hbody : bodyDepth ≤ depth := by
              dsimp only at hdepth
              simp only [bodyDepth]
              omega
            obtain ⟨last, -, hsome⟩ := offset_local hs hbody hd
            cases hsome

namespace Renaming

variable {ν : Renaming} {p q : Program} {scope : Scope}

theorem Apart.sameText (hν : ν.Apart p) (hwf : p.WellFormed)
    (hresolve : p.resolve scope = (q, .ok ())) {r r' : Program} (hlayout : q.layout = .ok r)
    (hitems : r'.items = r.items.map (Item.mapIdent ν.ident))
    (hdecls : AgreeAt r.listed (ν.decls r.decls) r'.decls) : Program.SameText r r' ν.ident := by
  have hrenamed : ∀ id ∈ r.listed, r'.decls[id]? = r.decls[id]?.map (ν.decl id) := by
    intro id hid
    rw [hdecls.agree id hid, getElem?_decls]
  have hitem : ∀ id ∈ r.items.map Item.id, id ∉ ν.ids := by
    intro id hid
    rw [Program.ids_of_layout hlayout, Program.ids_of_resolve hresolve] at hid
    obtain ⟨item, hitem, rfl⟩ := List.mem_map.mp hid
    exact hν.id_not_mem hwf hitem
  have hlocal : ∀ id ∈ ν.ids, id ∈ r.locals := by
    intro id hid
    rwa [Program.locals_of_layout hlayout, Program.locals_of_resolve hresolve, ← hν.ids]
  have honce : q.listed.Nodup := by
    rw [Program.listed_of_resolve hresolve]
    exact hwf.once
  refine ⟨hitems, ?_, ?_⟩
  · intro item hmem
    obtain ⟨d, hd⟩ := Program.declared_of_layout hresolve hlayout hmem
    refine ⟨d, ν.decl item.id d, hd, ?_, ?_, kind_decl _ d⟩
    · rw [hrenamed _ (Program.mem_listed_iff.mpr ⟨item, hmem, .inl rfl⟩), hd, Option.map_some]
    · rw [decl_of_not_mem (hitem _ (List.mem_map_of_mem hmem))]
  · intro f hf e he pool
    have hbound : ∀ x ∈ e.uses ++ e.callees, ∃ id d, x.decl = some id ∧ r.decls[id]? = some d ∧
        CodeEnv.decl { decls := r.decls, pool } x = pure d ∧
        CodeEnv.decl { decls := r'.decls, pool } (ν.ident x) = pure (ν.decl id d) := by
      intro x hx
      obtain ⟨id, d, hid, hlisted, hd⟩ := Program.listed_of_bound hresolve hlayout hf he hx
      have hid' : (ν.ident x).decl = some id := by rw [decl_ident, hid]
      have hd' : r'.decls[id]? = some (ν.decl id d) := by
        rw [hrenamed id hlisted, hd, Option.map_some]
      exact ⟨id, d, hid, hd, CodeEnv.decl_eq_pure hid hd, CodeEnv.decl_eq_pure hid' hd'⟩
    refine ⟨rfl, ?_, ?_⟩
    · intro x hx
      obtain ⟨id, d, -, hd, hold, hnew⟩ := hbound x (List.mem_append_left _ hx)
      refine ⟨d, ν.decl id d, hold, hnew, kind_decl id d, ?_⟩
      by_cases hid : id ∈ ν.ids
      · obtain ⟨s, hs, hdepth⟩ := Program.slot_of_mem_locals honce hlayout (hlocal id hid) hd
        exact Decl.cell_congr (slot_decl id d) (kind_decl id d) hs hdepth
      · rw [decl_of_not_mem hid]
    · intro x hx
      obtain ⟨id, d, hid, -, hold, hnew⟩ := hbound x (List.mem_append_right _ hx)
      obtain ⟨id', hid', hcallee⟩ :=
        Program.callees_of_layout hresolve hlayout hf he hwf.kindsAgree hx
      rw [hid] at hid'
      cases hid'
      exact ⟨d, ν.decl id d, hold, hnew, by rw [decl_of_not_mem (hitem id hcallee)]⟩

/-- A program under new names, in whatever mode it is accepted, has the same code. -/
theorem Apart.compile_eq (hν : ν.Apart p) (hwf : p.WellFormed)
    (hresolve : p.resolve scope = (q, .ok ())) {p' q' : Program} {scope' : Scope}
    (hresolve' : p'.resolve scope' = (q', .ok ()))
    (hitems : q'.items.map Item.bare = (ν.program q).items.map Item.bare)
    (hdecls : SameButSlots (ν.decls q.decls) q'.decls) :
    (p'.compile scope').2 = (p.compile scope).2 := by
  have hmatched := ν.laidAlike.program ν.ident hitems ⟨hdecls, by simp⟩
  simp only [Program.compile, hresolve, hresolve']
  generalize hr : q.layout = x at hmatched
  generalize hr' : q'.layout = x' at hmatched
  cases hmatched with
  | error o => rfl
  | ok hagree =>
      dsimp only
      rw [(hν.sameText hwf hresolve hr hagree.1 hagree.2).generate 0]

/-- Under new names for all parameters and locals, which differ from each other and from the
names of all items, a program means and does the same: it is accepted with the same bindings
and types, and compiles to the same code. If it was accepted with locals that end with their
block, the renamed program is accepted with locals that stay to the end of the function, too,
and compiles to that code. -/
theorem renamed_program_compiles_alike (hwf : p.WellFormed)
    (hresolve : p.resolve scope = (q, .ok ())) (hν : ν.Apart p) {p' : Program}
    (hp' : p'.erase = (ν.program q).erase) :
    (∃ q', p'.resolve scope = (q', .ok ()) ∧
      q'.items.map Item.bare = (ν.program q).items.map Item.bare) ∧
    (p'.compile scope).2 = (p.compile scope).2 ∧
    (scope = .block → (p'.compile .function).2 = (p.compile scope).2) := by
  -- The renamed tree is a fixed point of resolution, so any tree with the same erasure gives it.
  have haccepted : ∀ scope', (scope = .function → scope' = .function) →
      ∃ q', p'.resolve scope' = (q', .ok ()) ∧
        q'.items.map Item.bare = (ν.program q).items.map Item.bare ∧
        SameButSlots (ν.decls q.decls) q'.decls := by
    intro scope' hscope
    exact Program.resolve_of_erase hp' (hν.resolve_program hwf hresolve hscope)
  obtain ⟨q', hq', hitems, hdecls⟩ := haccepted scope (fun h => h)
  refine ⟨⟨q', hq', hitems⟩, hν.compile_eq hwf hresolve hq' hitems hdecls, ?_⟩
  intro _
  obtain ⟨q'', hq'', hitems', hdecls'⟩ := haccepted .function (fun _ => rfl)
  exact hν.compile_eq hwf hresolve hq'' hitems' hdecls'

end Renaming

namespace Shadowed

/-- A global, a parameter and the local of an inner block are all called `x`. -/
def main : Func where
  decl := 3
  body := .ofStmts [4] [
    .block (.ofStmts [5] [.expr (.setVar "x" (.var "n"))]),
    .expr (.setVar "y" (.call "main" [.var "x", .var "n"])),
    .ret (some (.var "y"))]

def program : Program where
  decls := [.var 1 .int "x", .param 2 .int "x", .param 2 .int "n",
    { line := 2, name := "main", base := .int, kind := .func [1, 2] }, .var 3 .int "y",
    .var 4 .int "x"]
  items := [.var 0, .func main]

def resolved : Program := (program.resolve .block).1

def apart : Renaming where
  ids := [1, 2, 4, 5]
  name id := if id = 1 then "outer" else if id = 2 then "n" else if id = 4 then "y" else "inner"

/-- Before the renaming, the two modes bind the argument `x` differently. -/
theorem apart_compiles_alike :
    ((apart.program resolved).compile .block).2 = (program.compile .block).2 ∧
      ((apart.program resolved).compile .function).2 = (program.compile .block).2 ∧
      (program.compile .function).2 ≠ (program.compile .block).2 := by
  have hwf : program.WellFormed := by decide
  have hresolve : program.resolve .block = (resolved, .ok ()) := by rfl
  have hapart : apart.Apart program := ⟨by rfl, by decide, by decide⟩
  obtain ⟨-, hblock, hfunction⟩ :=
    Renaming.renamed_program_compiles_alike hwf hresolve hapart rfl
  exact ⟨hblock, hfunction rfl, by decide⟩

end Shadowed

end Backend
