import Backend.Proofs.TypeCheck
import Backend.Tree.Build

/-! # The resolver decides the static semantics

A program is resolved exactly when its places exist, its top-level names differ, none
of its variables is void, and its bodies are accepted by the typing rules. The tree that
comes out is the one of the derivations.
-/

namespace Backend

theorem Decl.checkVariable_eq_ok_iff {d : Decl} :
    d.checkVariable = .ok () ↔ (d.isFunc = false → d.base ≠ .void) := by
  obtain ⟨line, name, base, kind, slot⟩ := d
  cases kind <;> cases base <;> simp [checkVariable, isFunc, ty]

theorem checkParams_eq_ok_iff {decls : List Decl} {ids : List DeclId} :
    checkParams decls ids = .ok () ↔ ∀ id ∈ ids, Usable decls id := by
  induction ids with
  | nil => simp [checkParams]
  | cons id rest ih =>
      cases hd : decls[id]? with
      | none =>
          have herror : declared decls id = .error (.unresolved (.declaration id)) := by
            simp [declared, hd]
          simp only [checkParams, herror, except_bind_eq_ok_iff, Usable, List.forall_mem_cons, hd]
          simp
      | some d =>
          have hok : declared decls id = .ok d := by simp [declared, hd]
          simp only [checkParams, hok, except_bind_eq_ok_iff, ih, List.forall_mem_cons]
          constructor
          · rintro ⟨_, ⟨rfl⟩, ⟨⟩, hcheck, husable⟩
            exact ⟨⟨d, hd, hcheck⟩, husable⟩
          · rintro ⟨⟨d', hd', hcheck⟩, husable⟩
            rw [hd] at hd'
            cases hd'
            exact ⟨d, rfl, ⟨⟩, hcheck, husable⟩

def Item.name? (decls : List Decl) (item : Item) : Option String :=
  decls[item.id]?.map (·.name)

theorem itemNames_eq_none_iff {decls : List Decl} {items : List Item} {name : String} :
    itemNames decls items name = none ↔ some name ∉ items.map (Item.name? decls) := by
  simp only [itemNames, List.find?_eq_none, List.mem_map, Item.name?, not_exists, not_and,
    forall_exists_index, and_imp, forall_apply_eq_imp_iff₂]
  refine forall₂_congr fun item _ => ?_
  cases hd : decls[item.id]? <;> simp

namespace Item

/-- An item behind others, and the same item bound and typed. -/
inductive Admitted (decls : List Decl) (scope : Scope) (before : List Item) : Item → Item → Prop
  | var {id : DeclId} {d : Decl} : decls[id]? = some d → d.checkVariable = .ok () →
      some d.name ∉ before.map (Item.name? decls) → Admitted decls scope before (.var id) (.var id)
  | func {f : Func} {d : Decl} {body : Block} {Γ : Meaning} : decls[f.decl]? = some d →
      some d.name ∉ before.map (Item.name? decls) → (∀ id ∈ d.params, Usable decls id) →
      (∀ id ∈ f.body.locals, Usable decls id) →
      Accepted { decls, scope, ret := d.ty }
        ((itemNames decls (before ++ [.func f])).declare decls d.params) f.body body Γ →
      Admitted decls scope before (.func f) (.func { f with body })

/-- Top-level names are kept as a list of pairs, the latest first. -/
def Known (decls : List Decl) (before : List Item) (globals : Globals) : Prop :=
  ∀ name, globals.lookup name = itemNames decls before name

theorem Known.insert_eq_ok_iff {decls : List Decl} {before : List Item} {globals globals' : Globals}
    (hknown : Known decls before globals) {d : Decl} {id : DeclId} :
    globals.insert d id = .ok globals' ↔
      some d.name ∉ before.map (Item.name? decls) ∧ globals' = (d.name, id) :: globals := by
  rw [← itemNames_eq_none_iff, ← hknown d.name]
  cases hlookup : globals.lookup d.name <;> simp [Globals.insert, hlookup, eq_comm]

theorem Known.append {decls : List Decl} {before : List Item} {globals : Globals}
    (hknown : Known decls before globals) {item : Item} {d : Decl} (hd : decls[item.id]? = some d)
    (hfresh : some d.name ∉ before.map (Item.name? decls)) :
    Known decls (before ++ [item]) ((d.name, item.id) :: globals) := by
  intro name
  have hnone := itemNames_eq_none_iff.mpr hfresh
  have happend : itemNames decls (before ++ [item]) name =
      (itemNames decls before name).or (itemNames decls [item] name) := by
    simp [itemNames, List.find?_append]
  rw [happend, List.lookup_cons, hknown name]
  by_cases hname : name = d.name
  · subst hname
    have hown : itemNames decls [item] d.name = some item.id := by
      simp [itemNames, hd]
    simp [hnone, hown]
  · have hother : itemNames decls [item] name = none := by
      simp [itemNames, hd, Ne.symm hname]
    have hbeq : (name == d.name) = false := by simpa using hname
    simp [hother, hbeq]

/-- What stays the same in the body of a function. -/
def bodyEnv (decls : List Decl) (scope : Scope) (globals : Globals) (f : Func) (d : Decl) :
    FuncEnv :=
  { decls, globals := (d.name, f.decl) :: globals, ret := d.ty, scope }

/-- The body of a function starts with its parameters, its own name and the names of
the items before it. -/
theorem bodyEnv_meaning {decls : List Decl} {scope : Scope} {before : List Item} {globals : Globals}
    (hknown : Known decls before globals) {f : Func} {d : Decl} (hd : decls[f.decl]? = some d)
    (hfresh : some d.name ∉ before.map (Item.name? decls)) :
    (bodyEnv decls scope globals f d).meaning d.params.reverse =
      (itemNames decls (before ++ [.func f])).declare decls d.params := by
  have hnames : ∀ name, List.lookup name ((d.name, f.decl) :: globals) =
      itemNames decls (before ++ [.func f]) name := @Known.append _ _ _ hknown (.func f) _ hd hfresh
  funext name
  simp only [FuncEnv.meaning, FuncEnv.envAt, bodyEnv, Env.find, Meaning.declare, hnames]

theorem resolve_eq_ok_iff {decls : List Decl} {scope : Scope} {before : List Item}
    {globals globals' : Globals} (hknown : Known decls before globals) {item item' : Item} :
    item.resolve decls scope globals = (item', .ok globals') ↔
      Admitted decls scope before item item' ∧
        ∃ d, decls[item.id]? = some d ∧ globals' = (d.name, item.id) :: globals := by
  cases item with
  | var id =>
      simp only [resolve, Prod.mk.injEq, except_bind_eq_ok_iff, hknown.insert_eq_ok_iff]
      constructor
      · rintro ⟨rfl, d, hd, ⟨⟩, hcheck, hfresh, rfl⟩
        have hd := (declared_eq_ok_iff.mp hd)
        exact ⟨.var hd hcheck hfresh, d, hd, rfl⟩
      · rintro ⟨hadmitted, d, hd, rfl⟩
        cases hadmitted with
        | var hd' hcheck hfresh =>
            cases hd.symm.trans hd'
            exact ⟨rfl, d, declared_eq_ok_iff.mpr hd, ⟨⟩, hcheck, hfresh, rfl⟩
  | func f =>
      constructor
      · intro h
        rw [resolve] at h
        split at h
        next => simp at h
        next d globals₁ hd =>
          simp only [except_bind_eq_ok_iff, except_pure_eq_ok_iff, declared_eq_ok_iff,
            hknown.insert_eq_ok_iff, Prod.mk.injEq] at hd
          obtain ⟨d, hd, _, ⟨hfresh, rfl⟩, ⟨⟩, hparams, rfl, rfl⟩ := hd
          rcases hbody : f.body.resolve (bodyEnv decls scope globals f d) d.line
            d.params.reverse with ⟨body, r⟩
          have hrun := hbody
          rw [bodyEnv] at hrun
          simp only [hrun, Prod.mk.injEq, except_map_eq_ok_iff] at h
          obtain ⟨rfl, locals, rfl, rfl⟩ := h
          obtain ⟨haccepted, hlocals⟩ := f.body.accepted_of_resolve hbody
          rw [bodyEnv_meaning hknown hd hfresh] at haccepted
          exact ⟨.func hd hfresh (checkParams_eq_ok_iff.mp hparams) hlocals haccepted, d, hd, rfl⟩
      · rintro ⟨hadmitted, d, hd, rfl⟩
        cases hadmitted with
        | func hd' hfresh hparams hlocals haccepted =>
            cases hd.symm.trans hd'
            have hinsert : globals.insert d f.decl = .ok ((d.name, f.decl) :: globals) :=
              hknown.insert_eq_ok_iff.mpr ⟨hfresh, rfl⟩
            rw [← @bodyEnv_meaning _ scope _ _ hknown _ _ hd hfresh] at haccepted
            obtain ⟨locals, hbody, -⟩ := @Accepted.resolve_eq _ (bodyEnv decls scope globals f d)
              _ _ _ _ haccepted d.line d.params.reverse rfl hlocals
            rw [bodyEnv] at hbody
            simp only [resolve, id, declared_eq_ok_iff.mpr hd', hinsert,
              checkParams_eq_ok_iff.mpr hparams, except_ok_bind]
            -- Only the run of the body is left to rewrite.
            change ((Item.func { f with body := _ }, _) : Item × Except Error Globals) = _
            rw [hbody]
            rfl

/-- The declaration of an admitted item, whose name no item before it has. -/
theorem Admitted.decl {decls : List Decl} {scope : Scope} {before : List Item} {item item' : Item}
    (h : Admitted decls scope before item item') :
    ∃ d, decls[item.id]? = some d ∧ some d.name ∉ before.map (Item.name? decls) := by
  cases h with
  | var hd _ hfresh => exact ⟨_, hd, hfresh⟩
  | func hd hfresh _ _ _ => exact ⟨_, hd, hfresh⟩

/-- Items, each admitted behind those before it. -/
inductive AllAdmitted (decls : List Decl) (scope : Scope) :
    List Item → List Item → List Item → Prop
  | nil {before : List Item} : AllAdmitted decls scope before [] []
  | cons {before : List Item} {item item' : Item} {rest rest' : List Item} :
      Admitted decls scope before item item' →
      AllAdmitted decls scope (before ++ [item]) rest rest' →
      AllAdmitted decls scope before (item :: rest) (item' :: rest')

theorem resolveAll_eq_ok_iff {decls : List Decl} {scope : Scope} {before items items' : List Item}
    {globals : Globals} (hknown : Known decls before globals) :
    resolveAll decls scope globals items = (items', .ok ()) ↔
      AllAdmitted decls scope before items items' := by
  induction items generalizing before items' globals with
  | nil =>
      constructor
      · intro h
        cases h
        exact .nil
      · rintro ⟨⟩
        rfl
  | cons item rest ih =>
      rw [resolveAll]
      rcases hitem : item.resolve decls scope globals with ⟨item', e | globals'⟩
      · constructor
        · simp
        · rintro (_ | ⟨hadmitted, -⟩)
          obtain ⟨d, hd, -⟩ := hadmitted.decl
          rw [(resolve_eq_ok_iff hknown).mpr ⟨hadmitted, d, hd, rfl⟩] at hitem
          cases hitem
      · obtain ⟨hadmitted, d, hd, rfl⟩ := (resolve_eq_ok_iff hknown).mp hitem
        obtain ⟨d', hd', hfresh⟩ := hadmitted.decl
        cases hd.symm.trans hd'
        have hknown' := hknown.append hd hfresh
        rcases hrest : resolveAll decls scope ((d.name, item.id) :: globals) rest with ⟨rest', r⟩
        simp only [hrest, Prod.mk.injEq]
        constructor
        · rintro ⟨rfl, rfl⟩
          exact .cons hadmitted ((ih hknown').mp hrest)
        · rintro (_ | ⟨hadmitted', hall⟩)
          have hitem' := (resolve_eq_ok_iff hknown).mpr ⟨hadmitted', d, hd, rfl⟩
          have hrest' := (ih hknown').mpr hall
          rw [hitem] at hitem'
          rw [hrest] at hrest'
          cases hitem'
          cases hrest'
          exact ⟨rfl, rfl⟩

theorem allAdmitted_iff {decls : List Decl} {scope : Scope} {before items items' : List Item} :
    AllAdmitted decls scope before items items' ↔
      items'.length = items.length ∧ ∀ (place : Nat) (item item' : Item),
        items[place]? = some item → items'[place]? = some item' →
          Admitted decls scope (before ++ items.take place) item item' := by
  induction items generalizing before items' with
  | nil =>
      constructor
      · rintro ⟨⟩
        simp
      · rintro ⟨hlength, -⟩
        cases List.length_eq_zero_iff.mp hlength
        exact .nil
  | cons first rest ih =>
      constructor
      · rintro (_ | ⟨hadmitted, hall⟩)
        obtain ⟨hlength, hrest⟩ := ih.mp hall
        refine ⟨by simp [hlength], ?_⟩
        intro place item item' hitem hitem'
        cases place with
        | zero =>
            simp only [List.getElem?_cons_zero, Option.some.injEq] at hitem hitem'
            subst hitem hitem'
            simpa using hadmitted
        | succ place =>
            simp only [List.getElem?_cons_succ] at hitem hitem'
            simpa using hrest place item item' hitem hitem'
      · rintro ⟨hlength, hplaces⟩
        cases items' with
        | nil => simp at hlength
        | cons first' rest' =>
            refine .cons (by simpa using hplaces 0 first first' rfl rfl) (ih.mpr ⟨?_, ?_⟩)
            · simpa using hlength
            · intro place item item' hitem hitem'
              have hplace := hplaces (place + 1) item item' (by simpa using hitem)
                (by simpa using hitem')
              simpa using hplace

/-- Admitted items have names of their own. -/
theorem AllAdmitted.nodup {decls : List Decl} {scope : Scope} {before items items' : List Item}
    (h : AllAdmitted decls scope before items items')
    (hbefore : (before.map (Item.name? decls)).Nodup) :
    ((before ++ items).map (Item.name? decls)).Nodup := by
  induction h with
  | nil => simpa using hbefore
  | @cons before item item' rest rest' hadmitted _ ih =>
      obtain ⟨d, hd, hfresh⟩ := hadmitted.decl
      have hown : item.name? decls = some d.name := by simp [Item.name?, hd]
      have hnodup : ((before ++ [item]).map (Item.name? decls)).Nodup := by
        rw [List.map_append, List.map_singleton, hown, List.nodup_append]
        refine ⟨hbefore, by simp, ?_⟩
        rintro name hname _ hother rfl
        rw [List.mem_singleton] at hother
        exact hfresh (hother ▸ hname)
      simpa using ih hnodup

end Item

namespace Program

/-- All listed places exist. -/
def InRange (p : Program) : Prop := ∀ id ∈ p.listed, id < p.decls.length

/-- No two items have the same name. -/
def NamesDistinct (p : Program) : Prop := (p.items.map (Item.name? p.decls)).Nodup

/-- No variable, parameter or global is declared void. -/
def NoVoid (p : Program) : Prop :=
  ∀ id ∈ p.vars, ∀ d, p.decls[id]? = some d → d.base ≠ .void

theorem mem_vars_iff {p : Program} {id : DeclId} :
    id ∈ p.vars ↔ ∃ item ∈ p.items, id ∈ item.vars p.decls := by
  simp [vars, List.mem_flatMap]

theorem mem_listed_iff {p : Program} {id : DeclId} :
    id ∈ p.listed ↔ ∃ item ∈ p.items, id = item.id ∨ id ∈ item.vars p.decls := by
  simp only [listed, List.mem_flatMap]
  refine exists_congr fun item => and_congr_right fun _ => ?_
  cases item with
  | var i => simp [Item.listed, Item.id, Item.vars]
  | func f => simp [Item.listed, Item.id, Item.vars]

theorem take_succ_of_getElem? {items : List Item} {place : Nat} {item : Item}
    (h : items[place]? = some item) : items.take (place + 1) = items.take place ++ [item] := by
  rw [List.take_add_one, h, Option.toList_some]

theorem resolve_eq_ok_iff_allAdmitted {p q : Program} {scope : Scope} :
    p.resolve scope = (q, .ok ()) ↔
      q.decls = p.decls ∧ Item.AllAdmitted p.decls scope [] p.items q.items := by
  have hempty : Item.Known p.decls [] [] := fun _ => rfl
  obtain ⟨decls, items⟩ := q
  rw [← Item.resolveAll_eq_ok_iff hempty, resolve]
  rcases Item.resolveAll p.decls scope [] p.items with ⟨items', r⟩
  simp [and_assoc, eq_comm]

theorem KindsAgree.usable_iff {p : Program} (hkinds : p.KindsAgree) {id : DeclId}
    (hid : id ∈ p.vars) :
    Usable p.decls id ↔
      id < p.decls.length ∧ ∀ d, p.decls[id]? = some d → d.base ≠ .void := by
  constructor
  · rintro ⟨d, hd, hcheck⟩
    refine ⟨(List.getElem?_eq_some_iff.mp hd).1, ?_⟩
    intro d' hd'
    cases hd.symm.trans hd'
    exact Decl.checkVariable_eq_ok_iff.mp hcheck (hkinds.vars id hid d hd)
  · rintro ⟨hlt, hvoid⟩
    have hd := List.getElem?_eq_getElem hlt
    exact ⟨_, hd, Decl.checkVariable_eq_ok_iff.mpr fun _ => hvoid _ hd⟩

/-- The variables of an admitted item are usable. -/
theorem usable_of_admitted {decls : List Decl} {scope : Scope} {before : List Item}
    {item item' : Item} (h : item.Admitted decls scope before item') {id : DeclId}
    (hid : id ∈ item.vars decls) : Usable decls id := by
  cases h with
  | var hd hcheck _ =>
      cases List.mem_singleton.mp hid
      exact ⟨_, hd, hcheck⟩
  | func hd _ hparams hlocals _ =>
      simp only [Item.vars, paramsAt, hd, Option.elim_some, List.mem_append] at hid
      rcases hid with hid | hid
      · exact hparams id hid
      · exact hlocals id hid

/-- What is admitted item by item meets the conditions on the whole program. -/
theorem conditions_of_allAdmitted {p q : Program} {scope : Scope} (hkinds : p.KindsAgree)
    (hdecls : q.decls = p.decls)
    (hall : Item.AllAdmitted p.decls scope [] p.items q.items) :
    p.InRange ∧ p.NamesDistinct ∧ p.NoVoid ∧ p.TypedAs q scope := by
  obtain ⟨hlength, hplaces⟩ := Item.allAdmitted_iff.mp hall
  simp only [List.nil_append] at hplaces
  have hadmitted : ∀ (place : Nat) (item : Item), p.items[place]? = some item →
      ∃ item', q.items[place]? = some item' ∧
        item.Admitted p.decls scope (p.items.take place) item' := by
    intro place item hitem
    have hlt : place < q.items.length := by
      rw [hlength]
      exact (List.getElem?_eq_some_iff.mp hitem).1
    have hitem' := List.getElem?_eq_getElem hlt
    exact ⟨_, hitem', hplaces place item _ hitem hitem'⟩
  have husable : ∀ id ∈ p.vars, Usable p.decls id := by
    intro id hid
    obtain ⟨item, hmem, hvar⟩ := mem_vars_iff.mp hid
    obtain ⟨place, hitem⟩ := List.getElem?_of_mem hmem
    obtain ⟨item', -, h⟩ := hadmitted place item hitem
    exact usable_of_admitted h hvar
  refine ⟨?_, ?_, ?_, hdecls, hlength, ?_, ?_⟩
  · intro id hid
    obtain ⟨item, hmem, rfl | hvar⟩ := mem_listed_iff.mp hid
    · obtain ⟨place, hitem⟩ := List.getElem?_of_mem hmem
      obtain ⟨item', -, h⟩ := hadmitted place item hitem
      obtain ⟨d, hd, -⟩ := h.decl
      exact (List.getElem?_eq_some_iff.mp hd).1
    · have hvars := mem_vars_iff.mpr ⟨item, hmem, hvar⟩
      exact ((hkinds.usable_iff hvars).mp (husable id hvars)).1
  · simpa [NamesDistinct] using hall.nodup (by simp)
  · intro id hid
    exact ((hkinds.usable_iff hid).mp (husable id hid)).2
  · intro place id hitem
    obtain ⟨item', hitem', h⟩ := hadmitted place _ hitem
    cases h with
    | var => exact hitem'
  · intro place f d hitem hd
    obtain ⟨item', hitem', h⟩ := hadmitted place _ hitem
    cases h with
    | func hd' _ _ _ haccepted =>
        cases hd.symm.trans hd'
        rw [← take_succ_of_getElem? hitem] at haccepted
        exact ⟨_, _, hitem', haccepted⟩

/-- What meets the conditions is admitted item by item. -/
theorem allAdmitted_of_conditions {p q : Program} {scope : Scope} (hkinds : p.KindsAgree)
    (hrange : p.InRange) (hnames : p.NamesDistinct) (hvoid : p.NoVoid)
    (htyped : p.TypedAs q scope) :
    Item.AllAdmitted p.decls scope [] p.items q.items := by
  have husable : ∀ id ∈ p.vars, Usable p.decls id := by
    intro id hid
    obtain ⟨item, hmem, hvar⟩ := mem_vars_iff.mp hid
    refine (hkinds.usable_iff hid).mpr ⟨?_, hvoid id hid⟩
    exact hrange id (mem_listed_iff.mpr ⟨item, hmem, .inr hvar⟩)
  rw [Item.allAdmitted_iff]
  refine ⟨htyped.length, ?_⟩
  intro place item item' hitem hitem'
  rw [List.nil_append]
  have hmem := List.mem_of_getElem? hitem
  have hlt := hrange item.id (mem_listed_iff.mpr ⟨item, hmem, .inl rfl⟩)
  obtain ⟨d, hd⟩ : ∃ d, p.decls[item.id]? = some d := ⟨_, List.getElem?_eq_getElem hlt⟩
  -- Names differ in the whole list, so in the part that ends with this item.
  have hfresh : some d.name ∉ (p.items.take place).map (Item.name? p.decls) := by
    have hprefix : ((p.items.take (place + 1)).map (Item.name? p.decls)).Nodup :=
      hnames.sublist ((List.take_sublist _ _).map _)
    rw [take_succ_of_getElem? hitem, List.map_append, List.nodup_append] at hprefix
    intro hname
    exact hprefix.2.2 _ hname _ (by simp [Item.name?, hd]) rfl
  cases item with
  | var id =>
      cases hitem'.symm.trans (htyped.vars place id hitem)
      obtain ⟨d', hd', hcheck⟩ :=
        husable id (mem_vars_iff.mpr ⟨_, hmem, List.mem_singleton.mpr rfl⟩)
      cases hd.symm.trans hd'
      exact .var hd hcheck hfresh
  | func f =>
      obtain ⟨body, Γ, hfunc, haccepted⟩ := htyped.funcs place f d hitem hd
      cases hitem'.symm.trans hfunc
      have hvar : ∀ id, id ∈ d.params ∨ id ∈ f.body.locals → Usable p.decls id := by
        intro id hid
        refine husable id (mem_vars_iff.mpr ⟨_, hmem, ?_⟩)
        change p.decls[f.decl]? = some d at hd
        simpa [Item.vars, paramsAt, hd] using hid
      rw [take_succ_of_getElem? hitem] at haccepted
      exact .func hd hfresh (fun id hid => hvar id (.inl hid)) (fun id hid => hvar id (.inr hid))
        haccepted

/-- A program whose functions are declared as functions, and nothing else is, is resolved
exactly when all its places exist, its items have different names, none of its variables
is void, and its bodies have derivations in the typing rules; and the tree it is resolved
to is the one of the derivations. -/
theorem resolve_decides_typing (p : Program) (scope : Scope) (hkinds : p.KindsAgree) :
    ((p.resolve scope).2 = .ok () ↔
      p.InRange ∧ p.NamesDistinct ∧ p.NoVoid ∧ ∃ q, p.TypedAs q scope) ∧
    ∀ q, p.resolve scope = (q, .ok ()) ↔
      p.InRange ∧ p.NamesDistinct ∧ p.NoVoid ∧ p.TypedAs q scope := by
  have hresolved : ∀ q, p.resolve scope = (q, .ok ()) ↔
      p.InRange ∧ p.NamesDistinct ∧ p.NoVoid ∧ p.TypedAs q scope := by
    intro q
    rw [resolve_eq_ok_iff_allAdmitted]
    constructor
    · rintro ⟨hdecls, hall⟩
      exact conditions_of_allAdmitted hkinds hdecls hall
    · rintro ⟨hrange, hnames, hvoid, htyped⟩
      exact ⟨htyped.decls, allAdmitted_of_conditions hkinds hrange hnames hvoid htyped⟩
  refine ⟨?_, hresolved⟩
  constructor
  · intro hok
    obtain ⟨hrange, hnames, hvoid, htyped⟩ := (hresolved _).mp (Prod.ext rfl hok)
    exact ⟨hrange, hnames, hvoid, _, htyped⟩
  · rintro ⟨hrange, hnames, hvoid, q, htyped⟩
    rw [(hresolved q).mpr ⟨hrange, hnames, hvoid, htyped⟩]

end Program

namespace Countdown

/-- Sums while it counts its parameter down. The local of the loop's block is written
behind the loop. -/
def main : Func where
  decl := 4
  body := .ofStmts [2] [
    .expr (.setElem "a" (.num 1) (.var "n")),
    .loop (.rel (.var "n") .gt (.num 0)) (.block (.ofStmts [3] [
      .expr (.setVar "k" (.mul (.num 6) .mul (.elem "a" (.var "n")))),
      .expr (.setVar "total" (.add (.var "total") .add (.mul (.var "k") .div (.num 2)))),
      .expr (.setVar "n" (.add (.var "n") .sub (.num 1)))])),
    .ifElse (.rel (.var "total") .eq (.num 3)) (.write (.var "k")) (.write (.str "off")),
    .ret (some (.var "total"))]

def program : Program where
  decls := [.var 1 .int "total", .param 2 .int "n", .array 3 .int "a" 3, .var 5 .int "k",
    { line := 2, name := "main", base := .int, kind := .func [1] }]
  items := [.var 0, .func main]

theorem wellFormed : program.WellFormed where
  inRange := by decide
  once := by decide
  funcs := by
    intro f hf d hd
    obtain rfl : f = main := by simpa [program] using hf
    cases hd
    rfl
  params := by
    intro f hf id hid d hd
    obtain rfl : f = main := by simpa [program] using hf
    cases List.mem_singleton.mp hid
    cases hd
    rfl
  globals := by
    intro id hid d hd
    obtain rfl : id = 0 := by simpa [program] using hid
    cases hd
    rfl
  locals := by
    intro f hf id hid d hd
    obtain rfl : f = main := by simpa [program] using hf
    obtain rfl | rfl : id = 2 ∨ id = 3 := by simpa using (show id ∈ [2, 3] from hid)
    · cases hd
      rfl
    · cases hd
      rfl

/-- The scope of locals decides whether the program is typed. -/
theorem typed_iff_function_scope :
    program.KindsAgree ∧ (∃ q, program.TypedAs q .function) ∧
      ¬ ∃ q, program.TypedAs q .block := by
  have hkinds := wellFormed.kindsAgree
  have hfunction := Program.resolve_decides_typing program .function hkinds
  have hblock := Program.resolve_decides_typing program .block hkinds
  have haccepted : (program.resolve .function).2 = .ok () := by decide
  have hrefused : (program.resolve .block).2 ≠ .ok () := by decide
  obtain ⟨hrange, hnames, hvoid, htyped⟩ := hfunction.1.mp haccepted
  exact ⟨hkinds, htyped, fun h => hrefused (hblock.1.mpr ⟨hrange, hnames, hvoid, h⟩)⟩

end Countdown

end Backend
