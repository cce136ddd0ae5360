import Backend.Tree.Program

/-! # What a program lists

Items, parameter lists and blocks name declarations by their places. A program is well
formed when all these places exist, none is named twice, and each declaration is of the
kind that the place naming it asks for.
-/

namespace Backend

/-- The declaration an item is about. -/
def Item.id : Item → DeclId
  | .var id => id
  | .func f => f.decl

/-- The declaration of a function. -/
def Item.funcDecl? : Item → Option DeclId
  | .var _ => none
  | .func f => some f.decl

/-- The parameters of the function declared at a place, if one is. -/
def paramsAt (decls : List Decl) (id : DeclId) : List DeclId :=
  decls[id]?.elim [] Decl.params

/-- The variables an item lists: itself, or the parameters and locals of a function. -/
def Item.vars (decls : List Decl) : Item → List DeclId
  | .var id => [id]
  | .func f => paramsAt decls f.decl ++ f.body.locals

/-- All declarations an item lists. -/
def Item.listed (decls : List Decl) : Item → List DeclId
  | .var id => [id]
  | .func f => f.decl :: (paramsAt decls f.decl ++ f.body.locals)

/-- The kinds of a parameter. -/
def DeclKind.isParam : DeclKind → Bool
  | .param | .arrayParam | .pointerParam => true
  | _ => false

/-- The kinds of a global or local variable. -/
def DeclKind.isStorage : DeclKind → Bool
  | .var | .array _ | .pointer => true
  | _ => false

namespace Program

def vars (p : Program) : List DeclId :=
  p.items.flatMap (Item.vars p.decls)

def listed (p : Program) : List DeclId :=
  p.items.flatMap (Item.listed p.decls)

/-- Functions are declared as functions, and nothing else is. -/
structure KindsAgree (p : Program) : Prop where
  funcs : ∀ f, .func f ∈ p.items → ∀ d, p.decls[f.decl]? = some d → d.isFunc = true
  vars : ∀ id ∈ p.vars, ∀ d, p.decls[id]? = some d → d.isFunc = false

/-- Every place that is named exists, is named once, and holds the kind asked for. -/
structure WellFormed (p : Program) : Prop where
  inRange : ∀ id ∈ p.listed, id < p.decls.length
  once : p.listed.Nodup
  funcs : ∀ f, .func f ∈ p.items → ∀ d, p.decls[f.decl]? = some d → d.isFunc = true
  params : ∀ f, .func f ∈ p.items → ∀ id ∈ paramsAt p.decls f.decl,
    ∀ d, p.decls[id]? = some d → d.kind.isParam = true
  globals : ∀ id, .var id ∈ p.items → ∀ d, p.decls[id]? = some d → d.kind.isStorage = true
  locals : ∀ f, .func f ∈ p.items → ∀ id ∈ f.body.locals,
    ∀ d, p.decls[id]? = some d → d.kind.isStorage = true

end Program

/-- Each declaration that an item names is of the kind asked for. -/
def Item.hasKinds (decls : List Decl) : Item → Bool
  | .var id => decls[id]?.all (·.kind.isStorage)
  | .func f =>
      decls[f.decl]?.all Decl.isFunc &&
      (paramsAt decls f.decl).all (fun id => decls[id]?.all (·.kind.isParam)) &&
      f.body.locals.all (fun id => decls[id]?.all (·.kind.isStorage))

theorem Program.wellFormed_iff {p : Program} : p.WellFormed ↔
    (∀ id ∈ p.listed, id < p.decls.length) ∧ p.listed.Nodup ∧
      ∀ item ∈ p.items, item.hasKinds p.decls = true := by
  constructor
  · intro h
    refine ⟨h.inRange, h.once, ?_⟩
    intro item hitem
    cases item with
    | var id =>
        rw [Item.hasKinds, Option.all_eq_true]
        exact h.globals id hitem
    | func f =>
        simp only [Item.hasKinds, Bool.and_eq_true, List.all_eq_true, Option.all_eq_true]
        exact ⟨⟨h.funcs f hitem, h.params f hitem⟩, h.locals f hitem⟩
  · rintro ⟨hrange, honce, hkinds⟩
    have hfunc : ∀ f, .func f ∈ p.items → (Item.func f).hasKinds p.decls = true :=
      fun f hf => hkinds _ hf
    simp only [Item.hasKinds, Bool.and_eq_true, List.all_eq_true, Option.all_eq_true] at hfunc
    refine ⟨hrange, honce, fun f hf => (hfunc f hf).1.1, fun f hf => (hfunc f hf).1.2, ?_,
      fun f hf => (hfunc f hf).2⟩
    intro id hid
    have hvar := hkinds _ hid
    rwa [Item.hasKinds, Option.all_eq_true] at hvar

instance (p : Program) : Decidable p.WellFormed :=
  decidable_of_iff _ Program.wellFormed_iff.symm

theorem Decl.isFunc_eq_false_of_isParam {d : Decl} (h : d.kind.isParam = true) :
    d.isFunc = false := by
  cases hkind : d.kind <;> simp_all [DeclKind.isParam, isFunc]

theorem Decl.isFunc_eq_false_of_isStorage {d : Decl} (h : d.kind.isStorage = true) :
    d.isFunc = false := by
  cases hkind : d.kind <;> simp_all [DeclKind.isStorage, isFunc]

theorem Program.WellFormed.kindsAgree {p : Program} (h : p.WellFormed) : p.KindsAgree where
  funcs := h.funcs
  vars := by
    intro id hid d hd
    obtain ⟨item, hitem, hid⟩ := List.mem_flatMap.mp hid
    cases item with
    | var _ =>
        cases List.mem_singleton.mp hid
        exact Decl.isFunc_eq_false_of_isStorage (h.globals id hitem d hd)
    | func f =>
        rcases List.mem_append.mp hid with hid | hid
        · exact Decl.isFunc_eq_false_of_isParam (h.params f hitem id hid d hd)
        · exact Decl.isFunc_eq_false_of_isStorage (h.locals f hitem id hid d hd)

end Backend
