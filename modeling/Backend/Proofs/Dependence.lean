import Backend.Proofs.Generation

/-! # What layout and code depend on

The layout of a program reads the widths of declarations and their parameter lists, never a
name, a slot or a size. Of the declarations, the code of an expression reads the cells and
kinds of the variables it uses and the names of the functions it calls. The names at the
uses do not matter, only what they are bound to. So two programs that agree in this are laid
out alike and have the same code, whatever their variables are called.
-/

namespace Backend

namespace Node

/-- A node with another identifier at every use of a name. -/
def mapIdent {l : Layer} (ρ : Ident → Ident) : Node l → Node l
  | .assign m t v => .assign m (t.mapIdent ρ) (v.mapIdent ρ)
  | .comp m x => .comp m (x.mapIdent ρ)
  | .setVar m x => .setVar m (ρ x)
  | .setElem m x i => .setElem m (ρ x) (i.mapIdent ρ)
  | .setDeref m x => .setDeref m (ρ x)
  | .sum m x => .sum m (x.mapIdent ρ)
  | .rel m a op b => .rel m (a.mapIdent ρ) op (b.mapIdent ρ)
  | .term m x => .term m (x.mapIdent ρ)
  | .add m a op b => .add m (a.mapIdent ρ) op (b.mapIdent ρ)
  | .unary m x => .unary m (x.mapIdent ρ)
  | .mul m a op b => .mul m (a.mapIdent ρ) op (b.mapIdent ρ)
  | .neg m x => .neg m (x.mapIdent ρ)
  | .addrOf m x => .addrOf m (x.mapIdent ρ)
  | .deref m x => .deref m (x.mapIdent ρ)
  | .factor m x => .factor m (x.mapIdent ρ)
  | .paren m x => .paren m (x.mapIdent ρ)
  | .var m x => .var m (ρ x)
  | .elem m x i => .elem m (ρ x) (i.mapIdent ρ)
  | .call m f as => .call m (ρ f) (as.mapIdent ρ)
  | .num m n => .num m n
  | .str m text => .str m text
  | .read m => .read m
  | .nil => .nil
  | .cons e es => .cons (e.mapIdent ρ) (es.mapIdent ρ)

variable {l : Layer} (ρ : Ident → Ident) (x : Node l)

@[simp]
theorem mark_mapIdent : (x.mapIdent ρ).mark = x.mark := by
  cases x <;> rfl

@[simp]
theorem ty_mapIdent : (x.mapIdent ρ).ty = x.ty := by
  rw [ty, ty, mark_mapIdent]

@[simp]
theorem count_mapIdent : (x.mapIdent ρ).count = x.count := by
  induction x <;> simp_all [mapIdent, count]

@[simp]
theorem isNone_place_mapIdent : (x.mapIdent ρ).place.isNone = x.place.isNone := by
  induction x <;> simp_all [mapIdent, place]

@[simp]
theorem literals_mapIdent : (x.mapIdent ρ).literals = x.literals := by
  induction x <;> simp_all [mapIdent, literals]

@[simp]
theorem mapIdent_self : x.mapIdent (fun y => y) = x := by
  induction x <;> simp_all [mapIdent]

end Node

namespace Clause

def mapIdent {f : Form} (ρ : Ident → Ident) : Clause f → Clause f
  | .eval line e => .eval line (e.map (Node.mapIdent ρ))
  | .braces line b => .braces line (b.mapIdent ρ)
  | .ifElse line c t e => .ifElse line (c.mapIdent ρ) (t.mapIdent ρ) (e.mapIdent ρ)
  | .loop line c s => .loop line (c.mapIdent ρ) (s.mapIdent ρ)
  | .ret line e => .ret line (e.map (Node.mapIdent ρ))
  | .write line e => .write line (e.map (Node.mapIdent ρ))
  | .absent => .absent
  | .present s => .present (s.mapIdent ρ)
  | .nil => .nil
  | .cons s rest => .cons (s.mapIdent ρ) (rest.mapIdent ρ)
  | .block line ids stmts size span => .block line ids (stmts.mapIdent ρ) size span

variable {f : Form} (ρ : Ident → Ident) (c : Clause f)

@[simp]
theorem literals_mapIdent : (c.mapIdent ρ).literals = c.literals := by
  induction c with
  | eval line e | ret line e | write line e => cases e <;> simp [mapIdent, literals]
  | _ => simp_all [mapIdent, literals]

@[simp]
theorem mapIdent_self : c.mapIdent (fun y => y) = c := by
  induction c with
  | eval line e | ret line e | write line e => cases e <;> simp [mapIdent]
  | _ => simp_all [mapIdent]

end Clause

def Func.mapIdent (ρ : Ident → Ident) (f : Func) : Func :=
  { f with body := f.body.mapIdent ρ }

def Item.mapIdent (ρ : Ident → Ident) : Item → Item
  | .var id => .var id
  | .func f => .func (f.mapIdent ρ)

@[simp]
theorem Item.mapIdent_self (item : Item) : item.mapIdent (fun y => y) = item := by
  cases item <;> simp [mapIdent, Func.mapIdent]

/-! ## Layout

Two layouts are matched when both overflow alike, or give results that a relation holds
between. -/

inductive Matched {α : Type} (R : α → α → Prop) :
    Except Overflow α → Except Overflow α → Prop where
  | error (o : Overflow) : Matched R (.error o) (.error o)
  | ok {a a' : α} : R a a' → Matched R (.ok a) (.ok a')

theorem Matched.bind {α β : Type} {R : α → α → Prop} {S : β → β → Prop} {x x' : Except Overflow α}
    {f f' : α → Except Overflow β} (h : Matched R x x')
    (hf : ∀ a a', x = .ok a → R a a' → Matched S (f a) (f' a')) :
    Matched S (x >>= f) (x' >>= f') := by
  cases h with
  | error o => exact .error o
  | ok hR => exact hf _ _ rfl hR

theorem Matched.mono {α : Type} {R S : α → α → Prop} {x x' : Except Overflow α}
    (h : Matched R x x') (hRS : ∀ a a', R a a' → S a a') : Matched S x x' := by
  cases h with
  | error o => exact .error o
  | ok hR => exact .ok (hRS _ _ hR)

/-- The same checked operation on both sides. -/
theorem Matched.same {α : Type} (x : Except Overflow α) : Matched Eq x x := by
  cases x with
  | error o => exact .error o
  | ok a => exact .ok rfl

theorem Clause.layout_bare {f : Form} (c : Clause f) (depth floor : Nat) (a : Frame) :
    c.bare.layout depth floor a = c.layout depth floor a := by
  induction c generalizing depth floor a <;> simp_all [bare, layout]

theorem Item.layout_bare (item : Item) (decls : List Decl) :
    item.bare.layout decls = item.layout decls := by
  cases item <;> simp [bare, layout, Clause.layout_bare]

theorem Item.layoutAll_bare (items : List Item) (decls : List Decl) :
    layoutAll decls (items.map bare) = layoutAll decls items := by
  induction items generalizing decls <;> simp_all [layoutAll, layout_bare]

/-- A relation between two lists of declarations, of which the listed ones were placed, that
the layout of both keeps step by step. -/
structure LaidAlike (T : List DeclId → List Decl → List Decl → Prop) : Prop where
  width : ∀ {ids decls decls'}, T ids decls decls' → ∀ id : DeclId,
    decls'[id]?.map Decl.width = decls[id]?.map Decl.width
  params : ∀ {ids decls decls'}, T ids decls decls' → ∀ id : DeclId,
    paramsAt decls' id = paramsAt decls id
  place : ∀ {ids decls decls'}, T ids decls decls' → ∀ (id : DeclId) (depth position : Nat),
    T (ids ++ [id]) (place decls id depth position) (place decls' id depth position)

/-- A place that does not exist is passed over. -/
theorem place_of_none {decls : List Decl} {id : DeclId} (h : decls[id]? = none)
    (depth position : Nat) : place decls id depth position = decls := by
  apply List.ext_getElem?
  intro j
  rw [place_getElem?]
  split
  next hj =>
    subst hj
    rw [h, Option.map_none]
  next => rfl

namespace LaidAlike

variable {T : List DeclId → List Decl → List Decl → Prop} (hT : LaidAlike T) {ids : List DeclId}
include hT

theorem placeParams {decls decls' : List Decl} (h : T ids decls decls') (params : List DeclId)
    (position : Nat) :
    T (ids ++ params) (placeParams decls params position) (placeParams decls' params position) := by
  induction params generalizing ids decls decls' position with
  | nil => simpa [Backend.placeParams] using h
  | cons id rest ih =>
      rw [List.append_cons]
      exact ih (hT.place h id 1 position) (position + 1)

theorem placeLocals (depth : Nat) (locals : List DeclId) {a a' : Frame} (hnext : a'.next = a.next)
    (h : T ids a.decls a'.decls) :
    Matched (fun b b' => b'.next = b.next ∧ T (ids ++ locals) b.decls b'.decls)
      (Frame.placeLocals depth locals a) (Frame.placeLocals depth locals a') := by
  induction locals generalizing ids a a' with
  | nil => exact .ok ⟨hnext, by simpa using h⟩
  | cons id rest ih =>
      have hwidth := hT.width h id
      have hplace := hT.place h id depth a.next
      rw [Frame.placeLocals, Frame.placeLocals, List.append_cons]
      cases hd : a.decls[id]? with
      | none =>
          rw [hd, Option.map_none, Option.map_eq_none_iff] at hwidth
          rw [hwidth]
          rw [place_of_none hd, place_of_none hwidth] at hplace
          exact ih hnext hplace
      | some d =>
          rw [hd, Option.map_some, Option.map_eq_some_iff] at hwidth
          obtain ⟨d', hd', heq⟩ := hwidth
          rw [hd']
          dsimp only
          rw [heq, hnext]
          apply (Matched.same (Word.add a.next d.width)).bind
          rintro next _ - rfl
          exact ih rfl hplace

/-- Statements that differ in identifiers only are laid out alike. -/
theorem clause {f : Form} (ρ : Ident → Ident) (c : Clause f) (depth floor : Nat) {a a' : Frame}
    (hnext : a'.next = a.next) (h : T ids a.decls a'.decls) :
    Matched (fun r r' => r'.1 = r.1.mapIdent ρ ∧ r'.2.next = r.2.next ∧
        T (ids ++ c.locals) r.2.decls r'.2.decls)
      (c.layout depth floor a) ((c.mapIdent ρ).layout depth floor a') := by
  induction c generalizing depth floor ids a a' with
  | eval line e | ret line e | write line e | absent | nil =>
      exact .ok ⟨rfl, hnext, by simpa [Clause.locals] using h⟩
  | braces line b ih =>
      rw [Clause.layout, Clause.mapIdent, Clause.layout]
      apply (Matched.same (Word.add depth 1)).bind
      rintro inner _ - rfl
      apply (ih inner floor hnext h).bind
      rintro ⟨b₁, a₁⟩ ⟨_, a₂⟩ - ⟨rfl, hframe⟩
      exact .ok ⟨rfl, hframe⟩
  | loop line e s ih | present s ih =>
      rw [Clause.layout, Clause.mapIdent, Clause.layout]
      apply (ih depth floor hnext h).bind
      rintro ⟨s₁, a₁⟩ ⟨_, a₂⟩ - ⟨rfl, hframe⟩
      exact .ok ⟨rfl, hframe⟩
  | ifElse line e s t ihs iht | cons s t ihs iht =>
      rw [Clause.layout, Clause.mapIdent, Clause.layout, Clause.locals, ← List.append_assoc]
      apply (ihs depth floor hnext h).bind
      rintro ⟨s₁, a₁⟩ ⟨_, a₂⟩ - ⟨rfl, hnext', hframe⟩
      apply (iht depth floor hnext' hframe).bind
      rintro ⟨t₁, b₁⟩ ⟨_, b₂⟩ - ⟨rfl, hframe'⟩
      exact .ok ⟨rfl, hframe'⟩
  | block line own stmts size span ih =>
      rw [Clause.layout, Clause.mapIdent, Clause.layout, Clause.locals, ← List.append_assoc]
      apply (hT.placeLocals depth own hnext h).bind
      rintro b b' - ⟨hnext', hb⟩
      rw [hnext', hnext]
      apply (Matched.same (Word.sub b.next a.next)).bind
      rintro taken _ - rfl
      apply (Matched.same (Word.mul 8 taken)).bind
      rintro size _ - rfl
      apply (Matched.same (Word.sub b.next floor)).bind
      rintro reach _ - rfl
      apply (Matched.same (Word.mul 8 reach)).bind
      rintro span _ - rfl
      apply (ih depth b.next hnext' hb).bind
      rintro ⟨s₁, b₁⟩ ⟨_, b₂⟩ - ⟨rfl, hframe⟩
      exact .ok ⟨rfl, hframe⟩

theorem item (ρ : Ident → Ident) (item : Item) {decls decls' : List Decl}
    (h : T ids decls decls') :
    Matched (fun r r' => r'.1 = r.1.mapIdent ρ ∧ T (ids ++ item.listed decls) r.2 r'.2)
      (item.layout decls) ((item.mapIdent ρ).layout decls') := by
  cases item with
  | var id => exact .ok ⟨rfl, hT.place h id 0 0⟩
  | func f =>
      have hold : paramsAt (Backend.place decls f.decl 0 0) f.decl = paramsAt decls f.decl :=
        (place_sameButSlots decls f.decl 0 0).paramsAt_eq f.decl
      have hnew : paramsAt (Backend.place decls' f.decl 0 0) f.decl = paramsAt decls f.decl := by
        rw [hT.params (hT.place h f.decl 0 0), hold]
      have hparams := hT.placeParams (hT.place h f.decl 0 0) (paramsAt decls f.decl) 0
      rw [Item.layout, Item.mapIdent, Item.layout]
      change Matched _ (f.body.layout bodyDepth 0
          ⟨Backend.placeParams _ (paramsAt (Backend.place decls f.decl 0 0) f.decl) 0, 0⟩ >>= _)
        ((f.body.mapIdent ρ).layout bodyDepth 0
          ⟨Backend.placeParams _ (paramsAt (Backend.place decls' f.decl 0 0) f.decl) 0, 0⟩ >>= _)
      rw [hold, hnew]
      have hbody := @clause T hT _ .block ρ f.body bodyDepth 0 ⟨_, 0⟩ ⟨_, 0⟩ (Eq.refl 0) hparams
      apply hbody.bind
      rintro ⟨body, a⟩ ⟨_, a'⟩ - ⟨rfl, hnext, hframe⟩
      dsimp only at hnext ⊢
      rw [hnext]
      apply (Matched.same (Word.mul 8 a.next)).bind
      rintro frameSize _ - rfl
      refine .ok ⟨rfl, ?_⟩
      simpa [Item.listed, List.append_assoc] using hframe

theorem items (ρ : Ident → Ident) (items : List Item) {decls decls' : List Decl}
    (h : T ids decls decls') :
    Matched (fun r r' => r'.1 = r.1.map (Item.mapIdent ρ) ∧
        T (ids ++ items.flatMap (Item.listed decls)) r.2 r'.2)
      (Item.layoutAll decls items) (Item.layoutAll decls' (items.map (Item.mapIdent ρ))) := by
  induction items generalizing ids decls decls' with
  | nil => exact .ok ⟨rfl, by simpa using h⟩
  | cons item rest ih =>
      rw [Item.layoutAll, List.map_cons, Item.layoutAll, List.flatMap_cons, ← List.append_assoc]
      apply (hT.item ρ item h).bind
      rintro ⟨item', decls₁⟩ ⟨_, decls₂⟩ hitem ⟨rfl, hplaced⟩
      rw [← Item.listed_eq_of_same (Item.layout_spec hitem).1] at hplaced ⊢
      apply (ih hplaced).bind
      rintro ⟨rest', decls₃⟩ ⟨_, decls₄⟩ - ⟨rfl, hplaced'⟩
      exact .ok ⟨rfl, hplaced'⟩

/-- Programs that differ in identifiers and sizes, and in declarations by the relation, are
laid out alike. -/
theorem program (ρ : Ident → Ident) {q q' : Program}
    (hitems : q'.items.map Item.bare = (q.items.map (Item.mapIdent ρ)).map Item.bare)
    (hdecls : T [] q.decls q'.decls) :
    Matched (fun r r' => r'.items = r.items.map (Item.mapIdent ρ) ∧ T r.listed r.decls r'.decls)
      q.layout q'.layout := by
  have hall := hT.items ρ q.items hdecls
  rw [← Item.layoutAll_bare (q.items.map _), ← hitems, Item.layoutAll_bare] at hall
  apply hall.bind
  rintro ⟨items, decls⟩ ⟨_, decls'⟩ hlayout ⟨rfl, hplaced⟩
  refine .ok ⟨rfl, ?_⟩
  rw [Program.listed_of_layout (Program.layout_eq_ok_iff.mpr hlayout)]
  exact hplaced

end LaidAlike

/-! ## Code -/

theorem Decl.arrayBase_congr {d d' : Decl} (hkind : d'.kind = d.kind) (hcell : d'.cell = d.cell) :
    d'.arrayBase = d.arrayBase := by
  rw [arrayBase, arrayBase, hkind, hcell]

theorem Decl.load_congr {d d' : Decl} (hkind : d'.kind = d.kind) (hcell : d'.cell = d.cell)
    (access : Access) : d'.load access = d.load access := by
  cases access with
  | value => rw [load, load, hkind, hcell, arrayBase_congr hkind hcell]
  | address => rw [load, load, hcell]

/-- Two environments that hold the same for a node whose identifiers change on the way from
one to the other: its variables have the same cells and kinds, its functions the same
names. -/
structure CodeEnv.Agree (cx cx' : CodeEnv) (ρ : Ident → Ident) {l : Layer} (x : Node l) :
    Prop where
  pool : cx'.pool = cx.pool
  uses : ∀ y ∈ x.uses, ∃ d d', cx.decl y = pure d ∧ cx'.decl (ρ y) = pure d' ∧
    d'.kind = d.kind ∧ d'.cell = d.cell
  callees : ∀ y ∈ x.callees, ∃ d d', cx.decl y = pure d ∧ cx'.decl (ρ y) = pure d' ∧
    d'.name = d.name

namespace CodeEnv.Agree

variable {cx cx' : CodeEnv} {ρ : Ident → Ident} {l l' : Layer} {x : Node l} {y : Node l'}

/-- What holds for a node holds for its parts. -/
theorem mono (h : Agree cx cx' ρ x) (huses : y.uses ⊆ x.uses) (hcallees : y.callees ⊆ x.callees) :
    Agree cx cx' ρ y :=
  ⟨h.pool, fun z hz => h.uses z (huses hz), fun z hz => h.callees z (hcallees hz)⟩

theorem element (h : Agree cx cx' ρ x) {z : Ident} (hz : z ∈ x.uses) {index index' : Emit Code}
    (hindex : index' = index) : cx'.element (ρ z) index' = cx.element z index := by
  obtain ⟨d, d', hd, hd', hkind, hcell⟩ := h.uses z hz
  rw [CodeEnv.element, CodeEnv.element, hd, hd', pure_bind, pure_bind,
    Decl.arrayBase_congr hkind hcell, hindex]

end CodeEnv.Agree

/-- The code of a node depends on nothing else than what `CodeEnv.Agree` compares. -/
theorem Node.code_mapIdent {cx cx' : CodeEnv} {ρ : Ident → Ident} {l : Layer} {x : Node l}
    (h : CodeEnv.Agree cx cx' ρ x) (access : Access) :
    (x.mapIdent ρ).code cx' access = x.code cx access := by
  induction x generalizing access with
  | comp m x ih | sum m x ih | term m x ih | unary m x ih | factor m x ih | paren m x ih =>
      exact ih (h.mono (List.Subset.refl _) (List.Subset.refl _)) access
  | neg m x ih | deref m x ih =>
      rw [mapIdent, code, code, ih (h.mono (List.Subset.refl _) (List.Subset.refl _))]
  | addrOf m x ih =>
      rw [mapIdent, code, code, ih (h.mono (List.Subset.refl _) (List.Subset.refl _)),
        isNone_place_mapIdent]
  | assign m a b iha ihb | rel m a op b iha ihb | add m a op b iha ihb | mul m a op b iha ihb
  | cons a b iha ihb =>
      have ha := iha (h.mono (List.subset_append_left _ _) (List.subset_append_left _ _))
      have hb := ihb (h.mono (List.subset_append_right _ _) (List.subset_append_right _ _))
      rw [mapIdent, code, code, ha, hb]
  | setVar m y | setDeref m y =>
      obtain ⟨d, d', hd, hd', -, hcell⟩ := h.uses y (List.mem_singleton_self y)
      rw [mapIdent, code, code, hd, hd', pure_bind, pure_bind, hcell]
  | var m y =>
      obtain ⟨d, d', hd, hd', hkind, hcell⟩ := h.uses y (List.mem_singleton_self y)
      rw [mapIdent, code, code, hd, hd', pure_bind, pure_bind, Decl.load_congr hkind hcell]
  | setElem m y i ih =>
      have hi := ih (h.mono (List.subset_cons_self _ _) (List.Subset.refl _)) .value
      rw [mapIdent, code, code, h.element List.mem_cons_self hi]
  | elem m y i ih =>
      have hi := ih (h.mono (List.subset_cons_self _ _) (List.Subset.refl _)) .value
      cases access <;> rw [mapIdent, code, code, h.element List.mem_cons_self hi]
  | call m f as ih =>
      obtain ⟨d, d', hd, hd', hname⟩ := h.callees f List.mem_cons_self
      have has := ih (h.mono (List.Subset.refl _) (List.subset_cons_self _ _))
      rw [mapIdent, code, code, hd, hd', pure_bind, pure_bind, has, count_mapIdent, hname]
  | str m text => rw [mapIdent, code, code, h.pool]
  | num | read | nil => rfl

theorem Clause.code_mapIdent {cx cx' : CodeEnv} {ρ : Ident → Ident} {f : Form} {c : Clause f}
    (h : ∀ e ∈ c.exprs, CodeEnv.Agree cx cx' ρ e) : (c.mapIdent ρ).code cx' = c.code cx := by
  induction c with
  | eval line e | ret line e =>
      cases e with
      | none => rfl
      | some e =>
          have he := Node.code_mapIdent (h e (by simp [exprs])) .value
          simp only [mapIdent, Option.map_some, code, he]
  | write line e =>
      cases e with
      | none => rfl
      | some e =>
          have he := Node.code_mapIdent (h e (by simp [exprs])) .value
          simp only [mapIdent, Option.map_some, code, he, Node.ty_mapIdent]
  | braces line b ih | present b ih => exact ih h
  | block line ids stmts size span ih => rw [mapIdent, code, code, ih h]
  | ifElse line e t s iht ihs =>
      have he := Node.code_mapIdent (h e (by simp [exprs])) .value
      have ht := iht fun e he => h e (by simp [exprs, he])
      have hs := ihs fun e he => h e (by simp [exprs, he])
      rw [mapIdent, code, code, he, ht, hs]
  | loop line e s ih =>
      have he := Node.code_mapIdent (h e (by simp [exprs])) .value
      have hs := ih fun e he => h e (by simp [exprs, he])
      rw [mapIdent, code, code, he, hs]
  | cons s rest ihs ihrest =>
      have hs := ihs fun e he => h e (by simp [exprs, he])
      have hrest := ihrest fun e he => h e (by simp [exprs, he])
      rw [mapIdent, code, code, hs, hrest]
  | absent | nil => rfl

/-- Two programs whose code comes out the same: the items differ in identifiers only, top-level
declarations agree in name and kind, and in the bodies everything agrees that the code
of an expression reads. -/
structure Program.SameText (r r' : Program) (ρ : Ident → Ident) : Prop where
  items : r'.items = r.items.map (Item.mapIdent ρ)
  top : ∀ item ∈ r.items, ∃ d d', r.decls[item.id]? = some d ∧ r'.decls[item.id]? = some d' ∧
    d'.name = d.name ∧ d'.kind = d.kind
  bodies : ∀ f, .func f ∈ r.items → ∀ e ∈ f.body.exprs, ∀ pool,
    CodeEnv.Agree { decls := r.decls, pool } { decls := r'.decls, pool } ρ e

theorem globalStorage_mapIdent {decls decls' : List Decl} {ρ : Ident → Ident} {items : List Item}
    (h : ∀ item ∈ items, ∃ d d', decls[item.id]? = some d ∧ decls'[item.id]? = some d' ∧
      d'.name = d.name ∧ d'.kind = d.kind) :
    globalStorage decls' (items.map (Item.mapIdent ρ)) = globalStorage decls items := by
  induction items with
  | nil => rfl
  | cons item rest ih =>
      have hrest := ih fun item hitem => h item (List.mem_cons_of_mem _ hitem)
      cases item with
      | func f => exact hrest
      | var id =>
          obtain ⟨d, d', hd, hd', hname, hkind⟩ := h (.var id) List.mem_cons_self
          rw [Item.id] at hd hd'
          have hsize : d'.size = d.size := by
            rw [Decl.size, Decl.size, Decl.width, Decl.width, hkind]
          rw [List.map_cons, Item.mapIdent, globalStorage, globalStorage,
            declared_eq_ok_iff.mpr hd, declared_eq_ok_iff.mpr hd', hrest]
          change (pure d' >>= _) = (pure d >>= _)
          rw [pure_bind, pure_bind, hsize, hname]

theorem Func.codeAll_mapIdent {cx cx' : CodeEnv} {ρ : Ident → Ident} {functions : List Func}
    (hnames : ∀ f ∈ functions, ∃ d d', cx.decls[f.decl]? = some d ∧ cx'.decls[f.decl]? = some d' ∧
      d'.name = d.name)
    (hbodies : ∀ f ∈ functions, ∀ e ∈ f.body.exprs, CodeEnv.Agree cx cx' ρ e) :
    codeAll cx' (functions.map (mapIdent ρ)) = codeAll cx functions := by
  induction functions with
  | nil => rfl
  | cons f rest ih =>
      have hrest := ih (fun f hf => hnames f (List.mem_cons_of_mem _ hf))
        (fun f hf => hbodies f (List.mem_cons_of_mem _ hf))
      obtain ⟨d, d', hd, hd', hname⟩ := hnames f List.mem_cons_self
      have hfirst : (f.mapIdent ρ).code cx' = f.code cx := by
        have hbody := Clause.code_mapIdent (hbodies f List.mem_cons_self)
        rw [code, code, mapIdent, declared_eq_ok_iff.mpr hd, declared_eq_ok_iff.mpr hd', hbody]
        change (pure d' >>= _) = (pure d >>= _)
        rw [pure_bind, pure_bind, hname]
      rw [List.map_cons, codeAll, codeAll, hfirst, hrest]

namespace Program.SameText

variable {r r' : Program} {ρ : Ident → Ident}

theorem functions (h : SameText r r' ρ) : r'.functions = r.functions.map (Func.mapIdent ρ) := by
  rw [Program.functions, Program.functions, h.items, List.filterMap_map, List.map_filterMap]
  congr 1
  funext item
  cases item <;> rfl

theorem literals (h : SameText r r' ρ) : r'.literals = r.literals := by
  rw [Program.literals, Program.literals, h.functions, List.flatMap_map]
  congr 1
  funext f
  exact Clause.literals_mapIdent ρ f.body

theorem hasMain (h : SameText r r' ρ) : r'.hasMain = r.hasMain := by
  rw [Program.hasMain, Program.hasMain, h.functions, List.any_map, Bool.eq_iff_iff,
    List.any_eq_true, List.any_eq_true]
  apply exists_congr
  intro f
  apply and_congr_right
  intro hf
  obtain ⟨d, d', hd, hd', hname, -⟩ := h.top (.func f) (mem_functions_iff.mp hf)
  rw [Item.id] at hd hd'
  rw [Function.comp_apply, Func.mapIdent, hd, hd', Option.any_some, Option.any_some, hname]

theorem data (h : SameText r r' ρ) : r'.data = r.data := by
  rw [Program.data, Program.data, Program.pool, Program.pool, h.literals, h.items,
    globalStorage_mapIdent h.top]

theorem text (h : SameText r r' ρ) (pool : Pool) : r'.text pool = r.text pool := by
  rw [Program.text, Program.text, h.hasMain, h.functions, Func.codeAll_mapIdent]
  · intro f hf
    obtain ⟨d, d', hd, hd', hname, -⟩ := h.top (.func f) (mem_functions_iff.mp hf)
    exact ⟨d, d', hd, hd', hname⟩
  · intro f hf e he
    exact h.bodies f (mem_functions_iff.mp hf) e he pool

theorem generate (h : SameText r r' ρ) (labels : Nat) : r'.generate labels = r.generate labels := by
  have htext : r'.text = r.text := funext h.text
  rw [Program.generate, Program.generate, h.data, htext]

end Program.SameText

end Backend
