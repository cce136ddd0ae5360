import Backend.Frame.Map
import Backend.Proofs.Footprint
import Mathlib.Data.Fin.Rev
import Mathlib.Data.List.Find

/-! # Declarations in another order

Everything names a declaration by its place in the list, but places are only ever used to find
the declaration. So the declarations can be listed in another order, and further ones added, if
the tree follows: the passes then do the same on both programs, step by step, and the code and
the frame map are the same.
-/

namespace Backend

/-! ## Other places -/

def Ident.reindex (σ : DeclId → DeclId) (x : Ident) : Ident :=
  { x with decl := x.decl.map σ }

def DeclKind.reindex (σ : DeclId → DeclId) : DeclKind → DeclKind
  | .func params => .func (params.map σ)
  | kind => kind

def Decl.reindex (σ : DeclId → DeclId) (d : Decl) : Decl :=
  { d with kind := d.kind.reindex σ }

/-- A statement that names declarations by other places. -/
def Clause.reindex {f : Form} (σ : DeclId → DeclId) : Clause f → Clause f
  | .eval line e => .eval line (e.map (Node.mapIdent (Ident.reindex σ)))
  | .braces line b => .braces line (b.reindex σ)
  | .ifElse line c t e =>
      .ifElse line (c.mapIdent (Ident.reindex σ)) (t.reindex σ) (e.reindex σ)
  | .loop line c s => .loop line (c.mapIdent (Ident.reindex σ)) (s.reindex σ)
  | .ret line e => .ret line (e.map (Node.mapIdent (Ident.reindex σ)))
  | .write line e => .write line (e.map (Node.mapIdent (Ident.reindex σ)))
  | .absent => .absent
  | .present s => .present (s.reindex σ)
  | .nil => .nil
  | .cons s rest => .cons (s.reindex σ) (rest.reindex σ)
  | .block line ids stmts size span => .block line (ids.map σ) (stmts.reindex σ) size span

def Func.reindex (σ : DeclId → DeclId) (f : Func) : Func :=
  { f with decl := σ f.decl, body := f.body.reindex σ }

def Item.reindex (σ : DeclId → DeclId) : Item → Item
  | .var id => .var (σ id)
  | .func f => .func (f.reindex σ)

namespace Decl

variable (σ : DeclId → DeclId) (d : Decl)

@[simp]
theorem name_reindex : (d.reindex σ).name = d.name := rfl

@[simp]
theorem line_reindex : (d.reindex σ).line = d.line := rfl

@[simp]
theorem width_reindex : (d.reindex σ).width = d.width := by
  cases hkind : d.kind <;> simp [reindex, width, DeclKind.reindex, hkind]

@[simp]
theorem ty_reindex : (d.reindex σ).ty = d.ty := by
  cases hkind : d.kind <;> cases hbase : d.base <;>
    simp [reindex, ty, DeclKind.reindex, hkind, hbase]

@[simp]
theorem isFunc_reindex : (d.reindex σ).isFunc = d.isFunc := by
  cases hkind : d.kind <;> simp [reindex, isFunc, DeclKind.reindex, hkind]

@[simp]
theorem params_reindex : (d.reindex σ).params = d.params.map σ := by
  cases hkind : d.kind <;> simp [reindex, params, DeclKind.reindex, hkind]

theorem kind_reindex (h : d.isFunc = false) : (d.reindex σ).kind = d.kind := by
  cases hkind : d.kind <;> simp_all [reindex, isFunc, DeclKind.reindex]

@[simp]
theorem size_reindex : (d.reindex σ).size = d.size := by
  rw [size, size, width_reindex]

@[simp]
theorem offset_reindex : (d.reindex σ).offset = d.offset := by
  rw [offset, offset, width_reindex]
  rfl

@[simp]
theorem checkVariable_reindex : (d.reindex σ).checkVariable = d.checkVariable := by
  rw [checkVariable, checkVariable, ty_reindex, isFunc_reindex]
  rfl

theorem cell_reindex : (d.reindex σ).cell = d.cell := by
  rw [cell, cell, offset_reindex]
  rfl

theorem entry_reindex : (d.reindex σ).entry = d.entry := by
  rw [entry, entry, offset_reindex, size_reindex]
  rfl

end Decl

/-- The second list has, at the new places, what the first list has at the places below a
bound. -/
structure Reindexes (σ : DeclId → DeclId) (n : Nat) (decls decls' : List Decl) : Prop where
  decl : ∀ id < n, ∃ d, decls[id]? = some d ∧ decls'[σ id]? = some (d.reindex σ)
  injective : ∀ id < n, ∀ id' < n, σ id = σ id' → id = id'

/-- The place is below a bound, and so are those of the parameters if it holds a function. -/
def Within (n : Nat) (decls : List Decl) (id : DeclId) : Prop :=
  id < n ∧ ∀ param ∈ paramsAt decls id, param < n

instance (n : Nat) (decls : List Decl) (id : DeclId) : Decidable (Within n decls id) :=
  inferInstanceAs (Decidable (_ ∧ _))

namespace Reindexes

variable {σ : DeclId → DeclId} {n : Nat} {decls decls' : List Decl} (h : Reindexes σ n decls decls')
include h

theorem declared {id : DeclId} (hid : id < n) :
    declared decls' (σ id) = (declared decls id).map (Decl.reindex σ) := by
  obtain ⟨d, hd, hd'⟩ := h.decl id hid
  rw [declared_eq_ok_iff.mpr hd, declared_eq_ok_iff.mpr hd']
  rfl

theorem any {id : DeclId} (hid : id < n) (name : String) :
    decls'[σ id]?.any (·.name == name) = decls[id]?.any (·.name == name) := by
  obtain ⟨d, hd, hd'⟩ := h.decl id hid
  rw [hd, hd']
  rfl

end Reindexes

/-! ## Resolution -/

/-- An environment and the same one for the other places. -/
structure Env.Reindexed (σ : DeclId → DeclId) (n : Nat) (env env' : Env) : Prop where
  decls : Reindexes σ n env.decls env'.decls
  locals : env'.locals = env.locals.map σ
  globals : env'.globals = env.globals.map (Prod.map (fun name => name) σ)
  line : env'.line = env.line
  localsWithin : ∀ id ∈ env.locals, Within n env.decls id
  globalsWithin : ∀ entry ∈ env.globals, Within n env.decls entry.2

theorem lookup_map {σ : DeclId → DeclId} (globals : Globals) (name : String) :
    (globals.map (Prod.map (fun name => name) σ)).lookup name = (globals.lookup name).map σ := by
  induction globals with
  | nil => rfl
  | cons entry rest ih =>
      obtain ⟨other, id⟩ := entry
      rw [List.map_cons, Prod.map, List.lookup_cons, List.lookup_cons, ih]
      cases name == other <;> rfl

namespace Env.Reindexed

variable {σ : DeclId → DeclId} {n : Nat} {env env' : Env} (h : env.Reindexed σ n env')
include h

theorem lineOf (own : Nat) : env'.lineOf own = env.lineOf own := by
  rw [Env.lineOf, Env.lineOf, h.line]

theorem find (name : String) : env'.find name = (env.find name).map σ := by
  have hlocals : (env.locals.map σ).find? (fun id => env'.decls[id]?.any (·.name == name)) =
      (env.locals.find? fun id => env.decls[id]?.any (·.name == name)).map σ := by
    rw [List.find?_map]
    congr 1
    apply List.find?_congr
    intro id hid
    exact h.decls.any (h.localsWithin id hid).1 name
  rw [Env.find, Env.find, h.locals, h.globals, hlocals, lookup_map]
  cases env.locals.find? fun id => env.decls[id]?.any (·.name == name) <;> rfl

theorem within_of_find {name : String} {id : DeclId} (hid : env.find name = some id) :
    Within n env.decls id := by
  rw [Env.find, Option.or_eq_some_iff] at hid
  rcases hid with hlocal | ⟨-, hglobal⟩
  · exact h.localsWithin id (List.mem_of_find?_eq_some hlocal)
  · obtain ⟨before, after, hentries, -⟩ := List.lookup_eq_some_iff.mp hglobal
    exact h.globalsWithin (name, id) (by simp [hentries])

theorem bind (x : Ident) (line : Nat) :
    env'.bind (x.reindex σ) line =
      Prod.map (Ident.reindex σ) (Except.map (Decl.reindex σ)) (env.bind x line) := by
  have hname : (x.reindex σ).name = x.name := rfl
  rw [Env.bind, Env.bind, hname, h.find]
  cases hfind : env.find x.name with
  | none => rfl
  | some id =>
      simp only [Option.map_some, Prod.map, h.decls.declared (h.within_of_find hfind).1]
      rfl

/-- What a name means has its parameters below the bound. -/
theorem params_of_bind {x : Ident} {line : Nat} {d : Decl} (hd : (env.bind x line).2 = .ok d) :
    ∀ param ∈ d.params, param < n := by
  rw [Env.bind] at hd
  split at hd
  · cases hd
  next id hfind =>
    have hwithin := (h.within_of_find hfind).2
    rwa [paramsAt, declared_eq_ok_iff.mp hd, Option.elim_some] at hwithin

theorem bindVariable (x : Ident) (line : Nat) :
    env'.bindVariable (x.reindex σ) line =
      Prod.map (Ident.reindex σ) (fun type => type) (env.bindVariable x line) := by
  rw [Env.bindVariable, Env.bindVariable, h.bind]
  obtain ⟨x', e | d⟩ := env.bind x line
  · rfl
  · simp only [Prod.map, Except.map, Decl.isFunc_reindex, Decl.ty_reindex]
    rfl

end Env.Reindexed

theorem Node.line_mapIdent {l : Layer} (ρ : Ident → Ident) (x : Node l) :
    (x.mapIdent ρ).line = x.line := by
  rw [line, line, mark_mapIdent]

namespace Mark

variable {l a b c : Layer} (m : Mark) {ρ : Ident → Ident}

theorem close_mapIdent {build build' : Mark → Node l}
    (h : ∀ m, build' m = (build m).mapIdent ρ) (type : Except Error Ty) :
    m.close build' type = Prod.map (Node.mapIdent ρ) (fun type => type) (m.close build type) := by
  cases type <;> simp [close, h]

theorem integers_mapIdent {build : Mark → Node a → Node b → Node c}
    (h : ∀ m x y, build m (x.mapIdent ρ) (y.mapIdent ρ) = (build m x y).mapIdent ρ) (line : Nat)
    (left : Resolved a) (before : Node b) (right : Resolved b) :
    m.integers build line (Prod.map (Node.mapIdent ρ) (fun type => type) left)
        (before.mapIdent ρ) (Prod.map (Node.mapIdent ρ) (fun type => type) right) =
      Prod.map (Node.mapIdent ρ) (fun type => type) (m.integers build line left before right) := by
  simp only [integers, Prod.map_fst, Prod.map_snd]
  split
  · simp [h]
  · exact m.close_mapIdent (fun m => h m _ _) _

end Mark

theorem Mark.element_reindex {σ : DeclId → DeclId} {n : Nat} {env env' : Env}
    (henv : env.Reindexed σ n env') {l : Layer} (m : Mark) {build : Mark → Ident → Expr → Node l}
    (h : ∀ m x y, build m (x.reindex σ) (y.mapIdent (Ident.reindex σ)) =
      (build m x y).mapIdent (Ident.reindex σ)) (line : Nat) (x : Ident) (before : Expr)
    (index : Resolved .expr) :
    m.element build env' line (x.reindex σ) (before.mapIdent (Ident.reindex σ))
        (Prod.map (Node.mapIdent (Ident.reindex σ)) (fun type => type) index) =
      Prod.map (Node.mapIdent (Ident.reindex σ)) (fun type => type)
        (m.element build env line x before index) := by
  rw [element, element, henv.bindVariable]
  obtain ⟨x', e | array⟩ := env.bindVariable x line
  · simp [h]
  · simp only [Prod.map]
    cases array.element with
    | none => simp [h]
    | some element =>
        simp only [henv.lineOf, Node.line_mapIdent]
        exact m.close_mapIdent (fun m => h m _ _) _

/-- A node is resolved alike for the other places. -/
theorem Node.resolve_reindex {σ : DeclId → DeclId} {n : Nat} {env env' : Env}
    (h : env.Reindexed σ n env') {l : Layer} (x : Node l) {formals : List DeclId}
    (hformals : ∀ id ∈ formals, id < n) :
    (x.mapIdent (Ident.reindex σ)).resolve env' (formals.map σ) =
      Prod.map (mapIdent (Ident.reindex σ)) (fun type => type) (x.resolve env formals) := by
  have hnone : ∀ id ∈ ([] : List DeclId), id < n := by simp
  induction x generalizing formals with
  | assign m t v iht ihv =>
      have ht := iht hnone
      have hv := ihv hnone
      simp only [List.map_nil] at ht hv
      simp only [resolve, mapIdent, ht, hv, h.lineOf]
      obtain ⟨t', e | ty⟩ := t.resolve env
      · rfl
      · exact m.close_mapIdent (fun _ => by rfl) _
  | comp m x ih | sum m x ih | term m x ih | unary m x ih | factor m x ih | paren m x ih
  | neg m x ih | deref m x ih =>
      have hx := ih hnone
      rw [List.map_nil] at hx
      simp only [resolve, mapIdent, hx, h.lineOf]
      exact m.close_mapIdent (fun _ => by rfl) _
  | addrOf m x ih =>
      have hx := ih hnone
      rw [List.map_nil] at hx
      simp only [resolve, mapIdent, hx, h.lineOf, isNone_place_mapIdent]
      exact m.close_mapIdent (fun _ => by rfl) _
  | rel m a op b iha ihb | add m a op b iha ihb | mul m a op b iha ihb =>
      have ha := iha hnone
      have hb := ihb hnone
      rw [List.map_nil] at ha hb
      simp only [resolve, mapIdent, ha, hb, h.lineOf]
      exact m.integers_mapIdent (fun _ _ _ => by rfl) _ _ _ _
  | setVar m x =>
      simp only [resolve, mapIdent, h.lineOf, h.bindVariable]
      obtain ⟨x', e | ty⟩ := env.bindVariable x (env.lineOf m.line)
      · rfl
      · exact m.close_mapIdent (fun _ => by rfl) _
  | setDeref m x | var m x =>
      simp only [resolve, mapIdent, h.lineOf, h.bindVariable]
      exact m.close_mapIdent (fun _ => by rfl) _
  | setElem m x i ih | elem m x i ih =>
      have hi := ih hnone
      rw [List.map_nil] at hi
      simp only [resolve, mapIdent, hi, h.lineOf]
      exact m.element_reindex h (fun _ _ _ => by rfl) _ _ _ _
  | call m f as ih =>
      have hparams := @Env.Reindexed.params_of_bind _ _ _ _ h f (env.lineOf m.line)
      simp only [resolve, mapIdent, h.lineOf, h.bind, count_mapIdent]
      generalize env.bind f (env.lineOf m.line) = bound at hparams
      obtain ⟨f', e | d⟩ := bound
      · rfl
      · have has := ih (hparams rfl)
        simp only [Prod.map_apply, Prod.map_fst, Prod.map_snd, Except.map, Decl.isFunc_reindex,
          Decl.params_reindex, Decl.ty_reindex, List.length_map, has]
        by_cases hfunc : d.isFunc = true
        · by_cases hlength : d.params.length = as.count
          · simp only [hfunc, hlength, if_true]
            exact m.close_mapIdent (fun _ => by rfl) _
          · simp only [hfunc, hlength, if_true, if_false]
            rfl
        · simp only [hfunc]
          rfl
  | num m n | str m text | read m =>
      exact m.close_mapIdent (fun _ => by rfl) _
  | nil => rfl
  | cons e es ihe ihes =>
      cases formals with
      | nil => rfl
      | cons formal formals =>
          rw [List.forall_mem_cons] at hformals
          have he := ihe hnone
          have hes := ihes hformals.2
          rw [List.map_nil] at he
          simp only [resolve, mapIdent, List.map_cons, h.decls.declared hformals.1, he, hes,
            h.lineOf, line_mapIdent]
          cases declared env.decls formal with
          | error err => rfl
          | ok d =>
              simp only [Except.map, Decl.ty_reindex, Prod.map]
              cases (e.resolve env).2 >>= Ty.expect [d.ty] (env.lineOf e.line) <;> rfl

structure FuncEnv.Reindexed (σ : DeclId → DeclId) (n : Nat) (cx cx' : FuncEnv) : Prop where
  decls : Reindexes σ n cx.decls cx'.decls
  globals : cx'.globals = cx.globals.map (Prod.map (fun name => name) σ)
  ret : cx'.ret = cx.ret
  scope : cx'.scope = cx.scope
  globalsWithin : ∀ entry ∈ cx.globals, Within n cx.decls entry.2

namespace FuncEnv.Reindexed

variable {σ : DeclId → DeclId} {n : Nat} {cx cx' : FuncEnv} (h : cx.Reindexed σ n cx')
  {locals : List DeclId} (hlocals : ∀ id ∈ locals, Within n cx.decls id)
include h

theorem enter {ids : List DeclId} (hids : ∀ id ∈ ids, Within n cx.decls id) :
    cx'.enter (ids.map σ) (locals.map σ) = (cx.enter ids locals).map (List.map σ) := by
  induction ids generalizing locals with
  | nil => rfl
  | cons id rest ih =>
      rw [List.forall_mem_cons] at hids
      rw [List.map_cons, FuncEnv.enter, FuncEnv.enter, h.decls.declared hids.1.1]
      cases declared cx.decls id with
      | error e => rfl
      | ok d =>
          change ((d.reindex σ).checkVariable >>= fun _ => cx'.enter (rest.map σ) (_ :: _)) =
            (d.checkVariable >>= fun _ => cx.enter rest (id :: locals)).map _
          rw [Decl.checkVariable_reindex]
          cases d.checkVariable with
          | error e => rfl
          | ok _ => exact @ih (id :: locals) hids.2

include hlocals

theorem envAt (line : Nat) :
    (cx.envAt line locals).Reindexed σ n (cx'.envAt line (locals.map σ)) :=
  ⟨h.decls, rfl, h.globals, rfl, hlocals, h.globalsWithin⟩

theorem expect (line : Nat) (expected : List Ty) (e : Expr) :
    cx'.expect line (locals.map σ) expected (e.mapIdent (Ident.reindex σ)) =
      Prod.map (Node.mapIdent (Ident.reindex σ)) (fun type => type)
        (cx.expect line locals expected e) := by
  have he := e.resolve_reindex (h.envAt hlocals line) (fun _ hid => absurd hid List.not_mem_nil)
  rw [List.map_nil] at he
  rw [FuncEnv.expect, FuncEnv.expect, he]
  rfl

end FuncEnv.Reindexed

/-- What holds of the locals before a statement and of those in it holds of the locals that it
hands on. -/
theorem Clause.forall_behind {cx : FuncEnv} {P : DeclId → Prop} {f : Form} {c : Clause f}
    (hown : ∀ id ∈ c.locals, P id) {line : Nat} {locals behind : List DeclId}
    (hlocals : ∀ id ∈ locals, P id) (h : (c.resolve cx line locals).2 = .ok behind) :
    ∀ id ∈ behind, P id := by
  induction c generalizing line locals behind with
  | eval own e | ret own e | write own e =>
      cases e with
      | none =>
          simp only [resolve, Except.ok.injEq, except_map_eq_ok_iff] at h
          grind
      | some e =>
          simp only [resolve, except_map_eq_ok_iff] at h
          obtain ⟨_, -, rfl⟩ := h
          exact hlocals
  | absent | nil =>
      cases h
      exact hlocals
  | braces own b ih | present b ih => exact ih hown hlocals h
  | loop own e s ih =>
      rw [resolve] at h
      split at h
      · cases h
      · exact ih hown hlocals h
  | ifElse own e s t ihs iht =>
      rw [Clause.locals, List.forall_mem_append] at hown
      rw [resolve] at h
      split at h
      · cases h
      · split at h
        · cases h
        next heq => exact iht hown.2 (ihs hown.1 hlocals (congrArg Prod.snd heq)) h
  | cons s rest ihs ihrest =>
      rw [Clause.locals, List.forall_mem_append] at hown
      rw [resolve] at h
      split at h
      · cases h
      next heq => exact ihrest hown.2 (ihs hown.1 hlocals (congrArg Prod.snd heq)) h
  | block own ids stmts size span ih =>
      rw [Clause.locals, List.forall_mem_append] at hown
      rw [resolve] at h
      split at h
      · cases h
      next inner henter =>
        obtain ⟨-, rfl⟩ := FuncEnv.enter_eq_ok_iff.mp henter
        have hinner : ∀ id ∈ ids.reverse ++ locals, P id := by
          simpa [or_imp, forall_and] using ⟨hown.1, hlocals⟩
        dsimp only at h
        split at h
        · exact ih hown.2 hinner h
        · obtain ⟨_, -, rfl⟩ := except_map_eq_ok_iff.mp h
          exact hlocals

/-- A statement is resolved alike for the other places. -/
theorem Clause.resolve_reindex {σ : DeclId → DeclId} {n : Nat} {cx cx' : FuncEnv}
    (h : cx.Reindexed σ n cx') {f : Form} {c : Clause f}
    (hown : ∀ id ∈ c.locals, Within n cx.decls id) (line : Nat) {locals : List DeclId}
    (hlocals : ∀ id ∈ locals, Within n cx.decls id) :
    (c.reindex σ).resolve cx' line (locals.map σ) =
      Prod.map (reindex σ) (Except.map (List.map σ)) (c.resolve cx line locals) := by
  induction c generalizing line locals with
  | eval own e =>
      cases e with
      | none => rfl
      | some e =>
          have he := e.resolve_reindex (h.envAt hlocals (orLine own line))
            (fun _ hid => absurd hid List.not_mem_nil)
          rw [List.map_nil] at he
          simp only [resolve, reindex, Option.map_some, he, Prod.map]
          cases (e.resolve (cx.envAt (orLine own line) locals)).2 <;> rfl
  | ret own e =>
      cases e with
      | none =>
          simp only [resolve, reindex, Option.map_none, h.ret]
          cases Ty.expect [cx.ret] (orLine own line) .void <;> rfl
      | some e =>
          simp only [resolve, reindex, Option.map_some, h.expect hlocals, h.ret, Prod.map]
          cases (cx.expect (orLine own line) locals [cx.ret] e).2 <;> rfl
  | write own e =>
      cases e with
      | none => rfl
      | some e =>
          simp only [resolve, reindex, Option.map_some, h.expect hlocals, Prod.map]
          cases (cx.expect (orLine own line) locals [.int, .string] e).2 <;> rfl
  | absent | nil => rfl
  | braces own b ih | present b ih =>
      simp only [resolve, reindex, ih hown _ hlocals]
      rfl
  | loop own e s ih =>
      simp only [resolve, reindex, h.expect hlocals, ih hown _ hlocals]
      obtain ⟨e', err | _⟩ := cx.expect (orLine own line) locals [.int] e <;> rfl
  | ifElse own e s t ihs iht =>
      rw [Clause.locals, List.forall_mem_append] at hown
      simp only [resolve, reindex, h.expect hlocals, ihs hown.1 _ hlocals]
      obtain ⟨e', err | _⟩ := cx.expect (orLine own line) locals [.int] e
      · rfl
      · have hbehind := @Clause.forall_behind cx _ _ s hown.1 (orLine own line) locals
        generalize s.resolve cx (orLine own line) locals = resolved at hbehind
        obtain ⟨s', err | behind⟩ := resolved
        · rfl
        · simp only [Prod.map, Except.map, iht hown.2 _ (hbehind hlocals rfl)]
          rfl
  | cons s rest ihs ihrest =>
      rw [Clause.locals, List.forall_mem_append] at hown
      simp only [resolve, reindex, ihs hown.1 _ hlocals]
      have hbehind := @Clause.forall_behind cx _ _ s hown.1 line locals
      generalize s.resolve cx line locals = resolved at hbehind
      obtain ⟨s', err | behind⟩ := resolved
      · rfl
      · simp only [Prod.map, Except.map, ihrest hown.2 _ (hbehind hlocals rfl)]
        rfl
  | block own ids stmts size span ih =>
      rw [Clause.locals, List.forall_mem_append] at hown
      simp only [resolve, reindex, h.enter hown.1]
      cases henter : cx.enter ids locals with
      | error err => rfl
      | ok inner =>
          obtain ⟨-, rfl⟩ := FuncEnv.enter_eq_ok_iff.mp henter
          have hinner : ∀ id ∈ ids.reverse ++ locals, Within n cx.decls id := by
            simpa [or_imp, forall_and] using ⟨hown.1, hlocals⟩
          have hstmts := ih hown.2 (orLine own line) hinner
          simp only [Except.map, hstmts, h.scope]
          generalize stmts.resolve cx (orLine own line) (ids.reverse ++ locals) = resolved
          obtain ⟨stmts', err | behind⟩ := resolved <;> cases cx.scope <;> rfl

/-- What is known behind an insertion was known before it, or was inserted. -/
theorem Globals.forall_insert {P : DeclId → Prop} {globals after : Globals}
    (hglobals : ∀ entry ∈ globals, P entry.2) {d : Decl} {id : DeclId} (hid : P id)
    (h : globals.insert d id = .ok after) : ∀ entry ∈ after, P entry.2 := by
  rw [insert] at h
  split at h
  · cases h
  · cases h
    exact List.forall_mem_cons.mpr ⟨hid, hglobals⟩

theorem Globals.insert_reindex (σ : DeclId → DeclId) (globals : Globals) (d : Decl) (id : DeclId) :
    Globals.insert (globals.map (Prod.map (fun name => name) σ)) (d.reindex σ) (σ id) =
      (globals.insert d id).map (List.map (Prod.map (fun name => name) σ)) := by
  rw [insert, insert, lookup_map]
  change (if ((globals.lookup d.name).map σ).isSome then _ else _) = _
  rw [Option.isSome_map]
  split <;> rfl

namespace Reindexes

variable {σ : DeclId → DeclId} {n : Nat} {decls decls' : List Decl} (h : Reindexes σ n decls decls')
include h

theorem checkParams {ids : List DeclId} (hids : ∀ id ∈ ids, id < n) :
    checkParams decls' (ids.map σ) = checkParams decls ids := by
  induction ids with
  | nil => rfl
  | cons id rest ih =>
      rw [List.forall_mem_cons] at hids
      obtain ⟨d, hd, hd'⟩ := h.decl id hids.1
      rw [List.map_cons, Backend.checkParams, Backend.checkParams, declared_eq_ok_iff.mpr hd,
        declared_eq_ok_iff.mpr hd', except_ok_bind, except_ok_bind, Decl.checkVariable_reindex,
        ih hids.2]

theorem paramsAt {id : DeclId} (hid : id < n) :
    paramsAt decls' (σ id) = (Backend.paramsAt decls id).map σ := by
  obtain ⟨d, hd, hd'⟩ := h.decl id hid
  rw [Backend.paramsAt, Backend.paramsAt, hd, hd', Option.elim_some, Option.elim_some,
    Decl.params_reindex]

end Reindexes

/-- What is known behind an item was known before it, or is the item. -/
theorem Item.forall_known {decls : List Decl} {scope : Scope} {P : DeclId → Prop}
    {globals known : Globals} (hglobals : ∀ entry ∈ globals, P entry.2) {item : Item}
    (hitem : P item.id) (h : (item.resolve decls scope globals).2 = .ok known) :
    ∀ entry ∈ known, P entry.2 := by
  cases item with
  | var id =>
      simp only [resolve, except_bind_eq_ok_iff] at h
      obtain ⟨d, -, _, -, hafter⟩ := h
      exact Globals.forall_insert hglobals hitem hafter
  | func f =>
      rw [resolve] at h
      dsimp only at h
      split at h
      · cases h
      next d after hknown =>
        simp only [except_bind_eq_ok_iff, except_pure_eq_ok_iff, Prod.mk.injEq] at hknown
        obtain ⟨d, -, _, hafter, _, -, rfl, rfl⟩ := hknown
        obtain ⟨_, -, rfl⟩ := except_map_eq_ok_iff.mp h
        exact Globals.forall_insert hglobals hitem hafter

/-- How a function is resolved once its head is known. -/
theorem Item.resolve_func_of_ok {decls : List Decl} {scope : Scope} {globals after : Globals}
    {f : Func} {d : Decl} (hd : declared decls f.decl = .ok d)
    (hinsert : globals.insert d f.decl = .ok after)
    (hparams : checkParams decls d.params = .ok ()) :
    (func f).resolve decls scope globals =
      Prod.map (fun body => func { f with body }) (Except.map fun _ => after)
        (f.body.resolve ⟨decls, after, d.ty, scope⟩ d.line d.params.reverse) := by
  simp only [resolve, hd, except_ok_bind, hinsert, hparams]
  rfl

/-- An item is resolved alike for the other places. -/
theorem Item.resolve_reindex {σ : DeclId → DeclId} {n : Nat} {decls decls' : List Decl}
    (h : Reindexes σ n decls decls') (scope : Scope) {globals : Globals}
    (hglobals : ∀ entry ∈ globals, Within n decls entry.2) {item : Item}
    (hitem : ∀ id ∈ item.listed decls, Within n decls id) :
    (item.reindex σ).resolve decls' scope (globals.map (Prod.map (fun name => name) σ)) =
      Prod.map (reindex σ) (Except.map (List.map (Prod.map (fun name => name) σ)))
        (item.resolve decls scope globals) := by
  cases item with
  | var id =>
      have hid := (hitem id (by simp [listed])).1
      obtain ⟨d, hd, hd'⟩ := h.decl id hid
      simp only [resolve, reindex, declared_eq_ok_iff.mpr hd, declared_eq_ok_iff.mpr hd',
        except_ok_bind, Decl.checkVariable_reindex, Globals.insert_reindex]
      cases d.checkVariable <;> rfl
  | func f =>
      simp only [listed, List.forall_mem_cons, List.forall_mem_append] at hitem
      obtain ⟨hid, hparams, hlocals⟩ := hitem
      obtain ⟨d, hd, hd'⟩ := h.decl f.decl hid.1
      rw [paramsAt, hd, Option.elim_some] at hparams
      have hknown := declared_eq_ok_iff.mpr hd
      have hknown' := declared_eq_ok_iff.mpr hd'
      have hinsert' := Globals.insert_reindex σ globals d f.decl
      have hcheck' := h.checkParams fun id hid => (hparams id hid).1
      rw [← Decl.params_reindex] at hcheck'
      cases hinsert : globals.insert d f.decl with
      | error e =>
          rw [hinsert] at hinsert'
          simp only [resolve, reindex, Func.reindex, hknown, hknown', except_ok_bind, hinsert,
            hinsert']
          rfl
      | ok after =>
          rw [hinsert] at hinsert'
          cases hcheck : checkParams decls d.params with
          | error e =>
              rw [hcheck] at hcheck'
              simp only [resolve, reindex, Func.reindex, hknown, hknown', except_ok_bind, hinsert,
                hinsert', Except.map, hcheck, hcheck']
              rfl
          | ok _ =>
              rw [hcheck] at hcheck'
              have hcx : FuncEnv.Reindexed σ n ⟨decls, after, d.ty, scope⟩
                  ⟨decls', after.map (Prod.map (fun name => name) σ), (d.reindex σ).ty, scope⟩ :=
                ⟨h, rfl, d.ty_reindex σ, rfl, Globals.forall_insert hglobals hid hinsert⟩
              have hformals : ∀ id ∈ d.params.reverse, Within n decls id := by
                simpa using hparams
              have hbody := Clause.resolve_reindex hcx hlocals d.line hformals
              rw [List.map_reverse, ← Decl.params_reindex] at hbody
              rw [resolve_func_of_ok hknown hinsert hcheck, reindex,
                resolve_func_of_ok hknown' hinsert' hcheck', Func.reindex]
              simp only [Decl.line_reindex, hbody]
              generalize f.body.resolve _ d.line d.params.reverse = resolved
              obtain ⟨body, e | behind⟩ := resolved <;> rfl

/-- Items are resolved alike for the other places. -/
theorem Item.resolveAll_reindex {σ : DeclId → DeclId} {n : Nat} {decls decls' : List Decl}
    (h : Reindexes σ n decls decls') (scope : Scope) {globals : Globals}
    (hglobals : ∀ entry ∈ globals, Within n decls entry.2) {items : List Item}
    (hitems : ∀ id ∈ items.flatMap (listed decls), Within n decls id) :
    resolveAll decls' scope (globals.map (Prod.map (fun name => name) σ))
        (items.map (reindex σ)) =
      Prod.map (List.map (reindex σ)) (fun outcome => outcome)
        (resolveAll decls scope globals items) := by
  induction items generalizing globals with
  | nil => rfl
  | cons item rest ih =>
      rw [List.flatMap_cons, List.forall_mem_append] at hitems
      have hid : Within n decls item.id := hitems.1 _ (by cases item <;> simp [listed, id])
      have hknown : ∀ known, (item.resolve decls scope globals).2 = .ok known →
          ∀ entry ∈ known, Within n decls entry.2 := by
        intro known
        exact forall_known hglobals hid
      simp only [resolveAll, List.map_cons, resolve_reindex h scope hglobals hitems.1]
      generalize item.resolve decls scope globals = resolved at hknown
      obtain ⟨item', e | known⟩ := resolved
      · rfl
      · simp only [Prod.map, Except.map, ih (hknown known rfl) hitems.2]
        rfl

/-! ## Layout -/

@[simp]
theorem Clause.locals_reindex {f : Form} (σ : DeclId → DeclId) (c : Clause f) :
    (c.reindex σ).locals = c.locals.map σ := by
  induction c <;> simp_all [reindex, locals]

namespace Reindexes

variable {σ : DeclId → DeclId} {n : Nat} {decls decls' : List Decl} (h : Reindexes σ n decls decls')
include h

theorem place {id : DeclId} (hid : id < n) (depth position : Nat) :
    Reindexes σ n (place decls id depth position) (place decls' (σ id) depth position) where
  decl := by
    intro other hother
    obtain ⟨d, hd, hd'⟩ := h.decl other hother
    rw [place_getElem?, place_getElem?, hd, hd']
    by_cases heq : id = other
    · rw [if_pos heq, if_pos (congrArg σ heq)]
      exact ⟨_, rfl, rfl⟩
    · rw [if_neg heq, if_neg fun hσ => heq (h.injective id hid other hother hσ)]
      exact ⟨d, rfl, rfl⟩
  injective := h.injective

theorem placeParams {ids : List DeclId} (hids : ∀ id ∈ ids, id < n) (position : Nat) :
    Reindexes σ n (placeParams decls ids position) (placeParams decls' (ids.map σ) position) := by
  induction ids generalizing decls decls' position with
  | nil => exact h
  | cons id rest ih =>
      rw [List.forall_mem_cons] at hids
      exact ih (h.place hids.1 1 position) hids.2 (position + 1)

end Reindexes

theorem Frame.placeLocals_reindex {σ : DeclId → DeclId} {n : Nat} {ids : List DeclId}
    (hids : ∀ id ∈ ids, id < n) (depth : Nat) {a a' : Frame} (hnext : a'.next = a.next)
    (h : Reindexes σ n a.decls a'.decls) :
    Matched (fun b b' => b'.next = b.next ∧ Reindexes σ n b.decls b'.decls)
      (placeLocals depth ids a) (placeLocals depth (ids.map σ) a') := by
  induction ids generalizing a a' with
  | nil => exact .ok ⟨hnext, h⟩
  | cons id rest ih =>
      rw [List.forall_mem_cons] at hids
      obtain ⟨d, hd, hd'⟩ := h.decl id hids.1
      rw [placeLocals, List.map_cons, placeLocals, hd, hd']
      dsimp only
      rw [Decl.width_reindex, hnext]
      apply (Matched.same (Word.add a.next d.width)).bind
      rintro next _ - rfl
      exact ih hids.2 rfl (h.place hids.1 depth a.next)

/-- A statement is laid out alike for the other places. -/
theorem Clause.layout_reindex {σ : DeclId → DeclId} {n : Nat} {f : Form} {c : Clause f}
    (hown : ∀ id ∈ c.locals, id < n) (depth floor : Nat) {a a' : Frame} (hnext : a'.next = a.next)
    (h : Reindexes σ n a.decls a'.decls) :
    Matched (fun r r' => r'.1 = r.1.reindex σ ∧ r'.2.next = r.2.next ∧
        Reindexes σ n r.2.decls r'.2.decls)
      (c.layout depth floor a) ((c.reindex σ).layout depth floor a') := by
  induction c generalizing depth floor a a' with
  | eval line e | ret line e | write line e | absent | nil => exact .ok ⟨rfl, hnext, h⟩
  | braces line b ih =>
      rw [layout, reindex, layout]
      apply (Matched.same (Word.add depth 1)).bind
      rintro inner _ - rfl
      apply (ih hown inner floor hnext h).bind
      rintro ⟨b₁, a₁⟩ ⟨_, a₂⟩ - ⟨rfl, hframe⟩
      exact .ok ⟨rfl, hframe⟩
  | loop line e s ih | present s ih =>
      rw [layout, reindex, layout]
      apply (ih hown depth floor hnext h).bind
      rintro ⟨s₁, a₁⟩ ⟨_, a₂⟩ - ⟨rfl, hframe⟩
      exact .ok ⟨rfl, hframe⟩
  | ifElse line e s t ihs iht | cons s t ihs iht =>
      rw [locals, List.forall_mem_append] at hown
      rw [layout, reindex, layout]
      apply (ihs hown.1 depth floor hnext h).bind
      rintro ⟨s₁, a₁⟩ ⟨_, a₂⟩ - ⟨rfl, hnext', hframe⟩
      apply (iht hown.2 depth floor hnext' hframe).bind
      rintro ⟨t₁, b₁⟩ ⟨_, b₂⟩ - ⟨rfl, hframe'⟩
      exact .ok ⟨rfl, hframe'⟩
  | block line own stmts size span ih =>
      rw [locals, List.forall_mem_append] at hown
      rw [layout, reindex, layout]
      apply (Frame.placeLocals_reindex hown.1 depth hnext h).bind
      rintro b b' - ⟨hnext', hb⟩
      rw [hnext', hnext]
      apply (Matched.same (Word.sub b.next a.next)).bind
      rintro taken _ - rfl
      apply (Matched.same (Word.mul 8 taken)).bind
      rintro size _ - rfl
      apply (Matched.same (Word.sub b.next floor)).bind
      rintro reach _ - rfl
      apply (Matched.same (Word.mul 8 reach)).bind
      rintro span _ - rfl
      apply (ih hown.2 depth b.next hnext' hb).bind
      rintro ⟨s₁, b₁⟩ ⟨_, b₂⟩ - ⟨rfl, hframe⟩
      exact .ok ⟨rfl, hframe⟩

theorem Item.layout_reindex {σ : DeclId → DeclId} {n : Nat} {decls decls' : List Decl}
    (h : Reindexes σ n decls decls') {item : Item} (hitem : ∀ id ∈ item.listed decls, id < n) :
    Matched (fun r r' => r'.1 = r.1.reindex σ ∧ Reindexes σ n r.2 r'.2)
      (item.layout decls) ((item.reindex σ).layout decls') := by
  cases item with
  | var id => exact .ok ⟨rfl, h.place (hitem id (by simp [listed])) 0 0⟩
  | func f =>
      simp only [listed, List.forall_mem_cons, List.forall_mem_append] at hitem
      obtain ⟨hid, hparams, hlocals⟩ := hitem
      have hplaced := h.place hid 0 0
      rw [← (place_sameButSlots decls f.decl 0 0).paramsAt_eq f.decl] at hparams
      have hstart := hplaced.placeParams hparams 0
      rw [← hplaced.paramsAt hid] at hstart
      have hbody := @Clause.layout_reindex σ n _ f.body hlocals bodyDepth 0 ⟨_, 0⟩ ⟨_, 0⟩
        (Eq.refl 0) hstart
      rw [layout, reindex, layout]
      apply hbody.bind
      rintro ⟨body, a⟩ ⟨_, a'⟩ - ⟨rfl, hnext, hframe⟩
      dsimp only at hnext ⊢
      rw [hnext]
      apply (Matched.same (Word.mul 8 a.next)).bind
      rintro frameSize _ - rfl
      exact .ok ⟨rfl, hframe⟩

theorem Item.layoutAll_reindex {σ : DeclId → DeclId} {n : Nat} {decls decls' : List Decl}
    (h : Reindexes σ n decls decls') {items : List Item}
    (hitems : ∀ id ∈ items.flatMap (listed decls), id < n) :
    Matched (fun r r' => r'.1 = r.1.map (reindex σ) ∧ Reindexes σ n r.2 r'.2)
      (layoutAll decls items) (layoutAll decls' (items.map (reindex σ))) := by
  induction items generalizing decls decls' with
  | nil => exact .ok ⟨rfl, h⟩
  | cons item rest ih =>
      rw [List.flatMap_cons, List.forall_mem_append] at hitems
      rw [layoutAll, List.map_cons, layoutAll]
      apply (layout_reindex h hitems.1).bind
      rintro ⟨item', placed⟩ ⟨_, placed'⟩ hitem ⟨rfl, hplaced⟩
      have hrest := hitems.2
      rw [← listed_eq_of_same (layout_spec hitem).1] at hrest
      apply (ih hplaced hrest).bind
      rintro ⟨rest', last⟩ ⟨_, last'⟩ - ⟨rfl, hlast⟩
      exact .ok ⟨rfl, hlast⟩

/-! ## Programs -/

/-- A program and the same one for the other places, all those listed being below the bound. -/
structure Program.Reindexed (σ : DeclId → DeclId) (n : Nat) (p p' : Program) : Prop where
  decls : Reindexes σ n p.decls p'.decls
  items : p'.items = p.items.map (Item.reindex σ)
  within : ∀ id ∈ p.listed, Within n p.decls id

theorem Item.listed_mapExpr (φ : Expr → Expr) (item : Item) (decls : List Decl) :
    (item.mapExpr φ).listed decls = item.listed decls := by
  have hlocals : ∀ {f : Form} (c : Clause f), (c.mapExpr φ).locals = c.locals := by
    intro f c
    induction c <;> simp_all [Clause.mapExpr, Clause.locals]
  cases item <;> simp [mapExpr, listed, hlocals]

theorem Program.listed_mapExpr (φ : Expr → Expr) (p : Program) :
    (p.mapExpr φ).listed = p.listed := by
  rw [listed, listed, mapExpr, List.flatMap_map]
  simp only [Item.listed_mapExpr]

/-- Resolution lists the same declarations, also where it is refused. -/
theorem Program.listed_resolve (p : Program) (scope : Scope) :
    (p.resolve scope).1.listed = p.listed := by
  rw [← listed_mapExpr Node.erase, mapExpr_resolve, listed_mapExpr]

namespace Program.Reindexed

variable {σ : DeclId → DeclId} {n : Nat} {p p' : Program} (h : p.Reindexed σ n p')
include h

theorem resolve (scope : Scope) :
    (p'.resolve scope).2 = (p.resolve scope).2 ∧
    (p.resolve scope).1.Reindexed σ n (p'.resolve scope).1 := by
  have hnone : ∀ entry ∈ ([] : Globals), Within n p.decls entry.2 := by simp
  have hall := Item.resolveAll_reindex h.decls scope hnone h.within
  rw [List.map_nil, ← h.items] at hall
  have houtcome := congrArg Prod.snd hall
  have hitems := congrArg Prod.fst hall
  have hwithin := h.within
  rw [← p.listed_resolve scope] at hwithin
  exact ⟨houtcome, h.decls, hitems, hwithin⟩

theorem layout : Matched (Reindexed σ n) p.layout p'.layout := by
  have hitems := Item.layoutAll_reindex h.decls fun id hid => (h.within id hid).1
  rw [← h.items] at hitems
  apply hitems.bind
  rintro ⟨items, decls⟩ ⟨_, decls'⟩ hlayout ⟨rfl, hdecls⟩
  refine .ok ⟨hdecls, rfl, ?_⟩
  replace hlayout : p.layout = .ok ⟨decls, items⟩ := layout_eq_ok_iff.mpr hlayout
  intro id hid
  rw [listed_of_layout hlayout] at hid
  rw [Within, (layout_sameButSlots hlayout).paramsAt_eq]
  exact h.within id hid

end Program.Reindexed

/-! ## The frame map -/

namespace Reindexes

variable {σ : DeclId → DeclId} {n : Nat} {decls decls' : List Decl} (h : Reindexes σ n decls decls')
include h

theorem slotEntries {ids : List DeclId} (hids : ∀ id ∈ ids, id < n) :
    slotEntries decls' (ids.map σ) = slotEntries decls ids := by
  induction ids with
  | nil => rfl
  | cons id rest ih =>
      rw [List.forall_mem_cons] at hids
      obtain ⟨d, hd, hd'⟩ := h.decl id hids.1
      rw [List.map_cons, Backend.slotEntries, Backend.slotEntries, hd, hd']
      simp only [Decl.entry_reindex, ih hids.2]

theorem addItem {item : Item} (hitem : ∀ id ∈ item.listed decls, id < n) (map : FrameMap) :
    map.addItem decls' (item.reindex σ) = map.addItem decls item := by
  cases item with
  | var id =>
      obtain ⟨d, hd, hd'⟩ := h.decl id (hitem id (by simp [Item.listed]))
      rw [Item.reindex, FrameMap.addItem, FrameMap.addItem, hd, hd']
      simp only [Decl.size_reindex, Decl.name_reindex]
  | func f =>
      simp only [Item.listed, List.forall_mem_cons, List.forall_mem_append] at hitem
      obtain ⟨hid, hparams, hlocals⟩ := hitem
      obtain ⟨d, hd, hd'⟩ := h.decl f.decl hid
      rw [Backend.paramsAt, hd, Option.elim_some] at hparams
      rw [Item.reindex, Func.reindex, FrameMap.addItem, FrameMap.addItem, hd, hd']
      simp only [Decl.params_reindex, Clause.locals_reindex, h.slotEntries hparams,
        h.slotEntries hlocals, Decl.name_reindex]

theorem addItems {items : List Item} (hitems : ∀ id ∈ items.flatMap (Item.listed decls), id < n)
    (map : FrameMap) :
    map.addItems decls' (items.map (Item.reindex σ)) = map.addItems decls items := by
  induction items generalizing map with
  | nil => rfl
  | cons item rest ih =>
      rw [List.flatMap_cons, List.forall_mem_append] at hitems
      simp only [List.map_cons, FrameMap.addItems, h.addItem hitems.1, ih hitems.2]

end Reindexes

theorem Program.Reindexed.frameMap {σ : DeclId → DeclId} {n : Nat} {p p' : Program}
    (h : p.Reindexed σ n p') : p'.frameMap = p.frameMap := by
  rw [Program.frameMap, Program.frameMap, h.items]
  exact h.decls.addItems (fun id hid => (h.within id hid).1) {}

/-! ## Code -/

/-- The code of a statement does not show the places of a block's locals. -/
theorem Clause.code_reindex {σ : DeclId → DeclId} {cx cx' : CodeEnv} {f : Form} {c : Clause f}
    (h : ∀ e ∈ c.exprs, CodeEnv.Agree cx cx' (Ident.reindex σ) e) :
    (c.reindex σ).code cx' = c.code cx := by
  rw [← code_mapIdent h]
  clear h
  induction c with
  | eval line e | ret line e | write line e | absent | nil => rfl
  | braces line b ih | present b ih => exact ih
  | block line ids stmts size span ih | loop line e stmts ih =>
      rw [reindex, mapIdent, code, code, ih]
  | ifElse line e t s iht ihs | cons t s iht ihs => rw [reindex, mapIdent, code, code, iht, ihs]

@[simp]
theorem Clause.literals_reindex {f : Form} (σ : DeclId → DeclId) (c : Clause f) :
    (c.reindex σ).literals = c.literals := by
  induction c with
  | eval line e | ret line e | write line e => cases e <;> simp [reindex, literals]
  | _ => simp_all [reindex, literals]

theorem Reindexes.globalStorage {σ : DeclId → DeclId} {n : Nat} {decls decls' : List Decl}
    (h : Reindexes σ n decls decls') {items : List Item}
    (hitems : ∀ id ∈ items.flatMap (Item.listed decls), id < n) :
    globalStorage decls' (items.map (Item.reindex σ)) = globalStorage decls items := by
  induction items with
  | nil => rfl
  | cons item rest ih =>
      rw [List.flatMap_cons, List.forall_mem_append] at hitems
      have hrest := ih hitems.2
      cases item with
      | func f => exact hrest
      | var id =>
          obtain ⟨d, hd, hd'⟩ := h.decl id (hitems.1 id (by simp [Item.listed]))
          rw [List.map_cons, Item.reindex, Backend.globalStorage, Backend.globalStorage,
            declared_eq_ok_iff.mpr hd, declared_eq_ok_iff.mpr hd', hrest]
          change (pure (d.reindex σ) >>= _) = (pure d >>= _)
          rw [pure_bind, pure_bind, Decl.size_reindex, Decl.name_reindex]

theorem Func.codeAll_reindex {σ : DeclId → DeclId} {cx cx' : CodeEnv} {functions : List Func}
    (hnames : ∀ f ∈ functions, ∃ d, cx.decls[f.decl]? = some d ∧
      cx'.decls[σ f.decl]? = some (d.reindex σ))
    (hbodies : ∀ f ∈ functions, ∀ e ∈ f.body.exprs, CodeEnv.Agree cx cx' (Ident.reindex σ) e) :
    codeAll cx' (functions.map (reindex σ)) = codeAll cx functions := by
  induction functions with
  | nil => rfl
  | cons f rest ih =>
      rw [List.forall_mem_cons] at hnames hbodies
      obtain ⟨d, hd, hd'⟩ := hnames.1
      have hfirst : (f.reindex σ).code cx' = f.code cx := by
        rw [code, code, reindex, declared_eq_ok_iff.mpr hd, declared_eq_ok_iff.mpr hd',
          Clause.code_reindex hbodies.1]
        change (pure (d.reindex σ) >>= _) = (pure d >>= _)
        rw [pure_bind, pure_bind, Decl.name_reindex]
      rw [List.map_cons, codeAll, codeAll, hfirst, ih hnames.2 hbodies.2]

namespace Program.Reindexed

variable {σ : DeclId → DeclId} {n : Nat} {p r r' : Program} (h : r.Reindexed σ n r')
include h

theorem functions : r'.functions = r.functions.map (Func.reindex σ) := by
  rw [Program.functions, Program.functions, h.items, List.filterMap_map, List.map_filterMap]
  congr 1
  funext item
  cases item <;> rfl

theorem literals : r'.literals = r.literals := by
  rw [Program.literals, Program.literals, h.functions, List.flatMap_map]
  congr 1
  funext f
  exact Clause.literals_reindex σ f.body

theorem decl_of_mem {f : Func} (hf : f ∈ r.functions) :
    ∃ d, r.decls[f.decl]? = some d ∧ r'.decls[σ f.decl]? = some (d.reindex σ) := by
  apply h.decls.decl
  have hlisted : f.decl ∈ r.listed :=
    List.mem_flatMap.mpr ⟨.func f, mem_functions_iff.mp hf, by simp [Item.listed]⟩
  exact (h.within _ hlisted).1

theorem hasMain : r'.hasMain = r.hasMain := by
  rw [Program.hasMain, Program.hasMain, h.functions, List.any_map, Bool.eq_iff_iff,
    List.any_eq_true, List.any_eq_true]
  apply exists_congr
  intro f
  apply and_congr_right
  intro hf
  obtain ⟨d, hd, hd'⟩ := h.decl_of_mem hf
  rw [Function.comp_apply, Func.reindex, hd, hd', Option.any_some, Option.any_some,
    Decl.name_reindex]

/-- The expressions of a resolved program find the same cells and names at the new places. -/
theorem agree {q : Program} {scope : Scope} (hresolve : p.resolve scope = (q, .ok ()))
    (hlayout : q.layout = .ok r) {f : Func} (hf : .func f ∈ r.items) {e : Expr}
    (he : e ∈ f.body.exprs) (pool : Pool) :
    CodeEnv.Agree { decls := r.decls, pool } { decls := r'.decls, pool } (Ident.reindex σ) e := by
  have hbound : ∀ x ∈ e.uses ++ e.callees, ∃ id d, x.decl = some id ∧ r.decls[id]? = some d ∧
      CodeEnv.decl { decls := r.decls, pool } x = pure d ∧
      CodeEnv.decl { decls := r'.decls, pool } (x.reindex σ) = pure (d.reindex σ) := by
    intro x hx
    obtain ⟨id, d, hid, hlisted, hd⟩ := listed_of_bound hresolve hlayout hf he hx
    obtain ⟨d₁, hd₁, hd'⟩ := h.decls.decl id (h.within id hlisted).1
    cases hd.symm.trans hd₁
    refine ⟨id, d, hid, hd, CodeEnv.decl_eq_pure hid hd, CodeEnv.decl_eq_pure ?_ hd'⟩
    rw [Ident.reindex, hid, Option.map_some]
  refine ⟨rfl, ?_, ?_⟩
  · intro x hx
    obtain ⟨id, d, hid, hd, hdecl, hdecl'⟩ := hbound x (List.mem_append_left _ hx)
    obtain ⟨id₁, d₁, hid₁, -, hd₁, hfunc⟩ := uses_of_layout hresolve hlayout hf he hx
    cases hid.symm.trans hid₁
    cases hd.symm.trans hd₁
    exact ⟨d, _, hdecl, hdecl', d.kind_reindex σ hfunc, d.cell_reindex σ⟩
  · intro x hx
    obtain ⟨id, d, -, -, hdecl, hdecl'⟩ := hbound x (List.mem_append_right _ hx)
    exact ⟨d, _, hdecl, hdecl', rfl⟩

theorem generate {q : Program} {scope : Scope} (hresolve : p.resolve scope = (q, .ok ()))
    (hlayout : q.layout = .ok r) (labels : Nat) : r'.generate labels = r.generate labels := by
  have hdata : r'.data = r.data := by
    rw [Program.data, Program.data, Program.pool, Program.pool, h.literals, h.items,
      h.decls.globalStorage fun id hid => (h.within id hid).1]
  have htext : r'.text = r.text := by
    funext pool
    rw [Program.text, Program.text, h.hasMain, h.functions,
      Func.codeAll_reindex (fun f hf => h.decl_of_mem hf) fun f hf e he =>
        h.agree hresolve hlayout (mem_functions_iff.mp hf) he pool]
  rw [Program.generate, Program.generate, hdata, htext]

end Program.Reindexed

/-- Compilation ends alike for the other places, and leaves the same frame map. -/
theorem Program.Reindexed.compile {σ : DeclId → DeclId} {n : Nat} {p p' : Program}
    (h : p.Reindexed σ n p') (scope : Scope) :
    (p'.compile scope).2 = (p.compile scope).2 ∧
    (p.compile scope).1.Reindexed σ n (p'.compile scope).1 := by
  obtain ⟨houtcome, hq⟩ := h.resolve scope
  cases hresolve : p.resolve scope with
  | mk q outcome =>
  cases hresolve' : p'.resolve scope with
  | mk q' outcome' =>
  rw [hresolve, hresolve'] at houtcome hq
  dsimp only at houtcome hq
  subst houtcome
  simp only [Program.compile, hresolve, hresolve']
  cases outcome' with
  | error e => exact ⟨rfl, hq⟩
  | ok _ =>
      have hmatched := hq.layout
      generalize hlayout : q.layout = laid at hmatched
      generalize hlayout' : q'.layout = laid' at hmatched
      cases hmatched with
      | error o =>
          simp only [hlayout, hlayout']
          exact ⟨trivial, hq⟩
      | ok hr =>
          simp only [hlayout, hlayout', hr.generate hresolve hlayout]
          exact ⟨trivial, hr⟩

/-! ## Permutations -/

/-- Where a permutation of a list moves a place. A place beyond the list stays. -/
def moved {m : Nat} (σ : Equiv.Perm (Fin m)) (id : DeclId) : DeclId :=
  if h : id < m then σ ⟨id, h⟩ else id

/-- The program with further declarations and all of them in another order. -/
def Program.rearrange (p : Program) (extra : List Decl)
    (σ : Equiv.Perm (Fin (p.decls ++ extra).length)) : Program where
  decls := List.ofFn fun place => ((p.decls ++ extra).get (σ.symm place)).reindex (moved σ)
  items := p.items.map (Item.reindex (moved σ))

theorem Reindexes.of_perm {decls extra : List Decl}
    (σ : Equiv.Perm (Fin (decls ++ extra).length)) :
    Reindexes (moved σ) decls.length decls
      (List.ofFn fun place => ((decls ++ extra).get (σ.symm place)).reindex (moved σ)) := by
  have hlength : ∀ id < decls.length, id < (decls ++ extra).length := by
    intro id hid
    rw [List.length_append]
    omega
  constructor
  · intro id hid
    refine ⟨decls[id], List.getElem?_eq_getElem hid, ?_⟩
    have hmoved : moved σ id = σ ⟨id, hlength id hid⟩ := dif_pos (hlength id hid)
    rw [hmoved, List.getElem?_ofFn, dif_pos (Fin.is_lt _), Fin.eta, Equiv.symm_apply_apply,
      List.get_eq_getElem, List.getElem_append_left hid]
  · intro id hid id' hid' heq
    rw [moved, moved, dif_pos (hlength id hid), dif_pos (hlength id' hid')] at heq
    exact congrArg Fin.val (σ.injective (Fin.ext heq))

namespace Program

/-- The order of the declarations does not matter, nor do further ones: the program compiles to
the same code or fails alike, and has the same frame map, laid out as it is, and as compilation
leaves it. -/
theorem compile_rearrange (p : Program) (extra : List Decl)
    (σ : Equiv.Perm (Fin (p.decls ++ extra).length)) (scope : Scope)
    (h : ∀ id ∈ p.listed, Within p.decls.length p.decls id) :
    ((p.rearrange extra σ).compile scope).2 = (p.compile scope).2 ∧
    ((p.rearrange extra σ).compile scope).1.frameMap = (p.compile scope).1.frameMap ∧
    ((p.rearrange extra σ).layout >>= frameMap) = (p.layout >>= frameMap) := by
  have hp : p.Reindexed (moved σ) p.decls.length (p.rearrange extra σ) :=
    ⟨Reindexes.of_perm σ, rfl, h⟩
  obtain ⟨houtcome, hframes⟩ := hp.compile scope
  refine ⟨houtcome, hframes.frameMap, ?_⟩
  have hlayout := hp.layout
  generalize p.layout = laid at hlayout
  generalize (p.rearrange extra σ).layout = laid' at hlayout
  cases hlayout with
  | error o => rfl
  | ok hr => exact hr.frameMap

end Program

namespace Reversed

/-- A local hides the global of the same name. -/
def twice : Func where
  decl := 2
  body := .ofStmts [3] [
    .expr (.setVar "n" (.add (.var "x") .add (.var "x"))),
    .ret (some (.var "n"))]

def main : Func where
  decl := 4
  body := .ofStmts [] [.expr (.setVar "n" (.call "twice" [.num 2]))]

def program : Program where
  decls := [.var 1 .int "n", .param 2 .int "x",
    { line := 2, name := "twice", base := .int, kind := .func [1] }, .var 3 .int "n",
    { line := 7, name := "main", base := .void, kind := .func [] }]
  items := [.var 0, .func twice, .func main]

def unlisted : List Decl := [.var 9 .string "n"]

/-- The local now stands before the global, and a third variable of that name before both. -/
theorem compiles_alike :
    (program.rearrange unlisted Fin.revPerm).decls.map Decl.name =
      ["n", "main", "n", "twice", "x", "n"] ∧
    ((program.rearrange unlisted Fin.revPerm).compile .block).2 = (program.compile .block).2 ∧
    (program.compile .block).2.toOption.isSome := by
  have hsame := program.compile_rearrange unlisted Fin.revPerm .block (by decide)
  exact ⟨by decide, hsame.1, by decide +kernel⟩

end Reversed

end Backend
