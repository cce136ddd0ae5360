import Backend.Proofs.Dependence

/-! # Annotations do not matter

Types, bindings, slots and sizes are filled in on the way from a tree to its code. Each is
written before it is read, so what a tree carried of them at the start has no influence. To
say so, a tree is compared with its erasure, the tree without any annotation: both are
refused with the same error, or come out with the same annotations wherever the program
lists a declaration.
-/

namespace Backend

/-! ## Erasing -/

def Ident.erase (x : Ident) : Ident := { name := x.name }

def Mark.erase (m : Mark) : Mark := { line := m.line }

theorem Mark.line_erase (m : Mark) : m.erase.line = m.line := rfl

namespace Node

/-- A node without types and bindings. -/
def erase {l : Layer} : Node l → Node l
  | .assign m t v => .assign m.erase t.erase v.erase
  | .comp m x => .comp m.erase x.erase
  | .setVar m x => .setVar m.erase x.erase
  | .setElem m x i => .setElem m.erase x.erase i.erase
  | .setDeref m x => .setDeref m.erase x.erase
  | .sum m x => .sum m.erase x.erase
  | .rel m a op b => .rel m.erase a.erase op b.erase
  | .term m x => .term m.erase x.erase
  | .add m a op b => .add m.erase a.erase op b.erase
  | .unary m x => .unary m.erase x.erase
  | .mul m a op b => .mul m.erase a.erase op b.erase
  | .neg m x => .neg m.erase x.erase
  | .addrOf m x => .addrOf m.erase x.erase
  | .deref m x => .deref m.erase x.erase
  | .factor m x => .factor m.erase x.erase
  | .paren m x => .paren m.erase x.erase
  | .var m x => .var m.erase x.erase
  | .elem m x i => .elem m.erase x.erase i.erase
  | .call m f as => .call m.erase f.erase as.erase
  | .num m n => .num m.erase n
  | .str m text => .str m.erase text
  | .read m => .read m.erase
  | .nil => .nil
  | .cons e es => .cons e.erase es.erase

variable {l : Layer} (x : Node l)

@[simp]
theorem line_erase : x.erase.line = x.line := by
  cases x <;> rfl

theorem count_le_zero (hlayer : l ≠ .args) : x.count ≤ 0 := by
  cases x <;> first | exact Nat.le_refl _ | exact absurd rfl hlayer

@[simp]
theorem count_erase : x.erase.count = x.count := by
  induction x <;> simp_all [erase, count]

@[simp]
theorem isNone_place_erase : x.erase.place.isNone = x.place.isNone := by
  induction x <;> simp_all [erase, place]

end Node

namespace Clause

/-- A statement without types, bindings and sizes. -/
def erase {f : Form} : Clause f → Clause f
  | .eval line e => .eval line (e.map Node.erase)
  | .braces line b => .braces line b.erase
  | .ifElse line c t e => .ifElse line c.erase t.erase e.erase
  | .loop line c s => .loop line c.erase s.erase
  | .ret line e => .ret line (e.map Node.erase)
  | .write line e => .write line (e.map Node.erase)
  | .absent => .absent
  | .present s => .present s.erase
  | .nil => .nil
  | .cons s rest => .cons s.erase rest.erase
  | .block line ids stmts _ _ => .block line ids stmts.erase 0 0

theorem erase_bare {f : Form} (c : Clause f) : c.bare.erase = c.erase := by
  induction c <;> simp_all [bare, erase]

end Clause

def Item.erase : Item → Item
  | .var id => .var id
  | .func f => .func { decl := f.decl, body := f.body.erase }

theorem Item.erase_bare (item : Item) : item.bare.erase = item.erase := by
  cases item with
  | var id => rfl
  | func f => simp [bare, erase, Clause.erase_bare]

/-- A program without types, bindings, slots and sizes. -/
def Program.erase (p : Program) : Program where
  decls := p.decls.map Decl.bare
  items := p.items.map Item.erase

def Env.erase (env : Env) : Env := { env with decls := env.decls.map Decl.bare }

def FuncEnv.erase (cx : FuncEnv) : FuncEnv := { cx with decls := cx.decls.map Decl.bare }

theorem Env.decls_erase (env : Env) : env.erase.decls = env.decls.map Decl.bare := rfl

theorem Env.lineOf_erase (env : Env) (line : Nat) : env.erase.lineOf line = env.lineOf line := rfl

theorem FuncEnv.scope_erase (cx : FuncEnv) : cx.erase.scope = cx.scope := rfl

/-! ## Resolution

Two resolutions are alike when they end with the same error, or with the same tree and
result. What was filled in before an error may differ, since a part that is not reached
keeps its annotations. -/

inductive Alike {α β : Type} : α × Except Error β → α × Except Error β → Prop where
  | error (a a' : α) (e : Error) : Alike (a, .error e) (a', .error e)
  | ok (a : α) (b : β) : Alike (a, .ok b) (a, .ok b)

namespace Alike

variable {α β γ : Type} {r r' : α × Except Error β}

theorem refl (r : α × Except Error β) : Alike r r := by
  obtain ⟨a, e | b⟩ := r
  · exact .error a a e
  · exact .ok a b

theorem outcome_eq (h : Alike r r') : r'.2 = r.2 := by
  cases h <;> rfl

theorem eq_of_ok (h : Alike r r') {b : β} (hb : r.2 = .ok b) : r' = r := by
  cases h with
  | error => cases hb
  | ok => rfl

/-- The tree is built further and the result looked at in the same way on both sides. -/
theorem map (h : Alike r r') (build : α → γ) {δ : Type} (look : Except Error β → Except Error δ)
    (hlook : ∀ e, look (.error e) = .error e) :
    Alike (build r.1, look r.2) (build r'.1, look r'.2) := by
  cases h with
  | error a a' e =>
      rw [hlook]
      exact .error _ _ e
  | ok a b => exact .refl _

/-- A type that is filled in replaces whatever stood there. -/
theorem close (h : Alike r r') {l : Layer} (m : Mark) (build : Mark → α → Node l)
    (look : Except Error β → Except Error Ty) (hlook : ∀ e, look (.error e) = .error e) :
    Alike (m.close (build · r.1) (look r.2)) (m.erase.close (build · r'.1) (look r'.2)) := by
  cases h with
  | error a a' e =>
      rw [hlook]
      exact .error _ _ e
  | ok a b =>
      cases look (.ok b) with
      | error e => exact .error _ _ e
      | ok ty => exact .ok _ ty

theorem integers {a b c : Layer} {left left' : Resolved a} {right right' : Resolved b}
    (hleft : Alike left left') (hright : Alike right right') (m : Mark)
    (build : Mark → Node a → Node b → Node c) (line : Nat) (before before' : Node b) :
    Alike (m.integers build line left before right)
      (m.erase.integers build line left' before' right') := by
  cases hleft with
  | error => exact .error _ _ _
  | ok a t =>
      unfold Mark.integers
      cases (Except.ok t >>= Ty.expect [.int] line) with
      | error e => exact .error _ _ e
      | ok t => exact hright.close m (build · a ·) (· >>= Ty.expect [.int] line) fun _ => rfl

end Alike

theorem declared_bare (decls : List Decl) (id : DeclId) :
    declared (decls.map Decl.bare) id = (declared decls id).map Decl.bare := by
  unfold declared
  rw [List.getElem?_map]
  cases decls[id]? <;> rfl

namespace Env

theorem find_erase (env : Env) (name : String) : env.erase.find name = env.find name := by
  unfold find
  congr 2
  funext id
  change ((env.decls.map Decl.bare)[id]?).any _ = _
  rw [List.getElem?_map]
  cases env.decls[id]? <;> rfl

theorem bind_erase (env : Env) (x : Ident) (line : Nat) :
    Alike (Prod.map id (Except.map Decl.bare) (env.bind x line))
      (env.erase.bind x.erase line) := by
  unfold bind
  rw [Ident.erase, find_erase]
  cases env.find x.name with
  | none => exact .error _ _ _
  | some id =>
      change Alike (_, (declared env.decls id).map _) (_, declared (env.decls.map Decl.bare) id)
      rw [declared_bare]
      exact .refl _

theorem bindVariable_erase (env : Env) (x : Ident) (line : Nat) :
    Alike (env.bindVariable x line) (env.erase.bindVariable x.erase line) := by
  have hbind := bind_erase env x line
  unfold bindVariable
  generalize env.erase.bind x.erase line = r' at hbind
  generalize env.bind x line = r at hbind
  obtain ⟨x', e | d⟩ := r
  · cases hbind
    exact .error _ _ e
  · cases hbind
    exact .refl _

end Env

theorem Mark.element_erase {l : Layer} (m : Mark) (build : Mark → Ident → Expr → Node l) (env : Env)
    (line : Nat) (x : Ident) (before : Expr) {index index' : Resolved .expr}
    (hindex : Alike index index') :
    Alike (m.element build env line x before index)
      (m.erase.element build env.erase line x.erase before.erase index') := by
  have hbind := env.bindVariable_erase x line
  unfold Mark.element
  generalize env.erase.bindVariable x.erase line = r' at hbind
  generalize env.bindVariable x line = r at hbind
  cases hbind with
  | error => exact .error _ _ _
  | ok x' array =>
      dsimp only
      cases array.element with
      | none => exact .error _ _ _
      | some element =>
          rw [Node.line_erase]
          exact hindex.close m (build · x' ·)
            (fun t => (t >>= Ty.expect [.int] (env.lineOf before.line)).map fun _ => element)
            fun _ => rfl

/-- A node and its erasure are resolved alike. An argument list has to be met by as many
parameters, since arguments without one would keep their annotations. -/
theorem Node.resolve_erase {l : Layer} (env : Env) (x : Node l) (formals : List DeclId)
    (hcount : x.count ≤ formals.length) :
    Alike (x.resolve env formals) (x.erase.resolve env.erase formals) := by
  induction x generalizing formals with
  | assign m t v iht ihv =>
      have ht := iht [] (t.count_le_zero (by decide))
      have hv := ihv [] (v.count_le_zero (by decide))
      simp only [resolve, erase]
      generalize t.resolve env = r at ht
      generalize t.erase.resolve env.erase = r' at ht
      cases ht with
      | error => exact .error _ _ _
      | ok t' ty =>
          exact hv.close m (.assign · t' ·) (· >>= Ty.expect [ty.stored] (env.lineOf m.line))
            fun _ => rfl
  | comp m x ih | sum m x ih | term m x ih | unary m x ih | factor m x ih | paren m x ih =>
      have hx := ih [] (x.count_le_zero (by decide))
      exact hx.close m _ (fun t => t) fun _ => rfl
  | neg m x ih =>
      have hx := ih [] (x.count_le_zero (by decide))
      exact hx.close m .neg (· >>= Ty.expect [.int] (env.lineOf m.line)) fun _ => rfl
  | deref m x ih =>
      have hx := ih [] (x.count_le_zero (by decide))
      exact hx.close m .deref (· >>= Ty.follow (env.lineOf m.line)) fun _ => rfl
  | addrOf m x ih =>
      have hx := ih [] (x.count_le_zero (by decide))
      simp only [resolve, erase, isNone_place_erase]
      exact hx.close m .addrOf (fun t => do
        let t ← t >>= Ty.expect [.int, .string] (env.lineOf m.line)
        if x.place.isNone then throw (.notAddressable (env.lineOf m.line))
        return t.addressOf.getD .none) fun _ => rfl
  | rel m a op b iha ihb | add m a op b iha ihb | mul m a op b iha ihb =>
      have ha := iha [] (a.count_le_zero (by decide))
      have hb := ihb [] (b.count_le_zero (by decide))
      exact ha.integers hb m _ (env.lineOf m.line) b b.erase
  | setVar m x =>
      have hx := env.bindVariable_erase x (env.lineOf m.line)
      simp only [resolve, erase, Mark.line_erase, Env.lineOf_erase]
      generalize env.erase.bindVariable x.erase (env.lineOf m.line) = r' at hx
      generalize env.bindVariable x (env.lineOf m.line) = r at hx
      cases hx with
      | error => exact .error _ _ _
      | ok x' t =>
          exact (Alike.ok x' t).close m .setVar (fun t => t >>= fun t =>
            if t.isArray then .error (.notAssignable x.name (env.lineOf m.line)) else .ok t)
            fun _ => rfl
  | setDeref m x =>
      have hx := env.bindVariable_erase x (env.lineOf m.line)
      exact hx.close m .setDeref (· >>= Ty.follow (env.lineOf m.line)) fun _ => rfl
  | var m x =>
      have hx := env.bindVariable_erase x (env.lineOf m.line)
      exact hx.close m .var (fun t => t) fun _ => rfl
  | setElem m x i ih | elem m x i ih =>
      have hi := ih [] (i.count_le_zero (by decide))
      exact m.element_erase _ env (env.lineOf m.line) x i hi
  | call m f as ih =>
      have hf := env.bind_erase f (env.lineOf m.line)
      simp only [resolve, erase, count_erase, Mark.line_erase, Env.lineOf_erase]
      generalize env.erase.bind f.erase (env.lineOf m.line) = r' at hf
      generalize env.bind f (env.lineOf m.line) = r at hf
      obtain ⟨f', e | d⟩ := r
      · cases hf
        exact .error _ _ e
      · cases hf
        change Alike (if d.isFunc then _ else _) (if d.isFunc then _ else _)
        split
        · change Alike (if d.params.length = as.count then _ else _)
            (if d.params.length = as.count then _ else _)
          split
          next hlength =>
            exact (ih d.params (Nat.le_of_eq hlength.symm)).close m (.call · f' ·)
              (·.map fun _ => d.ty) fun _ => rfl
          next => exact .error _ _ _
        · exact .error _ _ _
  | num m n => exact (Alike.ok () Ty.int).close m (fun m _ => .num m n) (fun t => t) fun _ => rfl
  | str m text =>
      exact (Alike.ok () Ty.string).close m (fun m _ => .str m text) (fun t => t) fun _ => rfl
  | read m => exact (Alike.ok () Ty.int).close m (fun m _ => .read m) (fun t => t) fun _ => rfl
  | nil => exact .refl _
  | cons e es ihe ihes =>
      cases formals with
      | nil => simp [count] at hcount
      | cons formal formals =>
          have he := ihe [] (e.count_le_zero (by decide))
          have hes := ihes formals (Nat.le_of_succ_le_succ hcount)
          simp only [resolve, erase, line_erase, Env.decls_erase, declared_bare]
          cases declared env.decls formal with
          | error err => exact .error _ _ err
          | ok d =>
              have hty : d.bare.ty = d.ty := rfl
              simp only [Except.map, Env.lineOf_erase, hty]
              generalize e.resolve env = r at he
              generalize e.erase.resolve env.erase = r' at he
              cases he with
              | error => exact .error _ _ _
              | ok e' t =>
                  dsimp only
                  cases (Except.ok t >>= Ty.expect [d.ty] (env.lineOf e.line)) with
                  | error err => exact .error _ _ err
                  | ok _ => exact hes.map (Node.cons e') (fun t => t) fun _ => rfl

theorem FuncEnv.expect_erase (cx : FuncEnv) (line : Nat) (locals : List DeclId) (expected : List Ty)
    (e : Expr) : Alike (cx.expect line locals expected e)
      (cx.erase.expect line locals expected e.erase) := by
  have he := e.resolve_erase (cx.envAt line locals) [] (e.count_le_zero (by decide))
  exact he.map (fun e => e) (fun t => (t >>= Ty.expect expected line).map fun _ => ()) fun _ => rfl

theorem FuncEnv.enter_erase (cx : FuncEnv) (ids locals : List DeclId) :
    cx.erase.enter ids locals = cx.enter ids locals := by
  induction ids generalizing locals with
  | nil => rfl
  | cons id rest ih =>
      rw [enter, enter, FuncEnv.erase, declared_bare]
      cases declared cx.decls id with
      | error e => rfl
      | ok d =>
          change (d.checkVariable >>= fun _ => cx.erase.enter rest _) = _
          simp only [ih]
          rfl

/-- A statement and its erasure are resolved alike, sizes apart. -/
theorem Clause.resolve_erase {f : Form} (cx : FuncEnv) (c : Clause f) (line : Nat)
    (locals : List DeclId) :
    Alike (Prod.map bare id (c.resolve cx line locals)) (c.erase.resolve cx.erase line locals) := by
  induction c generalizing line locals with
  | eval own e =>
      cases e with
      | none => exact .refl _
      | some e =>
          have he := e.resolve_erase (cx.envAt (orLine own line) locals) []
            (e.count_le_zero (by decide))
          exact he.map (fun e => eval own (some e)) (·.map fun _ => locals) fun _ => rfl
  | ret own e =>
      cases e with
      | none => exact .refl _
      | some e =>
          exact (cx.expect_erase (orLine own line) locals [cx.ret] e).map
            (fun e => ret own (some e)) (·.map fun _ => locals) fun _ => rfl
  | write own e =>
      cases e with
      | none => exact .refl _
      | some e =>
          exact (cx.expect_erase (orLine own line) locals [.int, .string] e).map
            (fun e => write own (some e)) (·.map fun _ => locals) fun _ => rfl
  | braces own b ih =>
      exact (ih (orLine own line) locals).map (braces own) (fun t => t) fun _ => rfl
  | present s ih => exact (ih line locals).map present (fun t => t) fun _ => rfl
  | absent | nil => exact .refl _
  | loop own e s ih =>
      have he := cx.expect_erase (orLine own line) locals [.int] e
      have hs := ih (orLine own line) locals
      simp only [resolve, erase]
      generalize cx.expect (orLine own line) locals [.int] e = r at he
      generalize cx.erase.expect (orLine own line) locals [.int] e.erase = r' at he
      cases he with
      | error => exact .error _ _ _
      | ok e' => exact hs.map (loop own e') (fun t => t) fun _ => rfl
  | ifElse own e s t ihs iht =>
      have he := cx.expect_erase (orLine own line) locals [.int] e
      have hs := ihs (orLine own line) locals
      simp only [resolve, erase]
      generalize cx.expect (orLine own line) locals [.int] e = r at he
      generalize cx.erase.expect (orLine own line) locals [.int] e.erase = r' at he
      cases he with
      | error => exact .error _ _ _
      | ok e' =>
          dsimp only
          generalize s.erase.resolve cx.erase (orLine own line) locals = r' at hs
          generalize s.resolve cx (orLine own line) locals = r at hs
          obtain ⟨s', err | locals'⟩ := r
          · cases hs
            exact .error _ _ err
          · cases hs
            exact (iht (orLine own line) locals').map (ifElse own e' s'.bare) (fun t => t)
              fun _ => rfl
  | cons s rest ihs ihrest =>
      have hs := ihs line locals
      simp only [resolve, erase]
      generalize s.erase.resolve cx.erase line locals = r' at hs
      generalize s.resolve cx line locals = r at hs
      obtain ⟨s', err | locals'⟩ := r
      · cases hs
        exact .error _ _ err
      · cases hs
        exact (ihrest line locals').map (cons s'.bare) (fun t => t) fun _ => rfl
  | block own ids stmts size span ih =>
      simp only [resolve, erase, cx.enter_erase]
      cases cx.enter ids locals with
      | error err => exact .error _ _ err
      | ok inner =>
          have hstmts := ih (orLine own line) inner
          simp only [cx.scope_erase]
          cases cx.scope with
          | function =>
              exact hstmts.map (fun stmts => block own ids stmts 0 0) (fun t => t) fun _ => rfl
          | block =>
              exact hstmts.map (fun stmts => block own ids stmts 0 0) (·.map fun _ => locals)
                fun _ => rfl

theorem checkParams_bare (decls : List Decl) (ids : List DeclId) :
    checkParams (decls.map Decl.bare) ids = checkParams decls ids := by
  induction ids with
  | nil => rfl
  | cons id rest ih =>
      rw [checkParams, checkParams, declared_bare, ih]
      cases declared decls id <;> rfl

namespace Item

theorem resolve_erase (decls : List Decl) (scope : Scope) (globals : Globals) (item : Item) :
    Alike (Prod.map bare (fun known => known) (item.resolve decls scope globals))
      (item.erase.resolve (decls.map Decl.bare) scope globals) := by
  cases item with
  | var id =>
      simp only [resolve, erase, declared_bare]
      cases declared decls id <;> exact .refl _
  | func f =>
      simp only [resolve, erase, declared_bare]
      cases declared decls f.decl with
      | error e => exact .error _ _ e
      | ok d =>
          have hinsert : globals.insert d.bare f.decl = globals.insert d f.decl := rfl
          have hparams : d.bare.params = d.params := rfl
          simp only [Except.map, except_ok_bind, hinsert, hparams, checkParams_bare]
          cases globals.insert d f.decl with
          | error e => exact .error _ _ e
          | ok globals =>
              cases checkParams decls d.params with
              | error e => exact .error _ _ e
              | ok _ =>
                  have hbody := f.body.resolve_erase { decls, globals, ret := d.ty, scope } d.line
                    d.params.reverse
                  exact hbody.map (fun body => func { decl := f.decl, body })
                    (·.map fun _ => globals) fun _ => rfl

theorem resolveAll_erase (decls : List Decl) (scope : Scope) (globals : Globals)
    (items : List Item) :
    Alike (Prod.map (List.map bare) (fun done => done) (resolveAll decls scope globals items))
      (resolveAll (decls.map Decl.bare) scope globals (items.map erase)) := by
  induction items generalizing globals with
  | nil => exact .refl _
  | cons item rest ih =>
      have hitem := resolve_erase decls scope globals item
      rw [List.map_cons, resolveAll, resolveAll]
      generalize item.erase.resolve (decls.map Decl.bare) scope globals = r' at hitem
      generalize item.resolve decls scope globals = r at hitem
      obtain ⟨item', e | globals⟩ := r
      · cases hitem
        exact .error _ _ e
      · cases hitem
        exact (ih globals).map (List.cons item'.bare) (fun done => done) fun _ => rfl

end Item

/-- A program and its erasure are refused with the same error, or accepted with the same
bindings and types. -/
theorem Program.resolve_erase (p : Program) (scope : Scope) :
    (p.erase.resolve scope).2 = (p.resolve scope).2 ∧
    ((p.resolve scope).2 = .ok () →
      (p.erase.resolve scope).1.items = (p.resolve scope).1.items.map Item.bare) := by
  have h := Item.resolveAll_erase p.decls scope [] p.items
  refine ⟨h.outcome_eq, ?_⟩
  intro hok
  exact congrArg Prod.fst (h.eq_of_ok hok)

/-- Programs that differ in annotations only are accepted alike. -/
theorem Program.resolve_of_erase {p p' q : Program} {scope : Scope} (h : p'.erase = p.erase)
    (hq : p.resolve scope = (q, .ok ())) :
    ∃ q', p'.resolve scope = (q', .ok ()) ∧ q'.items.map Item.bare = q.items.map Item.bare ∧
      SameButSlots q.decls q'.decls := by
  obtain ⟨hsame, hitems⟩ := p.resolve_erase scope
  obtain ⟨hsame', hitems'⟩ := p'.resolve_erase scope
  rw [h, hsame, hq] at hsame'
  rw [hq] at hitems
  cases hq' : p'.resolve scope with
  | mk q' result =>
      rw [hq'] at hsame' hitems'
      cases hsame'
      refine ⟨q', rfl, ?_, ?_⟩
      · rw [← hitems rfl, ← hitems' rfl, h]
      · have hdecls : p'.decls.map Decl.bare = p.decls.map Decl.bare := congrArg Program.decls h
        rw [decls_of_resolve hq, decls_of_resolve hq']
        exact hdecls

theorem Means.erase_eq {decls : List Decl} {Γ : Meaning} {x x' : Ident} {d : Decl}
    (h : Means decls Γ x x' d) : x'.erase = x.erase := by
  obtain ⟨id, -, -, rfl⟩ := h
  rfl

/-- Resolution changes annotations only. -/
theorem Typed.erase_eq {decls : List Decl} {Γ : Meaning} {l : Layer} {x x' : Node l} {ts : List Ty}
    (h : Typed decls Γ x x' ts) : x'.erase = x.erase := by
  induction h with
  | setVar hx | setDeref hx | var hx => simp [Node.erase, Mark.erase, hx.erase_eq]
  | setElem hx _ _ _ ih | elem hx _ _ _ ih => simp [Node.erase, Mark.erase, hx.erase_eq, ih]
  | call hx _ _ _ ih => simp [Node.erase, Mark.erase, hx.erase_eq, ih]
  | _ => simp_all [Node.erase, Mark.erase]

theorem Accepted.erase_eq {cx : Rules} {Γ Γ' : Meaning} {f : Form} {c c' : Clause f}
    (h : Accepted cx Γ c c' Γ') : c'.erase = c.erase := by
  induction h with
  | eval he | ret he | write he => simp [Clause.erase, he.erase_eq]
  | ifElse he _ _ iht ihs => simp [Clause.erase, he.erase_eq, iht, ihs]
  | loop he _ ih => simp [Clause.erase, he.erase_eq, ih]
  | _ => simp_all [Clause.erase]

theorem Program.erase_of_resolve {p q : Program} {scope : Scope}
    (h : p.resolve scope = (q, .ok ())) : q.erase = p.erase := by
  obtain ⟨hdecls, hall⟩ := resolve_eq_ok_iff_allAdmitted.mp h
  have hitems : q.items.map Item.erase = p.items.map Item.erase := by
    apply hall.map_eq
    intro before item item' hadmitted
    cases hadmitted with
    | var => rfl
    | func _ _ _ _ haccepted => simp [Item.erase, haccepted.erase_eq]
  rw [erase, erase, hdecls, hitems]

/-! ## Layout -/

/-- The same declarations up to slots, with the same slots at the given places. -/
structure AgreeAt (ids : List DeclId) (decls decls' : List Decl) : Prop where
  same : SameButSlots decls decls'
  agree : ∀ id ∈ ids, decls'[id]? = decls[id]?

theorem AgreeAt.place {ids : List DeclId} {decls decls' : List Decl} (h : AgreeAt ids decls decls')
    (id : DeclId) (depth position : Nat) :
    AgreeAt (ids ++ [id]) (place decls id depth position) (place decls' id depth position) where
  same := ((place_sameButSlots _ _ _ _).symm.trans h.same).trans (place_sameButSlots _ _ _ _)
  agree := by
    intro j hj
    rw [place_getElem?, place_getElem?]
    by_cases hid : id = j
    · -- Only the slot could differ here, and it is overwritten.
      have hslot : (fun d : Decl => { d with slot := some ⟨depth, position⟩ }) =
          (fun d => { d with slot := some ⟨depth, position⟩ }) ∘ Decl.bare := rfl
      rw [if_pos hid, if_pos hid, hslot, ← Option.map_map, ← Option.map_map, h.same.getElem? j]
    · have hold : j ∈ ids := by simpa [Ne.symm hid] using hj
      rw [if_neg hid, if_neg hid, h.agree j hold]

theorem AgreeAt.laidAlike : LaidAlike AgreeAt where
  width h id := by
    have hwidth : Decl.width = Decl.width ∘ Decl.bare := rfl
    rw [hwidth, ← Option.map_map, ← Option.map_map, h.same.getElem? id]
  params h id := h.same.paramsAt_eq id
  place h id depth position := h.place id depth position

/-! ## Compilation -/

namespace Program

/-- Two programs with the same items whose declarations have the same slots wherever
one is listed. -/
structure AgreeListed (r r' : Program) : Prop where
  items : r'.items = r.items
  decls : AgreeAt r.listed r.decls r'.decls

theorem layout_matched {q q' : Program} (hitems : q'.items = q.items.map Item.bare)
    (hdecls : q'.decls = q.decls.map Decl.bare) : Matched AgreeListed q.layout q'.layout := by
  have hbare : q'.items.map Item.bare = (q.items.map (Item.mapIdent fun x => x)).map Item.bare := by
    rw [hitems, funext Item.mapIdent_self, List.map_id', List.map_map]
    exact congrArg (q.items.map ·) (funext Item.bare_bare)
  have hsame : AgreeAt [] q.decls q'.decls := by
    refine ⟨?_, by simp⟩
    rw [SameButSlots, hdecls, List.map_map]
    rfl
  apply (AgreeAt.laidAlike.program (fun x => x) hbare hsame).mono
  rintro r r' ⟨hitems, hagree⟩
  rw [funext Item.mapIdent_self, List.map_id'] at hitems
  exact ⟨hitems, hagree⟩

/-- Whatever is bound in a resolved program is listed by it. -/
theorem listed_of_bound {p q r : Program} {scope : Scope}
    (hresolve : p.resolve scope = (q, .ok ())) (hlayout : q.layout = .ok r) {f : Func}
    (hf : .func f ∈ r.items) {e : Expr} (he : e ∈ f.body.exprs) {x : Ident}
    (hx : x ∈ e.uses ++ e.callees) :
    ∃ id d, x.decl = some id ∧ id ∈ r.listed ∧ r.decls[id]? = some d := by
  obtain ⟨f₀, hf₀, hdecl, hbody⟩ := func_of_layout hlayout hf
  rw [← Clause.exprs_bare, hbody, Clause.exprs_bare] at he
  obtain ⟨Γ, e₀, t, htyped, hscope⟩ := typed_of_resolve hresolve hf₀ he
  have hbound : ∃ id d, x.decl = some id ∧ Γ x.name = some id ∧ q.decls[id]? = some d := by
    rcases List.mem_append.mp hx with hx | hx
    · obtain ⟨id, d, hid, hmeans, hd, -⟩ := htyped.uses_bound hx
      exact ⟨id, d, hid, hmeans, hd⟩
    · obtain ⟨id, d, hid, hmeans, hd, -⟩ := htyped.callees_bound hx
      exact ⟨id, d, hid, hmeans, hd⟩
  obtain ⟨id, d₀, hid, hmeans, hd₀⟩ := hbound
  obtain ⟨d, hd, -⟩ := (layout_sameButSlots hlayout).symm.exists_of_getElem? hd₀
  refine ⟨id, d, hid, ?_, hd⟩
  apply visible_subset_listed hf
  rw [visible_of_layout hlayout hdecl hbody]
  exact hscope x.name id hmeans

theorem AgreeListed.sameText {p q r r' : Program} {scope : Scope} (h : AgreeListed r r')
    (hresolve : p.resolve scope = (q, .ok ())) (hlayout : q.layout = .ok r) :
    SameText r r' (fun x => x) where
  items := by
    rw [h.items, funext Item.mapIdent_self]
    exact (List.map_id' _).symm
  top := by
    intro item hitem
    obtain ⟨d, hd⟩ := declared_of_layout hresolve hlayout hitem
    have hlisted : item.id ∈ r.listed := mem_listed_iff.mpr ⟨item, hitem, .inl rfl⟩
    exact ⟨d, d, hd, by rw [h.decls.agree _ hlisted, hd], rfl, rfl⟩
  bodies := by
    intro f hf e he pool
    have hbound : ∀ x ∈ e.uses ++ e.callees, ∃ d,
        CodeEnv.decl { decls := r.decls, pool } x = pure d ∧
        CodeEnv.decl { decls := r'.decls, pool } x = pure d := by
      intro x hx
      obtain ⟨id, d, hid, hlisted, hd⟩ := listed_of_bound hresolve hlayout hf he hx
      have hd' : r'.decls[id]? = some d := by rw [h.decls.agree id hlisted, hd]
      exact ⟨d, CodeEnv.decl_eq_pure hid hd, CodeEnv.decl_eq_pure hid hd'⟩
    refine ⟨rfl, ?_, ?_⟩
    · intro x hx
      obtain ⟨d, hd, hd'⟩ := hbound x (List.mem_append_left _ hx)
      exact ⟨d, d, hd, hd', rfl, rfl⟩
    · intro x hx
      obtain ⟨d, hd, hd'⟩ := hbound x (List.mem_append_right _ hx)
      exact ⟨d, d, hd, hd', rfl⟩

theorem compile_eq_ok_iff {p r : Program} {scope : Scope} {code : Code} :
    p.compile scope = (r, .ok code) ↔ ∃ q, p.resolve scope = (q, .ok ()) ∧ q.layout = .ok r ∧
      (r.generate 0).result = .ok () ∧ (r.generate 0).written = code := by
  unfold compile
  obtain ⟨q, e | _⟩ := p.resolve scope
  · simp
  · cases hlayout : q.layout with
    | error o => simp [hlayout]
    | ok r' =>
        simp only [hlayout, Prod.mk.injEq, except_map_eq_ok_iff]
        constructor
        · rintro ⟨rfl, ⟨⟩, hresult, hwritten⟩
          exact ⟨q, ⟨rfl, trivial⟩, hlayout, hresult, hwritten⟩
        · rintro ⟨_, ⟨rfl, -⟩, hr, hresult, hwritten⟩
          cases hlayout.symm.trans hr
          exact ⟨rfl, (), hresult, hwritten⟩

/-- A program and its erasure compile alike. -/
theorem compile_erase (p : Program) (scope : Scope) :
    (p.erase.compile scope).2 = (p.compile scope).2 ∧
    ∀ code, (p.compile scope).2 = .ok code →
      AgreeListed (p.compile scope).1 (p.erase.compile scope).1 := by
  obtain ⟨houtcome, hitems⟩ := p.resolve_erase scope
  unfold compile
  cases hq : p.resolve scope with
  | mk q result =>
  cases hq' : p.erase.resolve scope with
  | mk q' result' =>
  rw [hq, hq'] at houtcome hitems
  cases houtcome
  cases result with
  | error e =>
      refine ⟨rfl, ?_⟩
      intro code h
      cases h
  | ok _ =>
      have hdecls : q'.decls = q.decls.map Decl.bare := by
        rw [decls_of_resolve hq', decls_of_resolve hq, erase]
      have hmatched : Matched AgreeListed q.layout q'.layout := layout_matched (hitems rfl) hdecls
      dsimp only
      generalize hr : q.layout = x at hmatched
      generalize hr' : q'.layout = x' at hmatched
      cases hmatched with
      | error o =>
          refine ⟨rfl, ?_⟩
          intro code h
          cases h
      | ok hagree =>
          have hgenerate := (hagree.sameText hq hr).generate 0
          dsimp only
          rw [hgenerate]
          exact ⟨rfl, fun _ _ => hagree⟩

theorem listed_of_compile {p r : Program} {scope : Scope} {code : Code}
    (h : p.compile scope = (r, .ok code)) : r.listed = p.listed := by
  obtain ⟨q, hresolve, hlayout, -⟩ := compile_eq_ok_iff.mp h
  rw [listed_of_layout hlayout, listed_of_resolve hresolve]

/-- What is not listed keeps its slot. -/
theorem unlisted_of_compile {p r : Program} {scope : Scope} {code : Code}
    (h : p.compile scope = (r, .ok code)) {id : DeclId} (hid : id ∉ p.listed) :
    r.decls[id]? = p.decls[id]? := by
  obtain ⟨q, hresolve, hlayout, -⟩ := compile_eq_ok_iff.mp h
  rw [← listed_of_resolve hresolve] at hid
  rw [(Item.layoutAll_spec (layout_eq_ok_iff.mp hlayout)).2.2.1 id hid, decls_of_resolve hresolve]

theorem erase_of_layout {p r : Program} (h : p.layout = .ok r) : r.erase = p.erase := by
  have hitems := map_of_layout Item.erase_bare h
  have hdecls : r.decls.map Decl.bare = p.decls.map Decl.bare := layout_sameButSlots h
  rw [erase, erase, hitems, hdecls]

theorem erase_of_compile {p r : Program} {scope : Scope} {code : Code}
    (h : p.compile scope = (r, .ok code)) : r.erase = p.erase := by
  obtain ⟨q, hresolve, hlayout, -⟩ := compile_eq_ok_iff.mp h
  rw [erase_of_layout hlayout, erase_of_resolve hresolve]

/-- Two programs that differ in annotations only compile alike, and come out the same up to
slots of declarations that neither lists. -/
theorem agree_of_compile {p p' r : Program} (h : p'.erase = p.erase) {scope : Scope} {code : Code}
    (hr : p.compile scope = (r, .ok code)) :
    ∃ r', p'.compile scope = (r', .ok code) ∧ r'.items = r.items ∧
      AgreeAt p.listed r.decls r'.decls := by
  obtain ⟨hsame, hagree⟩ := p.compile_erase scope
  obtain ⟨hsame', hagree'⟩ := p'.compile_erase scope
  rw [h, hsame, hr] at hsame'
  cases hr' : p'.compile scope with
  | mk r' result =>
      rw [hr'] at hsame' hagree'
      cases hsame'
      have hleft := hagree code (by rw [hr])
      have hright := hagree' code rfl
      rw [hr] at hleft
      rw [h] at hright
      have hitems : r'.items = r.items := hright.items.symm.trans hleft.items
      have hslots : SameButSlots r.decls r'.decls := hleft.decls.same.trans hright.decls.same.symm
      have hlisted : r'.listed = r.listed := by
        rw [listed, listed, hitems, Item.listed_eq_of_same hslots]
      rw [← listed_of_compile hr]
      refine ⟨r', rfl, hitems, hslots, ?_⟩
      intro id hid
      rw [← hleft.decls.agree id hid]
      rw [← hlisted] at hid
      exact (hright.decls.agree id hid).symm

/-- What a tree was annotated with before has no influence on its compilation. Two trees that
differ in types, bindings, slots and sizes only give the same code, the same error or the
same overflow. The trees that come out are then equal up to slots of declarations that no
item, parameter list or block names, and compiling again changes nothing. -/
theorem compile_ignores_annotations {p p' : Program} (h : p'.erase = p.erase) (scope : Scope) :
    (p'.compile scope).2 = (p.compile scope).2 ∧
    ∀ r code, p.compile scope = (r, .ok code) →
      (∃ r', p'.compile scope = (r', .ok code) ∧ r'.items = r.items ∧
        SameButSlots r.decls r'.decls ∧ ∀ id ∈ p.listed, r'.decls[id]? = r.decls[id]?) ∧
      r.compile scope = (r, .ok code) := by
  constructor
  · rw [← (p.compile_erase scope).1, ← (p'.compile_erase scope).1, h]
  · intro r code hr
    obtain ⟨r', hr', hitems, hdecls⟩ := agree_of_compile h hr
    refine ⟨⟨r', hr', hitems, hdecls.same, hdecls.agree⟩, ?_⟩
    obtain ⟨r'', hr'', hitems', hdecls'⟩ := agree_of_compile (erase_of_compile hr) hr
    have hsame : r''.decls = r.decls := by
      apply List.ext_getElem?
      intro id
      by_cases hid : id ∈ p.listed
      · exact hdecls'.agree id hid
      · rw [← listed_of_compile hr] at hid
        exact unlisted_of_compile hr'' hid
    rw [hr'']
    cases r''
    cases r
    cases hsame
    cases hitems'
    rfl

end Program

namespace Countdown

/-- The laid out program with every slot moved to a wrong place. -/
def displaced : Program :=
  { laidOut with decls := laidOut.decls.map fun d => { d with slot := some ⟨7, 40⟩ } }

theorem displaced_compiles_alike :
    displaced.erase = program.erase ∧
      displaced.compile .function ≠ (displaced, .ok (laidOut.generate 0).written) ∧
      (displaced.compile .function).2 = .ok (laidOut.generate 0).written ∧
      laidOut.compile .function = (laidOut, .ok (laidOut.generate 0).written) := by
  have herase : displaced.erase = program.erase := by rfl
  have hcompile : program.compile .function = (laidOut, .ok (laidOut.generate 0).written) :=
    Program.compile_eq_ok_iff.mpr ⟨resolved, resolve_program, layout_resolved, by rfl, rfl⟩
  obtain ⟨hsame, hagain⟩ := Program.compile_ignores_annotations herase .function
  refine ⟨herase, by decide, ?_, (hagain _ _ hcompile).2⟩
  rw [hsame, hcompile]

end Countdown

end Backend
