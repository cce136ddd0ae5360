import Backend.Proofs.Erasure

/-! # What each pass writes

Resolution writes types and bindings, the layout slots and sizes, and neither writes anything
else, also where resolution is refused on the way. Neither reads what the other writes, so the
two can be done in either order.
-/

namespace Backend

/-! ## Resolution keeps the tree -/

theorem Mark.erase_type (m : Mark) (ty : Ty) : { m with ty }.erase = m.erase := rfl

theorem Mark.erase_close {l : Layer} (m : Mark) (build : Mark → Node l) (type : Except Error Ty)
    {x : Node l} (h : ∀ ty, (build { m with ty }).erase = x) :
    (m.close build type).1.erase = x := by
  unfold close
  split
  · exact h _
  · exact h m.ty

theorem Mark.erase_integers {a b c : Layer} (m : Mark) (build : Mark → Node a → Node b → Node c)
    (line : Nat) {left : Resolved a} {before : Node b} {right : Resolved b} {x : Node c}
    (hbefore : ∀ ty, (build { m with ty } left.1 before).erase = x)
    (h : ∀ ty, (build { m with ty } left.1 right.1).erase = x) :
    (m.integers build line left before right).1.erase = x := by
  unfold integers
  split
  · exact hbefore m.ty
  · exact m.erase_close _ _ h

namespace Env

variable (env : Env) (x : Ident) (line : Nat)

theorem erase_bind : (env.bind x line).1.erase = x.erase := by
  unfold bind
  split <;> rfl

theorem erase_bindVariable : (env.bindVariable x line).1.erase = x.erase := by
  have hbind := env.erase_bind x line
  unfold bindVariable
  split
  next heq => rwa [heq] at hbind
  next heq => rwa [heq] at hbind

end Env

theorem Mark.erase_element {l : Layer} (m : Mark) (build : Mark → Ident → Expr → Node l)
    (env : Env) (line : Nat) (x : Ident) {before : Expr} {index : Resolved .expr} {y : Node l}
    (hbefore : ∀ ty x', x'.erase = x.erase → (build { m with ty } x' before).erase = y)
    (h : ∀ ty x', x'.erase = x.erase → (build { m with ty } x' index.1).erase = y) :
    (m.element build env line x before index).1.erase = y := by
  have hx := env.erase_bindVariable x line
  unfold element
  split
  next heq =>
    rw [heq] at hx
    exact hbefore m.ty _ hx
  next heq =>
    rw [heq] at hx
    split
    · exact hbefore m.ty _ hx
    · exact m.erase_close _ _ fun ty => h ty _ hx

/-- Resolution writes nothing but types and bindings into a node, accepted or not. -/
theorem Node.erase_resolve {l : Layer} (env : Env) (x : Node l) (formals : List DeclId) :
    (x.resolve env formals).1.erase = x.erase := by
  induction x generalizing formals with
  | assign m t v iht ihv =>
      have ht := iht []
      rw [resolve]
      split
      next heq =>
        rw [heq] at ht
        simp only [erase, ht]
      next heq =>
        rw [heq] at ht
        apply m.erase_close
        intro ty
        simp only [erase, Mark.erase_type, ht, ihv]
  | comp m x ih | sum m x ih | term m x ih | unary m x ih | factor m x ih | paren m x ih
  | neg m x ih | deref m x ih | addrOf m x ih =>
      apply m.erase_close
      intro ty
      simp only [erase, Mark.erase_type, ih]
  | rel m a op b iha ihb | add m a op b iha ihb | mul m a op b iha ihb =>
      apply m.erase_integers
      · intro ty
        simp only [erase, Mark.erase_type, iha]
      · intro ty
        simp only [erase, Mark.erase_type, iha, ihb]
  | setVar m x =>
      have hx := env.erase_bindVariable x (env.lineOf m.line)
      rw [resolve]
      split
      next heq =>
        rw [heq] at hx
        simp only [erase, hx]
      next heq =>
        rw [heq] at hx
        apply m.erase_close
        intro ty
        simp only [erase, Mark.erase_type, hx]
  | setDeref m x | var m x =>
      apply m.erase_close
      intro ty
      simp only [erase, Mark.erase_type, env.erase_bindVariable]
  | setElem m x i ih | elem m x i ih =>
      apply m.erase_element
      · intro ty x' hx
        simp only [erase, Mark.erase_type, hx]
      · intro ty x' hx
        simp only [erase, Mark.erase_type, hx, ih]
  | call m f as ih =>
      have hf := env.erase_bind f (env.lineOf m.line)
      rw [resolve]
      split
      next heq =>
        rw [heq] at hf
        simp only [erase, hf]
      next heq =>
        rw [heq] at hf
        split
        · split
          · apply m.erase_close
            intro ty
            simp only [erase, Mark.erase_type, hf, ih]
          · simp only [erase, hf]
        · simp only [erase, hf]
  | num m n | str m text | read m =>
      apply m.erase_close
      intro ty
      rfl
  | nil => rfl
  | cons e es ihe ihes =>
      cases formals with
      | nil => rfl
      | cons formal formals =>
          rw [resolve]
          split
          · rfl
          · dsimp only
            split
            · simp only [erase, ihe]
            · simp only [erase, ihe, ihes]

theorem except_map_bind {α β γ : Type} (x : Except Overflow α) (f : α → Except Overflow β)
    (g : β → γ) : (x >>= f).map g = x >>= fun a => (f a).map g := by
  cases x <;> rfl

namespace Clause

/-- A statement with each of its expressions replaced. -/
def mapExpr {f : Form} (φ : Expr → Expr) : Clause f → Clause f
  | .eval line e => .eval line (e.map φ)
  | .braces line b => .braces line (b.mapExpr φ)
  | .ifElse line c t e => .ifElse line (φ c) (t.mapExpr φ) (e.mapExpr φ)
  | .loop line c s => .loop line (φ c) (s.mapExpr φ)
  | .ret line e => .ret line (e.map φ)
  | .write line e => .write line (e.map φ)
  | .absent => .absent
  | .present s => .present (s.mapExpr φ)
  | .nil => .nil
  | .cons s rest => .cons (s.mapExpr φ) (rest.mapExpr φ)
  | .block line ids stmts size span => .block line ids (stmts.mapExpr φ) size span

/-- A statement is its expressions and its sizes. -/
theorem eq_of_bare {f : Form} {c c' : Clause f} (hbare : c.bare = c'.bare) {φ : Expr → Expr}
    (h : c.mapExpr φ = c'.mapExpr φ) : c = c' := by
  induction c with
  | eval line e | ret line e | write line e | absent | nil =>
      cases c' <;> simp_all [bare]
  | braces line b ih =>
      cases c' with
      | braces line' b' =>
          simp only [bare, mapExpr, braces.injEq] at hbare h
          rw [hbare.1, ih hbare.2 h.2]
      | _ => simp [bare] at hbare
  | ifElse line e s t ihs iht =>
      cases c' with
      | ifElse line' e' s' t' =>
          simp only [bare, mapExpr, ifElse.injEq] at hbare h
          rw [hbare.1, hbare.2.1, ihs hbare.2.2.1 h.2.2.1, iht hbare.2.2.2 h.2.2.2]
      | _ => simp [bare] at hbare
  | loop line e s ih =>
      cases c' with
      | loop line' e' s' =>
          simp only [bare, mapExpr, loop.injEq] at hbare h
          rw [hbare.1, hbare.2.1, ih hbare.2.2 h.2.2]
      | _ => simp [bare] at hbare
  | present s ih =>
      cases c' with
      | present s' =>
          simp only [bare, mapExpr, present.injEq] at hbare h
          rw [ih hbare h]
      | absent => simp [bare] at hbare
  | cons s t ihs iht =>
      cases c' with
      | cons s' t' =>
          simp only [bare, mapExpr, cons.injEq] at hbare h
          rw [ihs hbare.1 h.1, iht hbare.2 h.2]
      | nil => simp [bare] at hbare
  | block line ids stmts size span ih =>
      cases c' with
      | block line' ids' stmts' size' span' =>
          simp only [bare, mapExpr, block.injEq] at hbare h
          rw [hbare.1, hbare.2.1, ih hbare.2.2.1 h.2.2.1, h.2.2.2.1, h.2.2.2.2]

/-- The layout does not look at expressions. -/
theorem layout_mapExpr {f : Form} (φ : Expr → Expr) (c : Clause f) (depth floor : Nat) (a : Frame) :
    (c.mapExpr φ).layout depth floor a =
      (c.layout depth floor a).map (Prod.map (mapExpr φ) fun b => b) := by
  induction c generalizing depth floor a with
  | eval | ret | write | absent | nil => rfl
  | braces line b ih =>
      simp only [mapExpr, layout, ih, except_map_bind]
      refine bind_congr fun inner => ?_
      cases b.layout inner floor a <;> rfl
  | loop line e s ih | present s ih =>
      simp only [mapExpr, layout, ih]
      cases s.layout depth floor a <;> rfl
  | ifElse line e s t ihs iht | cons s t ihs iht =>
      simp only [mapExpr, layout, ihs, iht]
      cases s.layout depth floor a with
      | error o => rfl
      | ok r =>
          simp only [Except.map, Prod.map, except_ok_bind]
          cases t.layout depth floor r.2 <;> rfl
  | block line ids stmts size span ih =>
      simp only [mapExpr, layout, ih, except_map_bind]
      refine bind_congr fun b => bind_congr fun taken => bind_congr fun size => ?_
      refine bind_congr fun reach => bind_congr fun span => ?_
      cases stmts.layout depth b.next b <;> rfl

/-- Resolution writes nothing but types and bindings into a statement, accepted or not. -/
theorem mapExpr_resolve {f : Form} (cx : FuncEnv) (c : Clause f) (line : Nat)
    (locals : List DeclId) :
    (c.resolve cx line locals).1.mapExpr Node.erase = c.mapExpr Node.erase := by
  have hexpr : ∀ (line : Nat) (locals : List DeclId) (expected : List Ty) (e : Expr),
      (cx.expect line locals expected e).1.erase = e.erase :=
    fun line locals _ e => e.erase_resolve (cx.envAt line locals) []
  induction c generalizing line locals with
  | eval own e =>
      cases e with
      | none => rfl
      | some e => simp only [resolve, mapExpr, Option.map_some, Node.erase_resolve]
  | ret own e | write own e =>
      cases e with
      | none => rfl
      | some e => simp only [resolve, mapExpr, Option.map_some, hexpr]
  | braces own b ih | present b ih => simp only [resolve, mapExpr, ih]
  | absent | nil => rfl
  | loop own e s ih =>
      have he := hexpr (orLine own line) locals [.int] e
      rw [resolve]
      split
      next heq =>
        rw [heq] at he
        simp only [mapExpr, he]
      next heq =>
        rw [heq] at he
        simp only [mapExpr, he, ih]
  | ifElse own e s t ihs iht =>
      have he := hexpr (orLine own line) locals [.int] e
      have hs := ihs (orLine own line) locals
      rw [resolve]
      split
      next heq =>
        rw [heq] at he
        simp only [mapExpr, he]
      next heq =>
        rw [heq] at he
        split
        next heq =>
          rw [heq] at hs
          simp only [mapExpr, he, hs]
        next heq =>
          rw [heq] at hs
          simp only [mapExpr, he, hs, iht]
  | cons s rest ihs ihrest =>
      have hs := ihs line locals
      rw [resolve]
      split
      next heq =>
        rw [heq] at hs
        simp only [mapExpr, hs]
      next heq =>
        rw [heq] at hs
        simp only [mapExpr, hs, ihrest]
  | block own ids stmts size span ih =>
      rw [resolve]
      split
      · rfl
      · simp only [mapExpr, ih]

end Clause

namespace Item

def mapExpr (φ : Expr → Expr) : Item → Item
  | .var id => .var id
  | .func f => .func { f with body := f.body.mapExpr φ }

theorem eq_of_bare {item item' : Item} (hbare : item.bare = item'.bare) {φ : Expr → Expr}
    (h : item.mapExpr φ = item'.mapExpr φ) : item = item' := by
  cases item with
  | var id =>
      cases item' with
      | var id' => exact hbare
      | func f' => cases hbare
  | func f =>
      cases item' with
      | var id' => cases hbare
      | func f' =>
          obtain ⟨decl, body, frameSize⟩ := f
          obtain ⟨decl', body', frameSize'⟩ := f'
          simp only [bare, mapExpr, func.injEq, Func.mk.injEq] at hbare h
          rw [h.1, h.2.2, Clause.eq_of_bare hbare.2.1 h.2.1]

theorem layout_mapExpr (φ : Expr → Expr) (item : Item) (decls : List Decl) :
    (item.mapExpr φ).layout decls =
      (item.layout decls).map (Prod.map (mapExpr φ) fun placed => placed) := by
  cases item with
  | var id => rfl
  | func f =>
      simp only [mapExpr, layout, Clause.layout_mapExpr]
      cases f.body.layout bodyDepth 0 _ with
      | error o => rfl
      | ok r =>
          simp only [Except.map, Prod.map, except_ok_bind]
          cases Word.mul 8 r.2.next <;> rfl

theorem layoutAll_mapExpr (φ : Expr → Expr) (items : List Item) (decls : List Decl) :
    layoutAll decls (items.map (mapExpr φ)) =
      (layoutAll decls items).map (Prod.map (List.map (mapExpr φ)) fun placed => placed) := by
  induction items generalizing decls with
  | nil => rfl
  | cons item rest ih =>
      simp only [List.map_cons, layoutAll, layout_mapExpr]
      cases item.layout decls with
      | error o => rfl
      | ok r =>
          simp only [Except.map, Prod.map, except_ok_bind, ih]
          cases layoutAll r.2 rest <;> rfl

theorem mapExpr_resolve (decls : List Decl) (scope : Scope) (globals : Globals) (item : Item) :
    (item.resolve decls scope globals).1.mapExpr Node.erase = item.mapExpr Node.erase := by
  cases item with
  | var id => rfl
  | func f =>
      rw [resolve]
      split
      · rfl
      · simp only [mapExpr, Clause.mapExpr_resolve]

theorem mapExpr_resolveAll (decls : List Decl) (scope : Scope) (globals : Globals)
    (items : List Item) : (resolveAll decls scope globals items).1.map (mapExpr Node.erase) =
      items.map (mapExpr Node.erase) := by
  induction items generalizing globals with
  | nil => rfl
  | cons item rest ih =>
      have hitem := item.mapExpr_resolve decls scope globals
      rw [resolveAll]
      split
      next heq =>
        rw [heq] at hitem
        rw [List.map_cons, List.map_cons, hitem]
      next heq =>
        rw [heq] at hitem
        rw [List.map_cons, List.map_cons, hitem, ih]

/-- Where items are refused, it is one of them that is: those before it are accepted without
it, those up to it are refused in the same way without the rest, and the rest is as it was. -/
theorem resolveAll_eq_error {decls : List Decl} {scope : Scope} {globals : Globals}
    {items items' : List Item} {e : Error}
    (h : resolveAll decls scope globals items = (items', .error e)) :
    ∃ k < items.length,
      (∀ j, resolveAll decls scope globals (items.take j) =
        if j ≤ k then (items'.take j, .ok ()) else (items'.take j, .error e)) ∧
      items'.drop (k + 1) = items.drop (k + 1) := by
  induction items generalizing globals items' with
  | nil => cases h
  | cons item rest ih =>
      rw [resolveAll] at h
      split at h
      next item' _ hitem =>
        cases h
        refine ⟨0, Nat.zero_lt_succ _, ?_, rfl⟩
        intro j
        cases j with
        | zero => rfl
        | succ j => rw [List.take_succ_cons, resolveAll, hitem]; rfl
      next item' known hitem =>
        obtain ⟨rfl, hrest⟩ := Prod.mk.inj h
        obtain ⟨k, hk, htake, hdrop⟩ := ih (Prod.ext rfl hrest)
        refine ⟨k + 1, Nat.succ_lt_succ hk, ?_, hdrop⟩
        intro j
        cases j with
        | zero => rfl
        | succ j =>
            rw [List.take_succ_cons, resolveAll, hitem]
            simp only [htake, List.take_succ_cons, Nat.succ_le_succ_iff]
            split <;> rfl

end Item

/-! ## Programs -/

namespace Program

/-- A program cut off behind some of its items. -/
def take (p : Program) (count : Nat) : Program := { p with items := p.items.take count }

def mapExpr (φ : Expr → Expr) (p : Program) : Program :=
  { p with items := p.items.map (Item.mapExpr φ) }

theorem layout_mapExpr (φ : Expr → Expr) (p : Program) :
    (p.mapExpr φ).layout = p.layout.map (mapExpr φ) := by
  simp only [layout, mapExpr, Item.layoutAll_mapExpr]
  cases Item.layoutAll p.decls p.items <;> rfl

theorem mapExpr_resolve (p : Program) (scope : Scope) :
    (p.resolve scope).1.mapExpr Node.erase = p.mapExpr Node.erase := by
  simp only [resolve, mapExpr, Item.mapExpr_resolveAll]

/-- A program is its tree without sizes, its declarations and its sizes. -/
theorem eq_of_bare {p p' : Program} (hbare : p.items.map Item.bare = p'.items.map Item.bare)
    {φ : Expr → Expr} (h : p.mapExpr φ = p'.mapExpr φ) : p = p' := by
  have hinjective : Function.Injective fun item : Item => (item.bare, item.mapExpr φ) := by
    intro item item' heq
    exact Item.eq_of_bare (congrArg Prod.fst heq) (congrArg Prod.snd heq)
  have hmap : p.items.map (Item.mapExpr φ) = p'.items.map (Item.mapExpr φ) :=
    congrArg Program.items h
  have hitems : p.items = p'.items := by
    apply List.map_injective_iff.mpr hinjective
    rw [← List.zip_map', ← List.zip_map', hbare, hmap]
  have hdecls : (p.mapExpr φ).decls = (p'.mapExpr φ).decls := by rw [h]
  cases p
  cases p'
  cases hitems
  cases hdecls
  rfl

theorem resolve_eq_error {p q : Program} {scope : Scope} {e : Error}
    (h : p.resolve scope = (q, .error e)) :
    ∃ k < p.items.length,
      (∀ j, (p.take j).resolve scope = (q.take j, if j ≤ k then .ok () else .error e)) ∧
      q.items.drop (k + 1) = p.items.drop (k + 1) := by
  obtain ⟨hq, herror⟩ := Prod.mk.inj h
  subst hq
  obtain ⟨k, hk, htake, hdrop⟩ := Item.resolveAll_eq_error (Prod.ext rfl herror)
  refine ⟨k, hk, ?_, hdrop⟩
  intro j
  simp only [resolve, take, htake]
  split <;> rfl

/-- Sizes and slots are written alike before and after resolution. -/
theorem layout_eq_ok_of_mapExpr {p p' r : Program} {φ : Expr → Expr}
    (h : p'.mapExpr φ = p.mapExpr φ) (hlayout : p.layout = .ok r) :
    ∃ r', p'.layout = .ok r' ∧ r'.mapExpr φ = r.mapExpr φ := by
  have hmap := p'.layout_mapExpr φ
  rw [h, layout_mapExpr, hlayout] at hmap
  cases hlayout' : p'.layout with
  | error o =>
      rw [hlayout'] at hmap
      cases hmap
  | ok r' =>
      rw [hlayout'] at hmap
      exact ⟨r', rfl, (Except.ok.inj hmap).symm⟩

/-- Both orders of the passes give the same tree. -/
theorem resolve_layout_eq {p q p' q' r : Program} {scope : Scope}
    (hresolve : p.resolve scope = (q, .ok ())) (hlayout : q.layout = .ok r)
    (hlayout' : p.layout = .ok p') (hresolve' : p'.resolve scope = (q', .ok ())) : q' = r := by
  have hq : q.mapExpr Node.erase = p.mapExpr Node.erase := by
    rw [← mapExpr_resolve p scope, hresolve]
  have hq' : q'.mapExpr Node.erase = p'.mapExpr Node.erase := by
    rw [← mapExpr_resolve p' scope, hresolve']
  obtain ⟨r', hr', hr⟩ := layout_eq_ok_of_mapExpr hq hlayout'
  cases hlayout.symm.trans hr'
  obtain ⟨q'', hq'', hbare, -⟩ := resolve_of_erase (erase_of_layout hlayout') hresolve
  cases hresolve'.symm.trans hq''
  exact eq_of_bare (hbare.trans (layout_items hlayout).symm) (hq'.trans hr.symm)

theorem resolve_layout_iff {p r : Program} {scope : Scope} :
    (∃ q, p.resolve scope = (q, .ok ()) ∧ q.layout = .ok r) ↔
      ∃ p', p.layout = .ok p' ∧ p'.resolve scope = (r, .ok ()) := by
  constructor
  · rintro ⟨q, hresolve, hlayout⟩
    have hp : p.mapExpr Node.erase = q.mapExpr Node.erase := by
      rw [← mapExpr_resolve p scope, hresolve]
    obtain ⟨p', hlayout', -⟩ := layout_eq_ok_of_mapExpr hp hlayout
    obtain ⟨q', hresolve', -⟩ := resolve_of_erase (erase_of_layout hlayout') hresolve
    rw [resolve_layout_eq hresolve hlayout hlayout' hresolve'] at hresolve'
    exact ⟨p', hlayout', hresolve'⟩
  · rintro ⟨p', hlayout', hresolve'⟩
    obtain ⟨q, hresolve, -⟩ := resolve_of_erase (erase_of_layout hlayout').symm hresolve'
    have hq : q.mapExpr Node.erase = p.mapExpr Node.erase := by
      rw [← mapExpr_resolve p scope, hresolve]
    obtain ⟨r', hlayout, -⟩ := layout_eq_ok_of_mapExpr hq hlayout'
    rw [← resolve_layout_eq hresolve hlayout hlayout' hresolve'] at hlayout
    exact ⟨q, hresolve, hlayout⟩

/-- Each pass writes its own annotations only. Resolution leaves the declarations alone, and the
tree up to types and bindings, accepted or not. If it is refused, then at one item: cut off
before that item the program is accepted and comes out as far the same, cut off anywhere behind
it the program is refused with the same error, and the items behind it are not touched. The
layout leaves everything alone but slots and sizes. Both passes succeed in either order or in
none, and give the same tree. -/
theorem passes_write_own_annotations (p : Program) (scope : Scope) :
    ((p.resolve scope).1.decls = p.decls ∧
      (p.resolve scope).1.mapExpr Node.erase = p.mapExpr Node.erase) ∧
    (∀ q e, p.resolve scope = (q, .error e) → ∃ k < p.items.length,
      (∀ j, (p.take j).resolve scope = (q.take j, if j ≤ k then .ok () else .error e)) ∧
      q.items.drop (k + 1) = p.items.drop (k + 1)) ∧
    (∀ r, p.layout = .ok r → r.decls.map Decl.bare = p.decls.map Decl.bare ∧
      r.items.map Item.bare = p.items.map Item.bare) ∧
    ∀ r, (∃ q, p.resolve scope = (q, .ok ()) ∧ q.layout = .ok r) ↔
      ∃ p', p.layout = .ok p' ∧ p'.resolve scope = (r, .ok ()) :=
  ⟨⟨rfl, p.mapExpr_resolve scope⟩, fun _ _ => resolve_eq_error,
    fun _ h => ⟨layout_sameButSlots h, layout_items h⟩, fun _ => resolve_layout_iff⟩

end Program

namespace Halfway

/-- The second statement assigns a text to an integer. -/
def bad : Func where
  decl := 2
  body := .ofStmts [3] [
    .expr (.setVar "n" (.var "total")),
    .expr (.setVar "n" (.str "text")),
    .expr (.setVar "total" (.var "n"))]

def last : Func where
  decl := 4
  body := .ofStmts [] [.expr (.setVar "total" (.num 1))]

def program : Program where
  decls := [.var 1 .int "total", .var 2 .int "other",
    { line := 3, name := "bad", base := .void, kind := .func [] }, .var 3 .int "n",
    { line := 7, name := "last", base := .void, kind := .func [] }]
  items := [.var 0, .var 1, .func bad, .func last]

def refused : Program := (program.resolve .block).1

/-- Resolution stops within the third item, and what it wrote before that stays. -/
theorem stops_at_third_item :
    refused ≠ program ∧ refused.mapExpr Node.erase = program.mapExpr Node.erase ∧
      ((program.take 2).resolve .block).2 = .ok () ∧
      ((program.take 3).resolve .block).2 = .error (.mismatch [.int] .string 3) ∧
      refused.items.drop 3 = program.items.drop 3 := by
  obtain ⟨⟨-, hkept⟩, herror, -⟩ := Program.passes_write_own_annotations program .block
  obtain ⟨k, -, htake, hdrop⟩ := herror refused (.mismatch [.int] .string 3) (by rfl)
  have hsecond : ((program.take 2).resolve .block).2 = .ok () := by rfl
  have hthird : ((program.take 3).resolve .block).2 = .error (.mismatch [.int] .string 3) := by
    rfl
  obtain rfl : k = 2 := by
    rw [htake] at hsecond hthird
    have hlow : 2 ≤ k := by
      by_contra hlt
      rw [if_neg hlt] at hsecond
      cases hsecond
    have hhigh : ¬ 3 ≤ k := by
      intro hle
      rw [if_pos hle] at hthird
      cases hthird
    omega
  exact ⟨by decide, hkept, hsecond, hthird, hdrop⟩

end Halfway

end Backend
