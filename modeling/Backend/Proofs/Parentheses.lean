import Backend.Proofs.Erasure
import Backend.Proofs.TypeCheck
import Backend.Tree.Build

/-! # Redundant parentheses

Parentheses around an expression or a factor only lead through the layers once more. A tree
and the same tree with parentheses added anywhere are refused with the same error or get the
same types, frames and code.
-/

namespace Backend

namespace Node

/-- An expression in parentheses. All the nodes around it carry the same mark. -/
def wrapped (m : Mark) (e : Expr) : Expr :=
  .comp m (.sum m (.term m (.unary m (.factor m (.paren m e)))))

/-- A factor in parentheses. -/
def enclosed (m : Mark) (f : Factor) : Factor :=
  .paren m (.comp m (.sum m (.term m (.unary m (.factor m f)))))

/-- The second node has parentheses that the first one does not have, marked after what they
enclose. They may stand around expressions and factors at any depth. -/
inductive Padded (mk : {l : Layer} → Node l → Mark) : {l : Layer} → Node l → Node l → Prop
  | wrap {e e' : Expr} : Padded mk e e' → Padded mk e (wrapped (mk e') e')
  | enclose {f f' : Factor} : Padded mk f f' → Padded mk f (enclosed (mk f') f')
  | assign {m : Mark} {t t' : Node .target} {v v' : Expr} : Padded mk t t' → Padded mk v v' →
      Padded mk (.assign m t v) (.assign m t' v')
  | comp {m : Mark} {x x' : Node .comp} : Padded mk x x' → Padded mk (.comp m x) (.comp m x')
  | setVar {m : Mark} {y : Ident} : Padded mk (.setVar m y) (.setVar m y)
  | setElem {m : Mark} {y : Ident} {i i' : Expr} : Padded mk i i' →
      Padded mk (.setElem m y i) (.setElem m y i')
  | setDeref {m : Mark} {y : Ident} : Padded mk (.setDeref m y) (.setDeref m y)
  | sum {m : Mark} {x x' : Node .sum} : Padded mk x x' → Padded mk (.sum m x) (.sum m x')
  | rel {m : Mark} {a a' : Node .sum} {op : RelOp} {b b' : Node .sum} : Padded mk a a' →
      Padded mk b b' → Padded mk (.rel m a op b) (.rel m a' op b')
  | term {m : Mark} {x x' : Node .term} : Padded mk x x' → Padded mk (.term m x) (.term m x')
  | add {m : Mark} {a a' : Node .sum} {op : AddOp} {b b' : Node .term} : Padded mk a a' →
      Padded mk b b' → Padded mk (.add m a op b) (.add m a' op b')
  | unary {m : Mark} {x x' : Node .unary} : Padded mk x x' → Padded mk (.unary m x) (.unary m x')
  | mul {m : Mark} {a a' : Node .term} {op : MulOp} {b b' : Node .unary} : Padded mk a a' →
      Padded mk b b' → Padded mk (.mul m a op b) (.mul m a' op b')
  | neg {m : Mark} {x x' : Node .unary} : Padded mk x x' → Padded mk (.neg m x) (.neg m x')
  | addrOf {m : Mark} {x x' : Factor} : Padded mk x x' → Padded mk (.addrOf m x) (.addrOf m x')
  | deref {m : Mark} {x x' : Factor} : Padded mk x x' → Padded mk (.deref m x) (.deref m x')
  | factor {m : Mark} {x x' : Factor} : Padded mk x x' → Padded mk (.factor m x) (.factor m x')
  | paren {m : Mark} {x x' : Expr} : Padded mk x x' → Padded mk (.paren m x) (.paren m x')
  | var {m : Mark} {y : Ident} : Padded mk (.var m y) (.var m y)
  | elem {m : Mark} {y : Ident} {i i' : Expr} : Padded mk i i' →
      Padded mk (.elem m y i) (.elem m y i')
  | call {m : Mark} {y : Ident} {as as' : Node .args} : Padded mk as as' →
      Padded mk (.call m y as) (.call m y as')
  | num {m : Mark} {n : Int} : Padded mk (.num m n) (.num m n)
  | str {m : Mark} {text : String} : Padded mk (.str m text) (.str m text)
  | read {m : Mark} : Padded mk (.read m) (.read m)
  | nil : Padded mk .nil .nil
  | cons {e e' : Expr} {es es' : Node .args} : Padded mk e e' → Padded mk es es' →
      Padded mk (.cons e es) (.cons e' es')

theorem Padded.refl {mk : {l : Layer} → Node l → Mark} {l : Layer} (x : Node l) :
    Padded mk x x := by
  induction x <;> constructor <;> assumption

namespace Padded

variable {mk : {l : Layer} → Node l → Mark} {l : Layer} {x y : Node l} (h : Padded mk x y)
include h

theorem count_eq : y.count = x.count := by
  induction h <;> simp_all [count, wrapped, enclosed]

theorem isNone_place_eq : y.place.isNone = x.place.isNone := by
  induction h <;> simp_all [place, wrapped, enclosed]

theorem literals_eq : y.literals = x.literals := by
  induction h <;> simp_all [literals, wrapped, enclosed]

/-- Whatever parentheses take from the mark of what they enclose stays the same. -/
theorem mark_congr {β : Type} (g : Mark → β)
    (hmk : ∀ {l : Layer} (x : Node l), g (mk x) = g x.mark) : g y.mark = g x.mark := by
  induction h with
  | wrap _ ih | enclose _ ih => exact (hmk _).trans ih
  | _ => rfl

/-- Code is generated from what parentheses enclose. -/
theorem code_eq (cx : CodeEnv) (access : Access) : y.code cx access = x.code cx access := by
  induction h generalizing access with
  | wrap _ ih | enclose _ ih => exact ih access
  | addrOf hx ih => simp only [code, hx.isNone_place_eq, ih]
  | call has ih => simp only [code, has.count_eq, ih]
  | _ => simp_all [code]

end Padded

/-- Parentheses that are built around an expression are redundant. -/
theorem Padded.paren_toExpr {e e' : Expr} (h : Padded Node.around e e') :
    Padded Node.around e (Piece.expr e').paren.toExpr :=
  .wrap h

/-- Parentheses that are built around a factor are redundant. -/
theorem Padded.paren_toFactor {f f' : Factor} (h : Padded Node.around f f') :
    Padded Node.around f (Piece.factor f').paren.toFactor :=
  .enclose h

theorem Padded.line_eq {l : Layer} {x y : Node l} (h : Padded Node.around x y) : y.line = x.line :=
  h.mark_congr Mark.line fun _ => rfl

theorem Padded.mark_eq {l : Layer} {x y : Node l} (h : Padded Node.mark x y) : y.mark = x.mark :=
  h.mark_congr (fun m => m) fun _ => rfl

end Node

/-! ## Resolution

One resolution follows another when both end with the same error, or with the same result
and trees that a relation holds between. -/

inductive Follows {α β : Type} (R : α → α → Prop) :
    α × Except Error β → α × Except Error β → Prop where
  | error (a a' : α) (e : Error) : Follows R (a, .error e) (a', .error e)
  | ok {a a' : α} (b : β) : R a a' → Follows R (a, .ok b) (a', .ok b)

namespace Follows

variable {α β γ δ : Type} {R : α → α → Prop} {r r' : α × Except Error β}

theorem refl (hR : R r.1 r.1) : Follows R r r := by
  obtain ⟨a, e | b⟩ := r
  · exact .error a a e
  · exact .ok b hR

theorem outcome_eq (h : Follows R r r') : r'.2 = r.2 := by
  cases h <;> rfl

theorem related_of_ok (h : Follows R r r') {b : β} (hb : r.2 = .ok b) : R r.1 r'.1 := by
  cases h with
  | error => cases hb
  | ok _ hR => exact hR

theorem map {S : γ → γ → Prop} (h : Follows R r r') {build build' : α → γ}
    (hbuild : ∀ a a', R a a' → S (build a) (build' a')) (look : Except Error β → Except Error δ)
    (hlook : ∀ e, look (.error e) = .error e) :
    Follows S (build r.1, look r.2) (build' r'.1, look r'.2) := by
  cases h with
  | error a a' e =>
      rw [hlook]
      exact .error _ _ e
  | @ok a a' b hR =>
      cases look (.ok b) with
      | error e => exact .error _ _ e
      | ok d => exact .ok d (hbuild a a' hR)

variable {l : Layer} {S : Node l → Node l → Prop}

theorem close (h : Follows R r r') (m : Mark) {build build' : Mark → α → Node l}
    (hbuild : ∀ m a a', R a a' → S (build m a) (build' m a'))
    (look : Except Error β → Except Error Ty) (hlook : ∀ e, look (.error e) = .error e) :
    Follows S (m.close (build · r.1) (look r.2)) (m.close (build' · r'.1) (look r'.2)) := by
  cases h with
  | error a a' e =>
      rw [hlook]
      exact .error _ _ e
  | @ok a a' b hR =>
      cases look (.ok b) with
      | error e => exact .error _ _ e
      | ok t => exact .ok t (hbuild _ a a' hR)

theorem integers {a b : Layer} {A : Node a → Node a → Prop} {B : Node b → Node b → Prop}
    {left left' : Resolved a} {right right' : Resolved b} (hleft : Follows A left left')
    (hright : Follows B right right') (m : Mark) {build : Mark → Node a → Node b → Node l}
    (hbuild : ∀ m a a' b b', A a a' → B b b' → S (build m a b) (build m a' b'))
    (line : Nat) (before before' : Node b) :
    Follows S (m.integers build line left before right)
      (m.integers build line left' before' right') := by
  cases hleft with
  | error => exact .error _ _ _
  | @ok a a' t hA =>
      unfold Mark.integers
      cases (Except.ok t >>= Ty.expect [.int] line) with
      | error e => exact .error _ _ e
      | ok t =>
          exact hright.close m (fun m b b' => hbuild m a a' b b' hA)
            (· >>= Ty.expect [.int] line) fun _ => rfl

theorem element {A : Expr → Expr → Prop} {index index' : Resolved .expr}
    (hindex : Follows A index index') (m : Mark) {build : Mark → Ident → Expr → Node l}
    (hbuild : ∀ m x i i', A i i' → S (build m x i) (build m x i')) (env : Env) (line : Nat)
    (x : Ident) {before before' : Expr} (hline : before'.line = before.line) :
    Follows S (m.element build env line x before index)
      (m.element build env line x before' index') := by
  unfold Mark.element
  rcases env.bindVariable x line with ⟨x', e | array⟩
  · exact .error _ _ e
  · dsimp only
    cases array.element with
    | none => exact .error _ _ _
    | some element =>
        rw [hline]
        exact hindex.close m (fun m i i' => hbuild m x' i i')
          (fun t => (t >>= Ty.expect [.int] (env.lineOf before.line)).map fun _ => element)
          fun _ => rfl

end Follows

namespace Node

/-- Only argument lists look at parameters. -/
theorem resolve_formals {l : Layer} (x : Node l) (hlayer : l ≠ .args) (env : Env)
    (formals : List DeclId) : x.resolve env formals = x.resolve env := by
  cases x <;> first | rfl | exact absurd rfl hlayer

/-- An accepted node keeps its line and gets its type. -/
theorem mark_of_resolve {l : Layer} {x x' : Node l} (hlayer : l ≠ .args) {env : Env} {t : Ty}
    (h : x.resolve env = (x', .ok t)) : x'.mark = { x.mark with ty := t } := by
  obtain ⟨ts, htyped, hone, -⟩ := typed_of_resolve x (fun hl => absurd hl hlayer) h
  cases hone hlayer
  cases htyped <;> first | rfl | exact absurd rfl hlayer

theorem resolve_wrapped (m : Mark) (e : Expr) (env : Env) (formals : List DeclId) :
    (wrapped m e).resolve env formals =
      m.close (wrapped · (e.resolve env).1) (e.resolve env).2 := by
  rw [wrapped, resolve]
  simp only [resolve]
  cases (e.resolve env).2 <;> rfl

theorem resolve_enclosed (m : Mark) (f : Factor) (env : Env) (formals : List DeclId) :
    (enclosed m f).resolve env formals =
      m.close (enclosed · (f.resolve env).1) (f.resolve env).2 := by
  rw [enclosed, resolve]
  simp only [resolve]
  cases (f.resolve env).2 <;> rfl

/-- Parentheses get the mark of what they enclose. -/
theorem follows_surrounded {l : Layer} {x y : Node l} (hlayer : l ≠ .args) {env : Env}
    {surround : Mark → Node l → Node l}
    (hsurround : ∀ {a a' : Node l}, Padded Node.mark a a' →
      Padded Node.mark a (surround a'.mark a'))
    (h : Follows (Padded Node.mark) (x.resolve env) (y.resolve env)) :
    Follows (Padded Node.mark) (x.resolve env)
      (y.around.close (surround · (y.resolve env).1) (y.resolve env).2) := by
  generalize x.resolve env = r at h
  cases hy : y.resolve env with
  | mk y' outcome =>
      rw [hy] at h
      cases h with
      | error a _ e => exact .error _ _ e
      | ok t hpadded =>
          have hmark : y'.mark = { y.around with ty := t } := mark_of_resolve hlayer hy
          have hpadded' := hsurround hpadded
          rw [hmark] at hpadded'
          exact .ok t hpadded'

/-- Parentheses do not change the outcome of resolution. An argument list has to be met by as
many parameters, since arguments without one would not get marks. -/
theorem Padded.resolve {l : Layer} {x y : Node l} (h : Padded Node.around x y) (env : Env)
    (formals : List DeclId) (hcount : l = .args → x.count ≤ formals.length) :
    Follows (Padded Node.mark) (x.resolve env formals) (y.resolve env formals) := by
  induction h generalizing formals with
  -- The marks of added parentheses depend on what they enclose, the marks of all other nodes
  -- are filled in alike on both sides.
  | wrap _ ih =>
      rw [resolve_wrapped, resolve_formals _ (by decide)]
      exact follows_surrounded (by decide) .wrap (ih [] (by simp))
  | enclose _ ih =>
      rw [resolve_enclosed, resolve_formals _ (by decide)]
      exact follows_surrounded (by decide) .enclose (ih [] (by simp))
  | @assign m t t' v v' _ _ iht ihv =>
      have ht := iht [] (by simp)
      simp only [Node.resolve]
      generalize t.resolve env = r at ht
      generalize t'.resolve env = r' at ht
      cases ht with
      | error => exact .error _ _ _
      | ok ty ht =>
          exact (ihv [] (by simp)).close m (fun _ _ _ hv => .assign ht hv)
            (· >>= Ty.expect [ty.stored] (env.lineOf m.line)) fun _ => rfl
  | comp _ ih => exact (ih [] (by simp)).close _ (fun _ _ _ => .comp) (fun t => t) fun _ => rfl
  | sum _ ih => exact (ih [] (by simp)).close _ (fun _ _ _ => .sum) (fun t => t) fun _ => rfl
  | term _ ih => exact (ih [] (by simp)).close _ (fun _ _ _ => .term) (fun t => t) fun _ => rfl
  | unary _ ih => exact (ih [] (by simp)).close _ (fun _ _ _ => .unary) (fun t => t) fun _ => rfl
  | factor _ ih => exact (ih [] (by simp)).close _ (fun _ _ _ => .factor) (fun t => t) fun _ => rfl
  | paren _ ih => exact (ih [] (by simp)).close _ (fun _ _ _ => .paren) (fun t => t) fun _ => rfl
  | @neg m _ _ _ ih =>
      exact (ih [] (by simp)).close m (fun _ _ _ => .neg)
        (· >>= Ty.expect [.int] (env.lineOf m.line)) fun _ => rfl
  | @deref m _ _ _ ih =>
      exact (ih [] (by simp)).close m (fun _ _ _ => .deref) (· >>= Ty.follow (env.lineOf m.line))
        fun _ => rfl
  | @addrOf m x _ hx ih =>
      simp only [Node.resolve, hx.isNone_place_eq]
      exact (ih [] (by simp)).close m (fun m _ _ => Padded.addrOf (m := m))
        (fun t => do
        let t ← t >>= Ty.expect [.int, .string] (env.lineOf m.line)
        if x.place.isNone then throw (.notAddressable (env.lineOf m.line))
        return t.addressOf.getD .none) fun _ => rfl
  | @rel m _ _ _ b b' _ _ iha ihb =>
      exact (iha [] (by simp)).integers (ihb [] (by simp)) m
        (fun _ _ _ _ _ => .rel) (env.lineOf m.line) b b'
  | @add m _ _ _ b b' _ _ iha ihb =>
      exact (iha [] (by simp)).integers (ihb [] (by simp)) m
        (fun _ _ _ _ _ => .add) (env.lineOf m.line) b b'
  | @mul m _ _ _ b b' _ _ iha ihb =>
      exact (iha [] (by simp)).integers (ihb [] (by simp)) m
        (fun _ _ _ _ _ => .mul) (env.lineOf m.line) b b'
  | @setElem m y _ _ hi ih =>
      exact (ih [] (by simp)).element m (fun _ _ _ _ => .setElem) env (env.lineOf m.line)
        y hi.line_eq
  | @elem m y _ _ hi ih =>
      exact (ih [] (by simp)).element m (fun _ _ _ _ => .elem) env (env.lineOf m.line)
        y hi.line_eq
  | setVar | setDeref | var | num | str | read | nil => exact .refl (.refl _)
  | @call m y as as' has ih =>
      simp only [Node.resolve, has.count_eq]
      rcases env.bind y (env.lineOf m.line) with ⟨y', e | d⟩
      · exact .error _ _ e
      · dsimp only
        split
        · split
          next hlength =>
            exact (ih d.params fun _ => Nat.le_of_eq hlength.symm).close m (fun _ _ _ => .call)
              (·.map fun _ => d.ty) fun _ => rfl
          next => exact .error _ _ _
        · exact .error _ _ _
  | @cons e e' es es' he _ ihe ihes =>
      cases formals with
      -- There would be fewer parameters than arguments.
      | nil => simp [count] at hcount
      | cons formal formals =>
          have hfirst := ihe [] (by simp)
          simp only [Node.resolve, he.line_eq]
          cases declared env.decls formal with
          | error err => exact .error _ _ err
          | ok d =>
              dsimp only
              generalize e.resolve env = r at hfirst
              generalize e'.resolve env = r' at hfirst
              cases hfirst with
              | error => exact .error _ _ _
              | ok t hpadded =>
                  dsimp only
                  cases (Except.ok t >>= Ty.expect [d.ty] (env.lineOf e.line)) with
                  | error err => exact .error _ _ err
                  | ok _ =>
                      have hrest := ihes formals fun _ => Nat.le_of_succ_le_succ (hcount rfl)
                      exact hrest.map (fun _ _ => .cons hpadded) (fun t => t) fun _ => rfl

end Node

/-! ## Statements and programs -/

namespace Clause

/-- Parentheses were added to expressions of a statement. -/
inductive Padded (mk : {l : Layer} → Node l → Mark) : {f : Form} → Clause f → Clause f → Prop
  | eval {line : Nat} {e e' : Option Expr} : Option.Rel (Node.Padded mk) e e' →
      Padded mk (.eval line e) (.eval line e')
  | braces {line : Nat} {b b' : Block} : Padded mk b b' →
      Padded mk (.braces line b) (.braces line b')
  | ifElse {line : Nat} {c c' : Expr} {s s' : Stmt} {t t' : Clause .alt} : Node.Padded mk c c' →
      Padded mk s s' → Padded mk t t' → Padded mk (.ifElse line c s t) (.ifElse line c' s' t')
  | loop {line : Nat} {c c' : Expr} {s s' : Stmt} : Node.Padded mk c c' → Padded mk s s' →
      Padded mk (.loop line c s) (.loop line c' s')
  | ret {line : Nat} {e e' : Option Expr} : Option.Rel (Node.Padded mk) e e' →
      Padded mk (.ret line e) (.ret line e')
  | write {line : Nat} {e e' : Option Expr} : Option.Rel (Node.Padded mk) e e' →
      Padded mk (.write line e) (.write line e')
  | absent : Padded mk .absent .absent
  | present {s s' : Stmt} : Padded mk s s' → Padded mk (.present s) (.present s')
  | nil : Padded mk .nil .nil
  | cons {s s' : Stmt} {rest rest' : Clause .seq} : Padded mk s s' → Padded mk rest rest' →
      Padded mk (.cons s rest) (.cons s' rest')
  | block {line size span : Nat} {ids : List DeclId} {stmts stmts' : Clause .seq} :
      Padded mk stmts stmts' →
      Padded mk (.block line ids stmts size span) (.block line ids stmts' size span)

end Clause

theorem FuncEnv.expect_padded (cx : FuncEnv) (line : Nat) (locals : List DeclId)
    (expected : List Ty) {e e' : Expr} (h : e.Padded Node.around e') :
    Follows (Node.Padded Node.mark) (cx.expect line locals expected e)
      (cx.expect line locals expected e') :=
  (h.resolve (cx.envAt line locals) [] (by simp)).map (fun _ _ h => h)
    (fun t => (t >>= Ty.expect expected line).map fun _ => ()) fun _ => rfl

namespace Clause.Padded

variable {f : Form} {c c' : Clause f}

theorem resolve (h : c.Padded Node.around c') (cx : FuncEnv) (line : Nat) (locals : List DeclId) :
    Follows (Padded Node.mark) (c.resolve cx line locals) (c'.resolve cx line locals) := by
  induction h generalizing line locals with
  | absent | nil => exact .ok _ (by constructor)
  | @eval own _ _ he =>
      cases he with
      | none => exact .ok _ (.eval .none)
      | some he =>
          exact (he.resolve (cx.envAt (orLine own line) locals) [] (by simp)).map
            (fun _ _ he => Padded.eval (.some he)) (·.map fun _ => locals) fun _ => rfl
  | @ret own _ _ he =>
      cases he with
      | none =>
          simp only [Clause.resolve]
          cases Ty.expect [cx.ret] (orLine own line) .void with
          | error err => exact .error _ _ err
          | ok _ => exact .ok _ (.ret .none)
      | some he =>
          exact (cx.expect_padded (orLine own line) locals [cx.ret] he).map
            (fun _ _ he => Padded.ret (.some he)) (·.map fun _ => locals) fun _ => rfl
  | @write own _ _ he =>
      cases he with
      | none => exact .ok _ (.write .none)
      | some he =>
          exact (cx.expect_padded (orLine own line) locals [.int, .string] he).map
            (fun _ _ he => Padded.write (.some he)) (·.map fun _ => locals) fun _ => rfl
  | @braces own _ _ _ ih =>
      exact (ih (orLine own line) locals).map (fun _ _ => .braces) (fun t => t) fun _ => rfl
  | present _ ih => exact (ih line locals).map (fun _ _ => .present) (fun t => t) fun _ => rfl
  | @loop own c c' _ _ hc _ ih =>
      have hcond := cx.expect_padded (orLine own line) locals [.int] hc
      simp only [Clause.resolve]
      generalize cx.expect (orLine own line) locals [.int] c = r at hcond
      generalize cx.expect (orLine own line) locals [.int] c' = r' at hcond
      cases hcond with
      | error => exact .error _ _ _
      | ok _ hc =>
          exact (ih (orLine own line) locals).map (fun _ _ => .loop hc) (fun t => t) fun _ => rfl
  | @ifElse own c c' s s' _ _ hc _ _ ihs iht =>
      have hcond := cx.expect_padded (orLine own line) locals [.int] hc
      have hthen := ihs (orLine own line) locals
      simp only [Clause.resolve]
      generalize cx.expect (orLine own line) locals [.int] c = r at hcond
      generalize cx.expect (orLine own line) locals [.int] c' = r' at hcond
      cases hcond with
      | error => exact .error _ _ _
      | ok _ hc =>
          dsimp only
          generalize s.resolve cx (orLine own line) locals = r at hthen
          generalize s'.resolve cx (orLine own line) locals = r' at hthen
          cases hthen with
          | error => exact .error _ _ _
          | ok locals hs =>
              exact (iht (orLine own line) locals).map (fun _ _ => .ifElse hc hs) (fun t => t)
                fun _ => rfl
  | @cons s s' _ _ _ _ ihs ihrest =>
      have hfirst := ihs line locals
      simp only [Clause.resolve]
      generalize s.resolve cx line locals = r at hfirst
      generalize s'.resolve cx line locals = r' at hfirst
      cases hfirst with
      | error => exact .error _ _ _
      | ok locals hs =>
          exact (ihrest line locals).map (fun _ _ => .cons hs) (fun t => t) fun _ => rfl
  | @block own size span ids _ _ _ ih =>
      simp only [Clause.resolve]
      cases cx.enter ids locals with
      | error err => exact .error _ _ err
      | ok inner =>
          have hstmts := ih (orLine own line) inner
          dsimp only
          cases cx.scope with
          | function => exact hstmts.map (fun _ _ hs => Padded.block hs) (fun t => t) fun _ => rfl
          | block =>
              exact hstmts.map (fun _ _ hs => Padded.block hs) (·.map fun _ => locals)
                fun _ => rfl

theorem literals_eq {mk : {l : Layer} → Node l → Mark} (h : c.Padded mk c') :
    c'.literals = c.literals := by
  induction h with
  | absent | nil => rfl
  | eval he | ret he | write he =>
      cases he with
      | none => rfl
      | some he => exact he.literals_eq
  | braces _ ih | present _ ih | block _ ih => exact ih
  | loop hc _ ih => simp only [literals, hc.literals_eq, ih]
  | ifElse hc _ _ ihs iht => simp only [literals, hc.literals_eq, ihs, iht]
  | cons _ _ ihs ihrest => simp only [literals, ihs, ihrest]

/-- What is written has the same type on both sides, since the marks agree. -/
theorem code_eq (h : c.Padded Node.mark c') (cx : CodeEnv) : c'.code cx = c.code cx := by
  induction h with
  | absent | nil => rfl
  | eval he =>
      cases he with
      | none => rfl
      | some he => exact he.code_eq cx .value
  | ret he =>
      cases he with
      | none => rfl
      | some he => simp only [code, he.code_eq]
  | write he =>
      cases he with
      | none => rfl
      | some he => simp only [code, he.code_eq, Node.ty, he.mark_eq]
  | braces _ ih | present _ ih => exact ih
  | block _ ih => simp only [code, ih]
  | loop hc _ ih => simp only [code, hc.code_eq, ih]
  | ifElse hc _ _ ihs iht => simp only [code, hc.code_eq, ihs, iht]
  | cons _ _ ihs ihrest => simp only [code, ihs, ihrest]

/-- Layout does not look at expressions. -/
theorem layout {mk : {l : Layer} → Node l → Mark} (h : c.Padded mk c') (depth floor : Nat)
    (frame : Frame) :
    Matched (fun r r' => r.1.Padded mk r'.1 ∧ r'.2 = r.2) (c.layout depth floor frame)
      (c'.layout depth floor frame) := by
  induction h generalizing depth floor frame with
  | eval he => exact .ok ⟨.eval he, rfl⟩
  | ret he => exact .ok ⟨.ret he, rfl⟩
  | write he => exact .ok ⟨.write he, rfl⟩
  | absent => exact .ok ⟨.absent, rfl⟩
  | nil => exact .ok ⟨.nil, rfl⟩
  | braces _ ih =>
      rw [Clause.layout, Clause.layout]
      apply (Matched.same (Word.add depth 1)).bind
      rintro inner _ - rfl
      apply (ih inner floor frame).bind
      rintro ⟨b, frame'⟩ ⟨b', _⟩ - ⟨hb, rfl⟩
      exact .ok ⟨.braces hb, rfl⟩
  | present _ ih =>
      rw [Clause.layout, Clause.layout]
      apply (ih depth floor frame).bind
      rintro ⟨s, frame'⟩ ⟨s', _⟩ - ⟨hs, rfl⟩
      exact .ok ⟨.present hs, rfl⟩
  | loop hc _ ih =>
      rw [Clause.layout, Clause.layout]
      apply (ih depth floor frame).bind
      rintro ⟨s, frame'⟩ ⟨s', _⟩ - ⟨hs, rfl⟩
      exact .ok ⟨.loop hc hs, rfl⟩
  | ifElse hc _ _ ihs iht =>
      rw [Clause.layout, Clause.layout]
      apply (ihs depth floor frame).bind
      rintro ⟨s, frame'⟩ ⟨s', _⟩ - ⟨hs, rfl⟩
      apply (iht depth floor _).bind
      rintro ⟨t, frame''⟩ ⟨t', _⟩ - ⟨ht, rfl⟩
      exact .ok ⟨.ifElse hc hs ht, rfl⟩
  | cons _ _ ihs ihrest =>
      rw [Clause.layout, Clause.layout]
      apply (ihs depth floor frame).bind
      rintro ⟨s, frame'⟩ ⟨s', _⟩ - ⟨hs, rfl⟩
      apply (ihrest depth floor _).bind
      rintro ⟨rest, frame''⟩ ⟨rest', _⟩ - ⟨hrest, rfl⟩
      exact .ok ⟨.cons hs hrest, rfl⟩
  | block _ ih =>
      rw [Clause.layout, Clause.layout]
      apply (Matched.same (frame.placeLocals depth _)).bind
      rintro inner _ - rfl
      apply (Matched.same (Word.sub inner.next frame.next)).bind
      rintro taken _ - rfl
      apply (Matched.same (Word.mul 8 taken)).bind
      rintro size _ - rfl
      apply (Matched.same (Word.sub inner.next floor)).bind
      rintro reach _ - rfl
      apply (Matched.same (Word.mul 8 reach)).bind
      rintro span _ - rfl
      apply (ih depth inner.next inner).bind
      rintro ⟨stmts, frame'⟩ ⟨stmts', _⟩ - ⟨hstmts, rfl⟩
      exact .ok ⟨.block hstmts, rfl⟩

end Clause.Padded

/-- Parentheses were added in the body of a function. -/
structure Func.Padded (mk : {l : Layer} → Node l → Mark) (f g : Func) : Prop where
  decl : g.decl = f.decl
  frameSize : g.frameSize = f.frameSize
  body : f.body.Padded mk g.body

namespace Func.Padded

variable {fs gs : List Func} (h : List.Forall₂ (Padded Node.mark) fs gs)
include h

theorem codeAll_eq (cx : CodeEnv) : codeAll cx gs = codeAll cx fs := by
  induction h with
  | nil => rfl
  | cons hf _ ih =>
      rw [codeAll, codeAll, ih, code, code, hf.decl, hf.frameSize, hf.body.code_eq]

theorem literals_eq :
    (gs.flatMap fun g => g.body.literals) = fs.flatMap fun f => f.body.literals := by
  induction h with
  | nil => rfl
  | cons hf _ ih => rw [List.flatMap_cons, List.flatMap_cons, ih, hf.body.literals_eq]

theorem any_decl_eq (test : DeclId → Bool) :
    (gs.any fun g => test g.decl) = fs.any fun f => test f.decl := by
  induction h with
  | nil => rfl
  | cons hf _ ih => rw [List.any_cons, List.any_cons, ih, hf.decl]

end Func.Padded

inductive Item.Padded (mk : {l : Layer} → Node l → Mark) : Item → Item → Prop
  | var {id : DeclId} : Padded mk (.var id) (.var id)
  | func {f g : Func} : f.Padded mk g → Padded mk (.func f) (.func g)

namespace Item.Padded

variable {mk : {l : Layer} → Node l → Mark} {item item' : Item} {items items' : List Item}

theorem resolve (h : item.Padded Node.around item') (decls : List Decl) (scope : Scope)
    (globals : Globals) :
    Follows (Padded Node.mark) (item.resolve decls scope globals)
      (item'.resolve decls scope globals) := by
  cases h with
  | var => exact .refl .var
  | @func f g hf =>
      have hbuild (body body' : Block) (hbody : body.Padded Node.mark body') :
          Padded Node.mark (.func { f with body })
            (.func { g with decl := f.decl, body := body' }) :=
        .func ⟨rfl, hf.frameSize, hbody⟩
      simp only [Item.resolve, hf.decl]
      cases declared decls f.decl with
      | error e => exact .error _ _ e
      | ok d =>
          simp only [except_ok_bind]
          cases globals.insert d f.decl with
          | error e => exact .error _ _ e
          | ok globals =>
              cases checkParams decls d.params with
              | error e => exact .error _ _ e
              | ok _ =>
                  have hbody := hf.body.resolve { decls, globals, ret := d.ty, scope } d.line
                    d.params.reverse
                  exact hbody.map hbuild (·.map fun _ => globals) fun _ => rfl

theorem resolveAll (h : List.Forall₂ (Padded Node.around) items items') (decls : List Decl)
    (scope : Scope) (globals : Globals) :
    Follows (List.Forall₂ (Padded Node.mark)) (Item.resolveAll decls scope globals items)
      (Item.resolveAll decls scope globals items') := by
  induction h generalizing globals with
  | nil => exact .ok () .nil
  | @cons item item' rest rest' hitem _ ih =>
      have hfirst := hitem.resolve decls scope globals
      simp only [Item.resolveAll]
      generalize item.resolve decls scope globals = r at hfirst
      generalize item'.resolve decls scope globals = r' at hfirst
      cases hfirst with
      | error => exact .error _ _ _
      | ok globals hpadded =>
          exact (ih globals).map (fun _ _ => .cons hpadded) (fun t => t) fun _ => rfl

theorem layout (h : item.Padded mk item') (decls : List Decl) :
    Matched (fun r r' => r.1.Padded mk r'.1 ∧ r'.2 = r.2) (item.layout decls)
      (item'.layout decls) := by
  cases h with
  | var => exact .ok ⟨.var, rfl⟩
  | func hf =>
      rw [Item.layout, Item.layout, hf.decl]
      apply (hf.body.layout bodyDepth 0 _).bind
      rintro ⟨body, _⟩ ⟨body', frame⟩ - ⟨hbody, rfl⟩
      apply (Matched.same (Word.mul 8 frame.next)).bind
      rintro frameSize _ - rfl
      exact .ok ⟨.func ⟨rfl, rfl, hbody⟩, rfl⟩

theorem layoutAll (h : List.Forall₂ (Padded mk) items items') (decls : List Decl) :
    Matched (fun r r' => List.Forall₂ (Padded mk) r.1 r'.1 ∧ r'.2 = r.2)
      (Item.layoutAll decls items) (Item.layoutAll decls items') := by
  induction h generalizing decls with
  | nil => exact .ok ⟨.nil, rfl⟩
  | cons hitem _ ih =>
      rw [Item.layoutAll, Item.layoutAll]
      apply (hitem.layout decls).bind
      rintro ⟨item, decls'⟩ ⟨item', _⟩ - ⟨hitem, rfl⟩
      apply (ih _).bind
      rintro ⟨rest, decls''⟩ ⟨rest', _⟩ - ⟨hrest, rfl⟩
      exact .ok ⟨.cons hitem hrest, rfl⟩

theorem globalStorage_eq (h : List.Forall₂ (Padded mk) items items') (decls : List Decl) :
    globalStorage decls items' = globalStorage decls items := by
  induction h with
  | nil => rfl
  | cons hitem _ ih =>
      cases hitem with
      | var => simp only [globalStorage, ih]
      | func _ => exact ih

end Item.Padded

namespace Program

/-- Parentheses were added in a program. -/
structure Padded (mk : {l : Layer} → Node l → Mark) (p q : Program) : Prop where
  decls : q.decls = p.decls
  items : List.Forall₂ (Item.Padded mk) p.items q.items

namespace Padded

variable {p q : Program}

theorem resolve (h : p.Padded Node.around q) (scope : Scope) :
    Follows (Padded Node.mark) (p.resolve scope) (q.resolve scope) := by
  have hitems := Item.Padded.resolveAll h.items p.decls scope []
  unfold Program.resolve
  rw [h.decls]
  exact hitems.map (fun _ _ hitems => ⟨rfl, hitems⟩) (fun t => t) fun _ => rfl

theorem layout {mk : {l : Layer} → Node l → Mark} (h : p.Padded mk q) :
    Matched (Padded mk) p.layout q.layout := by
  rw [Program.layout, Program.layout, h.decls]
  apply (Item.Padded.layoutAll h.items p.decls).bind
  rintro ⟨items, decls⟩ ⟨items', _⟩ - ⟨hitems, rfl⟩
  exact .ok ⟨rfl, hitems⟩

theorem functions {mk : {l : Layer} → Node l → Mark} (h : p.Padded mk q) :
    List.Forall₂ (Func.Padded mk) p.functions q.functions := by
  have hitems := h.items
  unfold Program.functions
  generalize p.items = items at hitems
  generalize q.items = items' at hitems
  induction hitems with
  | nil => exact .nil
  | cons hitem _ ih =>
      cases hitem with
      | var => exact ih
      | func hf => exact .cons hf ih

section Generate

variable (h : p.Padded Node.mark q)
include h

theorem data_eq : q.data = p.data := by
  rw [data, data, pool, pool, literals, literals, Func.Padded.literals_eq h.functions, h.decls,
    Item.Padded.globalStorage_eq h.items]

theorem text_eq (pool : Pool) : q.text pool = p.text pool := by
  have hmain : q.hasMain = p.hasMain := by
    rw [hasMain, hasMain, h.decls]
    exact Func.Padded.any_decl_eq h.functions fun id => p.decls[id]?.any (·.name == "main")
  rw [text, text, hmain, h.decls, Func.Padded.codeAll_eq h.functions]

theorem generate_eq (labels : Nat) : q.generate labels = p.generate labels := by
  unfold generate
  simp only [h.data_eq, h.text_eq]

end Generate

theorem compile_eq (h : p.Padded Node.around q) (scope : Scope) :
    (q.compile scope).2 = (p.compile scope).2 := by
  have hresolve := h.resolve scope
  unfold compile
  generalize p.resolve scope = r at hresolve
  generalize q.resolve scope = r' at hresolve
  cases hresolve with
  | error => rfl
  | @ok p' q' _ hresolved =>
      have hlayout := hresolved.layout
      dsimp only
      generalize p'.layout = r at hlayout
      generalize q'.layout = r' at hlayout
      cases hlayout with
      | error => rfl
      | ok hlaidOut =>
          dsimp only
          rw [hlaidOut.generate_eq]

end Padded

/-- Redundant parentheses are invisible. When they are added to a program at any places, the
program is refused with the same error or compiled to the same code, and every node keeps the
type that resolution gives it, which is also the type of the parentheses around it. -/
theorem redundant_parentheses_invisible {p q : Program} (h : p.Padded Node.around q)
    (scope : Scope) :
    (q.compile scope).2 = (p.compile scope).2 ∧
    (q.resolve scope).2 = (p.resolve scope).2 ∧
    ((p.resolve scope).2 = .ok () → (p.resolve scope).1.Padded Node.mark (q.resolve scope).1) ∧
    ∀ {l : Layer} {x y : Node l}, x.Padded Node.around y → l ≠ .args → ∀ env,
      (y.resolve env).2 = (x.resolve env).2 ∧
      ∀ t, (x.resolve env).2 = .ok t →
        (x.resolve env).1.ty = t ∧ (y.resolve env).1.mark = (x.resolve env).1.mark := by
  refine ⟨h.compile_eq scope, (h.resolve scope).outcome_eq, (h.resolve scope).related_of_ok, ?_⟩
  intro l x y hxy hlayer env
  have hresolve := hxy.resolve env [] fun hl => absurd hl hlayer
  refine ⟨hresolve.outcome_eq, ?_⟩
  intro t ht
  refine ⟨?_, (hresolve.related_of_ok ht).mark_eq⟩
  have hmark := Node.mark_of_resolve hlayer (Prod.ext rfl ht)
  exact congrArg Mark.ty hmark

end Program

namespace Detour

/-- Reads a variable through a pointer. Operands are passed through `around`. -/
def main (around : Piece → Piece) : Func where
  decl := 2
  body := .ofStmts [0, 1] [
    .expr (.setVar "p" (.addrOf (around (.var "n")))),
    .write (around (.add (.deref (around (.var "p"))) .add (.num 1)))]

def program (around : Piece → Piece) : Program where
  decls := [.var 1 .int "n", .pointer 1 .int "p",
    { line := 1, name := "main", base := .void, kind := .func [] }]
  items := [.func (main around)]

theorem padded : (program fun x => x).Padded Node.around (program Piece.paren) := by
  have hassign : Clause.Padded Node.around
      (Stmt.expr (.setVar "p" (.addrOf (.var "n"))))
      (Stmt.expr (.setVar "p" (.addrOf (.paren (.var "n"))))) :=
    .eval (.some (.assign .setVar (.comp (.sum (.term (.unary (.addrOf (.paren_toFactor .var))))))))
  have hwrite : Clause.Padded Node.around
      (Stmt.write (.add (.deref (.var "p")) .add (.num 1)))
      (Stmt.write (.paren (.add (.deref (.paren (.var "p"))) .add (.num 1)))) :=
    .write (.some (.paren_toExpr (.comp (.sum (.add
      (.term (.unary (.deref (.paren_toFactor .var)))) (.refl _))))))
  exact ⟨rfl, .cons (.func ⟨rfl, rfl, .block (.cons hassign (.cons hwrite .nil))⟩) .nil⟩

theorem same_code :
    program Piece.paren ≠ program (fun x => x) ∧
      ∃ code, ((program fun x => x).compile .block).2 = .ok code ∧
        ((program Piece.paren).compile .block).2 = .ok code := by
  have hcompile : ∃ code, ((program fun x => x).compile .block).2 = .ok code := ⟨_, rfl⟩
  obtain ⟨code, hcode⟩ := hcompile
  obtain ⟨hsame, -⟩ := Program.redundant_parentheses_invisible padded .block
  exact ⟨by decide, code, hcode, hsame.trans hcode⟩

end Detour

end Backend
