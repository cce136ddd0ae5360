import Backend.Proofs.Outcome
import Backend.Resolve.Program
import Backend.Tree.Build

/-! # Missing lines

A node without a line is treated as if it stood on the line of the statement, block or
function around it. Resolution only hands lines on to errors and never compares them, so it
commutes with a change of lines. Filling in the missing ones is one such change; others show
that errors have lines where functions have one, and that the lines of a statement do not
matter behind it.
-/

namespace Backend

/-! ## Lines of errors -/

namespace Error

/-- The line on which a name or a value was used wrongly. Errors about declarations, and those
that have no line, are not meant. -/
def useLine? : Error → Option Nat
  | .undeclared _ line | .mismatch _ _ line | .arity _ _ _ line | .notCallable _ line
  | .notVariable _ line | .notAddressable line | .notAssignable _ line => some line
  | .duplicate .. | .voidVariable .. | .noMain | .unresolved _ | .io _ | .fileOpen _
  | .fileCreate _ | .yaml _ => none

/-- The same error with the use on another line. -/
def mapLine (h : Nat → Nat) : Error → Error
  | .undeclared name line => .undeclared name (h line)
  | .mismatch expected got line => .mismatch expected got (h line)
  | .arity name expected got line => .arity name expected got (h line)
  | .notCallable name line => .notCallable name (h line)
  | .notVariable name line => .notVariable name (h line)
  | .notAddressable line => .notAddressable (h line)
  | .notAssignable name line => .notAssignable name (h line)
  | e => e

theorem useLine?_mapLine (h : Nat → Nat) (e : Error) :
    (e.mapLine h).useLine? = e.useLine?.map h := by
  cases e <;> rfl

theorem mapLine_id (e : Error) : e.mapLine id = e := by
  cases e <;> rfl

/-- An error that a change of lines leaves alone has a line that the change leaves alone. -/
theorem line_fixed {h : Nat → Nat} {e : Error} (he : e.mapLine h = e) {line : Nat}
    (hline : e.useLine? = some line) : h line = line := by
  have hmap := useLine?_mapLine h e
  rw [he, hline, Option.map_some] at hmap
  exact (Option.some.inj hmap).symm

end Error

/-- An outcome with the tree and the lines of uses changed. -/
def relined {α β : Type} (tree : α → α) (h : Nat → Nat) (r : α × Except Error β) :
    α × Except Error β :=
  (tree r.1, r.2.mapError (Error.mapLine h))

section Steps

variable {α β : Type} {h : Nat → Nat} {line : Nat}

theorem relined_ok (tree : α → α) (a : α) (b : β) : relined tree h (a, .ok b) = (tree a, .ok b) :=
  rfl

theorem mapError_mapLine_id (x : Except Error α) : x.mapError (Error.mapLine id) = x := by
  cases x with
  | error e => exact congrArg Except.error e.mapLine_id
  | ok a => rfl

theorem eq_ok_of_mapError {x : Except Error α} {a : α}
    (hx : x.mapError (Error.mapLine h) = .ok a) : x = .ok a := by
  cases x with
  | error e => cases hx
  | ok b => exact hx

theorem eq_error_of_map {x : Except Error α} {f : α → β} {e : Error} (hx : x.map f = .error e) :
    x = .error e := by
  cases x with
  | error e' =>
      cases hx
      rfl
  | ok a => cases hx

theorem map_mapLine (f : α → β) (x : Except Error α) :
    (x.mapError (Error.mapLine h)).map f = (x.map f).mapError (Error.mapLine h) := by
  cases x <;> rfl

theorem declared_mapLine (decls : List Decl) (id : DeclId) :
    (declared decls id).mapError (Error.mapLine h) = declared decls id := by
  unfold declared
  split <;> rfl

theorem Ty.expect_mapLine (expected : List Ty) (type : Except Error Ty) :
    (type.mapError (Error.mapLine h) >>= Ty.expect expected (h line)) =
      (type >>= Ty.expect expected line).mapError (Error.mapLine h) := by
  cases type with
  | error e => rfl
  | ok t =>
      rw [except_ok_bind]
      change Ty.expect expected (h line) t = (Ty.expect expected line t).mapError _
      unfold Ty.expect
      split <;> rfl

theorem Ty.follow_mapLine (type : Except Error Ty) :
    (type.mapError (Error.mapLine h) >>= Ty.follow (h line)) =
      (type >>= Ty.follow line).mapError (Error.mapLine h) := by
  cases type with
  | error e => rfl
  | ok t =>
      rw [except_ok_bind]
      change Ty.follow (h line) t = (Ty.follow line t).mapError _
      unfold Ty.follow
      split <;> rfl

theorem Env.bind_mapLine (env : Env) (line' : Nat) (x : Ident) :
    Env.bind { env with line := line' } x (h line) = relined id h (env.bind x line) := by
  have hfind : Env.find { env with line := line' } x.name = env.find x.name := rfl
  unfold Env.bind
  rw [hfind]
  cases env.find x.name with
  | none => rfl
  | some id => simp [relined, declared_mapLine]

theorem Env.bindVariable_mapLine (env : Env) (line' : Nat) (x : Ident) :
    Env.bindVariable { env with line := line' } x (h line) =
      relined id h (env.bindVariable x line) := by
  unfold Env.bindVariable
  rw [Env.bind_mapLine]
  rcases env.bind x line with ⟨x', e | d⟩
  · rfl
  · rw [relined_ok]
    cases hfunc : d.isFunc with
    | false =>
        simp only [hfunc]
        rfl
    | true =>
        simp only [hfunc]
        rfl

end Steps

/-! ## Expressions -/

def Mark.mapLine (k : Nat → Nat) (m : Mark) : Mark := { m with line := k m.line }

namespace Node

/-- A node with every line changed. -/
def mapLine {l : Layer} (k : Nat → Nat) : Node l → Node l
  | .assign m t v => .assign (m.mapLine k) (t.mapLine k) (v.mapLine k)
  | .comp m x => .comp (m.mapLine k) (x.mapLine k)
  | .setVar m x => .setVar (m.mapLine k) x
  | .setElem m x i => .setElem (m.mapLine k) x (i.mapLine k)
  | .setDeref m x => .setDeref (m.mapLine k) x
  | .sum m x => .sum (m.mapLine k) (x.mapLine k)
  | .rel m a op b => .rel (m.mapLine k) (a.mapLine k) op (b.mapLine k)
  | .term m x => .term (m.mapLine k) (x.mapLine k)
  | .add m a op b => .add (m.mapLine k) (a.mapLine k) op (b.mapLine k)
  | .unary m x => .unary (m.mapLine k) (x.mapLine k)
  | .mul m a op b => .mul (m.mapLine k) (a.mapLine k) op (b.mapLine k)
  | .neg m x => .neg (m.mapLine k) (x.mapLine k)
  | .addrOf m x => .addrOf (m.mapLine k) (x.mapLine k)
  | .deref m x => .deref (m.mapLine k) (x.mapLine k)
  | .factor m x => .factor (m.mapLine k) (x.mapLine k)
  | .paren m x => .paren (m.mapLine k) (x.mapLine k)
  | .var m x => .var (m.mapLine k) x
  | .elem m x i => .elem (m.mapLine k) x (i.mapLine k)
  | .call m f as => .call (m.mapLine k) f (as.mapLine k)
  | .num m n => .num (m.mapLine k) n
  | .str m text => .str (m.mapLine k) text
  | .read m => .read (m.mapLine k)
  | .nil => .nil
  | .cons e es => .cons (e.mapLine k) (es.mapLine k)

section MapLine

variable {l : Layer} (x : Node l) (k : Nat → Nat)

attribute [local simp] mapLine Mark.mapLine

theorem stamp_eq_mapLine (line : Nat) : x.stamp line = x.mapLine (orLine · line) := by
  induction x <;> simp_all [stamp, Mark.stamp]

theorem mapLine_self : x.mapLine (fun line => line) = x := by
  induction x <;> simp_all

theorem count_mapLine : (x.mapLine k).count = x.count := by
  induction x <;> simp_all [count]

theorem isNone_place_mapLine : (x.mapLine k).place.isNone = x.place.isNone := by
  induction x <;> simp_all [place]

theorem mapLine_mapLine (k' : Nat → Nat) : (x.mapLine k).mapLine k' = x.mapLine (k' ∘ k) := by
  induction x <;> simp_all

theorem line_mapLine (e : Expr) : (e.mapLine k).line = k e.line := by
  cases e <;> rfl

end MapLine

end Node

namespace Mark

variable {l : Layer} {k h : Nat → Nat} (m : Mark)

theorem close_mapLine {build build' : Mark → Node l} {type type' : Except Error Ty}
    (hbuild : ∀ m, build' (m.mapLine k) = (build m).mapLine k)
    (htype : type' = type.mapError (Error.mapLine h)) :
    (m.mapLine k).close build' type' = relined (Node.mapLine k) h (m.close build type) := by
  subst htype
  cases type with
  | error e => exact Prod.ext (hbuild m) rfl
  | ok t => exact Prod.ext (hbuild { m with ty := t }) rfl

theorem integers_mapLine {a b : Layer} {build : Mark → Node a → Node b → Node l}
    (hbuild : ∀ m x y, build (m.mapLine k) (x.mapLine k) (y.mapLine k) = (build m x y).mapLine k)
    (line : Nat) (left : Resolved a) (before : Node b) (right : Resolved b) :
    (m.mapLine k).integers build (h line) (relined (Node.mapLine k) h left) (before.mapLine k)
        (relined (Node.mapLine k) h right) =
      relined (Node.mapLine k) h (m.integers build line left before right) := by
  unfold Mark.integers
  simp only [relined, Ty.expect_mapLine]
  cases left.2 >>= Ty.expect [.int] line with
  | error e => exact Prod.ext (hbuild m left.1 before) rfl
  | ok t => exact m.close_mapLine (fun m => hbuild m left.1 right.1) rfl

theorem element_mapLine {build : Mark → Ident → Expr → Node l}
    (hbuild : ∀ m x e, build (m.mapLine k) x (e.mapLine k) = (build m x e).mapLine k)
    {env : Env} {line' : Nat} (hk : ∀ own, orLine (k own) line' = h (env.lineOf own))
    (line : Nat) (x : Ident) (before : Expr) (index : Resolved .expr) :
    (m.mapLine k).element build { env with line := line' } (h line) x (before.mapLine k)
        (relined (Node.mapLine k) h index) =
      relined (Node.mapLine k) h (m.element build env line x before index) := by
  have hline : Env.lineOf { env with line := line' } (before.mapLine k).line =
      h (env.lineOf before.line) := by
    rw [before.line_mapLine, ← hk]
    rfl
  unfold Mark.element
  rw [Env.bindVariable_mapLine, hline]
  rcases env.bindVariable x line with ⟨x', e | array⟩
  · exact Prod.ext (hbuild m x' before) rfl
  · rw [relined_ok]
    dsimp only
    cases array.element with
    | none => exact Prod.ext (hbuild m x' before) rfl
    | some element =>
        apply m.close_mapLine (fun m => hbuild m x' index.1)
        rw [← map_mapLine, ← Ty.expect_mapLine]
        rfl

end Mark

/-- Resolution commutes with a change of lines, if it is given the changed line of the
enclosing statement. The lines of errors are changed accordingly. -/
theorem Node.resolve_mapLine {l : Layer} {k h : Nat → Nat} {env : Env} {line' : Nat}
    (hk : ∀ own, orLine (k own) line' = h (env.lineOf own)) (x : Node l) (formals : List DeclId) :
    (x.mapLine k).resolve { env with line := line' } formals =
      relined (mapLine k) h (x.resolve env formals) := by
  have hline (m : Mark) : Env.lineOf { env with line := line' } (m.mapLine k).line =
      h (env.lineOf m.line) := hk m.line
  induction x generalizing formals with
  | assign m t v iht ihv =>
      simp only [mapLine, resolve, iht, ihv, hline]
      rcases t.resolve env with ⟨t', e | ty⟩
      · rfl
      · exact m.close_mapLine (fun _ => rfl) (Ty.expect_mapLine [ty.stored] (v.resolve env).2)
  | comp m x ih | sum m x ih | term m x ih | unary m x ih | factor m x ih | paren m x ih =>
      simp only [mapLine, resolve, ih]
      exact m.close_mapLine (fun _ => rfl) rfl
  | neg m x ih =>
      simp only [mapLine, resolve, ih, hline]
      exact m.close_mapLine (fun _ => rfl) (Ty.expect_mapLine [.int] (x.resolve env).2)
  | deref m x ih =>
      simp only [mapLine, resolve, ih, hline]
      exact m.close_mapLine (fun _ => rfl) (Ty.follow_mapLine (x.resolve env).2)
  | addrOf m x ih =>
      simp only [mapLine, resolve, ih, hline, isNone_place_mapLine]
      apply m.close_mapLine (fun _ => rfl)
      simp only [relined, Ty.expect_mapLine]
      cases (x.resolve env).2 >>= Ty.expect [.int, .string] (env.lineOf m.line) with
      | error e => rfl
      | ok t =>
          cases x.place.isNone with
          | false => rfl
          | true => rfl
  | rel m a op b iha ihb | add m a op b iha ihb | mul m a op b iha ihb =>
      simp only [mapLine, resolve, iha, ihb, hline]
      apply m.integers_mapLine
      intro m a b
      rfl
  | setElem m x i ih | elem m x i ih =>
      simp only [mapLine, resolve, ih, hline]
      refine m.element_mapLine ?_ hk (env.lineOf m.line) x i (i.resolve env)
      intro m x i
      rfl
  | setVar m x =>
      simp only [mapLine, resolve, hline, Env.bindVariable_mapLine]
      rcases env.bindVariable x (env.lineOf m.line) with ⟨x', e | t⟩
      · rfl
      · apply m.close_mapLine (fun _ => rfl)
        split <;> rfl
  | setDeref m x =>
      simp only [mapLine, resolve, hline, Env.bindVariable_mapLine]
      exact m.close_mapLine (fun _ => rfl) (Ty.follow_mapLine _)
  | var m x =>
      simp only [mapLine, resolve, hline, Env.bindVariable_mapLine]
      exact m.close_mapLine (fun _ => rfl) rfl
  | call m f as ih =>
      simp only [mapLine, resolve, hline, Env.bind_mapLine, count_mapLine, ih]
      rcases env.bind f (env.lineOf m.line) with ⟨f', e | d⟩
      · rfl
      · simp only [relined_ok]
        split
        · split
          · exact m.close_mapLine (fun _ => rfl) (map_mapLine _ _)
          · rfl
        · rfl
  | num m n | str m text | read m => exact m.close_mapLine (fun _ => rfl) rfl
  | nil => rfl
  | cons e es ihe ihes =>
      cases formals with
      | nil => rfl
      | cons formal formals =>
          have harg : Env.lineOf { env with line := line' } (e.mapLine k).line =
              h (env.lineOf e.line) := by
            rw [e.line_mapLine, ← hk]
            rfl
          simp only [mapLine, resolve, ihe, ihes, harg, declared]
          cases env.decls[formal]? with
          | none => rfl
          | some d =>
              simp only [relined, Ty.expect_mapLine]
              cases (e.resolve env).2 >>= Ty.expect [d.ty] (env.lineOf e.line) with
              | error err => rfl
              | ok t => rfl

/-! ## Statements -/

namespace Clause

/-- A statement with its lines changed. The second argument of `g` is the line that holds
where the first one is missing: the line of the enclosing statement or block. -/
def reline {f : Form} (g : Nat → Nat → Nat) (line : Nat) : Clause f → Clause f
  | .eval own e => .eval (g own line) (e.map (Node.mapLine (g · (orLine own line))))
  | .braces own b => .braces (g own line) (b.reline g (orLine own line))
  | .ifElse own c t e =>
      .ifElse (g own line) (c.mapLine (g · (orLine own line))) (t.reline g (orLine own line))
        (e.reline g (orLine own line))
  | .loop own c s =>
      .loop (g own line) (c.mapLine (g · (orLine own line))) (s.reline g (orLine own line))
  | .ret own e => .ret (g own line) (e.map (Node.mapLine (g · (orLine own line))))
  | .write own e => .write (g own line) (e.map (Node.mapLine (g · (orLine own line))))
  | .absent => .absent
  | .present s => .present (s.reline g line)
  | .nil => .nil
  | .cons s rest => .cons (s.reline g line) (rest.reline g line)
  | .block own ids stmts size span =>
      .block (g own line) ids (stmts.reline g (orLine own line)) size span

end Clause

theorem FuncEnv.enter_mapLine (cx : FuncEnv) (h : Nat → Nat) (ids locals : List DeclId) :
    (cx.enter ids locals).mapError (Error.mapLine h) = cx.enter ids locals := by
  induction ids generalizing locals with
  | nil => rfl
  | cons id rest ih =>
      simp only [enter, declared]
      cases cx.decls[id]? with
      | none => rfl
      | some d =>
          simp only [except_ok_bind, Decl.checkVariable]
          split
          · rfl
          · exact ih (id :: locals)

theorem checkParams_mapLine (decls : List Decl) (h : Nat → Nat) (ids : List DeclId) :
    (checkParams decls ids).mapError (Error.mapLine h) = checkParams decls ids := by
  induction ids with
  | nil => rfl
  | cons id rest ih =>
      simp only [checkParams, declared]
      cases decls[id]? with
      | none => rfl
      | some d =>
          simp only [except_ok_bind, Decl.checkVariable]
          split
          · rfl
          · exact ih

section Reline

variable {g : Nat → Nat → Nat} {h : Nat → Nat}
  (hg : ∀ own line, orLine (g own line) (h line) = h (orLine own line))
include hg

theorem FuncEnv.resolve_reline (cx : FuncEnv) (line : Nat) (locals : List DeclId) (e : Expr) :
    (e.mapLine (g · line)).resolve (cx.envAt (h line) locals) =
      relined (Node.mapLine (g · line)) h (e.resolve (cx.envAt line locals)) := by
  have hk (own : Nat) : orLine (g own line) (h line) = h ((cx.envAt line locals).lineOf own) :=
    hg own line
  exact Node.resolve_mapLine hk e []

theorem FuncEnv.expect_reline (cx : FuncEnv) (line : Nat) (locals : List DeclId)
    (expected : List Ty) (e : Expr) :
    cx.expect (h line) locals expected (e.mapLine (g · line)) =
      relined (Node.mapLine (g · line)) h (cx.expect line locals expected e) := by
  unfold FuncEnv.expect
  rw [cx.resolve_reline hg]
  refine Prod.ext rfl ?_
  simp only [relined, Ty.expect_mapLine, map_mapLine]

theorem Clause.resolve_reline {f : Form} (cx : FuncEnv) (c : Clause f) (line : Nat)
    (locals : List DeclId) :
    (c.reline g line).resolve cx (h line) locals =
      relined (reline g line) h (c.resolve cx line locals) := by
  induction c generalizing line locals with
  | absent | nil => rfl
  | eval own e =>
      cases e with
      | none => rfl
      | some e =>
          simp only [reline, Option.map_some, resolve, hg, cx.resolve_reline hg]
          exact Prod.ext rfl (map_mapLine _ _)
  | ret own e =>
      cases e with
      | none =>
          have hvoid := @Ty.expect_mapLine h (orLine own line) [cx.ret] (.ok .void)
          simp only [reline, Option.map_none, resolve, hg]
          exact Prod.ext rfl ((congrArg _ hvoid).trans (map_mapLine _ _))
      | some e =>
          simp only [reline, Option.map_some, resolve, hg, cx.expect_reline hg]
          exact Prod.ext rfl (map_mapLine _ _)
  | write own e =>
      cases e with
      | none => rfl
      | some e =>
          simp only [reline, Option.map_some, resolve, hg, cx.expect_reline hg]
          exact Prod.ext rfl (map_mapLine _ _)
  | braces own b ih | present s ih =>
      simp only [reline, resolve, hg, ih]
      rfl
  | loop own e s ih =>
      simp only [reline, resolve, hg, cx.expect_reline hg, ih]
      rcases cx.expect (orLine own line) locals [.int] e with ⟨e', err | ⟨⟩⟩
      · rfl
      · rfl
  | ifElse own e s t ihs iht =>
      simp only [reline, resolve, hg, cx.expect_reline hg, ihs, iht]
      rcases cx.expect (orLine own line) locals [.int] e with ⟨e', err | ⟨⟩⟩
      · rfl
      · simp only [relined_ok]
        rcases s.resolve cx (orLine own line) locals with ⟨s', err | locals'⟩
        · rfl
        · rfl
  | cons s rest ihs ihrest =>
      simp only [reline, resolve, ihs, ihrest]
      rcases s.resolve cx line locals with ⟨s', err | locals'⟩
      · rfl
      · rfl
  | block own ids stmts size span ih =>
      have henter := cx.enter_mapLine h ids locals
      simp only [reline, resolve, hg, ih]
      generalize cx.enter ids locals = entered at henter
      cases entered with
      | error e => exact Prod.ext rfl henter.symm
      | ok inner =>
          dsimp only
          cases cx.scope with
          | function => rfl
          | block => exact Prod.ext rfl (map_mapLine _ _)

end Reline

/-! ## Filling in lines -/

theorem orLine_orLine (own line : Nat) : orLine (orLine own line) line = orLine own line := by
  by_cases hown : own = 0
  · simp [orLine, hown]
  · simp [orLine, hown]

theorem orLine_ne_zero {line : Nat} (own : Nat) (hline : line ≠ 0) : orLine own line ≠ 0 := by
  by_cases hown : own = 0
  · rwa [hown]
  · rwa [orLine, if_neg hown]

theorem orLine_of_ne_zero {own : Nat} (hown : own ≠ 0) (line : Nat) : orLine own line = own :=
  if_neg hown

theorem orLine_orLine_of_ne_zero {first : Nat} (hfirst : first ≠ 0) (own second : Nat) :
    orLine (orLine own first) second = orLine own first :=
  orLine_of_ne_zero (orLine_ne_zero own hfirst) second

namespace Node

variable {l : Layer} (x : Node l)

/-- Stamping leaves no trace in a node whose lines are all made the same. -/
theorem mapLine_stamp (line same : Nat) :
    (x.stamp line).mapLine (fun _ => same) = x.mapLine fun _ => same := by
  rw [stamp_eq_mapLine, mapLine_mapLine]
  rfl

theorem stamp_stamp {first : Nat} (hfirst : first ≠ 0) (second : Nat) :
    (x.stamp first).stamp second = x.stamp first := by
  simp only [stamp_eq_mapLine, mapLine_mapLine]
  congr 1
  funext own
  exact orLine_orLine_of_ne_zero hfirst own second

end Node

namespace Clause

/-- A statement with its missing lines filled in. Expressions get the line of their statement,
statements and blocks that of the statement or block around them. -/
def fill {f : Form} (line : Nat) : Clause f → Clause f
  | .eval own e => .eval (orLine own line) (e.map (Node.stamp (orLine own line)))
  | .braces own b => .braces (orLine own line) (b.fill (orLine own line))
  | .ifElse own c t e =>
      .ifElse (orLine own line) (c.stamp (orLine own line)) (t.fill (orLine own line))
        (e.fill (orLine own line))
  | .loop own c s =>
      .loop (orLine own line) (c.stamp (orLine own line)) (s.fill (orLine own line))
  | .ret own e => .ret (orLine own line) (e.map (Node.stamp (orLine own line)))
  | .write own e => .write (orLine own line) (e.map (Node.stamp (orLine own line)))
  | .absent => .absent
  | .present s => .present (s.fill line)
  | .nil => .nil
  | .cons s rest => .cons (s.fill line) (rest.fill line)
  | .block own ids stmts size span =>
      .block (orLine own line) ids (stmts.fill (orLine own line)) size span

/-- A statement without any lines. -/
def unlined {f : Form} (c : Clause f) : Clause f := c.reline (fun _ _ => 0) 0

section Lines

variable {f : Form} (c : Clause f) (line : Nat)

theorem fill_eq_reline : c.fill line = c.reline orLine line := by
  have hstamp (line : Nat) : (Node.stamp line : Expr → Expr) = Node.mapLine (orLine · line) :=
    funext fun e => e.stamp_eq_mapLine line
  induction c generalizing line <;> simp_all [fill, reline]

theorem reline_self : c.reline (fun own _ => own) line = c := by
  have hself : (Node.mapLine fun own => own) = (id : Expr → Expr) := funext Node.mapLine_self
  induction c generalizing line <;> simp_all [reline]

theorem reline_zero : c.reline (fun _ _ => 0) line = c.unlined := by
  unfold unlined
  induction c generalizing line with
  | absent | nil => rfl
  | eval own e | ret own e | write own e => rfl
  | present s ih => rw [reline, reline, ih]
  | cons s rest ihs ihrest => rw [reline, reline, ihs, ihrest]
  | braces own s ih | block own ids s size span ih | loop own e s ih =>
      rw [reline, reline, ih, ih (orLine own 0)]
  | ifElse own e s t ihs iht =>
      rw [reline, reline, ihs, iht, ihs (orLine own 0), iht (orLine own 0)]

/-- Filling in lines changes nothing but lines. -/
theorem unlined_fill : (c.fill line).unlined = c.unlined := by
  rw [← reline_zero _ line, ← reline_zero c line]
  induction c generalizing line with
  | absent | nil => rfl
  | eval own e | ret own e | write own e =>
      cases e with
      | none => rfl
      | some e => simp [fill, reline, Node.mapLine_stamp]
  | present s ih => rw [fill, reline, reline, ih]
  | cons s rest ihs ihrest => rw [fill, reline, reline, ihs, ihrest]
  | braces own s ih | block own ids s size span ih =>
      rw [fill, reline, reline, orLine_orLine, ih]
  | loop own e s ih => rw [fill, reline, reline, orLine_orLine, Node.mapLine_stamp, ih]
  | ifElse own e s t ihs iht =>
      rw [fill, reline, reline, orLine_orLine, Node.mapLine_stamp, ihs, iht]

/-- Where the enclosing line is not missing, nothing is left to fill in. -/
theorem fill_fill (hline : line ≠ 0) (other : Nat) : (c.fill line).fill other = c.fill line := by
  induction c generalizing line other with
  | absent | nil => rfl
  | eval own e | ret own e | write own e =>
      have hown := orLine_ne_zero own hline
      cases e with
      | none => simp only [fill, orLine_of_ne_zero hown, Option.map_none]
      | some e => simp only [fill, orLine_of_ne_zero hown, Option.map_some, e.stamp_stamp hown]
  | present s ih => rw [fill, fill, ih line hline]
  | cons s rest ihs ihrest => rw [fill, fill, ihs line hline, ihrest line hline]
  | braces own s ih | block own ids s size span ih =>
      have hown := orLine_ne_zero own hline
      rw [fill, fill, orLine_of_ne_zero hown, ih _ hown]
  | loop own e s ih =>
      have hown := orLine_ne_zero own hline
      rw [fill, fill, orLine_of_ne_zero hown, e.stamp_stamp hown, ih _ hown]
  | ifElse own e s t ihs iht =>
      have hown := orLine_ne_zero own hline
      rw [fill, fill, orLine_of_ne_zero hown, e.stamp_stamp hown, ihs _ hown, iht _ hown]

end Lines

variable {f : Form} {cx : FuncEnv} {line : Nat} {locals : List DeclId}

theorem resolve_fill (c : Clause f) :
    (c.fill line).resolve cx line locals =
      ((c.resolve cx line locals).1.fill line, (c.resolve cx line locals).2) := by
  have hresolve := resolve_reline (h := id) orLine_orLine cx c line locals
  rw [fill_eq_reline, fill_eq_reline]
  exact hresolve.trans (Prod.ext rfl (mapError_mapLine_id _))

/-- Where the enclosing line is not missing, no error has a missing line: it stays the same when
line 0 becomes line 1. -/
theorem mapLine_of_refused {c : Clause f} {e : Error} (h : (c.resolve cx line locals).2 = .error e)
    (hline : line ≠ 0) : e.mapLine (orLine · 1) = e := by
  -- The tree is left as it is; only the line handed down to it, and through it the lines of
  -- errors, could change.
  have hg (own line : Nat) : orLine own (orLine line 1) = orLine (orLine own line) 1 := by
    by_cases hown : own = 0
    · simp [orLine, hown]
    · simp [orLine, hown]
  have hresolve := congrArg Prod.snd (resolve_reline hg cx c line locals)
  rw [reline_self, orLine_of_ne_zero hline, relined, h] at hresolve
  exact (Except.error.inj hresolve).symm

/-- Whether a statement is accepted does not depend on lines. -/
theorem resolve_of_unlined {c c' : Clause f} (h : c'.unlined = c.unlined) {after : List DeclId}
    (hc : (c.resolve cx line locals).2 = .ok after) :
    (c'.resolve cx line locals).2 = .ok after := by
  have hg (own line : Nat) : orLine 0 0 = 0 := rfl
  -- Both statements are compared with the one that has no lines, resolved on no line.
  have hresolve (c : Clause f) : (c.unlined.resolve cx 0 locals).2 =
      (c.resolve cx line locals).2.mapError (Error.mapLine fun _ => 0) := by
    rw [← reline_zero c line]
    exact congrArg Prod.snd (resolve_reline (h := fun _ => 0) hg cx c line locals)
  have hc' := hresolve c'
  rw [h, hresolve c, hc] at hc'
  exact eq_ok_of_mapError hc'.symm

/-- What comes behind an accepted statement is resolved on the line of the enclosing one. -/
theorem resolve_cons {s : Stmt} {after : List DeclId}
    (hs : (s.resolve cx line locals).2 = .ok after) (rest : Clause .seq) :
    ((cons s rest).resolve cx line locals).2 = (rest.resolve cx line after).2 := by
  rcases hresolve : s.resolve cx line locals with ⟨s', r⟩
  rw [hresolve] at hs
  cases hs
  simp only [resolve, hresolve]

theorem resolve_ifElse {own : Nat} {s s' : Stmt} {after : List DeclId}
    (hs : (s.resolve cx (orLine own line) locals).2 = .ok after)
    (hs' : (s'.resolve cx (orLine own line) locals).2 = .ok after) (c : Expr) (t : Clause .alt) :
    ((ifElse own c s' t).resolve cx line locals).2 =
      ((ifElse own c s t).resolve cx line locals).2 := by
  rcases hresolve : s.resolve cx (orLine own line) locals with ⟨s₁, r⟩
  rcases hresolve' : s'.resolve cx (orLine own line) locals with ⟨s₂, r'⟩
  rw [hresolve] at hs
  rw [hresolve'] at hs'
  cases hs
  cases hs'
  simp only [resolve, hresolve, hresolve']
  rcases cx.expect (orLine own line) locals [.int] c with ⟨c', e | ⟨⟩⟩
  · rfl
  · rfl

end Clause

/-! ## Programs -/

namespace Item

/-- An item with its missing lines filled in, from the line of its declaration on. -/
def fill (decls : List Decl) : Item → Item
  | .var id => .var id
  | .func f => .func { f with body := f.body.fill (decls[f.decl]?.elim 0 Decl.line) }

variable {decls : List Decl} {scope : Scope} {globals : Globals}

/-- A function is refused for its declarations, whatever its body, or else its body decides. -/
theorem resolve_func (decls : List Decl) (scope : Scope) (globals : Globals) (id : DeclId) :
    (∃ e : Error, (∀ h, e.mapLine h = e) ∧ ∀ f : Func, f.decl = id →
      (Item.func f).resolve decls scope globals = (.func f, .error e)) ∨
    ∃ (d : Decl) (known : Globals), decls[id]? = some d ∧ ∀ f : Func, f.decl = id →
      let body := f.body.resolve { decls, globals := known, ret := d.ty, scope } d.line
        d.params.reverse
      (Item.func f).resolve decls scope globals =
        (.func { f with body := body.1 }, body.2.map fun _ => known) := by
  cases hd : decls[id]? with
  | none =>
      refine .inl ⟨.unresolved (.declaration id), fun _ => rfl, ?_⟩
      rintro f rfl
      simp only [resolve, declared, hd]
      rfl
  | some d =>
      cases hinsert : globals.insert d id with
      | error e =>
          refine .inl ⟨e, ?_, ?_⟩
          · intro h
            unfold Globals.insert at hinsert
            split at hinsert
            · cases hinsert
              rfl
            · cases hinsert
          · rintro f rfl
            simp only [resolve, declared, hd, except_ok_bind, hinsert]
            rfl
      | ok known =>
          cases hparams : checkParams decls d.params with
          | error e =>
              refine .inl ⟨e, ?_, ?_⟩
              · intro h
                have hfixed := checkParams_mapLine decls h d.params
                rw [hparams] at hfixed
                exact Except.error.inj hfixed
              · rintro f rfl
                simp only [resolve, declared, hd, except_ok_bind, hinsert, hparams]
                rfl
          | ok _ =>
              refine .inr ⟨d, known, rfl, ?_⟩
              rintro f rfl
              simp only [resolve, declared, hd, except_ok_bind, hinsert, hparams]
              rfl

theorem resolve_fill (item : Item) :
    (item.fill decls).resolve decls scope globals =
      ((item.resolve decls scope globals).1.fill decls, (item.resolve decls scope globals).2) := by
  cases item with
  | var id => rfl
  | func f =>
      rcases resolve_func decls scope globals f.decl with
        ⟨e, -, hresolve⟩ | ⟨d, known, hd, hresolve⟩
      · rw [hresolve f rfl, fill, hresolve { f with body := f.body.fill _ } rfl]
      · rw [hresolve f rfl, fill, hresolve { f with body := f.body.fill _ } rfl]
        simp only [hd, Option.elim_some, Clause.resolve_fill, fill]

theorem resolveAll_fill (items : List Item) :
    resolveAll decls scope globals (items.map (fill decls)) =
      ((resolveAll decls scope globals items).1.map (fill decls),
        (resolveAll decls scope globals items).2) := by
  induction items generalizing globals with
  | nil => rfl
  | cons item rest ih =>
      simp only [List.map_cons, resolveAll, resolve_fill, ih]
      rcases item.resolve decls scope globals with ⟨item', e | globals'⟩
      · rfl
      · rfl

section Uses

variable {e : Error} {line : Nat} (hline : e.useLine? = some line)
include hline

/-- Only functions are refused for a use. -/
theorem exists_func_of_useLine {item : Item} (h : (item.resolve decls scope globals).2 = .error e) :
    ∃ f, item = .func f := by
  cases item with
  | func f => exact ⟨f, rfl⟩
  | var id =>
      simp only [resolve, declared] at h
      cases hd : decls[id]? with
      | none =>
          rw [hd] at h
          cases h
          cases hline
      | some d =>
          simp only [hd, except_ok_bind, Decl.checkVariable] at h
          split at h
          · cases h
            cases hline
          · simp only [except_ok_bind, Globals.insert] at h
            split at h
            · cases h
              cases hline
            · cases h

theorem line_ne_zero {f : Func} {d : Decl} (hd : decls[f.decl]? = some d) (hdecl : d.line ≠ 0)
    (h : ((Item.func f).resolve decls scope globals).2 = .error e) : line ≠ 0 := by
  have hfixed : e.mapLine (orLine · 1) = e := by
    rcases resolve_func decls scope globals f.decl with
      ⟨e', he', hresolve⟩ | ⟨d', known, hd', hresolve⟩
    · rw [hresolve f rfl] at h
      cases h
      exact he' _
    · cases hd.symm.trans hd'
      rw [hresolve f rfl] at h
      exact Clause.mapLine_of_refused (eq_error_of_map h) hdecl
  rintro rfl
  exact absurd (Error.line_fixed hfixed hline) (by decide)

end Uses

/-- The error of some items is that of the first one that is refused. -/
theorem exists_refused {items : List Item} {e : Error}
    (h : (resolveAll decls scope globals items).2 = .error e) :
    ∃ before item after known, items = before ++ item :: after ∧
      (resolveAll decls scope globals before).2 = .ok () ∧
      (resolveAll decls scope globals (before ++ [item])).2 = .error e ∧
      (item.resolve decls scope known).2 = .error e := by
  induction items generalizing globals with
  | nil => cases h
  | cons item rest ih =>
      rcases hitem : item.resolve decls scope globals with ⟨item', e' | globals'⟩
      · simp only [resolveAll, hitem] at h
        cases h
        refine ⟨[], item, rest, globals, rfl, rfl, ?_, congrArg Prod.snd hitem⟩
        simp only [List.nil_append, resolveAll, hitem]
      · simp only [resolveAll, hitem] at h
        obtain ⟨before, other, after, known, rfl, hbefore, hupTo, hrefused⟩ := ih h
        refine ⟨item :: before, other, after, known, rfl, ?_, ?_, hrefused⟩
        · simp only [resolveAll, hitem, hbefore]
        · simp only [List.cons_append, resolveAll, hitem, hupTo]

end Item

namespace Program

/-- A program with its missing lines filled in. -/
def fill (p : Program) : Program := { p with items := p.items.map (Item.fill p.decls) }

theorem resolve_fill (p : Program) (scope : Scope) :
    p.fill.resolve scope = ((p.resolve scope).1.fill, (p.resolve scope).2) := by
  unfold resolve fill
  dsimp only
  rw [Item.resolveAll_fill]

/-- Missing lines behave as the enclosing line. Filling them in leaves none in a function that
has a line, and changes neither the outcome of resolution nor the bindings and types. An error
about a use stands in the first function that is refused, and its line is missing only if that
of the function is. What stands behind an accepted statement does not depend on the lines in
it. -/
theorem missing_lines_inherited (p : Program) (scope : Scope) :
    (∀ {f : Form} (c : Clause f) (line : Nat), (c.fill line).unlined = c.unlined ∧
      (line ≠ 0 → ∀ other, (c.fill line).fill other = c.fill line)) ∧
    p.fill.resolve scope = ((p.resolve scope).1.fill, (p.resolve scope).2) ∧
    (∀ e line, (p.resolve scope).2 = .error e → e.useLine? = some line →
      ∃ before f after, p.items = before ++ .func f :: after ∧
        (Program.resolve { p with items := before } scope).2 = .ok () ∧
        (Program.resolve { p with items := before ++ [.func f] } scope).2 = .error e ∧
        ∀ d, p.decls[f.decl]? = some d → d.line ≠ 0 → line ≠ 0) ∧
    ∀ (cx : FuncEnv) (line : Nat) (locals after : List DeclId) (s s' : Stmt),
      s'.unlined = s.unlined →
      ((s.resolve cx line locals).2 = .ok after → ∀ rest : Clause .seq,
        ((Clause.cons s' rest).resolve cx line locals).2 =
          ((Clause.cons s rest).resolve cx line locals).2) ∧
      ∀ own, (s.resolve cx (orLine own line) locals).2 = .ok after →
        ∀ (c : Expr) (t : Clause .alt),
          ((Clause.ifElse own c s' t).resolve cx line locals).2 =
            ((Clause.ifElse own c s t).resolve cx line locals).2 := by
  refine ⟨?_, p.resolve_fill scope, ?_, ?_⟩
  · intro f c line
    exact ⟨c.unlined_fill line, c.fill_fill line⟩
  · intro e line he hline
    obtain ⟨before, item, after, known, hitems, hbefore, hupTo, hrefused⟩ :=
      Item.exists_refused he
    obtain ⟨f, rfl⟩ := Item.exists_func_of_useLine hline hrefused
    refine ⟨before, f, after, hitems, hbefore, hupTo, ?_⟩
    intro d hd hdecl
    exact Item.line_ne_zero hline hd hdecl hrefused
  · intro cx line locals after s s' hlines
    constructor
    · intro hs rest
      rw [Clause.resolve_cons hs, Clause.resolve_cons (Clause.resolve_of_unlined hlines hs)]
    · intro own hs c t
      exact Clause.resolve_ifElse hs (Clause.resolve_of_unlined hlines hs) c t

end Program

namespace Trailing

/-- A block with lines of its own. -/
def block (line : Nat) : Stmt :=
  .braces line (.block 0 [0] (.ofList [(Stmt.expr (.setVar "k" (.num 1))).atLine (line + 1)]) 0 0)

/-- The use of a name on no line. -/
def rest : Clause .seq := .ofList [Stmt.write (.var "gone")]

def program : Program where
  decls := [.var 5 .int "k", { line := 3, name := "main", base := .void, kind := .func [] }]
  items := [.func { decl := 1, body := .block 0 [] (.cons (block 5) rest) 0 0 }]

def env : FuncEnv := { decls := program.decls, globals := [], ret := .void, scope := .block }

/-- The use behind the block is reported on the line of the function, wherever the block
stands. -/
theorem reported_on_enclosing_line :
    program.fill ≠ program ∧
      (program.fill.resolve .block).2 = .error (.undeclared "gone" 3) ∧
      ((Clause.cons (block 8) rest).resolve env 3 []).2 = .error (.undeclared "gone" 3) := by
  obtain ⟨-, hfill, -, hbehind⟩ := Program.missing_lines_inherited program .block
  have hrefused : (program.resolve .block).2 = .error (.undeclared "gone" 3) := by rfl
  refine ⟨by decide, (congrArg Prod.snd hfill).trans hrefused, ?_⟩
  obtain ⟨hrest, -⟩ := hbehind env 3 [] [] (block 5) (block 8) rfl
  exact hrest rfl rest

end Trailing

end Backend
