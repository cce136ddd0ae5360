import Backend.Proofs.TypeCheck

/-! # What occurs in a tree

Names, operands of `&` and expressions, in the order in which they stand. A tree that
the typing rules accept has all its names bound within what was in scope.
-/

namespace Backend

namespace Node

/-- The names used as variables. -/
def uses {l : Layer} : Node l → List Ident
  | .assign _ t v => t.uses ++ v.uses
  | .comp _ x => x.uses
  | .setVar _ x => [x]
  | .setElem _ x i => x :: i.uses
  | .setDeref _ x => [x]
  | .sum _ x => x.uses
  | .rel _ a _ b => a.uses ++ b.uses
  | .term _ x => x.uses
  | .add _ a _ b => a.uses ++ b.uses
  | .unary _ x => x.uses
  | .mul _ a _ b => a.uses ++ b.uses
  | .neg _ x => x.uses
  | .addrOf _ x => x.uses
  | .deref _ x => x.uses
  | .factor _ x => x.uses
  | .paren _ x => x.uses
  | .var _ x => [x]
  | .elem _ x i => x :: i.uses
  | .call _ _ as => as.uses
  | .cons e es => e.uses ++ es.uses
  | .num .. | .str .. | .read .. | .nil => []

/-- The names used as arrays. -/
def indexed {l : Layer} : Node l → List Ident
  | .assign _ t v => t.indexed ++ v.indexed
  | .comp _ x => x.indexed
  | .setElem _ x i => x :: i.indexed
  | .sum _ x => x.indexed
  | .rel _ a _ b => a.indexed ++ b.indexed
  | .term _ x => x.indexed
  | .add _ a _ b => a.indexed ++ b.indexed
  | .unary _ x => x.indexed
  | .mul _ a _ b => a.indexed ++ b.indexed
  | .neg _ x => x.indexed
  | .addrOf _ x => x.indexed
  | .deref _ x => x.indexed
  | .factor _ x => x.indexed
  | .paren _ x => x.indexed
  | .elem _ x i => x :: i.indexed
  | .call _ _ as => as.indexed
  | .cons e es => e.indexed ++ es.indexed
  | .setVar .. | .setDeref .. | .var .. | .num .. | .str .. | .read .. | .nil => []

/-- The names used as functions. -/
def callees {l : Layer} : Node l → List Ident
  | .assign _ t v => t.callees ++ v.callees
  | .comp _ x => x.callees
  | .setElem _ _ i => i.callees
  | .sum _ x => x.callees
  | .rel _ a _ b => a.callees ++ b.callees
  | .term _ x => x.callees
  | .add _ a _ b => a.callees ++ b.callees
  | .unary _ x => x.callees
  | .mul _ a _ b => a.callees ++ b.callees
  | .neg _ x => x.callees
  | .addrOf _ x => x.callees
  | .deref _ x => x.callees
  | .factor _ x => x.callees
  | .paren _ x => x.callees
  | .elem _ _ i => i.callees
  | .call _ f as => f :: as.callees
  | .cons e es => e.callees ++ es.callees
  | .setVar .. | .setDeref .. | .var .. | .num .. | .str .. | .read .. | .nil => []

/-- The operands of `&`. -/
def addressed {l : Layer} : Node l → List Factor
  | .assign _ t v => t.addressed ++ v.addressed
  | .comp _ x => x.addressed
  | .setElem _ _ i => i.addressed
  | .sum _ x => x.addressed
  | .rel _ a _ b => a.addressed ++ b.addressed
  | .term _ x => x.addressed
  | .add _ a _ b => a.addressed ++ b.addressed
  | .unary _ x => x.addressed
  | .mul _ a _ b => a.addressed ++ b.addressed
  | .neg _ x => x.addressed
  | .addrOf _ x => x :: x.addressed
  | .deref _ x => x.addressed
  | .factor _ x => x.addressed
  | .paren _ x => x.addressed
  | .elem _ _ i => i.addressed
  | .call _ _ as => as.addressed
  | .cons e es => e.addressed ++ es.addressed
  | .setVar .. | .setDeref .. | .var .. | .num .. | .str .. | .read .. | .nil => []

/-- The expressions in a node, itself included. -/
def parts {l : Layer} : Node l → List Expr
  | .assign m t v => .assign m t v :: (t.parts ++ v.parts)
  | .comp m x => .comp m x :: x.parts
  | .setElem _ _ i => i.parts
  | .sum _ x => x.parts
  | .rel _ a _ b => a.parts ++ b.parts
  | .term _ x => x.parts
  | .add _ a _ b => a.parts ++ b.parts
  | .unary _ x => x.parts
  | .mul _ a _ b => a.parts ++ b.parts
  | .neg _ x => x.parts
  | .addrOf _ x => x.parts
  | .deref _ x => x.parts
  | .factor _ x => x.parts
  | .paren _ x => x.parts
  | .elem _ _ i => i.parts
  | .call _ _ as => as.parts
  | .cons e es => e.parts ++ es.parts
  | .setVar .. | .setDeref .. | .var .. | .num .. | .str .. | .read .. | .nil => []

/-- A part of a node uses no other variables than the node. -/
theorem subset_of_mem_parts {l : Layer} {x : Node l} {e : Expr} (h : e ∈ x.parts) :
    e.uses ⊆ x.uses ∧ e.indexed ⊆ x.indexed := by
  induction x with
  | assign m t v iht ihv =>
      simp only [parts, List.mem_cons, List.mem_append] at h
      rcases h with rfl | h | h
      · exact ⟨.refl _, .refl _⟩
      · exact ⟨List.Subset.trans (iht h).1 (List.subset_append_left _ _),
          List.Subset.trans (iht h).2 (List.subset_append_left _ _)⟩
      · exact ⟨List.Subset.trans (ihv h).1 (List.subset_append_right _ _),
          List.Subset.trans (ihv h).2 (List.subset_append_right _ _)⟩
  | comp m x ih =>
      simp only [parts, List.mem_cons] at h
      rcases h with rfl | h
      · exact ⟨.refl _, .refl _⟩
      · exact ih h
  | rel m a op b iha ihb | add m a op b iha ihb | mul m a op b iha ihb | cons a b iha ihb =>
      simp only [parts, List.mem_append] at h
      rcases h with h | h
      · exact ⟨List.Subset.trans (iha h).1 (List.subset_append_left _ _),
          List.Subset.trans (iha h).2 (List.subset_append_left _ _)⟩
      · exact ⟨List.Subset.trans (ihb h).1 (List.subset_append_right _ _),
          List.Subset.trans (ihb h).2 (List.subset_append_right _ _)⟩
  | setElem m y i ih | elem m y i ih =>
      exact ⟨List.Subset.trans (ih h).1 (List.subset_cons_self _ _),
        List.Subset.trans (ih h).2 (List.subset_cons_self _ _)⟩
  | sum m x ih | term m x ih | unary m x ih | neg m x ih | addrOf m x ih | deref m x ih
  | factor m x ih | paren m x ih | call m f x ih => exact ih h
  | setVar | setDeref | var | num | str | read | nil => simp [parts] at h

end Node

namespace Clause

/-- The outermost expressions of a statement. -/
def exprs {f : Form} : Clause f → List Expr
  | .eval _ e => e.toList
  | .braces _ b => b.exprs
  | .ifElse _ c t e => c :: (t.exprs ++ e.exprs)
  | .loop _ c s => c :: s.exprs
  | .ret _ e => e.toList
  | .write _ e => e.toList
  | .absent => []
  | .present s => s.exprs
  | .nil => []
  | .cons s rest => s.exprs ++ rest.exprs
  | .block _ _ stmts _ _ => stmts.exprs

/-- The expressions a statement writes. -/
def written {f : Form} : Clause f → List Expr
  | .braces _ b => b.written
  | .ifElse _ _ t e => t.written ++ e.written
  | .loop _ _ s => s.written
  | .write _ e => e.toList
  | .present s => s.written
  | .cons s rest => s.written ++ rest.written
  | .block _ _ stmts _ _ => stmts.written
  | .eval .. | .ret .. | .absent | .nil => []

end Clause

namespace Typed

variable {decls : List Decl} {Γ : Meaning} {l : Layer} {x x' : Node l} {ts : List Ty}

/-- Filling in types and bindings keeps what is a variable or an array element. -/
theorem place_isSome (h : Typed decls Γ x x' ts) : x'.place.isSome = x.place.isSome := by
  induction h <;> simp_all [Node.place]

theorem ty_eq {e e' : Expr} {t : Ty} (h : Typed decls Γ e e' [t]) : e'.ty = t := by
  cases h <;> rfl

/-- Every variable of an accepted node is bound to a variable in scope. -/
theorem uses_bound (h : Typed decls Γ x x' ts) {y : Ident} (hy : y ∈ x'.uses) :
    ∃ id d, y.decl = some id ∧ Γ y.name = some id ∧ decls[id]? = some d ∧ d.isFunc = false := by
  have hmeans {z z' : Ident} {d : Decl} (hz : Means decls Γ z z' d) (hfunc : d.isFunc = false) :
      ∃ id d, z'.decl = some id ∧ Γ z'.name = some id ∧ decls[id]? = some d ∧
        d.isFunc = false := by
    obtain ⟨id, hid, hd, rfl⟩ := hz
    exact ⟨id, d, rfl, hid, hd, hfunc⟩
  induction h with
  | setVar hz hfunc _ | setDeref hz hfunc _ | var hz hfunc =>
      cases List.mem_singleton.mp hy
      exact hmeans hz hfunc
  | setElem hz hfunc _ _ ih | elem hz hfunc _ _ ih =>
      rcases List.mem_cons.mp hy with rfl | hy
      · exact hmeans hz hfunc
      · exact ih hy
  | assign _ _ _ iha ihb | rel _ _ iha ihb | add _ _ iha ihb | mul _ _ iha ihb
  | cons _ _ iha ihb =>
      rcases List.mem_append.mp hy with hy | hy
      · exact iha hy
      · exact ihb hy
  | comp _ ih | sum _ ih | term _ ih | unary _ ih | neg _ ih | addrOf _ _ _ ih | deref _ _ ih
  | factor _ ih | paren _ ih | call _ _ _ _ ih => exact ih hy
  | num | str | read | nil => simp [Node.uses] at hy

/-- Every variable that an accepted node indexes is an array in scope. -/
theorem indexed_bound (h : Typed decls Γ x x' ts) {y : Ident} (hy : y ∈ x'.indexed) :
    ∃ id d, y.decl = some id ∧ decls[id]? = some d ∧ d.isFunc = false ∧ d.ty.isArray = true := by
  induction h with
  | setElem hz hfunc helement _ ih | elem hz hfunc helement _ ih =>
      rcases List.mem_cons.mp hy with rfl | hy
      · obtain ⟨id, hid, hd, rfl⟩ := hz
        exact ⟨id, _, rfl, hd, hfunc, by simp [Ty.isArray, helement]⟩
      · exact ih hy
  | assign _ _ _ iha ihb | rel _ _ iha ihb | add _ _ iha ihb | mul _ _ iha ihb
  | cons _ _ iha ihb =>
      rcases List.mem_append.mp hy with hy | hy
      · exact iha hy
      · exact ihb hy
  | comp _ ih | sum _ ih | term _ ih | unary _ ih | neg _ ih | addrOf _ _ _ ih | deref _ _ ih
  | factor _ ih | paren _ ih | call _ _ _ _ ih => exact ih hy
  | setVar | setDeref | var | num | str | read | nil => simp [Node.indexed] at hy

/-- Every function called in an accepted node is a function in scope. -/
theorem callees_bound (h : Typed decls Γ x x' ts) {y : Ident} (hy : y ∈ x'.callees) :
    ∃ id d, y.decl = some id ∧ Γ y.name = some id ∧ decls[id]? = some d ∧ d.isFunc = true := by
  induction h with
  | @call _ _ _ d _ _ _ hz hfunc _ _ ih =>
      rcases List.mem_cons.mp hy with rfl | hy
      · obtain ⟨id, hid, hd, rfl⟩ := hz
        exact ⟨id, d, rfl, hid, hd, hfunc⟩
      · exact ih hy
  | assign _ _ _ iha ihb | rel _ _ iha ihb | add _ _ iha ihb | mul _ _ iha ihb
  | cons _ _ iha ihb =>
      rcases List.mem_append.mp hy with hy | hy
      · exact iha hy
      · exact ihb hy
  | comp _ ih | sum _ ih | term _ ih | unary _ ih | neg _ ih | addrOf _ _ _ ih | deref _ _ ih
  | factor _ ih | paren _ ih | setElem _ _ _ _ ih | elem _ _ _ _ ih => exact ih hy
  | setVar | setDeref | var | num | str | read | nil => simp [Node.callees] at hy

/-- Every operand of `&` in an accepted node has an address. -/
theorem addressed_place (h : Typed decls Γ x x' ts) {f : Factor} (hf : f ∈ x'.addressed) :
    f.place.isSome := by
  induction h with
  | addrOf hx _ hplace ih =>
      rcases List.mem_cons.mp hf with rfl | hf
      · rw [hx.place_isSome]
        exact hplace
      · exact ih hf
  | assign _ _ _ iha ihb | rel _ _ iha ihb | add _ _ iha ihb | mul _ _ iha ihb
  | cons _ _ iha ihb =>
      rcases List.mem_append.mp hf with hf | hf
      · exact iha hf
      · exact ihb hf
  | comp _ ih | sum _ ih | term _ ih | unary _ ih | neg _ ih | deref _ _ ih
  | factor _ ih | paren _ ih | setElem _ _ _ _ ih | elem _ _ _ _ ih | call _ _ _ _ ih => exact ih hf
  | setVar | setDeref | var | num | str | read | nil => simp [Node.addressed] at hf

end Typed

end Backend
