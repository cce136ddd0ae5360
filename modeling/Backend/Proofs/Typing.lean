import Mathlib.Data.List.Forall2
import Backend.Proofs.Listing
import Backend.Resolve.Env

/-! # The typing rules

The static semantics as rules, apart from any order of checking. A judgement relates
a tree to the same tree with its names bound and its types filled in, so that one
derivation says both that the tree is accepted and what it is annotated with.
-/

namespace Backend

/-- What each name means at a point of a program. -/
abbrev Meaning := String → Option DeclId

/-- The names behind some declarations, of which the last of a name counts. -/
def Meaning.declare (decls : List Decl) (Γ : Meaning) (ids : List DeclId) : Meaning := fun name =>
  (ids.reverse.find? fun id => decls[id]?.any (·.name == name)).or (Γ name)

/-- The name `x` means the declaration `d`, and `x'` is the name bound to it. -/
def Means (decls : List Decl) (Γ : Meaning) (x x' : Ident) (d : Decl) : Prop :=
  ∃ id, Γ x.name = some id ∧ decls[id]? = some d ∧ x' = { x with decl := some id }

/-- A target of the first type takes values of the second one: a pointer the matching
address, everything else its own type. -/
inductive Ty.Accepts : Ty → Ty → Prop
  | address {t s u : Ty} : t.pointee = some s → s.addressOf = some u → Accepts t u
  | same {t : Ty} : t.pointee = Option.none → Accepts t t

/-- The declared types of parameters. -/
def Formals (decls : List Decl) : List DeclId → List Ty → Prop :=
  List.Forall₂ fun p t => ∃ d, decls[p]? = some d ∧ d.ty = t

/-- A node, the same node bound and typed, and its type. An argument list has the
types of its arguments, every other node has one type. -/
inductive Typed (decls : List Decl) (Γ : Meaning) :
    {l : Layer} → Node l → Node l → List Ty → Prop
  | assign {m : Mark} {target target' : Node .target} {value value' : Expr} {t u : Ty} :
      Typed decls Γ target target' [t] → Typed decls Γ value value' [u] → t.Accepts u →
      Typed decls Γ (.assign m target value) (.assign { m with ty := u } target' value') [u]
  | comp {m : Mark} {x x' : Node .comp} {t : Ty} : Typed decls Γ x x' [t] →
      Typed decls Γ (.comp m x) (.comp { m with ty := t } x') [t]
  | setVar {m : Mark} {x x' : Ident} {d : Decl} : Means decls Γ x x' d → d.isFunc = false →
      d.ty.isArray = false →
      Typed decls Γ (.setVar m x) (.setVar { m with ty := d.ty } x') [d.ty]
  | setElem {m : Mark} {x x' : Ident} {d : Decl} {i i' : Expr} {t : Ty} : Means decls Γ x x' d →
      d.isFunc = false → d.ty.element = some t → Typed decls Γ i i' [.int] →
      Typed decls Γ (.setElem m x i) (.setElem { m with ty := t } x' i') [t]
  | setDeref {m : Mark} {x x' : Ident} {d : Decl} {t : Ty} : Means decls Γ x x' d →
      d.isFunc = false → d.ty.pointee = some t →
      Typed decls Γ (.setDeref m x) (.setDeref { m with ty := t } x') [t]
  | sum {m : Mark} {x x' : Node .sum} {t : Ty} : Typed decls Γ x x' [t] →
      Typed decls Γ (.sum m x) (.sum { m with ty := t } x') [t]
  | rel {m : Mark} {a a' b b' : Node .sum} {op : RelOp} : Typed decls Γ a a' [.int] →
      Typed decls Γ b b' [.int] →
      Typed decls Γ (.rel m a op b) (.rel { m with ty := .int } a' op b') [.int]
  | term {m : Mark} {x x' : Node .term} {t : Ty} : Typed decls Γ x x' [t] →
      Typed decls Γ (.term m x) (.term { m with ty := t } x') [t]
  | add {m : Mark} {a a' : Node .sum} {b b' : Node .term} {op : AddOp} :
      Typed decls Γ a a' [.int] → Typed decls Γ b b' [.int] →
      Typed decls Γ (.add m a op b) (.add { m with ty := .int } a' op b') [.int]
  | unary {m : Mark} {x x' : Node .unary} {t : Ty} : Typed decls Γ x x' [t] →
      Typed decls Γ (.unary m x) (.unary { m with ty := t } x') [t]
  | mul {m : Mark} {a a' : Node .term} {b b' : Node .unary} {op : MulOp} :
      Typed decls Γ a a' [.int] → Typed decls Γ b b' [.int] →
      Typed decls Γ (.mul m a op b) (.mul { m with ty := .int } a' op b') [.int]
  | neg {m : Mark} {x x' : Node .unary} : Typed decls Γ x x' [.int] →
      Typed decls Γ (.neg m x) (.neg { m with ty := .int } x') [.int]
  | addrOf {m : Mark} {x x' : Factor} {t u : Ty} : Typed decls Γ x x' [t] →
      t.addressOf = some u → x.place.isSome →
      Typed decls Γ (.addrOf m x) (.addrOf { m with ty := u } x') [u]
  | deref {m : Mark} {x x' : Factor} {t u : Ty} : Typed decls Γ x x' [t] →
      t.pointee = some u →
      Typed decls Γ (.deref m x) (.deref { m with ty := u } x') [u]
  | factor {m : Mark} {x x' : Factor} {t : Ty} : Typed decls Γ x x' [t] →
      Typed decls Γ (.factor m x) (.factor { m with ty := t } x') [t]
  | paren {m : Mark} {x x' : Expr} {t : Ty} : Typed decls Γ x x' [t] →
      Typed decls Γ (.paren m x) (.paren { m with ty := t } x') [t]
  | var {m : Mark} {x x' : Ident} {d : Decl} : Means decls Γ x x' d → d.isFunc = false →
      Typed decls Γ (.var m x) (.var { m with ty := d.ty } x') [d.ty]
  | elem {m : Mark} {x x' : Ident} {d : Decl} {i i' : Expr} {t : Ty} : Means decls Γ x x' d →
      d.isFunc = false → d.ty.element = some t → Typed decls Γ i i' [.int] →
      Typed decls Γ (.elem m x i) (.elem { m with ty := t } x' i') [t]
  | call {m : Mark} {x x' : Ident} {d : Decl} {args args' : Node .args} {ts : List Ty} :
      Means decls Γ x x' d → d.isFunc = true → Typed decls Γ args args' ts →
      Formals decls d.params ts →
      Typed decls Γ (.call m x args) (.call { m with ty := d.ty } x' args') [d.ty]
  | num {m : Mark} {n : Int} : Typed decls Γ (.num m n) (.num { m with ty := .int } n) [.int]
  | str {m : Mark} {text : String} :
      Typed decls Γ (.str m text) (.str { m with ty := .string } text) [.string]
  | read {m : Mark} : Typed decls Γ (.read m) (.read { m with ty := .int }) [.int]
  | nil : Typed decls Γ .nil .nil []
  | cons {arg arg' : Expr} {rest rest' : Node .args} {t : Ty} {ts : List Ty} :
      Typed decls Γ arg arg' [t] → Typed decls Γ rest rest' ts →
      Typed decls Γ (.cons arg rest) (.cons arg' rest') (t :: ts)

/-- What stays the same in the rules for the statements of one function. -/
structure Rules where
  decls : List Decl
  scope : Scope
  /-- The type the function returns. -/
  ret : Ty

/-- The names behind a block that was entered with `outer` and left with `inner`. -/
def Rules.leave (cx : Rules) (outer inner : Meaning) : Meaning :=
  match cx.scope with
  | .function => inner
  | .block => outer

/-- A statement between the names before it and those behind it, and the same
statement bound and typed. -/
inductive Accepted (cx : Rules) :
    {f : Form} → Meaning → Clause f → Clause f → Meaning → Prop
  | empty {Γ : Meaning} {line : Nat} : Accepted cx Γ (.eval line none) (.eval line none) Γ
  | eval {Γ : Meaning} {line : Nat} {e e' : Expr} {t : Ty} : Typed cx.decls Γ e e' [t] →
      Accepted cx Γ (.eval line (some e)) (.eval line (some e')) Γ
  | braces {Γ Γ' : Meaning} {line : Nat} {b b' : Block} : Accepted cx Γ b b' Γ' →
      Accepted cx Γ (.braces line b) (.braces line b') Γ'
  | ifElse {Γ Γ₁ Γ₂ : Meaning} {line : Nat} {c c' : Expr} {t t' : Stmt} {e e' : Clause .alt} :
      Typed cx.decls Γ c c' [.int] → Accepted cx Γ t t' Γ₁ → Accepted cx Γ₁ e e' Γ₂ →
      Accepted cx Γ (.ifElse line c t e) (.ifElse line c' t' e') Γ₂
  | loop {Γ Γ' : Meaning} {line : Nat} {c c' : Expr} {s s' : Stmt} :
      Typed cx.decls Γ c c' [.int] → Accepted cx Γ s s' Γ' →
      Accepted cx Γ (.loop line c s) (.loop line c' s') Γ'
  | leave {Γ : Meaning} {line : Nat} : cx.ret = .void →
      Accepted cx Γ (.ret line none) (.ret line none) Γ
  | ret {Γ : Meaning} {line : Nat} {e e' : Expr} : Typed cx.decls Γ e e' [cx.ret] →
      Accepted cx Γ (.ret line (some e)) (.ret line (some e')) Γ
  | newline {Γ : Meaning} {line : Nat} : Accepted cx Γ (.write line none) (.write line none) Γ
  | write {Γ : Meaning} {line : Nat} {e e' : Expr} {t : Ty} : Typed cx.decls Γ e e' [t] →
      t = .int ∨ t = .string →
      Accepted cx Γ (.write line (some e)) (.write line (some e')) Γ
  | absent {Γ : Meaning} : Accepted cx Γ .absent .absent Γ
  | present {Γ Γ' : Meaning} {s s' : Stmt} : Accepted cx Γ s s' Γ' →
      Accepted cx Γ (.present s) (.present s') Γ'
  | nil {Γ : Meaning} : Accepted cx Γ .nil .nil Γ
  | cons {Γ Γ₁ Γ₂ : Meaning} {s s' : Stmt} {rest rest' : Clause .seq} :
      Accepted cx Γ s s' Γ₁ → Accepted cx Γ₁ rest rest' Γ₂ →
      Accepted cx Γ (.cons s rest) (.cons s' rest') Γ₂
  | block {Γ Γ' : Meaning} {line size span : Nat} {ids : List DeclId} {stmts stmts' : Clause .seq} :
      Accepted cx (Γ.declare cx.decls ids) stmts stmts' Γ' →
      Accepted cx Γ (.block line ids stmts size span) (.block line ids stmts' size span)
        (cx.leave Γ Γ')

/-- The top-level names of some items. -/
def itemNames (decls : List Decl) (items : List Item) : Meaning := fun name =>
  (items.map Item.id).find? fun id => decls[id]?.any (·.name == name)

namespace Program

/-- Two programs with the same items, the second one with every body bound and typed
by the rules. The body of a function sees its parameters, the items before it and itself. -/
structure TypedAs (p q : Program) (scope : Scope) : Prop where
  decls : q.decls = p.decls
  length : q.items.length = p.items.length
  vars : ∀ (place : Nat) (id : DeclId), p.items[place]? = some (.var id) →
    q.items[place]? = some (.var id)
  funcs : ∀ (place : Nat) (f : Func) (d : Decl), p.items[place]? = some (.func f) →
    p.decls[f.decl]? = some d →
    ∃ body Γ, q.items[place]? = some (.func { f with body }) ∧
      Accepted { decls := p.decls, scope, ret := d.ty }
        ((itemNames p.decls (p.items.take (place + 1))).declare p.decls d.params) f.body body Γ

end Program

end Backend
