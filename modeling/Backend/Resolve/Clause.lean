import Backend.Resolve.Node

/-! # Binding and typing statements

Statements are resolved in order. Each hands the locals in scope on to the next,
and a block's locals are in scope from its first statement on. Whether they stay in
scope behind the block is the choice of `Scope`.
-/

namespace Backend

/-- What stays the same throughout a function. -/
structure FuncEnv where
  decls : List Decl
  globals : Globals
  /-- The type of the values it returns. -/
  ret : Ty
  scope : Scope

namespace FuncEnv

def envAt (cx : FuncEnv) (line : Nat) (locals : List DeclId) : Env :=
  { decls := cx.decls, globals := cx.globals, locals, line }

/-- An expression that must have one of the given types, at a statement. -/
def expect (cx : FuncEnv) (line : Nat) (locals : List DeclId) (expected : List Ty) (e : Expr) :
    Expr × Except Error Unit :=
  let e' := e.resolve (cx.envAt line locals)
  (e'.1, (e'.2 >>= Ty.expect expected line).map fun _ => ())

/-- Bring locals into scope, one after the other. -/
def enter (cx : FuncEnv) : List DeclId → List DeclId → Except Error (List DeclId)
  | [], locals => .ok locals
  | id :: rest, locals => do
      let d ← declared cx.decls id
      d.checkVariable
      cx.enter rest (id :: locals)

end FuncEnv

namespace Clause

/-- Bind and type a statement that starts with the given enclosing line and locals,
and give the locals in scope behind it. -/
def resolve {f : Form} (cx : FuncEnv) : Clause f → (line : Nat) → (locals : List DeclId) →
    Clause f × Except Error (List DeclId)
  | .eval own none, _, locals => (.eval own none, .ok locals)
  | .eval own (some e), line, locals =>
      let e' := e.resolve (cx.envAt (orLine own line) locals)
      (.eval own (some e'.1), e'.2.map fun _ => locals)
  | .braces own b, line, locals =>
      let b' := b.resolve cx (orLine own line) locals
      (.braces own b'.1, b'.2)
  | .ifElse own c t e, line, locals =>
      let line := orLine own line
      match cx.expect line locals [.int] c with
      | (c', .error err) => (.ifElse own c' t e, .error err)
      | (c', .ok _) =>
          match t.resolve cx line locals with
          | (t', .error err) => (.ifElse own c' t' e, .error err)
          | (t', .ok locals) =>
              let e' := e.resolve cx line locals
              (.ifElse own c' t' e'.1, e'.2)
  | .loop own c s, line, locals =>
      let line := orLine own line
      match cx.expect line locals [.int] c with
      | (c', .error err) => (.loop own c' s, .error err)
      | (c', .ok _) =>
          let s' := s.resolve cx line locals
          (.loop own c' s'.1, s'.2)
  | .ret own none, line, locals =>
      (.ret own none, (Ty.expect [cx.ret] (orLine own line) .void).map fun _ => locals)
  | .ret own (some e), line, locals =>
      let e' := cx.expect (orLine own line) locals [cx.ret] e
      (.ret own (some e'.1), e'.2.map fun _ => locals)
  | .write own none, _, locals => (.write own none, .ok locals)
  | .write own (some e), line, locals =>
      let e' := cx.expect (orLine own line) locals [.int, .string] e
      (.write own (some e'.1), e'.2.map fun _ => locals)
  | .absent, _, locals => (.absent, .ok locals)
  | .present s, line, locals =>
      let s' := s.resolve cx line locals
      (.present s'.1, s'.2)
  | .nil, _, locals => (.nil, .ok locals)
  | .cons s rest, line, locals =>
      match s.resolve cx line locals with
      | (s', .error err) => (.cons s' rest, .error err)
      | (s', .ok locals) =>
          let rest' := rest.resolve cx line locals
          (.cons s' rest'.1, rest'.2)
  | .block own ids stmts size span, line, outer =>
      match cx.enter ids outer with
      | .error err => (.block own ids stmts size span, .error err)
      | .ok locals =>
          let stmts' := stmts.resolve cx (orLine own line) locals
          (.block own ids stmts'.1 size span,
            match cx.scope with
            | .function => stmts'.2
            | .block => stmts'.2.map fun _ => outer)

end Clause

end Backend
