import Backend.Resolve.Clause

/-! # Binding and typing programs

Items are resolved in order. A name becomes known at its item, and a function's
already in its own body; names of later items are not known yet.
-/

namespace Backend

/-- Refuse parameters that are out of range or declared void. -/
def checkParams (decls : List Decl) : List DeclId → Except Error Unit
  | [] => .ok ()
  | id :: rest => do
      let d ← declared decls id
      d.checkVariable
      checkParams decls rest

namespace Item

/-- Resolve an item, and give the top-level names known behind it. -/
def resolve (decls : List Decl) (scope : Scope) (globals : Globals) :
    Item → Item × Except Error Globals
  | .var id =>
      (.var id, do
        let d ← declared decls id
        d.checkVariable
        globals.insert d id)
  | .func f =>
      let known : Except Error (Decl × Globals) := do
        let d ← declared decls f.decl
        let globals ← globals.insert d f.decl
        checkParams decls d.params
        return (d, globals)
      match known with
      | .error e => (.func f, .error e)
      | .ok (d, globals) =>
          let body := f.body.resolve { decls, globals, ret := d.ty, scope } d.line d.params.reverse
          (.func { f with body := body.1 }, body.2.map fun _ => globals)

/-- Resolve items up to the first that is refused. -/
def resolveAll (decls : List Decl) (scope : Scope) :
    Globals → List Item → List Item × Except Error Unit
  | _, [] => ([], .ok ())
  | globals, item :: rest =>
      match item.resolve decls scope globals with
      | (item', .error e) => (item' :: rest, .error e)
      | (item', .ok globals) =>
          let rest' := resolveAll decls scope globals rest
          (item' :: rest'.1, rest'.2)

end Item

/-- Bind every name and type every expression, up to the first error. -/
def Program.resolve (p : Program) (scope : Scope) : Program × Except Error Unit :=
  let items := Item.resolveAll p.decls scope [] p.items
  ({ p with items := items.1 }, items.2)

end Backend
