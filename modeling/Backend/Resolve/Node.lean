import Backend.Resolve.Env

/-! # Binding and typing expressions

Resolving a node gives the node with its names bound and its types filled in,
together with its type or the first error. Parts are resolved from left to right
and work stops at the first error; what was filled in before it stays. A node's own
type is filled in only when the node is accepted.
-/

namespace Backend

/-- A node together with its type, or with the first error found in it. -/
abbrev Resolved (l : Layer) := Node l × Except Error Ty

/-- Fill in the type of a node that was accepted. -/
def Mark.close {l : Layer} (m : Mark) (build : Mark → Node l) (type : Except Error Ty) :
    Resolved l :=
  match type with
  | .ok ty => (build { m with ty }, .ok ty)
  | .error e => (build m, .error e)

/-- An operation on two integers. The right operand is looked at only when the left
one is an integer. -/
def Mark.integers {a b c : Layer} (m : Mark) (build : Mark → Node a → Node b → Node c)
    (line : Nat) (left : Resolved a) (rightBefore : Node b) (right : Resolved b) : Resolved c :=
  match left.2 >>= Ty.expect [.int] line with
  | .error e => (build m left.1 rightBefore, .error e)
  | .ok _ => m.close (build · left.1 right.1) (right.2 >>= Ty.expect [.int] line)

/-- An array element. The index is looked at only when the name means an array. -/
def Mark.element {l : Layer} (m : Mark) (build : Mark → Ident → Expr → Node l) (env : Env)
    (line : Nat) (x : Ident) (before : Expr) (index : Resolved .expr) : Resolved l :=
  match env.bindVariable x line with
  | (x', .error e) => (build m x' before, .error e)
  | (x', .ok array) =>
      match array.element with
      | none => (build m x' before, .error (.mismatch [.intArray, .stringArray] array line))
      | some element =>
          m.close (build · x' index.1)
            ((index.2 >>= Ty.expect [.int] (env.lineOf before.line)).map fun _ => element)

/-- The type behind a pointer. -/
def Ty.follow (line : Nat) (pointer : Ty) : Except Error Ty :=
  match pointer.pointee with
  | .some t => .ok t
  | .none => .error (.mismatch [.intPtr, .stringPtr] pointer line)

namespace Node

/-- Bind the names of a node and find its type. `formals` are the parameters that an
argument list has to meet; other nodes do not look at them. -/
def resolve {l : Layer} (env : Env) : Node l → (formals : List DeclId := []) → Resolved l
  | .assign m target value, _ =>
      match target.resolve env with
      | (target', .error e) => (.assign m target' value, .error e)
      | (target', .ok t) =>
          let value' := value.resolve env
          m.close (.assign · target' value'.1)
            (value'.2 >>= Ty.expect [t.stored] (env.lineOf m.line))
  | .comp m x, _ =>
      let x' := x.resolve env
      m.close (.comp · x'.1) x'.2
  | .setVar m x, _ =>
      let line := env.lineOf m.line
      match env.bindVariable x line with
      | (x', .error e) => (.setVar m x', .error e)
      | (x', .ok t) =>
          m.close (.setVar · x') (if t.isArray then .error (.notAssignable x.name line) else .ok t)
  | .setElem m x index, _ =>
      m.element .setElem env (env.lineOf m.line) x index (index.resolve env)
  | .setDeref m x, _ =>
      let line := env.lineOf m.line
      let x' := env.bindVariable x line
      m.close (.setDeref · x'.1) (x'.2 >>= Ty.follow line)
  | .sum m x, _ =>
      let x' := x.resolve env
      m.close (.sum · x'.1) x'.2
  | .rel m a op b, _ =>
      m.integers (.rel · · op ·) (env.lineOf m.line) (a.resolve env) b (b.resolve env)
  | .term m x, _ =>
      let x' := x.resolve env
      m.close (.term · x'.1) x'.2
  | .add m a op b, _ =>
      m.integers (.add · · op ·) (env.lineOf m.line) (a.resolve env) b (b.resolve env)
  | .unary m x, _ =>
      let x' := x.resolve env
      m.close (.unary · x'.1) x'.2
  | .mul m a op b, _ =>
      m.integers (.mul · · op ·) (env.lineOf m.line) (a.resolve env) b (b.resolve env)
  | .neg m x, _ =>
      let x' := x.resolve env
      m.close (.neg · x'.1) (x'.2 >>= Ty.expect [.int] (env.lineOf m.line))
  | .addrOf m x, _ =>
      let line := env.lineOf m.line
      let x' := x.resolve env
      m.close (.addrOf · x'.1) do
        let t ← x'.2 >>= Ty.expect [.int, .string] line
        if x.place.isNone then throw (.notAddressable line)
        return t.addressOf.getD .none
  | .deref m x, _ =>
      let x' := x.resolve env
      m.close (.deref · x'.1) (x'.2 >>= Ty.follow (env.lineOf m.line))
  | .factor m x, _ =>
      let x' := x.resolve env
      m.close (.factor · x'.1) x'.2
  | .paren m x, _ =>
      let x' := x.resolve env
      m.close (.paren · x'.1) x'.2
  | .var m x, _ =>
      let x' := env.bindVariable x (env.lineOf m.line)
      m.close (.var · x'.1) x'.2
  | .elem m x index, _ =>
      m.element .elem env (env.lineOf m.line) x index (index.resolve env)
  | .call m x args, _ =>
      let line := env.lineOf m.line
      match env.bind x line with
      | (x', .error e) => (.call m x' args, .error e)
      | (x', .ok d) =>
          if d.isFunc then
            if d.params.length = args.count then
              let args' := args.resolve env d.params
              m.close (.call · x' args'.1) (args'.2.map fun _ => d.ty)
            else (.call m x' args, .error (.arity x.name d.params.length args.count line))
          else (.call m x' args, .error (.notCallable x.name line))
  | .num m n, _ => m.close (.num · n) (.ok .int)
  | .str m text, _ => m.close (.str · text) (.ok .string)
  | .read m, _ => m.close .read (.ok .int)
  | .nil, _ => (.nil, .ok .none)
  | .cons arg rest, [] => (.cons arg rest, .ok .none)
  | .cons arg rest, p :: formals =>
      match declared env.decls p with
      | .error e => (.cons arg rest, .error e)
      | .ok d =>
          let arg' := arg.resolve env
          match arg'.2 >>= Ty.expect [d.ty] (env.lineOf arg.line) with
          | .error e => (.cons arg'.1 rest, .error e)
          | .ok _ =>
              let rest' := rest.resolve env formals
              (.cons arg'.1 rest'.1, rest'.2)

end Node

end Backend
