import Backend.Document.Encode

/-! # Trees from documents

Reading takes a document apart by the same rules as writing puts it together. What
the passes fill in may be left out: lines and types of nodes, sizes, spans, bindings
and slots. Fields with other names are passed over. Anything else is refused.
-/

namespace Backend

def Ident.decode? (d : Doc) : Option Ident := do
  let name ← d.required? "name" Doc.text?
  let decl ← d.optional? "decl" Doc.word?
  return { name, decl }

def Slot.decode? (d : Doc) : Option Slot := do
  let depth ← d.required? "depth" Doc.word?
  let position ← d.required? "position" Doc.word?
  return { depth, position }

def DeclKind.decode? : Doc → Option DeclKind
  | .str "Var" => some .var
  | .str "Pointer" => some .pointer
  | .str "Param" => some .param
  | .str "ArrayParam" => some .arrayParam
  | .str "PointerParam" => some .pointerParam
  | .obj [("Array", x)] => return .array (← x.word?)
  | .obj [("Func", x)] => return .func (← x.list? Doc.word?)
  | _ => none

def Decl.decode? (d : Doc) : Option Decl := do
  let line ← d.required? "line" Doc.word?
  let name ← d.required? "name" Doc.text?
  let base ← d.required? "base" Base.decode?
  let kind ← d.required? "kind" DeclKind.decode?
  let slot ← d.optional? "slot" Slot.decode?
  return { line, name, base, kind, slot }

def Mark.decode? (d : Doc) : Option Mark := do
  let line ← d.default? "line" 0 Doc.word?
  let ty ← d.default? "ty" .none Ty.decode?
  return { line, ty }

/-- The mark of a node, the name of its alternative and what that holds. -/
def Mark.variant? (d : Doc) : Option (Mark × String × d.Part) := do
  let m ← Mark.decode? d
  let ⟨kind, hkind⟩ ← d.field? "kind"
  let (tag, ⟨x, hx⟩) ← kind.variant?
  return (m, tag, ⟨x, Nat.lt_trans hx hkind⟩)

namespace Node

def decode? (l : Layer) (d : Doc) : Option (Node l) :=
  match l with
  | .expr => do
      let (m, tag, ⟨x, _⟩) ← Mark.variant? d
      match tag with
      | "Assign" =>
          let (⟨t, _⟩, ⟨v, _⟩) ← x.pair?
          return .assign m (← decode? .target t) (← decode? .expr v)
      | "Comp" => return .comp m (← decode? .comp x)
      | _ => none
  | .target => do
      let (m, tag, ⟨x, _⟩) ← Mark.variant? d
      match tag with
      | "Id" => return .setVar m (← Ident.decode? x)
      | "Index" =>
          let (⟨a, _⟩, ⟨i, _⟩) ← x.pair?
          return .setElem m (← Ident.decode? a) (← decode? .expr i)
      | "Deref" => return .setDeref m (← Ident.decode? x)
      | _ => none
  | .comp => do
      let (m, tag, ⟨x, _⟩) ← Mark.variant? d
      match tag with
      | "Sum" => return .sum m (← decode? .sum x)
      | "Rel" =>
          let (⟨a, _⟩, ⟨op, _⟩, ⟨b, _⟩) ← x.triple?
          return .rel m (← decode? .sum a) (← RelOp.decode? op) (← decode? .sum b)
      | _ => none
  | .sum => do
      let (m, tag, ⟨x, _⟩) ← Mark.variant? d
      match tag with
      | "Term" => return .term m (← decode? .term x)
      | "Bin" =>
          let (⟨a, _⟩, ⟨op, _⟩, ⟨b, _⟩) ← x.triple?
          return .add m (← decode? .sum a) (← AddOp.decode? op) (← decode? .term b)
      | _ => none
  | .term => do
      let (m, tag, ⟨x, _⟩) ← Mark.variant? d
      match tag with
      | "Unary" => return .unary m (← decode? .unary x)
      | "Bin" =>
          let (⟨a, _⟩, ⟨op, _⟩, ⟨b, _⟩) ← x.triple?
          return .mul m (← decode? .term a) (← MulOp.decode? op) (← decode? .unary b)
      | _ => none
  | .unary => do
      let (m, tag, ⟨x, _⟩) ← Mark.variant? d
      match tag with
      | "Neg" => return .neg m (← decode? .unary x)
      | "AddrOf" => return .addrOf m (← decode? .factor x)
      | "Deref" => return .deref m (← decode? .factor x)
      | "Factor" => return .factor m (← decode? .factor x)
      | _ => none
  | .factor =>
      if d.required? "kind" Doc.text? = some "Read" then do return .read (← Mark.decode? d)
      else do
        let (m, tag, ⟨x, _⟩) ← Mark.variant? d
        match tag with
        | "Paren" => return .paren m (← decode? .expr x)
        | "Id" => return .var m (← Ident.decode? x)
        | "Index" =>
            let (⟨a, _⟩, ⟨i, _⟩) ← x.pair?
            return .elem m (← Ident.decode? a) (← decode? .expr i)
        | "Call" =>
            let (⟨f, _⟩, ⟨as, _⟩) ← x.pair?
            return .call m (← Ident.decode? f) (← decode? .args as)
        | "Num" => return .num m (← x.signed?)
        | "Str" => return .str m (← x.text?)
        | _ => none
  | .args =>
      match d with
      | .arr [] => some .nil
      | .arr (x :: rest) => do return .cons (← decode? .expr x) (← decode? .args (.arr rest))
      | _ => none
termination_by sizeOf d
decreasing_by
  all_goals simp_wf
  all_goals omega

end Node

/-- An expression, or null for none. -/
def Node.decodeOption? : Doc → Option (Option Expr)
  | .null => some none
  | d => (Node.decode? .expr d).map some

namespace Clause

def decode? (f : Form) (d : Doc) : Option (Clause f) :=
  match f with
  | .stmt => do
      let line ← d.required? "line" Doc.word?
      let ⟨kind, _⟩ ← d.field? "kind"
      let (tag, ⟨x, _⟩) ← kind.variant?
      match tag with
      | "Expr" => return .eval line (← Node.decodeOption? x)
      | "Block" => return .braces line (← decode? .block x)
      | "If" =>
          let (⟨c, _⟩, ⟨t, _⟩, ⟨e, _⟩) ← x.triple?
          return .ifElse line (← Node.decode? .expr c) (← decode? .stmt t) (← decode? .alt e)
      | "While" =>
          let (⟨c, _⟩, ⟨s, _⟩) ← x.pair?
          return .loop line (← Node.decode? .expr c) (← decode? .stmt s)
      | "Return" => return .ret line (← Node.decodeOption? x)
      | "Write" => return .write line (← Node.decodeOption? x)
      | _ => none
  | .alt =>
      match d with
      | .null => some .absent
      | d => do return .present (← decode? .stmt d)
  | .seq =>
      match d with
      | .arr [] => some .nil
      | .arr (x :: rest) => do return .cons (← decode? .stmt x) (← decode? .seq (.arr rest))
      | _ => none
  | .block => do
      let line ← d.required? "line" Doc.word?
      let locals ← d.required? "locals" (Doc.list? Doc.word?)
      let ⟨stmts, _⟩ ← d.field? "stmts"
      let stmts ← decode? .seq stmts
      let size ← d.default? "size" 0 Doc.word?
      let span ← d.default? "span" 0 Doc.word?
      return .block line locals stmts size span
termination_by (sizeOf d, if f = .alt then 1 else 0)
decreasing_by
  all_goals simp_wf
  all_goals omega

end Clause

def Func.decode? (d : Doc) : Option Func := do
  let decl ← d.required? "decl" Doc.word?
  let body ← d.required? "body" (Clause.decode? .block)
  let frameSize ← d.default? "frame_size" 0 Doc.word?
  return { decl, body, frameSize }

def Item.decode? (d : Doc) : Option Item := do
  let (tag, ⟨x, _⟩) ← d.variant?
  match tag with
  | "Var" => return .var (← x.word?)
  | "Func" => return .func (← Func.decode? x)
  | _ => none

def Program.decode? (d : Doc) : Option Program := do
  let decls ← d.required? "decls" (Doc.list? Decl.decode?)
  let items ← d.required? "items" (Doc.list? Item.decode?)
  return { decls, items }

end Backend
