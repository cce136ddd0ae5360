import Backend.Document.Names
import Backend.Tree.Program

/-! # Trees as documents

A record is an object with a field for each of its parts. A choice is an object with
one field, named for the alternative, or just that name where the alternative holds
nothing. Every field is written, except that an unbound name has no `decl` and a
declaration without storage no `slot`.
-/

namespace Backend

def Ident.encode (x : Ident) : Doc :=
  .obj (("name", .str x.name) ::
    match x.decl with
    | some id => [("decl", .ofNat id)]
    | none => [])

def Slot.encode (s : Slot) : Doc :=
  .obj [("depth", .ofNat s.depth), ("position", .ofNat s.position)]

def DeclKind.encode : DeclKind → Doc
  | .var => .str "Var"
  | .array length => .tagged "Array" (.ofNat length)
  | .pointer => .str "Pointer"
  | .param => .str "Param"
  | .arrayParam => .str "ArrayParam"
  | .pointerParam => .str "PointerParam"
  | .func params => .tagged "Func" (.arr (params.map .ofNat))

def Decl.encode (d : Decl) : Doc :=
  .obj ([("line", .ofNat d.line), ("name", .str d.name), ("base", d.base.encode),
      ("kind", d.kind.encode)] ++
    match d.slot with
    | some slot => [("slot", slot.encode)]
    | none => [])

/-- A node with its mark. -/
def Mark.encode (m : Mark) (kind : Doc) : Doc :=
  .obj [("line", .ofNat m.line), ("ty", m.ty.encode), ("kind", kind)]

namespace Node

/-- The document of a node. That of an argument list is a list. -/
def encode {l : Layer} : Node l → Doc
  | .assign m t v => m.encode (.tagged "Assign" (.arr [t.encode, v.encode]))
  | .comp m x => m.encode (.tagged "Comp" x.encode)
  | .setVar m x => m.encode (.tagged "Id" x.encode)
  | .setElem m x i => m.encode (.tagged "Index" (.arr [x.encode, i.encode]))
  | .setDeref m x => m.encode (.tagged "Deref" x.encode)
  | .sum m x => m.encode (.tagged "Sum" x.encode)
  | .rel m a op b => m.encode (.tagged "Rel" (.arr [a.encode, op.encode, b.encode]))
  | .term m x => m.encode (.tagged "Term" x.encode)
  | .add m a op b => m.encode (.tagged "Bin" (.arr [a.encode, op.encode, b.encode]))
  | .unary m x => m.encode (.tagged "Unary" x.encode)
  | .mul m a op b => m.encode (.tagged "Bin" (.arr [a.encode, op.encode, b.encode]))
  | .neg m x => m.encode (.tagged "Neg" x.encode)
  | .addrOf m x => m.encode (.tagged "AddrOf" x.encode)
  | .deref m x => m.encode (.tagged "Deref" x.encode)
  | .factor m x => m.encode (.tagged "Factor" x.encode)
  | .paren m x => m.encode (.tagged "Paren" x.encode)
  | .var m x => m.encode (.tagged "Id" x.encode)
  | .elem m x i => m.encode (.tagged "Index" (.arr [x.encode, i.encode]))
  | .call m x as => m.encode (.tagged "Call" (.arr [x.encode, as.encode]))
  | .num m n => m.encode (.tagged "Num" (.int n))
  | .str m text => m.encode (.tagged "Str" (.str text))
  | .read m => m.encode (.str "Read")
  | .nil => .arr []
  | .cons e es => .cons e.encode es.encode

end Node

/-- A statement with its line. -/
def stmtDoc (line : Nat) (kind : Doc) : Doc :=
  .obj [("line", .ofNat line), ("kind", kind)]

namespace Clause

/-- The document of a statement. That of a sequence is a list, and an absent branch
is null. -/
def encode {f : Form} : Clause f → Doc
  | .eval line e => stmtDoc line (.tagged "Expr" (.ofOption Node.encode e))
  | .braces line b => stmtDoc line (.tagged "Block" b.encode)
  | .ifElse line c t e => stmtDoc line (.tagged "If" (.arr [c.encode, t.encode, e.encode]))
  | .loop line c s => stmtDoc line (.tagged "While" (.arr [c.encode, s.encode]))
  | .ret line e => stmtDoc line (.tagged "Return" (.ofOption Node.encode e))
  | .write line e => stmtDoc line (.tagged "Write" (.ofOption Node.encode e))
  | .absent => .null
  | .present s => s.encode
  | .nil => .arr []
  | .cons s rest => .cons s.encode rest.encode
  | .block line locals stmts size span =>
      .obj [("line", .ofNat line), ("locals", .arr (locals.map .ofNat)), ("stmts", stmts.encode),
        ("size", .ofNat size), ("span", .ofNat span)]

end Clause

def Func.encode (f : Func) : Doc :=
  .obj [("decl", .ofNat f.decl), ("body", f.body.encode), ("frame_size", .ofNat f.frameSize)]

def Item.encode : Item → Doc
  | .var id => .tagged "Var" (.ofNat id)
  | .func f => .tagged "Func" f.encode

def Program.encode (p : Program) : Doc :=
  .obj [("decls", .arr (p.decls.map Decl.encode)), ("items", .arr (p.items.map Item.encode))]

end Backend
