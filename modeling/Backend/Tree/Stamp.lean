import Backend.Tree.Clause

/-! # Filling in missing lines

Stamping gives a line to every node that has none. It descends into expressions
and into the branches of `if` and `while`; of a block it reaches only the block's
own line.
-/

namespace Backend

/-- The line, or the given one where it is missing. -/
def orLine (own line : Nat) : Nat := if own = 0 then line else own

def Mark.stamp (m : Mark) (line : Nat) : Mark := { m with line := orLine m.line line }

namespace Node

def stamp {l : Layer} (line : Nat) : Node l → Node l
  | .assign m t v => .assign (m.stamp line) (t.stamp line) (v.stamp line)
  | .comp m x => .comp (m.stamp line) (x.stamp line)
  | .setVar m x => .setVar (m.stamp line) x
  | .setElem m x i => .setElem (m.stamp line) x (i.stamp line)
  | .setDeref m x => .setDeref (m.stamp line) x
  | .sum m x => .sum (m.stamp line) (x.stamp line)
  | .rel m a op b => .rel (m.stamp line) (a.stamp line) op (b.stamp line)
  | .term m x => .term (m.stamp line) (x.stamp line)
  | .add m a op b => .add (m.stamp line) (a.stamp line) op (b.stamp line)
  | .unary m x => .unary (m.stamp line) (x.stamp line)
  | .mul m a op b => .mul (m.stamp line) (a.stamp line) op (b.stamp line)
  | .neg m x => .neg (m.stamp line) (x.stamp line)
  | .addrOf m x => .addrOf (m.stamp line) (x.stamp line)
  | .deref m x => .deref (m.stamp line) (x.stamp line)
  | .factor m x => .factor (m.stamp line) (x.stamp line)
  | .paren m x => .paren (m.stamp line) (x.stamp line)
  | .var m x => .var (m.stamp line) x
  | .elem m x i => .elem (m.stamp line) x (i.stamp line)
  | .call m f as => .call (m.stamp line) f (as.stamp line)
  | .num m n => .num (m.stamp line) n
  | .str m s => .str (m.stamp line) s
  | .read m => .read (m.stamp line)
  | .nil => .nil
  | .cons e es => .cons (e.stamp line) (es.stamp line)

/-- The same node with another line of its own. -/
def withLine {l : Layer} (line : Nat) : Node l → Node l
  | .assign m t v => .assign { m with line } t v
  | .comp m x => .comp { m with line } x
  | .setVar m x => .setVar { m with line } x
  | .setElem m x i => .setElem { m with line } x i
  | .setDeref m x => .setDeref { m with line } x
  | .sum m x => .sum { m with line } x
  | .rel m a op b => .rel { m with line } a op b
  | .term m x => .term { m with line } x
  | .add m a op b => .add { m with line } a op b
  | .unary m x => .unary { m with line } x
  | .mul m a op b => .mul { m with line } a op b
  | .neg m x => .neg { m with line } x
  | .addrOf m x => .addrOf { m with line } x
  | .deref m x => .deref { m with line } x
  | .factor m x => .factor { m with line } x
  | .paren m x => .paren { m with line } x
  | .var m x => .var { m with line } x
  | .elem m x i => .elem { m with line } x i
  | .call m f as => .call { m with line } f as
  | .num m n => .num { m with line } n
  | .str m s => .str { m with line } s
  | .read m => .read { m with line }
  | .nil => .nil
  | .cons e es => .cons e es

/-- Put a node on a line, and with it every part that has no line. -/
def atLine {l : Layer} (line : Nat) (x : Node l) : Node l :=
  (x.stamp line).withLine line

end Node

namespace Clause

def stamp {f : Form} (line : Nat) : Clause f → Clause f
  | .eval own e => .eval (orLine own line) (e.map (·.stamp line))
  | .braces own (.block inner locals stmts size span) =>
      .braces (orLine own line) (.block (orLine inner line) locals stmts size span)
  | .ifElse own c t e => .ifElse (orLine own line) (c.stamp line) (t.stamp line) (e.stamp line)
  | .loop own c s => .loop (orLine own line) (c.stamp line) (s.stamp line)
  | .ret own e => .ret (orLine own line) (e.map (·.stamp line))
  | .write own e => .write (orLine own line) (e.map (·.stamp line))
  | .absent => .absent
  | .present s => .present (s.stamp line)
  | .nil => .nil
  | .cons s ss => .cons (s.stamp line) (ss.stamp line)
  | .block inner locals stmts size span => .block (orLine inner line) locals stmts size span

/-- The same statement with another line of its own. -/
def withLine (line : Nat) : Stmt → Stmt
  | .eval _ e => .eval line e
  | .braces _ b => .braces line b
  | .ifElse _ c t e => .ifElse line c t e
  | .loop _ c s => .loop line c s
  | .ret _ e => .ret line e
  | .write _ e => .write line e

end Clause

/-- Put a statement on a line, and with it every part that stamping reaches. -/
def Stmt.atLine (line : Nat) (s : Stmt) : Stmt :=
  (Clause.stamp line (s.withLine line))

end Backend
