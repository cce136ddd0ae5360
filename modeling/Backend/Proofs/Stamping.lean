import Backend.Proofs.MissingLines
import Backend.Proofs.SourceOrder

/-! # What stamping reaches

Stamping a tree fills in the missing lines of all its parts but those inside a block: of a block
it reaches the line of its own and nothing else. Parts are found by their positions, so that each
line can be followed from the tree to the stamped one.
-/

namespace Backend

/-- A node without any lines. -/
def Node.unlined {l : Layer} (x : Node l) : Node l := x.mapLine fun _ => 0

/-- The line a node has of its own. An argument list has none. -/
def Node.line? {l : Layer} : Node l → Option Nat
  | .nil | .cons .. => none
  | x => some x.line

/-- The line a statement or block has of its own. -/
def Clause.line? {f : Form} : Clause f → Option Nat
  | .eval line _ | .braces line _ | .ifElse line .. | .loop line .. | .ret line _ | .write line _
  | .block line .. => some line
  | .absent | .present _ | .nil | .cons .. => none

namespace Fragment

def line? : Fragment → Option Nat
  | .program _ | .item _ => none
  | .clause c => c.line?
  | .node x => x.line?

/-- The line of the part at a position. -/
def lineAt? (x : Fragment) (position : List Nat) : Option Nat := (x.at? position).bind line?

/-- The position leads into a block: one of the parts above it is a block. -/
def InBlock (x : Fragment) (position : List Nat) : Prop :=
  ∃ (above below : List Nat) (i : Nat) (b : Block),
    position = above ++ i :: below ∧ x.at? above = some (clause b)

end Fragment

/-- What it means to fill in missing lines, for a sort of trees that are seen as fragments by
`part`: `stamp` does it, `atLine` puts the tree itself on the given line first, and `withLine`
changes the line of the tree itself only. -/
structure FillsMissingLines {α : Type} (part : α → Fragment) (unlined : α → α)
    (stamp atLine withLine : Nat → α → α) : Prop where
  /-- Nothing but lines is changed. -/
  unlined_stamp : ∀ line x, unlined (stamp line x) = unlined x
  /-- A line that is there is kept. -/
  keeps : ∀ line x position own, (part x).lineAt? position = some own → own ≠ 0 →
    (part (stamp line x)).lineAt? position = some own
  /-- A missing line that is not inside a block is filled in. -/
  fills : ∀ line x position, ¬ (part x).InBlock position → (part x).lineAt? position = some 0 →
    (part (stamp line x)).lineAt? position = some line
  /-- What is inside a block stays as it is. -/
  spares : ∀ line x position, (part x).InBlock position →
    (part (stamp line x)).at? position = (part x).at? position
  stamp_stamp : ∀ first second x, first ≠ 0 → stamp second (stamp first x) = stamp first x
  stamp_zero : ∀ x, stamp 0 x = x
  unlined_withLine : ∀ line x, unlined (withLine line x) = unlined x
  line_withLine : ∀ line x, (part (withLine line x)).line? = (part x).line?.map fun _ => line
  parts_withLine : ∀ line x, (part (withLine line x)).parts = (part x).parts
  atLine_atLine : ∀ first second x, first ≠ 0 →
    atLine second (atLine first x) = withLine second (atLine first x)

/-! ## Lines by position -/

theorem Clause.stamp_braces (line own : Nat) (b : Block) :
    (braces own b).stamp line = .braces (orLine own line) (b.stamp line) := by
  cases b
  rfl

namespace Fragment

/-- The second part is the first one stamped. -/
inductive Stamped (line : Nat) : Fragment → Fragment → Prop where
  | node {l : Layer} (x : Node l) : Stamped line (node x) (node (x.stamp line))
  | clause {f : Form} (c : Clause f) : Stamped line (clause c) (clause (c.stamp line))

theorem inBlock_cons {x : Fragment} {i : Nat} {rest : List Nat} :
    x.InBlock (i :: rest) ↔
      (∃ b : Block, x = clause b) ∨ ∃ y, x.parts[i]? = some y ∧ y.InBlock rest := by
  constructor
  · rintro ⟨above, below, j, b, hposition, hb⟩
    cases above with
    | nil => exact .inl ⟨b, Option.some.inj hb⟩
    | cons k above =>
        obtain ⟨rfl, rfl⟩ := List.cons.inj hposition
        obtain ⟨y, hy, hb⟩ := Option.bind_eq_some_iff.mp hb
        exact .inr ⟨y, hy, above, below, j, b, rfl, hb⟩
  · rintro (⟨b, rfl⟩ | ⟨y, hy, above, below, j, b, rfl, hb⟩)
    · exact ⟨[], rest, i, b, rfl, rfl⟩
    · exact ⟨i :: above, below, j, b, rfl, Option.bind_eq_some_iff.mpr ⟨y, hy, hb⟩⟩

theorem not_inBlock_nil (x : Fragment) : ¬ x.InBlock [] := by
  rintro ⟨above, below, i, b, hposition, -⟩
  simp at hposition

/-- The parts of an expression are expressions. -/
theorem exists_node_of_mem {l : Layer} {x : Node l} {y : Fragment} (h : y ∈ ofNode x) :
    ∃ (k : Layer) (z : Node k), y = node z := by
  cases x with
  | setVar | setDeref | var | num | str | read | nil => cases h
  | comp m x | sum m x | term m x | unary m x | neg m x | addrOf m x | deref m x | factor m x
  | paren m x | setElem m _ x | elem m _ x | call m _ x =>
      exact ⟨_, x, List.mem_singleton.mp h⟩
  | assign m a b | rel m a _ b | add m a _ b | mul m a _ b | cons a b =>
      rcases List.mem_pair.mp h with h | h
      · exact ⟨_, a, h⟩
      · exact ⟨_, b, h⟩

theorem not_inBlock_node {l : Layer} (x : Node l) (position : List Nat) :
    ¬ (node x).InBlock position := by
  induction position generalizing l x with
  | nil => exact not_inBlock_nil _
  | cons i rest ih =>
      rw [inBlock_cons]
      rintro (⟨b, h⟩ | ⟨y, hy, hrest⟩)
      · cases h
      · obtain ⟨k, z, rfl⟩ := exists_node_of_mem (List.mem_of_getElem? hy)
        exact ih z hrest

namespace Stamped

variable {line : Nat} {x y : Fragment}

theorem line?_eq (h : Stamped line x y) : y.line? = x.line?.map (orLine · line) := by
  cases h with
  | node x => cases x <;> rfl
  | clause c =>
      cases c with
      | braces own b =>
          rw [Clause.stamp_braces]
          rfl
      | _ => rfl

/-- Stamping goes on to the parts of everything but a block. -/
theorem forall₂_parts (h : Stamped line x y) (hx : ∀ b : Block, x ≠ .clause b) :
    List.Forall₂ (Stamped line) x.parts y.parts := by
  cases h with
  | node x =>
      cases x with
      | setVar | setDeref | var | num | str | read | nil => exact .nil
      | comp m x | sum m x | term m x | unary m x | neg m x | addrOf m x | deref m x | factor m x
      | paren m x | setElem m _ x | elem m _ x | call m _ x => exact .cons (.node x) .nil
      | assign m a b | rel m a _ b | add m a _ b | mul m a _ b | cons a b =>
          exact .cons (.node a) (.cons (.node b) .nil)
  | clause c =>
      cases c with
      | absent | nil => exact .nil
      | eval own e | ret own e | write own e =>
          cases e with
          | none => exact .nil
          | some e => exact .cons (.node e) .nil
      | braces own b =>
          rw [Clause.stamp_braces]
          exact .cons (.clause b) .nil
      | present s => exact .cons (.clause s) .nil
      | cons s rest => exact .cons (.clause s) (.cons (.clause rest) .nil)
      | loop own e s => exact .cons (.node e) (.cons (.clause s) .nil)
      | ifElse own e s t => exact .cons (.node e) (.cons (.clause s) (.cons (.clause t) .nil))
      | block => exact absurd rfl (hx _)

theorem parts_block (b : Block) :
    (Fragment.clause (b.stamp line)).parts = (Fragment.clause b).parts := by
  cases b
  rfl

theorem rel_getElem? {xs ys : List Fragment} (h : List.Forall₂ (Stamped line) xs ys) (i : Nat) :
    Option.Rel (Stamped line) xs[i]? ys[i]? := by
  induction h generalizing i with
  | nil => exact .none
  | cons hxy _ ih =>
      cases i with
      | zero => exact .some hxy
      | succ i => exact ih i

/-- What stands at a position of a stamped part: inside a block what stood there, elsewhere what
stood there stamped. -/
theorem at?_cases (h : Stamped line x y) (position : List Nat) :
    x.InBlock position ∧ y.at? position = x.at? position ∨
      ¬ x.InBlock position ∧ Option.Rel (Stamped line) (x.at? position) (y.at? position) := by
  induction position generalizing x y with
  | nil => exact .inr ⟨x.not_inBlock_nil, .some h⟩
  | cons i rest ih =>
      simp only [inBlock_cons, at?]
      -- Only a block keeps its parts, so this is where the position can leave what is stamped.
      by_cases hx : ∃ b : Block, x = .clause b
      · obtain ⟨b, rfl⟩ := hx
        cases h
        exact .inl ⟨.inl ⟨b, rfl⟩, by rw [parts_block]⟩
      · have hparts := rel_getElem? (h.forall₂_parts fun b hb => hx ⟨b, hb⟩) i
        generalize x.parts[i]? = x' at hparts ⊢
        generalize y.parts[i]? = y' at hparts ⊢
        cases hparts with
        | none => exact .inr ⟨by simp [hx], .none⟩
        | some hpart => simpa [hx] using ih hpart

theorem spares (h : Stamped line x y) (position : List Nat) (hin : x.InBlock position) :
    y.at? position = x.at? position := by
  rcases h.at?_cases position with ⟨-, heq⟩ | ⟨hout, -⟩
  · exact heq
  · exact absurd hin hout

theorem lineAt?_eq (h : Stamped line x y) (position : List Nat) (hout : ¬ x.InBlock position) :
    y.lineAt? position = (x.lineAt? position).map (orLine · line) := by
  rcases h.at?_cases position with ⟨hin, -⟩ | ⟨-, hrel⟩
  · exact absurd hin hout
  · unfold lineAt?
    generalize x.at? position = x' at hrel ⊢
    generalize y.at? position = y' at hrel ⊢
    cases hrel with
    | none => rfl
    | some hpart => exact hpart.line?_eq

theorem keeps (h : Stamped line x y) (position : List Nat) (own : Nat)
    (hown : x.lineAt? position = some own) (hne : own ≠ 0) : y.lineAt? position = some own := by
  by_cases hin : x.InBlock position
  · rw [lineAt?, h.spares position hin]
    exact hown
  · rw [h.lineAt?_eq position hin, hown, Option.map_some, orLine_of_ne_zero hne]

theorem fills (h : Stamped line x y) (position : List Nat) (hout : ¬ x.InBlock position)
    (hzero : x.lineAt? position = some 0) : y.lineAt? position = some line := by
  rw [h.lineAt?_eq position hout, hzero]
  rfl

end Stamped

end Fragment

/-! ## Laws of stamping -/

theorem orLine_zero (own : Nat) : orLine own 0 = own := by
  by_cases hown : own = 0
  · simp [orLine, hown]
  · simp [orLine, hown]

theorem orLine_self (line : Nat) : orLine line line = line := by
  simp [orLine]

namespace Node

variable {l : Layer} (x : Node l)

theorem stamp_zero : x.stamp 0 = x := by
  simp only [stamp_eq_mapLine, orLine_zero, mapLine_self]

theorem stamp_withLine (line own : Nat) :
    (x.withLine own).stamp line = (x.stamp line).withLine (orLine own line) := by
  cases x <;> rfl

theorem fillsMissingLines (l : Layer) :
    FillsMissingLines (Fragment.node (l := l)) unlined stamp atLine withLine where
  unlined_stamp line x := x.mapLine_stamp line 0
  keeps line x := (Fragment.Stamped.node x).keeps
  fills line x := (Fragment.Stamped.node x).fills
  spares line x := (Fragment.Stamped.node x).spares
  stamp_stamp first second x hfirst := x.stamp_stamp hfirst second
  stamp_zero x := x.stamp_zero
  unlined_withLine line x := by cases x <;> rfl
  line_withLine line x := by cases x <;> rfl
  parts_withLine line x := by cases x <;> rfl
  atLine_atLine first second x hfirst := by
    rw [atLine, atLine, stamp_withLine, orLine_of_ne_zero hfirst, stamp_stamp x hfirst]

end Node

namespace Clause

variable {f : Form} (c : Clause f)

theorem unlined_stamp (line : Nat) : (c.stamp line).unlined = c.unlined := by
  induction c with
  | absent | nil => rfl
  | eval own e | ret own e | write own e =>
      cases e with
      | none => rfl
      | some e =>
          rw [stamp, unlined, unlined, reline, reline]
          simp only [Option.map_some, Node.mapLine_stamp]
  | braces own b ih =>
      rw [stamp_braces, unlined, unlined, reline, reline, reline_zero, reline_zero, ih]
  | block inner ids stmts size span =>
      rw [stamp, unlined, unlined, reline, reline, reline_zero, reline_zero]
  | present s ih =>
      rw [stamp, unlined, unlined, reline, reline, reline_zero, reline_zero, ih]
  | cons s rest ihs ihrest =>
      rw [stamp, unlined, unlined, reline, reline]
      simp only [reline_zero, ihs, ihrest]
  | loop own e s ih =>
      rw [stamp, unlined, unlined, reline, reline]
      simp only [reline_zero, Node.mapLine_stamp, ih]
  | ifElse own e s t ihs iht =>
      rw [stamp, unlined, unlined, reline, reline]
      simp only [reline_zero, Node.mapLine_stamp, ihs, iht]

theorem stamp_stamp {first : Nat} (hfirst : first ≠ 0) (second : Nat) :
    (c.stamp first).stamp second = c.stamp first := by
  induction c with
  | absent | nil => rfl
  | eval own e | ret own e | write own e =>
      cases e <;> simp only [stamp, Option.map_none, Option.map_some,
        orLine_orLine_of_ne_zero hfirst, Node.stamp_stamp _ hfirst]
  | braces own b ih => simp only [stamp_braces, orLine_orLine_of_ne_zero hfirst, ih]
  | present s ih => simp only [stamp, ih]
  | loop own e s ih =>
      simp only [stamp, orLine_orLine_of_ne_zero hfirst, Node.stamp_stamp _ hfirst, ih]
  | cons s rest ihs ihrest => simp only [stamp, ihs, ihrest]
  | ifElse own e s t ihs iht =>
      simp only [stamp, orLine_orLine_of_ne_zero hfirst, Node.stamp_stamp _ hfirst, ihs, iht]
  | block inner ids stmts size span => simp only [stamp, orLine_orLine_of_ne_zero hfirst]

theorem stamp_zero : c.stamp 0 = c := by
  induction c with
  | absent | nil => rfl
  | eval own e | ret own e | write own e =>
      cases e <;> simp only [stamp, Option.map_none, Option.map_some, orLine_zero, Node.stamp_zero]
  | braces own b ih => simp only [stamp_braces, orLine_zero, ih]
  | present s ih => simp only [stamp, ih]
  | loop own e s ih => simp only [stamp, orLine_zero, Node.stamp_zero, ih]
  | cons s rest ihs ihrest => simp only [stamp, ihs, ihrest]
  | ifElse own e s t ihs iht => simp only [stamp, orLine_zero, Node.stamp_zero, ihs, iht]
  | block inner ids stmts size span => simp only [stamp, orLine_zero]

end Clause

namespace Stmt

variable (s : Stmt)

theorem stamp_withLine (line own : Nat) :
    Clause.stamp line (s.withLine own) = (Clause.stamp line s).withLine (orLine own line) := by
  cases s with
  | braces own b => simp only [Clause.withLine, Clause.stamp_braces]
  | _ => rfl

theorem atLine_eq (line : Nat) : s.atLine line = (Clause.stamp line s).withLine line := by
  rw [atLine, stamp_withLine, orLine_self]

theorem withLine_withLine (first second : Nat) :
    (s.withLine first).withLine second = s.withLine second := by
  cases s <;> rfl

theorem unlined_withLine (line : Nat) : Clause.unlined (s.withLine line) = Clause.unlined s := by
  cases s with
  | eval | ret | write => rfl
  | braces | ifElse | loop =>
      rw [Clause.withLine, Clause.unlined, Clause.unlined, Clause.reline, Clause.reline]
      simp only [Clause.reline_zero]

theorem fillsMissingLines :
    FillsMissingLines (Fragment.clause (f := .stmt)) Clause.unlined Clause.stamp atLine
      Clause.withLine where
  unlined_stamp line s := s.unlined_stamp line
  keeps line s := (Fragment.Stamped.clause s).keeps
  fills line s := (Fragment.Stamped.clause s).fills
  spares line s := (Fragment.Stamped.clause s).spares
  stamp_stamp first second s hfirst := s.stamp_stamp hfirst second
  stamp_zero s := s.stamp_zero
  unlined_withLine line s := unlined_withLine s line
  line_withLine line s := by cases s <;> rfl
  parts_withLine line s := by cases s <;> rfl
  atLine_atLine first second s hfirst := by
    rw [atLine_eq _ second, atLine_eq, stamp_withLine, orLine_of_ne_zero hfirst,
      Clause.stamp_stamp s hfirst, withLine_withLine]

end Stmt

/-- Stamping fills in exactly the missing lines that it reaches: in an expression all of them, in
a statement those that are not inside a block. -/
theorem stamp_fills_missing_lines :
    (∀ l : Layer,
      FillsMissingLines (Fragment.node (l := l)) Node.unlined Node.stamp Node.atLine
        Node.withLine ∧
      ∀ (x : Node l) (position : List Nat), ¬ (Fragment.node x).InBlock position) ∧
    FillsMissingLines (Fragment.clause (f := .stmt)) Clause.unlined Clause.stamp Stmt.atLine
      Clause.withLine := by
  refine ⟨?_, Stmt.fillsMissingLines⟩
  intro l
  exact ⟨Node.fillsMissingLines l, Fragment.not_inBlock_node⟩

namespace Guarded

/-- A loop over a block in a branch, with a line on one operand of the condition only. -/
def stmt : Stmt :=
  .ifElse (.add (.var "a") .add ((Piece.num 1).atLine 9))
    (.loop (.var "a") (.block (.ofStmts [0] [.expr (.setVar "a" (.num 1))]))) .writeln

/-- The block in the loop gets the line and the statement in the block does not. -/
theorem stamped_down_to_block :
    (Fragment.clause (stmt.stamp 4)).lineAt? [1, 1, 0] = some 4 ∧
      (Fragment.clause (stmt.stamp 4)).lineAt? [1, 1, 0, 0, 0] = some 0 ∧
      (Fragment.clause (stmt.stamp 4)).lineAt? [0, 0, 0, 1] = some 9 ∧
      (stmt.atLine 4).atLine 7 = Clause.withLine 7 (stmt.atLine 4) := by
  obtain ⟨-, h⟩ := stamp_fills_missing_lines
  have hblock : ¬ (Fragment.clause stmt).InBlock [1, 1, 0] := by
    simp [Fragment.inBlock_cons, Fragment.not_inBlock_nil, stmt, Stmt.ifElse, Stmt.loop,
      Stmt.block, Fragment.parts, Fragment.ofClause]
  have hstmt : (Fragment.clause stmt).InBlock [1, 1, 0, 0, 0] := ⟨[1, 1, 0], [0], 0, _, rfl, rfl⟩
  refine ⟨h.fills 4 stmt _ hblock rfl, ?_, h.keeps 4 stmt _ 9 rfl (by decide),
    h.atLine_atLine 4 7 stmt (by decide)⟩
  rw [Fragment.lineAt?, h.spares 4 stmt _ hstmt]
  rfl

end Guarded

end Backend
