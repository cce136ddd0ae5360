import Backend.Frame.Map
import Backend.Proofs.Erasure
import Backend.Proofs.Storage

/-! # Where arithmetic leaves its range

All arithmetic of the layout, of the frame map and of the generator is checked. For programs
of ordinary size it stays in range, with one exception. A local is addressed at the last one
of its positions, and a local array without elements that stands first in its frame has no
last position: the frame map overflows when it comes to such an array, and the generator
overflows when the program uses it.
-/

namespace Backend

/-- A local array without elements at the start of a frame. -/
def Decl.Unplaceable (d : Decl) : Prop :=
  d.width = 0 ∧ ∃ depth, bodyDepth ≤ depth ∧ d.slot = some ⟨depth, 0⟩

/-! ## The size of a tree -/

/-- The nodes of an expression. An argument list is not a node of its own. -/
def Node.nodes {l : Layer} : Node l → Nat
  | .assign _ t v => t.nodes + v.nodes + 1
  | .comp _ x => x.nodes + 1
  | .setElem _ _ i => i.nodes + 1
  | .sum _ x => x.nodes + 1
  | .rel _ a _ b => a.nodes + b.nodes + 1
  | .term _ x => x.nodes + 1
  | .add _ a _ b => a.nodes + b.nodes + 1
  | .unary _ x => x.nodes + 1
  | .mul _ a _ b => a.nodes + b.nodes + 1
  | .neg _ x => x.nodes + 1
  | .addrOf _ x => x.nodes + 1
  | .deref _ x => x.nodes + 1
  | .factor _ x => x.nodes + 1
  | .paren _ x => x.nodes + 1
  | .elem _ _ i => i.nodes + 1
  | .call _ _ as => as.nodes + 1
  | .setVar .. | .setDeref .. | .var .. | .num .. | .str .. | .read .. => 1
  | .nil => 0
  | .cons e es => e.nodes + es.nodes

/-- The nodes of a statement: statements, blocks, the locals they list and expressions. -/
def Clause.nodes {f : Form} : Clause f → Nat
  | .eval _ e => e.elim 0 Node.nodes + 1
  | .braces _ b => b.nodes + 1
  | .ifElse _ c t e => c.nodes + t.nodes + e.nodes + 1
  | .loop _ c s => c.nodes + s.nodes + 1
  | .ret _ e => e.elim 0 Node.nodes + 1
  | .write _ e => e.elim 0 Node.nodes + 1
  | .absent => 0
  | .present s => s.nodes
  | .nil => 0
  | .cons s rest => s.nodes + rest.nodes
  | .block _ ids stmts _ _ => ids.length + stmts.nodes + 1

/-- The nodes of items, with the parameters that functions list. -/
def Item.nodes (decls : List Decl) : List Item → Nat
  | [] => 0
  | .var _ :: rest => nodes decls rest + 1
  | .func f :: rest => (paramsAt decls f.decl).length + f.body.nodes + 1 + nodes decls rest

def Program.nodes (p : Program) : Nat := Item.nodes p.decls p.items

theorem Node.nodes_pos (e : Expr) : 0 < e.nodes := by
  cases e <;> simp [nodes]

theorem Node.count_le_nodes {l : Layer} (x : Node l) : x.count ≤ x.nodes := by
  induction x with
  | cons e es _ ih =>
      have hpos := e.nodes_pos
      simp only [count, nodes]
      omega
  | _ => simp [count]

theorem Node.length_literals_le {l : Layer} (x : Node l) : x.literals.length ≤ x.nodes := by
  induction x <;> simp only [literals, nodes, List.length_append, List.length_nil,
    List.length_singleton] <;> omega

namespace Clause

variable {f : Form} (c : Clause f)

theorem length_literals_le : c.literals.length ≤ c.nodes := by
  induction c with
  | eval line e | ret line e | write line e =>
      cases e with
      | none => simp [literals]
      | some e => exact Nat.le_succ_of_le e.length_literals_le
  | ifElse line e t s iht ihs =>
      have he := e.length_literals_le
      simp only [literals, nodes, List.length_append]
      omega
  | loop line e s ih =>
      have he := e.length_literals_le
      simp only [literals, nodes, List.length_append]
      omega
  | _ =>
      simp only [literals, nodes, List.length_append, List.length_nil]
      omega

theorem nesting_le : c.nesting ≤ c.nodes := by
  induction c <;> simp only [nesting, nodes] <;> omega

end Clause

/-! ## Computations that fail at one point only -/

/-- A computation that fails by an underflow exactly when something is lost. -/
def Sound {α : Type} (lost : Prop) (x : Except Overflow α) : Prop :=
  (¬ lost ∧ ∃ a, x = .ok a) ∨ (lost ∧ x = .error .sub)

namespace Sound

variable {α β : Type} {lost lost' : Prop} {x : Except Overflow α}

theorem ok (a : α) : Sound False (.ok a : Except Overflow α) := .inl ⟨fun h => h, a, rfl⟩

theorem bind {f : α → Except Overflow β} (hx : Sound lost x) (hf : ∀ a, Sound lost' (f a)) :
    Sound (lost ∨ lost') (x >>= f) := by
  rcases hx with ⟨hlost, a, rfl⟩ | ⟨hlost, rfl⟩
  · rcases hf a with ⟨hlost', b, hb⟩ | ⟨hlost', hb⟩
    · exact .inl ⟨not_or.mpr ⟨hlost, hlost'⟩, b, hb⟩
    · exact .inr ⟨.inr hlost', hb⟩
  · exact .inr ⟨.inl hlost, rfl⟩

theorem congr (h : Sound lost x) (hlost : lost ↔ lost') : Sound lost' x := by
  unfold Sound at h ⊢
  rwa [← hlost]

theorem eq_error_iff (h : Sound lost x) (o : Overflow) : x = .error o ↔ o = .sub ∧ lost := by
  rcases h with ⟨hlost, a, rfl⟩ | ⟨hlost, rfl⟩
  · simp [hlost]
  · simp [hlost, eq_comm]

end Sound

namespace Emit

variable {α β : Type}

/-- A computation that takes at most so many labels, and fails by an underflow exactly when
something is lost. -/
def Fits (labels : Nat) (lost : Prop) (x : Emit α) : Prop :=
  ∀ n, n + labels < Word.bound →
    (¬ lost ∧ ∃ a n', x n = .ok a n' ∧ n' ≤ n + labels) ∨
    (lost ∧ ∃ n', x n = .error (.overflow .sub) n')

namespace Fits

variable {labels labels' : Nat} {lost lost' : Prop} {x : Emit α}

theorem pure (a : α) : Fits 0 False (pure a : Emit α) := by
  intro n _
  exact .inl ⟨fun h => h, a, n, rfl, Nat.le_refl _⟩

theorem bind {f : α → Emit β} (hx : Fits labels lost x) (hf : ∀ a, Fits labels' lost' (f a)) :
    Fits (labels + labels') (lost ∨ lost') (x >>= f) := by
  intro n hn
  rcases hx n (by omega) with ⟨hlost, a, k, ha, hk⟩ | ⟨hlost, k, hx⟩
  · rcases hf a k (by omega) with ⟨hlost', b, n', hb, hn'⟩ | ⟨hlost', n', hb⟩
    · exact .inl ⟨not_or.mpr ⟨hlost, hlost'⟩, b, n', bind_eq_ok_iff.mpr ⟨a, k, ha, hb⟩, by omega⟩
    · exact .inr ⟨.inr hlost', n', bind_eq_error_iff.mpr (.inr ⟨a, k, ha, hb⟩)⟩
  · exact .inr ⟨.inl hlost, k, bind_eq_error_iff.mpr (.inl hx)⟩

theorem mono (h : Fits labels lost x) (hlabels : labels ≤ labels') (hlost : lost ↔ lost') :
    Fits labels' lost' x := by
  intro n hn
  rw [← hlost]
  rcases h n (by omega) with ⟨hlost, a, n', ha, hn'⟩ | h
  · exact .inl ⟨hlost, a, n', ha, by omega⟩
  · exact .inr h

/-- The last step of a computation neither takes labels nor fails. -/
theorem last (h : Fits labels lost x) {f : α → Emit β} (hf : ∀ a, Fits 0 False (f a)) :
    Fits labels lost (x >>= f) :=
  (h.bind hf).mono (Nat.le_refl _) (or_iff_left fun h => h)

theorem checked {x : Except Overflow α} (h : Sound lost x) : Fits 0 lost (checked x) := by
  intro n _
  rcases h with ⟨hlost, a, rfl⟩ | ⟨hlost, rfl⟩
  · exact .inl ⟨hlost, a, n, rfl, Nat.le_refl _⟩
  · exact .inr ⟨hlost, n, rfl⟩

theorem jumpLabel : Fits 1 False jumpLabel := by
  intro n hn
  exact .inl ⟨fun h => h, _, _, jumpLabel_eq_ok_iff.mpr ⟨hn, rfl, rfl⟩, Nat.le_refl _⟩

theorem literalLabel : Fits 1 False literalLabel := by
  intro n hn
  exact .inl ⟨fun h => h, _, _, literalLabel_eq_ok_iff.mpr ⟨hn, rfl, rfl⟩, Nat.le_refl _⟩

end Fits

end Emit

open Emit (Fits)

/-! ## Slots -/

/-- A slot where a declaration is put by the layout of a program with fewer than 2⁶⁰
positions and parameters. -/
structure Decl.Settled (d : Decl) : Prop where
  width : d.width < 0x1000_0000_0000_0000
  slot : ∃ depth position, d.slot = some ⟨depth, position⟩ ∧
    (depth = 0 ∨ (depth = 1 ∧ position + 2 < 0x1000_0000_0000_0000) ∨
      (bodyDepth ≤ depth ∧ position + d.width < 0x1000_0000_0000_0000))

namespace Decl.Settled

variable {d : Decl} (h : d.Settled)
include h

theorem size_eq : d.size = .ok (8 * d.width) := by
  have hwidth := h.width
  exact Word.mul_eq_ok_iff.mpr ⟨by unfold Word.bound; omega, rfl⟩

theorem sound_offset : Sound d.Unplaceable d.offset := by
  obtain ⟨depth, position, hslot, hdepth | ⟨hdepth, hposition⟩ | ⟨hdepth, hposition⟩⟩ := h.slot
  · subst hdepth
    refine .inl ⟨?_, none, by simp [offset, hslot]⟩
    rintro ⟨-, depth, hdepth, hslot'⟩
    cases hslot.symm.trans hslot'
    exact absurd hdepth (by decide)
  · subst hdepth
    refine .inl ⟨?_, _, offset_eq_of_param hslot hposition⟩
    rintro ⟨-, depth, hdepth, hslot'⟩
    cases hslot.symm.trans hslot'
    exact absurd hdepth (by decide)
  · rcases Nat.eq_zero_or_pos (position + d.width) with hzero | hpos
    · -- Nothing is below the base yet, and this takes nothing either.
      obtain ⟨rfl, hwidth⟩ := Nat.add_eq_zero_iff.mp hzero
      refine .inr ⟨⟨hwidth, depth, hdepth, hslot⟩, ?_⟩
      obtain ⟨k, rfl⟩ : ∃ k, depth = k + 2 := ⟨depth - 2, by simp only [bodyDepth] at hdepth; omega⟩
      simp only [offset, hslot, hwidth]
      rfl
    · refine .inl ⟨?_, _, offset_eq_of_local hslot hdepth hpos hposition⟩
      rintro ⟨hwidth, depth', -, hslot'⟩
      cases hslot.symm.trans hslot'
      omega

theorem fits_cell : Fits 0 d.Unplaceable d.cell := by
  obtain ⟨depth, position, hslot, -⟩ := h.slot
  simp only [cell, hslot]
  apply (Fits.checked h.sound_offset).last
  intro offset
  cases offset <;> exact .pure _

theorem fits_arrayBase : Fits 0 d.Unplaceable d.arrayBase := by
  apply h.fits_cell.last
  intro cell
  split <;> exact .pure _

theorem fits_load (access : Access) : Fits 0 d.Unplaceable (d.load access) := by
  cases access with
  | address => exact h.fits_cell.last fun _ => .pure _
  | value =>
      simp only [load]
      split
      · exact h.fits_arrayBase
      · exact h.fits_arrayBase
      · exact h.fits_cell.last fun _ => .pure _

end Decl.Settled

/-! ## Expressions and statements -/

/-- Some of the names mean something that has no place. -/
def CodeEnv.Lost (cx : CodeEnv) (names : List Ident) : Prop :=
  ∃ x ∈ names, ∃ id d, x.decl = some id ∧ cx.decls[id]? = some d ∧ d.Unplaceable

namespace CodeEnv

variable {cx : CodeEnv} {names names' : List Ident}

@[simp]
theorem lost_nil : cx.Lost [] ↔ False := by
  simp [Lost]

@[simp]
theorem lost_append : cx.Lost (names ++ names') ↔ cx.Lost names ∨ cx.Lost names' := by
  simp [Lost, or_and_right, exists_or]

theorem lost_cons {x : Ident} : cx.Lost (x :: names) ↔ cx.Lost [x] ∨ cx.Lost names :=
  @lost_append cx [x] names

theorem lost_singleton {x : Ident} {id : DeclId} {d : Decl} (hid : x.decl = some id)
    (hd : cx.decls[id]? = some d) : cx.Lost [x] ↔ d.Unplaceable := by
  simp [Lost, hid, hd]

/-- What the code of a node needs is there, and is put where the layout puts it. -/
structure Settles (cx : CodeEnv) {l : Layer} (x : Node l) : Prop extends cx.Covers x where
  settled : ∀ y ∈ x.uses, ∀ id d, y.decl = some id → cx.decls[id]? = some d → d.Settled

theorem Settles.mono {l l' : Layer} {x : Node l} {y : Node l'} (h : cx.Settles x)
    (huses : y.uses ⊆ x.uses) (hcallees : y.callees ⊆ x.callees)
    (haddressed : y.addressed ⊆ x.addressed) (hliterals : y.literals ⊆ x.literals) :
    cx.Settles y :=
  ⟨h.toCovers.mono huses hcallees haddressed hliterals, fun z hz => h.settled z (huses hz)⟩

/-- A variable is found, settled, and lost only if it has no place. -/
theorem Settles.decl {l : Layer} {x : Node l} (h : cx.Settles x) {y : Ident} (hy : y ∈ x.uses) :
    ∃ d, cx.decl y = pure d ∧ d.Settled ∧ (d.Unplaceable ↔ cx.Lost [y]) := by
  obtain ⟨id, d, hid, hd, -⟩ := h.uses y hy
  exact ⟨d, decl_eq_pure hid hd, h.settled y hy id d hid hd, (lost_singleton hid hd).symm⟩

theorem Settles.element {l : Layer} {x : Node l} (h : cx.Settles x) {y : Ident} (hy : y ∈ x.uses)
    {labels : Nat} {lost : Prop} {index : Emit Code} (hindex : Fits labels lost index) :
    Fits labels (cx.Lost [y] ∨ lost) (cx.element y index) := by
  obtain ⟨d, hdecl, hd, hlost⟩ := h.decl hy
  rw [CodeEnv.element, hdecl, pure_bind]
  apply (hd.fits_arrayBase.bind fun _ => hindex.last fun _ => .pure _).mono (by omega)
  rw [hlost]

end CodeEnv

/-- The code of a node takes at most three labels for each node in it, and fails exactly when
a variable in it has no place. -/
theorem Node.fits_code {cx : CodeEnv} {l : Layer} {x : Node l} (h : cx.Settles x)
    (hnodes : x.nodes < 0x1000_0000_0000_0000) (access : Access) :
    Fits (3 * x.nodes) (cx.Lost x.uses) (x.code cx access) := by
  induction x generalizing access with
  | comp m x ih | sum m x ih | term m x ih | unary m x ih | factor m x ih | paren m x ih =>
      simp only [nodes] at hnodes
      have hx := ih (h.mono (.refl _) (.refl _) (.refl _) (.refl _)) (by omega) access
      exact hx.mono (by simp only [nodes]; omega) Iff.rfl
  | num m n | read m | nil => exact (Fits.pure _).mono (Nat.zero_le _) (by simp [uses])
  | str m text =>
      obtain ⟨label, hlabel⟩ :=
        Option.isSome_iff_exists.mp (h.literals text (List.mem_singleton_self text))
      simp only [code, Pool.label, hlabel]
      exact (Fits.pure _).mono (Nat.zero_le _) (by simp [uses])
  | var m y =>
      obtain ⟨d, hdecl, hd, hlost⟩ := h.decl (List.mem_singleton_self y)
      rw [code, hdecl, pure_bind]
      exact ((hd.fits_load access).last fun _ => .pure _).mono (Nat.zero_le _) hlost
  | setVar m y | setDeref m y =>
      obtain ⟨d, hdecl, hd, hlost⟩ := h.decl (List.mem_singleton_self y)
      rw [code, hdecl, pure_bind]
      exact (hd.fits_cell.last fun _ => .pure _).mono (Nat.zero_le _) hlost
  | elem m y i ih | setElem m y i ih =>
      simp only [nodes] at hnodes
      have hi := ih (h.mono (List.subset_cons_self _ _) (.refl _) (.refl _) (.refl _)) (by omega)
      have helement := h.element List.mem_cons_self (hi .value)
      exact (helement.last fun _ => .pure _).mono (by simp only [nodes]; omega)
        CodeEnv.lost_cons.symm
  | neg m x ih | deref m x ih =>
      simp only [nodes] at hnodes
      have hx := ih (h.mono (.refl _) (.refl _) (.refl _) (.refl _)) (by omega) .value
      exact (hx.last fun _ => .pure _).mono (by simp only [nodes]; omega) Iff.rfl
  | addrOf m x ih =>
      simp only [nodes] at hnodes
      have hplace := Option.isSome_iff_ne_none.mp (h.addressed x List.mem_cons_self)
      have hx := ih (h.mono (.refl _) (.refl _) (List.subset_cons_self _ _) (.refl _)) (by omega)
      rw [code, if_neg (by simpa using hplace)]
      exact (hx .address).mono (by simp only [nodes]; omega) Iff.rfl
  | add m a op b iha ihb | mul m a op b iha ihb | cons a b iha ihb | assign m a b iha ihb =>
      simp only [nodes] at hnodes
      have ha := iha (h.mono (by simp [uses]) (by simp [callees]) (by simp [addressed])
        (by simp [literals])) (by omega) .value
      have hb := ihb (h.mono (by simp [uses]) (by simp [callees]) (by simp [addressed])
        (by simp [literals])) (by omega) .value
      -- The part on the right comes first.
      apply (hb.bind fun _ => ha.last fun _ => .pure _).mono
      · simp only [nodes]
        omega
      · rw [uses, CodeEnv.lost_append, or_comm]
  | rel m a op b iha ihb =>
      simp only [nodes] at hnodes
      have ha := iha (h.mono (by simp [uses]) (by simp [callees]) (by simp [addressed])
        (by simp [literals])) (by omega) .value
      have hb := ihb (h.mono (by simp [uses]) (by simp [callees]) (by simp [addressed])
        (by simp [literals])) (by omega) .value
      apply (Fits.jumpLabel.bind fun _ => Fits.jumpLabel.bind fun _ =>
        hb.bind fun _ => ha.last fun _ => .pure _).mono
      · simp only [nodes]
        omega
      · rw [uses, CodeEnv.lost_append, false_or, false_or, or_comm]
  | call m y as ih =>
      simp only [nodes] at hnodes
      obtain ⟨id, d, hid, hd⟩ := h.callees y List.mem_cons_self
      have has := ih (h.mono (.refl _) (List.subset_cons_self _ _) (.refl _) (.refl _)) (by omega)
        .value
      have hcount := as.count_le_nodes
      have hsize : Signed.mul 8 as.count = .ok (8 * as.count) :=
        if_pos (by unfold Signed.InRange; omega)
      rw [code, CodeEnv.decl_eq_pure hid hd, pure_bind, hsize]
      exact (has.last fun _ => .pure _).mono (by simp only [nodes]; omega) Iff.rfl

namespace Clause

/-- The names used as variables in a statement. -/
def uses {f : Form} (c : Clause f) : List Ident := c.exprs.flatMap Node.uses

theorem fits_code {cx : CodeEnv} {f : Form} {c : Clause f} (hexprs : ∀ e ∈ c.exprs, cx.Settles e)
    (hwritten : ∀ e ∈ c.written, e.ty = .int ∨ e.ty = .string)
    (hnodes : c.nodes < 0x1000_0000_0000_0000) :
    Fits (3 * c.nodes) (cx.Lost c.uses) (c.code cx) := by
  induction c with
  | absent | nil => exact (Fits.pure _).mono (Nat.zero_le _) (by simp [uses, exprs])
  | eval line e =>
      cases e with
      | none => exact (Fits.pure _).mono (Nat.zero_le _) (by simp [uses, exprs])
      | some e =>
          simp only [nodes, Option.elim_some] at hnodes
          have he := e.fits_code (hexprs e (by simp [exprs])) (by omega) .value
          exact he.mono (by simp only [nodes, Option.elim_some]; omega) (by simp [uses, exprs])
  | ret line e =>
      cases e with
      | none => exact (Fits.pure _).mono (Nat.zero_le _) (by simp [uses, exprs])
      | some e =>
          simp only [nodes, Option.elim_some] at hnodes
          have he := e.fits_code (hexprs e (by simp [exprs])) (by omega) .value
          exact (he.last fun _ => .pure _).mono (by simp only [nodes, Option.elim_some]; omega)
            (by simp [uses, exprs])
  | write line e =>
      cases e with
      | none => exact (Fits.pure _).mono (Nat.zero_le _) (by simp [uses, exprs])
      | some e =>
          simp only [nodes, Option.elim_some] at hnodes
          have he := e.fits_code (hexprs e (by simp [exprs])) (by omega) .value
          have hprint : Fits 0 False e.ty.print := by
            rcases hwritten e (by simp [written]) with hty | hty <;> rw [hty] <;> exact .pure _
          apply (hprint.bind fun _ => he.last fun _ => .pure _).mono
          · simp only [nodes, Option.elim_some]
            omega
          · simp [uses, exprs]
  | braces line s ih =>
      simp only [nodes] at hnodes
      exact (ih hexprs hwritten (by omega)).mono (by simp only [nodes]; omega) Iff.rfl
  | present s ih => exact ih hexprs hwritten hnodes
  | block line ids stmts size span ih =>
      simp only [nodes] at hnodes
      exact ((ih hexprs hwritten (by omega)).last fun _ => .pure _).mono
        (by simp only [nodes]; omega) Iff.rfl
  | ifElse line e s t ihs iht =>
      simp only [exprs, List.forall_mem_cons, List.forall_mem_append] at hexprs
      simp only [written, List.forall_mem_append] at hwritten
      simp only [nodes] at hnodes
      have he := e.fits_code hexprs.1 (by omega) .value
      have hs := ihs hexprs.2.1 hwritten.1 (by omega)
      have ht := iht hexprs.2.2 hwritten.2 (by omega)
      apply (Fits.jumpLabel.bind fun _ => Fits.jumpLabel.bind fun _ => Fits.jumpLabel.bind fun _ =>
        he.bind fun _ => hs.bind fun _ => ht.last fun _ => .pure _).mono
      · simp only [nodes]
        omega
      · simp [uses, exprs]
  | loop line e s ih =>
      simp only [exprs, List.forall_mem_cons] at hexprs
      simp only [nodes] at hnodes
      have he := e.fits_code hexprs.1 (by omega) .value
      have hs := ih hexprs.2 hwritten (by omega)
      apply (Fits.jumpLabel.bind fun _ => Fits.jumpLabel.bind fun _ =>
        he.bind fun _ => hs.last fun _ => .pure _).mono
      · simp only [nodes]
        omega
      · simp [uses, exprs]
  | cons s t ihs iht =>
      simp only [exprs, List.forall_mem_append] at hexprs
      simp only [written, List.forall_mem_append] at hwritten
      simp only [nodes] at hnodes
      have hs := ihs hexprs.1 hwritten.1 (by omega)
      have ht := iht hexprs.2 hwritten.2 (by omega)
      apply (hs.bind fun _ => ht.last fun _ => .pure _).mono
      · simp only [nodes]
        omega
      · simp [uses, exprs]

end Clause

/-! ## The layout -/

theorem widthAt_le_positions (decls : List Decl) {ids : List DeclId} {id : DeclId} (h : id ∈ ids) :
    widthAt decls id ≤ positions decls ids := by
  obtain ⟨before, after, rfl⟩ := List.append_of_mem h
  rw [positions_append, positions_cons]
  omega

namespace Item

/-- An item with fewer than 2⁶⁰ positions and parameters. -/
structure Modest (decls : List Decl) (item : Item) : Prop where
  positions : positions decls (item.listed decls) < 0x1000_0000_0000_0000
  params : ∀ f, item = .func f → (paramsAt decls f.decl).length + 1 < 0x1000_0000_0000_0000

theorem Modest.of_same {decls decls' : List Decl} {item : Item} (h : item.Modest decls)
    (hsame : SameButSlots decls decls') : item.Modest decls' := by
  refine ⟨?_, ?_⟩
  · rw [hsame.positions_eq, listed_eq_of_same hsame]
    exact h.positions
  · intro f hf
    rw [hsame.paramsAt_eq]
    exact h.params f hf

/-- What an item lists ends up where the latest placement puts it: locals come last, after the
parameters and the item itself. -/
theorem layout_latest {item item' : Item} {decls decls' : List Decl}
    (h : item.layout decls = .ok (item', decls')) {id : DeclId} (hid : id ∈ item.listed decls)
    {d : Decl} (hd : decls'[id]? = some d) :
    (∃ f depth position, item = .func f ∧ id ∈ f.body.locals ∧ bodyDepth ≤ depth ∧
      d.slot = some ⟨depth, position⟩ ∧ position + d.width ≤ positions decls f.body.locals) ∨
    (∃ f position, item = .func f ∧ position < (paramsAt decls f.decl).length ∧
      d.slot = some ⟨1, position⟩) ∨
    d.slot = some ⟨0, 0⟩ := by
  cases item with
  | var i =>
      obtain ⟨rfl, rfl⟩ := layout_var h
      cases List.mem_singleton.mp hid
      rw [place_getElem?, if_pos rfl, Option.map_eq_some_iff] at hd
      obtain ⟨d₀, -, rfl⟩ := hd
      exact .inr (.inr rfl)
  | func f =>
      obtain ⟨body, frame, hbody, rfl, rfl⟩ := layout_func h
      obtain ⟨hgrows, -⟩ := Clause.layout_spec (Nat.le_refl _) hbody
      have hnext := (Clause.layout_stacks (Nat.le_refl _) hbody).next
      obtain ⟨hparams, hothers, hplaced⟩ :=
        @placeParams_spec (paramsAt decls f.decl) (place decls f.decl 0 0) 0
      by_cases hlocal : id ∈ f.body.locals
      · obtain ⟨⟨depth, position⟩, hslot, hdepth, -, hstop⟩ := hgrows.placed id hlocal d hd
        rw [((place_sameButSlots _ _ _ _).trans hparams).positions_eq] at hnext
        refine .inl ⟨f, depth, position, rfl, hlocal, hdepth, hslot, ?_⟩
        dsimp only at hnext hstop
        omega
      · rw [hgrows.others id hlocal] at hd
        by_cases hparam : id ∈ paramsAt decls f.decl
        · obtain ⟨i, hi, hslot⟩ := hplaced id hparam d hd
          have hlt := (List.getElem?_eq_some_iff.mp hi).1
          exact .inr (.inl ⟨f, 0 + i, rfl, by omega, hslot⟩)
        · rw [hothers id hparam] at hd
          simp only [listed, List.mem_cons, List.mem_append, hparam, hlocal, or_false] at hid
          subst hid
          rw [place_getElem?, if_pos rfl, Option.map_eq_some_iff] at hd
          obtain ⟨d₀, -, rfl⟩ := hd
          exact .inr (.inr rfl)

/-- Whatever a modest item lists is settled, also where it lists something again. -/
theorem layout_settled {item item' : Item} {decls decls' : List Decl}
    (h : item.layout decls = .ok (item', decls')) (hmodest : item.Modest decls) {id : DeclId}
    (hid : id ∈ item.listed decls) {d : Decl} (hd : decls'[id]? = some d) : d.Settled := by
  obtain ⟨hsame, -⟩ := layout_spec h
  have hwidth : d.width < 0x1000_0000_0000_0000 := by
    have hle := widthAt_le_positions decls hid
    have hpositions := hmodest.positions
    rw [← hsame.widthAt_eq, widthAt_eq hd] at hle
    omega
  refine ⟨hwidth, ?_⟩
  obtain ⟨f, depth, position, rfl, -, hdepth, hslot, hstop⟩ | ⟨f, position, rfl, hlt, hslot⟩ |
    hslot := layout_latest h hid hd
  · have hpositions := hmodest.positions
    rw [listed, positions_cons, positions_append] at hpositions
    exact ⟨depth, position, hslot, .inr (.inr ⟨hdepth, by omega⟩)⟩
  · have hcount := hmodest.params f rfl
    exact ⟨1, position, hslot, .inr (.inl ⟨rfl, by omega⟩)⟩
  · exact ⟨0, 0, hslot, .inl rfl⟩

/-- What items list is where one of those that list it has put it. -/
theorem layoutAll_latest {items items' : List Item} {decls decls' : List Decl}
    (h : layoutAll decls items = .ok (items', decls')) {id : DeclId}
    (hid : id ∈ items.flatMap (listed decls)) :
    ∃ item ∈ items, ∃ before item' after, SameButSlots decls before ∧
      item.layout before = .ok (item', after) ∧ id ∈ item.listed before ∧
      decls'[id]? = after[id]? := by
  induction items generalizing decls items' with
  | nil => cases hid
  | cons item rest ih =>
      simp only [layoutAll, except_bind_eq_ok_iff, Prod.exists, except_pure_eq_ok_iff,
        Prod.mk.injEq] at h
      obtain ⟨item', decls₁, hitem, rest', decls₂, hrest, rfl, rfl⟩ := h
      obtain ⟨hsame, -⟩ := layout_spec hitem
      obtain ⟨-, -, hothers, -⟩ := layoutAll_spec hrest
      by_cases hlate : id ∈ rest.flatMap (listed decls₁)
      · obtain ⟨later, hlater, before, item', after, hbefore, hlatest⟩ := ih hrest hlate
        exact ⟨later, List.mem_cons_of_mem _ hlater, before, item', after, hsame.trans hbefore,
          hlatest⟩
      · have hkept := hothers id hlate
        rw [listed_eq_of_same hsame] at hlate
        rw [List.flatMap_cons, List.mem_append] at hid
        exact ⟨item, List.mem_cons_self, decls, item', decls₁, .refl _, hitem,
          hid.resolve_right hlate, hkept⟩

theorem layoutAll_settled {items items' : List Item} {decls decls' : List Decl}
    (h : layoutAll decls items = .ok (items', decls')) (hmodest : ∀ item ∈ items, item.Modest decls)
    {id : DeclId} (hid : id ∈ items.flatMap (listed decls)) {d : Decl} (hd : decls'[id]? = some d) :
    d.Settled := by
  obtain ⟨item, hitem, before, item', after, hsame, hlayout, hlisted, hkept⟩ :=
    layoutAll_latest h hid
  rw [hkept] at hd
  exact layout_settled hlayout ((hmodest item hitem).of_same hsame) hlisted hd

/-- Only a local that takes no positions can end up without a place. -/
theorem local_of_unplaceable {items items' : List Item} {decls decls' : List Decl}
    (h : layoutAll decls items = .ok (items', decls')) {id : DeclId}
    (hid : id ∈ items.flatMap (listed decls)) {d : Decl} (hd : decls'[id]? = some d)
    (hlost : d.Unplaceable) : ∃ f, .func f ∈ items ∧ id ∈ f.body.locals := by
  obtain ⟨item, hitem, before, item', after, -, hlayout, hlisted, hkept⟩ := layoutAll_latest h hid
  rw [hkept] at hd
  obtain ⟨-, depth, hdepth, hslot⟩ := hlost
  obtain ⟨f, -, -, rfl, hlocal, -⟩ | ⟨f, position, rfl, -, hparam⟩ | hself :=
    layout_latest hlayout hlisted hd
  · exact ⟨f, hitem, hlocal⟩
  · cases hslot.symm.trans hparam
    exact absurd hdepth (by decide)
  · cases hslot.symm.trans hself
    exact absurd hdepth (by decide)

end Item

/-! ## The frame map -/

theorem Decl.Settled.sound_entry {d : Decl} (h : d.Settled) : Sound d.Unplaceable d.entry := by
  obtain ⟨depth, position, hslot, -⟩ := h.slot
  simp only [entry, hslot, h.size_eq, except_ok_bind]
  exact (h.sound_offset.bind fun _ => .ok _).congr (or_iff_left fun h => h)

/-- Some of the places hold something that cannot be placed. -/
def LostAt (decls : List Decl) (ids : List DeclId) : Prop :=
  ∃ id ∈ ids, ∃ d, decls[id]? = some d ∧ d.Unplaceable

theorem sound_slotEntries {decls : List Decl} {ids : List DeclId}
    (h : ∀ id ∈ ids, ∀ d, decls[id]? = some d → d.Settled) :
    Sound (LostAt decls ids) (slotEntries decls ids) := by
  induction ids with
  | nil => exact (Sound.ok _).congr (by simp [LostAt])
  | cons id rest ih =>
      rw [List.forall_mem_cons] at h
      have hrest := ih h.2
      rw [slotEntries]
      cases hd : decls[id]? with
      | none => exact hrest.congr (by simp [LostAt, hd])
      | some d =>
          apply ((h.1 d hd).sound_entry.bind fun _ => hrest.bind fun _ => .ok _).congr
          simp [LostAt, hd]

/-- A function lists something that cannot be placed. -/
def Program.ListsLost (r : Program) : Prop :=
  ∃ f, .func f ∈ r.items ∧ LostAt r.decls (paramsAt r.decls f.decl ++ f.body.locals)

theorem lostAt_append {decls : List Decl} {ids ids' : List DeclId} :
    LostAt decls (ids ++ ids') ↔ LostAt decls ids ∨ LostAt decls ids' := by
  simp [LostAt, or_and_right, exists_or]

namespace FrameMap

variable {decls : List Decl}

theorem sound_addItem {item : Item} (hdecl : ∃ d, decls[item.id]? = some d)
    (h : ∀ id ∈ item.listed decls, ∀ d, decls[id]? = some d → d.Settled) (map : FrameMap) :
    Sound (∃ f, item = .func f ∧ LostAt decls (paramsAt decls f.decl ++ f.body.locals))
      (map.addItem decls item) := by
  obtain ⟨d, hd⟩ := hdecl
  cases item with
  | var id =>
      have hsettled := h id (List.mem_singleton_self id) d hd
      rw [Item.id] at hd
      simp only [addItem, hd, hsettled.size_eq, except_ok_bind]
      exact (Sound.ok _).congr (by simp)
  | func f =>
      rw [Item.id] at hd
      have hparams : paramsAt decls f.decl = d.params := by rw [paramsAt, hd, Option.elim_some]
      rw [Item.listed, hparams, List.forall_mem_cons, List.forall_mem_append] at h
      simp only [addItem, hd]
      apply ((sound_slotEntries h.2.1).bind fun _ =>
        (sound_slotEntries h.2.2).bind fun _ => .ok _).congr
      simp [lostAt_append, hparams]

theorem sound_addItems {items : List Item} (hdecls : ∀ item ∈ items, ∃ d, decls[item.id]? = some d)
    (h : ∀ id ∈ items.flatMap (Item.listed decls), ∀ d, decls[id]? = some d → d.Settled)
    (map : FrameMap) :
    Sound (∃ f, .func f ∈ items ∧ LostAt decls (paramsAt decls f.decl ++ f.body.locals))
      (map.addItems decls items) := by
  induction items generalizing map with
  | nil => exact (Sound.ok _).congr (by simp)
  | cons item rest ih =>
      rw [List.flatMap_cons, List.forall_mem_append] at h
      rw [List.forall_mem_cons] at hdecls
      apply ((sound_addItem hdecls.1 h.1 map).bind fun map => ih hdecls.2 h.2 map).congr
      simp [or_and_right, exists_or, eq_comm]

end FrameMap

/-! ## The listing -/

theorem length_eraseDups_le (texts : List String) : texts.eraseDups.length ≤ texts.length := by
  induction hn : texts.length using Nat.strongRecOn generalizing texts with
  | _ n ih =>
      subst hn
      cases texts with
      | nil => exact Nat.le_refl _
      | cons text rest =>
          have hfilter := List.length_filter_le (fun other => !other == text) rest
          have hle := ih _ (Nat.lt_succ_of_le hfilter) _ rfl
          rw [List.eraseDups_cons, List.length_cons, List.length_cons]
          omega

theorem Pool.fits_assign (texts : List String) : Fits texts.length False (assign texts) := by
  induction texts with
  | nil => exact .pure _
  | cons text rest ih =>
      apply (Fits.literalLabel.bind fun _ => ih.last fun _ => .pure _).mono
      · rw [List.length_cons]
        omega
      · simp

theorem fits_globalStorage {decls : List Decl} {items : List Item}
    (h : ∀ id, .var id ∈ items → ∃ d, decls[id]? = some d ∧ d.Settled) :
    Fits 0 False (globalStorage decls items) := by
  induction items with
  | nil => exact .pure _
  | cons item rest ih =>
      have hrest := ih fun id hid => h id (List.mem_cons_of_mem _ hid)
      cases item with
      | func f => exact hrest
      | var id =>
          obtain ⟨d, hd, hsettled⟩ := h id List.mem_cons_self
          rw [globalStorage, declared_eq_ok_iff.mpr hd]
          change Fits 0 False (Emit.checked d.size >>= _)
          rw [hsettled.size_eq]
          exact hrest.last fun _ => .pure _

namespace Func

/-- The nodes in the bodies of some functions. -/
def nodes : List Func → Nat
  | [] => 0
  | f :: rest => f.body.nodes + nodes rest

theorem length_literals_le (functions : List Func) :
    (functions.flatMap fun f => f.body.literals).length ≤ nodes functions := by
  induction functions with
  | nil => exact Nat.le_refl _
  | cons f rest ih =>
      have hbody := f.body.length_literals_le
      rw [List.flatMap_cons, List.length_append, nodes]
      omega

theorem fits_codeAll {cx : CodeEnv} {functions : List Func}
    (hdecls : ∀ f ∈ functions, ∃ d, cx.decls[f.decl]? = some d)
    (hexprs : ∀ f ∈ functions, ∀ e ∈ f.body.exprs, cx.Settles e)
    (hwritten : ∀ f ∈ functions, ∀ e ∈ f.body.written, e.ty = .int ∨ e.ty = .string)
    (hnodes : nodes functions < 0x1000_0000_0000_0000) :
    Fits (3 * nodes functions) (∃ f ∈ functions, cx.Lost f.body.uses) (codeAll cx functions) := by
  induction functions with
  | nil => exact (Fits.pure _).mono (Nat.zero_le _) (by simp)
  | cons f rest ih =>
      rw [List.forall_mem_cons] at hdecls hexprs hwritten
      rw [nodes] at hnodes
      obtain ⟨d, hd⟩ := hdecls.1
      have hrest := ih hdecls.2 hexprs.2 hwritten.2 (by omega)
      have hbody := f.body.fits_code hexprs.1 hwritten.1 (by omega)
      have hfirst : Fits (3 * f.body.nodes) (cx.Lost f.body.uses) (f.code cx) := by
        rw [code, declared_eq_ok_iff.mpr hd]
        exact hbody.last fun _ => .pure _
      apply (hfirst.bind fun _ => hrest.last fun _ => .pure _).mono
      · rw [nodes]
        omega
      · simp

end Func

/-! ## Programs -/

theorem Node.nodes_erase {l : Layer} (x : Node l) : x.erase.nodes = x.nodes := by
  induction x <;> simp_all [erase, nodes]

theorem Clause.nodes_erase {f : Form} (c : Clause f) : c.erase.nodes = c.nodes := by
  induction c with
  | eval line e | ret line e | write line e => cases e <;> simp [erase, nodes, Node.nodes_erase]
  | _ => simp_all [erase, nodes, Node.nodes_erase]

namespace Item

theorem nodes_erase (decls : List Decl) (items : List Item) :
    nodes (decls.map Decl.bare) (items.map erase) = nodes decls items := by
  have hsame : SameButSlots decls (decls.map Decl.bare) := by
    rw [SameButSlots, List.map_map]
    rfl
  induction items with
  | nil => rfl
  | cons item rest ih =>
      cases item <;> simp [erase, nodes, ih, hsame.paramsAt_eq, Clause.nodes_erase]

theorem nodes_le {decls : List Decl} {items : List Item} {f : Func} (hf : .func f ∈ items) :
    (paramsAt decls f.decl).length + f.body.nodes + 1 ≤ nodes decls items := by
  induction items with
  | nil => cases hf
  | cons item rest ih =>
      rcases List.mem_cons.mp hf with rfl | hf
      · rw [nodes]
        omega
      · have hle := ih hf
        cases item <;> rw [nodes] <;> omega

end Item

theorem Clause.nodes_pos (b : Block) : 0 < b.nodes := by
  cases b
  simp [nodes]

namespace Program

theorem nodes_of_erase {p p' : Program} (h : p'.erase = p.erase) : p'.nodes = p.nodes := by
  rw [nodes, nodes, ← Item.nodes_erase, ← Item.nodes_erase p.decls]
  have hdecls : p'.decls.map Decl.bare = p.decls.map Decl.bare := congrArg Program.decls h
  have hitems : p'.items.map Item.erase = p.items.map Item.erase := congrArg Program.items h
  rw [hdecls, hitems]

theorem nodes_functions_le (p : Program) : Func.nodes p.functions ≤ p.nodes := by
  rw [functions, nodes]
  induction p.items with
  | nil => exact Nat.le_refl _
  | cons item rest ih =>
      cases item with
      | var id =>
          simp only [List.filterMap_cons, Item.nodes]
          omega
      | func f =>
          simp only [List.filterMap_cons, Item.nodes, Func.nodes]
          omega

/-- An expression uses something that cannot be placed. -/
def UsesLost (r : Program) : Prop :=
  ∃ f, .func f ∈ r.items ∧ ∃ x ∈ f.body.uses, ∃ id d,
    x.decl = some id ∧ r.decls[id]? = some d ∧ d.Unplaceable

variable {p q r : Program} {scope : Scope}

theorem erase_of_both (hresolve : p.resolve scope = (q, .ok ())) (hlayout : q.layout = .ok r) :
    r.erase = p.erase :=
  (erase_of_layout hlayout).trans (erase_of_resolve hresolve)

section Overflow

variable (hresolve : p.resolve scope = (q, .ok ()))
  (hpositions : positions p.decls p.listed < 0x1000_0000_0000_0000)
  (hnodes : p.nodes < 0x1000_0000_0000_0000)
include hresolve hpositions hnodes

theorem layout_of_small : ∃ r, q.layout = .ok r := by
  apply exists_layout
  · rwa [decls_of_resolve hresolve, listed_of_resolve hresolve]
  · intro f hf
    have hle := @Item.nodes_le q.decls _ _ hf
    have hnesting := f.body.nesting_le
    rw [← nodes_of_erase (erase_of_resolve hresolve), nodes] at hnodes
    unfold Word.bound bodyDepth
    omega

theorem settled_of_layout (hlayout : q.layout = .ok r) {id : DeclId} (hid : id ∈ r.listed)
    {d : Decl} (hd : r.decls[id]? = some d) : d.Settled := by
  rw [listed_of_layout hlayout] at hid
  apply Item.layoutAll_settled (layout_eq_ok_iff.mp hlayout) _ hid hd
  intro item hitem
  have hle := positions_item_le hitem
  rw [← decls_of_resolve hresolve, ← listed_of_resolve hresolve] at hpositions
  refine ⟨by omega, ?_⟩
  rintro f rfl
  have hle := @Item.nodes_le q.decls _ _ hitem
  have hpos := f.body.nodes_pos
  rw [← nodes_of_erase (erase_of_resolve hresolve), nodes] at hnodes
  omega

theorem frameMap_of_layout (hlayout : q.layout = .ok r) : Sound r.ListsLost r.frameMap :=
  FrameMap.sound_addItems (fun _ => declared_of_layout hresolve hlayout)
    (fun _ hid _ => settled_of_layout hresolve hpositions hnodes hlayout hid) {}

theorem data_of_layout (hlayout : q.layout = .ok r) : Fits p.nodes False r.data := by
  have hstorage : Fits 0 False (globalStorage r.decls r.items) := by
    apply fits_globalStorage
    intro id hid
    obtain ⟨d, hd⟩ := declared_of_layout hresolve hlayout hid
    have hlisted : id ∈ r.listed := mem_listed_iff.mpr ⟨.var id, hid, .inl rfl⟩
    exact ⟨d, hd, settled_of_layout hresolve hpositions hnodes hlayout hlisted hd⟩
  have hpool : Fits p.nodes False r.pool := by
    apply (Pool.fits_assign _).mono _ Iff.rfl
    calc r.literals.eraseDups.length
      _ ≤ r.literals.length := length_eraseDups_le _
      _ ≤ Func.nodes r.functions := Func.length_literals_le _
      _ ≤ r.nodes := r.nodes_functions_le
      _ = p.nodes := nodes_of_erase (erase_of_both hresolve hlayout)
  exact (hstorage.bind fun _ => hpool.last fun _ => .pure _).mono (by omega) (by simp)

theorem codeAll_of_layout (hlayout : q.layout = .ok r) {pool : Pool}
    (hpool : ∀ text ∈ r.literals, (pool.lookup text).isSome) :
    Fits (3 * p.nodes) r.UsesLost (Func.codeAll { decls := r.decls, pool } r.functions) := by
  have hle : Func.nodes r.functions ≤ p.nodes := by
    rw [← nodes_of_erase (erase_of_both hresolve hlayout)]
    exact r.nodes_functions_le
  apply (Func.fits_codeAll _ _ _ (by omega)).mono (by omega)
  · simp [UsesLost, CodeEnv.Lost, mem_functions_iff]
  · intro f hf
    exact declared_of_layout hresolve hlayout (mem_functions_iff.mp hf)
  · intro f hf e he
    have hf := mem_functions_iff.mp hf
    refine ⟨covers_of_layout hresolve hlayout hpool hf he, ?_⟩
    intro x hx id d hid hd
    obtain ⟨id', d', hid', hlisted, -⟩ :=
      listed_of_bound hresolve hlayout hf he (List.mem_append_left _ hx)
    cases hid.symm.trans hid'
    exact settled_of_layout hresolve hpositions hnodes hlayout hlisted hd
  · intro f hf e he
    obtain ⟨f₀, hf₀, -, hbody⟩ := func_of_layout hlayout (mem_functions_iff.mp hf)
    rw [← Clause.written_bare, hbody, Clause.written_bare] at he
    exact written_of_resolve hresolve hf₀ he

theorem generate_overflow_iff (hlayout : q.layout = .ok r) (o : Overflow) :
    (r.generate 0).result = .error (.overflow o) ↔ o = .sub ∧ p.DeclaresMain ∧ r.UsesLost := by
  have hdata := data_of_layout hresolve hpositions hnodes hlayout
  rcases hdata 0 (by unfold Word.bound; omega) with ⟨-, ⟨data, pool⟩, n, hdata, hn⟩ | ⟨h, -⟩
  · rw [← declaresMain_of_layout hresolve hlayout, ← hasMain_iff]
    by_cases hmain : r.hasMain = true
    · have hcodes := codeAll_of_layout hresolve hpositions hnodes hlayout
        fun _ => lookup_isSome_of_data hdata
      have htext : Fits (3 * p.nodes) r.UsesLost (r.text pool) := by
        rw [text, if_pos hmain]
        exact hcodes.last fun _ => .pure _
      rcases htext n (by unfold Word.bound; omega) with ⟨hlost, code, k, hk, -⟩ | ⟨hlost, k, hk⟩
      · simp [generate, hdata, hk, hlost]
      · simp [generate, hdata, hk, hlost, hmain, eq_comm]
    · have htext : r.text pool n = .error (.error .noMain) n := by
        rw [text, if_neg hmain]
        rfl
      simp [generate, hdata, htext, hmain]
  · exact absurd h (fun h => h)

end Overflow

/-- No function lists a local array without elements. -/
def NoEmptyLocals (p : Program) : Prop :=
  ∀ f, .func f ∈ p.items → ∀ id ∈ f.body.locals, ∀ d, p.decls[id]? = some d → d.kind ≠ .array 0

section NoEmptyLocals

variable (h : p.NoEmptyLocals) (hresolve : p.resolve scope = (q, .ok ()))
  (hlayout : q.layout = .ok r)
include h hresolve hlayout

theorem NoEmptyLocals.not_unplaceable {id : DeclId} (hid : id ∈ r.listed) {d : Decl}
    (hd : r.decls[id]? = some d) : ¬ d.Unplaceable := by
  intro hlost
  rw [listed_of_layout hlayout] at hid
  obtain ⟨f, hf, hlocal⟩ := Item.local_of_unplaceable (layout_eq_ok_iff.mp hlayout) hid hd hlost
  obtain ⟨place, item, hitem, hadmitted⟩ := admitted_of_resolve hresolve hf
  have hsame := (layout_sameButSlots hlayout).getElem? id
  rw [hd, decls_of_resolve hresolve, Option.map_some, eq_comm, Option.map_eq_some_iff] at hsame
  obtain ⟨d₀, hd₀, hbare⟩ := hsame
  cases hadmitted with
  | @func f₀ _ _ _ _ _ _ _ haccepted =>
      rw [haccepted.locals_eq] at hlocal
      apply h f₀ (List.mem_of_getElem? hitem) id hlocal d₀ hd₀
      have hwidth : d₀.width = 0 := (congrArg Decl.width hbare).trans hlost.1
      cases hkind : d₀.kind <;> simp_all [Decl.width]

theorem NoEmptyLocals.not_listsLost : ¬ r.ListsLost := by
  rintro ⟨f, hf, id, hid, d, hd, hlost⟩
  have hlisted : id ∈ r.listed :=
    mem_listed_iff.mpr ⟨.func f, hf, .inr (by simpa [Item.vars] using hid)⟩
  exact h.not_unplaceable hresolve hlayout hlisted hd hlost

theorem NoEmptyLocals.not_usesLost : ¬ r.UsesLost := by
  rintro ⟨f, hf, x, hx, id, d, hid, hd, hlost⟩
  obtain ⟨e, he, hx⟩ := List.mem_flatMap.mp hx
  obtain ⟨id', d', hid', hlisted, -⟩ :=
    listed_of_bound hresolve hlayout hf he (List.mem_append_left _ hx)
  cases hid.symm.trans hid'
  exact h.not_unplaceable hresolve hlayout hlisted hd hlost

end NoEmptyLocals

/-- Of an accepted program with fewer than 2⁶⁰ positions and nodes, the layout stays in range.
The frame map leaves it exactly when a function lists a local array without elements at the
start of a frame, and the generator exactly when there is a function `main` and the program
uses such an array; both do so by an underflow. -/
theorem overflows_only_at_empty_arrays (hresolve : p.resolve scope = (q, .ok ()))
    (hpositions : positions p.decls p.listed < 0x1000_0000_0000_0000)
    (hnodes : p.nodes < 0x1000_0000_0000_0000) :
    ∃ r, q.layout = .ok r ∧
      (∀ o, r.frameMap = .error o ↔ o = .sub ∧ r.ListsLost) ∧
      (∀ o, (r.generate 0).result = .error (.overflow o) ↔
        o = .sub ∧ p.DeclaresMain ∧ r.UsesLost) := by
  obtain ⟨r, hlayout⟩ := layout_of_small hresolve hpositions hnodes
  refine ⟨r, hlayout, ?_, ?_⟩
  · exact (frameMap_of_layout hresolve hpositions hnodes hlayout).eq_error_iff
  · exact generate_overflow_iff hresolve hpositions hnodes hlayout

end Program

namespace EmptyArray

/-- An array without elements, and an assignment to the first of them. -/
def main : Func where
  decl := 1
  body := .ofStmts [0] [.expr (.setElem "a" (.num 0) (.num 1))]

def program : Program where
  decls := [.array 1 .int "a" 0, { line := 1, name := "main", base := .void, kind := .func [] }]
  items := [.func main]

def resolved : Program := (program.resolve .function).1

def laidOut : Program := resolved.layout.toOption.getD {}

theorem overflows_at_empty_array :
    laidOut.frameMap = .error .sub ∧ (laidOut.generate 0).result = .error (.overflow .sub) := by
  have hresolve : program.resolve .function = (resolved, .ok ()) := by rfl
  obtain ⟨r, hlayout, hmap, hgenerate⟩ :=
    Program.overflows_only_at_empty_arrays hresolve (by decide) (by decide)
  obtain rfl : laidOut = r := by
    rw [laidOut, hlayout]
    rfl
  have hlost : { Decl.array 1 .int "a" 0 with slot := some ⟨2, 0⟩ }.Unplaceable :=
    ⟨rfl, 2, by decide, rfl⟩
  refine ⟨(hmap .sub).mpr ⟨rfl, ?_⟩, (hgenerate .sub).mpr ⟨rfl, ?_, ?_⟩⟩
  · exact ⟨_, List.mem_singleton.mpr rfl, 0, List.mem_singleton.mpr rfl, _, rfl, hlost⟩
  · exact ⟨main, _, List.mem_singleton.mpr rfl, rfl, rfl⟩
  · exact ⟨_, List.mem_singleton.mpr rfl, _, List.mem_singleton.mpr rfl, 0, _, rfl, rfl, hlost⟩

/-- The program is accepted and small, and both its frame map and its code underflow. -/
theorem accepted_and_overflows :
    program.resolve .function = (resolved, .ok ()) ∧ positions program.decls program.listed = 1 ∧
      program.nodes = 18 ∧ resolved.layout = .ok laidOut ∧ laidOut.frameMap = .error .sub ∧
      (laidOut.generate 0).result = .error (.overflow .sub) := by
  refine ⟨?_, ?_, ?_, ?_, ?_, ?_⟩ <;> rfl

end EmptyArray

end Backend
