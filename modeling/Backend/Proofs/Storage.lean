import Backend.Frame.Layout
import Backend.Proofs.Layout
import Mathlib.Algebra.Ring.Int.Defs
import Mathlib.Algebra.Ring.Nat
import Mathlib.Data.List.Nodup

/-! # The storage of variables

In a frame each local starts behind all locals listed before it, so its place is the sum of
their widths. Hence the locals of a function share no byte and leave none of the frame unused.
-/

namespace Backend

/-- The positions that the declaration at a place takes. -/
def widthAt (decls : List Decl) (id : DeclId) : Nat :=
  decls[id]?.elim 0 Decl.width

/-- The positions that some declarations take together. -/
def positions (decls : List Decl) (ids : List DeclId) : Nat := (ids.map (widthAt decls)).sum

section Positions

variable {decls decls' : List Decl}

@[simp]
theorem positions_nil : positions decls [] = 0 := rfl

@[simp]
theorem positions_cons (id : DeclId) (ids : List DeclId) :
    positions decls (id :: ids) = widthAt decls id + positions decls ids := List.sum_cons

@[simp]
theorem positions_append (decls : List Decl) (ids ids' : List DeclId) :
    positions decls (ids ++ ids') = positions decls ids + positions decls ids' := by
  rw [positions, List.map_append, List.sum_append, positions, positions]

theorem widthAt_eq {id : DeclId} {d : Decl} (h : decls[id]? = some d) :
    widthAt decls id = d.width := by
  simp [widthAt, h]

theorem SameButSlots.widthAt_eq (h : SameButSlots decls decls') :
    widthAt decls' = widthAt decls := by
  funext id
  have hbare := congrArg (Option.map Decl.width) (h.getElem? id)
  rw [Option.map_map, Option.map_map] at hbare
  have hwidth (o : Option Decl) :
      o.elim 0 Decl.width = (o.map (Decl.width ∘ Decl.bare)).getD 0 := by
    cases o <;> rfl
  rw [widthAt, widthAt, hwidth, hwidth, hbare]

theorem SameButSlots.positions_eq (h : SameButSlots decls decls') :
    positions decls' = positions decls := by
  funext ids
  rw [positions, positions, h.widthAt_eq]

theorem positions_take_succ (decls : List Decl) {ids : List DeclId} {i : Nat} {id : DeclId}
    (h : ids[i]? = some id) :
    positions decls (ids.take (i + 1)) = positions decls (ids.take i) + widthAt decls id := by
  rw [List.take_add_one, h, Option.toList_some, positions_append, positions_cons, positions_nil,
    Nat.add_zero]

theorem positions_take_le (decls : List Decl) (ids : List DeclId) (i : Nat) :
    positions decls (ids.take i) ≤ positions decls ids := by
  have hsplit := positions_append decls (ids.take i) (ids.drop i)
  rw [List.take_append_drop] at hsplit
  omega

/-- Of two declarations in a list, one ends where or before the other starts. -/
theorem positions_separate (decls : List Decl) {ids : List DeclId} {i j : Nat} {id : DeclId}
    (hlt : i < j) (h : ids[i]? = some id) :
    positions decls (ids.take i) + widthAt decls id ≤ positions decls (ids.take j) := by
  have hle := positions_take_le decls (ids.take j) (i + 1)
  rw [List.take_take, Nat.min_eq_left hlt, positions_take_succ decls h] at hle
  exact hle

/-- Every position below the sum belongs to one of the declarations. -/
theorem exists_of_lt_positions (decls : List Decl) {ids : List DeclId} {k : Nat}
    (hk : k < positions decls ids) :
    ∃ (i : Nat) (id : DeclId), ids[i]? = some id ∧ positions decls (ids.take i) ≤ k ∧
      k < positions decls (ids.take i) + widthAt decls id := by
  induction ids generalizing k with
  | nil => simp at hk
  | cons first rest ih =>
      rw [positions_cons] at hk
      by_cases hfirst : k < widthAt decls first
      · exact ⟨0, first, rfl, by simp, by simpa using hfirst⟩
      · obtain ⟨i, id, hid, hstart, hstop⟩ := ih (k := k - widthAt decls first) (by omega)
        refine ⟨i + 1, id, hid, ?_, ?_⟩ <;> rw [List.take_succ_cons, positions_cons] <;> omega

end Positions

/-! ## Locals are stacked -/

/-- From one frame to a later one, with declarations placed in between, each one behind those
listed before it. -/
structure Frame.Stacks (ids : List DeclId) (a b : Frame) : Prop where
  next : b.next = a.next + positions a.decls ids
  placed : ids.Nodup → ∀ (i : Nat) (id : DeclId), ids[i]? = some id → ∀ d, b.decls[id]? = some d →
    ∃ depth, bodyDepth ≤ depth ∧ d.slot = some ⟨depth, a.next + positions a.decls (ids.take i)⟩

namespace Frame.Stacks

theorem refl (a : Frame) : Stacks [] a a :=
  ⟨rfl, fun _ _ _ h => absurd h (by simp)⟩

theorem trans {ids ids' : List DeclId} {a b c : Frame} (h : Stacks ids a b)
    (hsame : SameButSlots a.decls b.decls) (h' : Stacks ids' b c) (hgrows : Grows ids' b c) :
    Stacks (ids ++ ids') a c where
  next := by rw [h'.next, h.next, positions_append, hsame.positions_eq, Nat.add_assoc]
  placed := by
    intro hnodup i id hid d hd
    rw [List.nodup_append] at hnodup
    obtain ⟨hnodup, hnodup', hdisjoint⟩ := hnodup
    rw [List.getElem?_append] at hid
    split at hid
    next hlt =>
      -- What was placed first is not placed again.
      have hfirst : id ∉ ids' := fun hmem => hdisjoint id (List.mem_of_getElem? hid) id hmem rfl
      rw [hgrows.others id hfirst] at hd
      rw [List.take_append_of_le_length (Nat.le_of_lt hlt)]
      exact h.placed hnodup i id hid d hd
    next hle =>
      obtain ⟨depth, hdepth, hslot⟩ := h'.placed hnodup' _ id hid d hd
      refine ⟨depth, hdepth, ?_⟩
      rw [hslot, h.next, hsame.positions_eq, List.take_append, positions_append,
        List.take_of_length_le (Nat.le_of_not_lt hle), Nat.add_assoc]

end Frame.Stacks

theorem Frame.placeLocals_stacks {depth : Nat} (hdepth : bodyDepth ≤ depth) {ids : List DeclId}
    {a b : Frame} (h : Frame.placeLocals depth ids a = .ok b) : Stacks ids a b := by
  induction ids generalizing a with
  | nil =>
      cases h
      exact .refl _
  | cons id rest ih =>
      rw [placeLocals] at h
      split at h
      next hnone =>
        have hstep : Stacks [id] a a := by
          refine ⟨by simp [widthAt, hnone], ?_⟩
          intro _ i j hj d hd
          cases List.mem_singleton.mp (List.mem_of_getElem? hj)
          rw [hnone] at hd
          cases hd
        exact hstep.trans (.refl _) (ih h) (placeLocals_grows hdepth h)
      next d hd =>
        rw [except_bind_eq_ok_iff] at h
        obtain ⟨next, hnext, h⟩ := h
        obtain ⟨-, rfl⟩ := Word.add_eq_ok_iff.mp hnext
        have hstep : Stacks [id] a
            { decls := place a.decls id depth a.next, next := a.next + d.width } := by
          refine ⟨by simp [widthAt, hd], ?_⟩
          intro _ i j hj e he
          cases i with
          | zero =>
              cases hj
              rw [place_getElem?, if_pos rfl, Option.map_eq_some_iff] at he
              obtain ⟨d₀, -, rfl⟩ := he
              exact ⟨depth, hdepth, rfl⟩
          | succ i => cases hj
        exact hstep.trans (place_sameButSlots _ _ _ _) (ih h) (placeLocals_grows hdepth h)

namespace Clause

theorem layout_stacks {f : Form} {depth floor : Nat} (hdepth : bodyDepth ≤ depth) {c c' : Clause f}
    {a b : Frame} (h : c.layout depth floor a = .ok (c', b)) : Frame.Stacks c.locals a b := by
  induction c generalizing depth floor a b with
  | eval line e | ret line e | write line e | absent | nil =>
      cases h
      exact .refl _
  | braces line s ih =>
      simp only [layout, except_bind_eq_ok_iff, Prod.exists, except_pure_eq_ok_iff, Prod.mk.injEq,
        Word.add_eq_ok_iff] at h
      obtain ⟨_, ⟨-, rfl⟩, s', b', hs, rfl, rfl⟩ := h
      exact ih (Nat.le_succ_of_le hdepth) hs
  | loop line e s ih | present s ih =>
      simp only [layout, except_bind_eq_ok_iff, Prod.exists, except_pure_eq_ok_iff,
        Prod.mk.injEq] at h
      obtain ⟨s', b', hs, rfl, rfl⟩ := h
      exact ih hdepth hs
  | ifElse line e s t ihs iht | cons s t ihs iht =>
      simp only [layout, except_bind_eq_ok_iff, Prod.exists, except_pure_eq_ok_iff,
        Prod.mk.injEq] at h
      obtain ⟨s', b₁, hs, t', b₂, ht, rfl, rfl⟩ := h
      obtain ⟨hgrows, -⟩ := layout_spec hdepth hs
      obtain ⟨hgrows', -⟩ := layout_spec hdepth ht
      exact (ihs hdepth hs).trans hgrows.same (iht hdepth ht) hgrows'
  | block line ids stmts size span ih =>
      simp only [layout, except_bind_eq_ok_iff, Prod.exists, except_pure_eq_ok_iff,
        Prod.mk.injEq] at h
      obtain ⟨b₁, hlocals, _, -, _, -, _, -, _, -, stmts', b₂, hstmts, rfl, rfl⟩ := h
      have hgrows := Frame.placeLocals_grows hdepth hlocals
      obtain ⟨hgrows', -⟩ := layout_spec hdepth hstmts
      exact (Frame.placeLocals_stacks hdepth hlocals).trans hgrows.same (ih hdepth hstmts) hgrows'

/-- How deep blocks are nested in a statement. -/
def nesting {f : Form} : Clause f → Nat
  | .braces _ b => b.nesting + 1
  | .ifElse _ _ t e => max t.nesting e.nesting
  | .loop _ _ s => s.nesting
  | .present s => s.nesting
  | .cons s rest => max s.nesting rest.nesting
  | .block _ _ stmts _ _ => stmts.nesting
  | .eval .. | .ret .. | .write .. | .absent | .nil => 0

end Clause

/-- Locals are placed if the positions can be counted. -/
theorem Frame.exists_placeLocals (depth : Nat) (ids : List DeclId) (a : Frame)
    (hsmall : a.next + positions a.decls ids < Word.bound) :
    ∃ b, Frame.placeLocals depth ids a = .ok b := by
  induction ids generalizing a with
  | nil => exact ⟨a, rfl⟩
  | cons id rest ih =>
      rw [positions_cons] at hsmall
      rw [placeLocals]
      split
      next => exact ih a (by omega)
      next d hd =>
        rw [widthAt_eq hd] at hsmall
        have hnext : Word.add a.next d.width = .ok (a.next + d.width) :=
          Word.add_eq_ok_iff.mpr ⟨by omega, rfl⟩
        rw [hnext, except_ok_bind]
        apply ih
        rw [(place_sameButSlots a.decls id depth a.next).positions_eq]
        simp only
        omega

/-- A statement is laid out if the bytes of its locals and the depth of its blocks can be
counted. -/
theorem Clause.exists_layout {f : Form} (c : Clause f) {depth floor : Nat}
    (hdepth : bodyDepth ≤ depth) {a : Frame} (hfloor : floor ≤ a.next)
    (hsmall : 8 * (a.next + positions a.decls c.locals) < Word.bound)
    (hnesting : depth + c.nesting < Word.bound) : ∃ c' b, c.layout depth floor a = .ok (c', b) := by
  induction c generalizing depth floor a with
  | eval line e | ret line e | write line e | absent | nil => exact ⟨_, a, rfl⟩
  | braces line s ih =>
      simp only [locals, nesting] at hsmall hnesting
      obtain ⟨s', b, hs⟩ := ih (Nat.le_succ_of_le hdepth) hfloor hsmall (by omega)
      have hinner : Word.add depth 1 = .ok (depth + 1) := Word.add_eq_ok_iff.mpr ⟨by omega, rfl⟩
      refine ⟨.braces line s', b, ?_⟩
      rw [layout, hinner, except_ok_bind, hs]
      rfl
  | loop line e s ih =>
      obtain ⟨s', b, hs⟩ := ih hdepth hfloor hsmall hnesting
      refine ⟨.loop line e s', b, ?_⟩
      rw [layout, hs]
      rfl
  | present s ih =>
      obtain ⟨s', b, hs⟩ := ih hdepth hfloor hsmall hnesting
      refine ⟨.present s', b, ?_⟩
      rw [layout, hs]
      rfl
  | ifElse line e s t ihs iht =>
      simp only [locals, nesting, positions_append] at hsmall hnesting
      obtain ⟨s', b, hs⟩ := ihs hdepth hfloor (by omega) (by omega)
      have hnext := (layout_stacks hdepth hs).next
      have hsame := (layout_spec hdepth hs).1.same
      have hfloor' : floor ≤ b.next := by omega
      obtain ⟨t', b', ht⟩ := iht hdepth hfloor' (by rw [hsame.positions_eq]; omega) (by omega)
      refine ⟨.ifElse line e s' t', b', ?_⟩
      simp only [layout, hs, ht, except_ok_bind]
      rfl
  | cons s t ihs iht =>
      simp only [locals, nesting, positions_append] at hsmall hnesting
      obtain ⟨s', b, hs⟩ := ihs hdepth hfloor (by omega) (by omega)
      have hnext := (layout_stacks hdepth hs).next
      have hsame := (layout_spec hdepth hs).1.same
      have hfloor' : floor ≤ b.next := by omega
      obtain ⟨t', b', ht⟩ := iht hdepth hfloor' (by rw [hsame.positions_eq]; omega) (by omega)
      refine ⟨.cons s' t', b', ?_⟩
      simp only [layout, hs, ht, except_ok_bind]
      rfl
  | block line ids stmts size span ih =>
      simp only [locals, nesting, positions_append] at hsmall hnesting
      obtain ⟨b, hb⟩ := Frame.exists_placeLocals depth ids a (by omega)
      have hnext := (Frame.placeLocals_stacks hdepth hb).next
      have hsame := (Frame.placeLocals_grows hdepth hb).same
      obtain ⟨stmts', b', hstmts⟩ :=
        ih hdepth (Nat.le_refl b.next) (by rw [hsame.positions_eq]; omega) hnesting
      -- The bytes of a block are counted from its own start and from that of its surroundings.
      have hsub {start : Nat} (hstart : start ≤ a.next) :
          Word.sub b.next start = .ok (b.next - start) := Word.sub_eq_ok_iff.mpr ⟨by omega, rfl⟩
      have hmul (start : Nat) : Word.mul 8 (b.next - start) = .ok (8 * (b.next - start)) :=
        Word.mul_eq_ok_iff.mpr ⟨by omega, rfl⟩
      refine ⟨.block line ids stmts' (8 * (b.next - a.next)) (8 * (b.next - floor)), b', ?_⟩
      simp only [layout, hb, hsub (Nat.le_refl _), hsub hfloor, hmul, hstmts, except_ok_bind]
      rfl

namespace Item

/-- Where the locals of an item are, once it is laid out: one behind the other, and nothing
behind the last one. -/
def Stacked (decls : List Decl) : Item → Prop
  | .var _ => True
  | .func f =>
      f.frameSize = 8 * positions decls f.body.locals ∧
      ∀ (i : Nat) (id : DeclId), f.body.locals[i]? = some id → ∀ d, decls[id]? = some d →
        ∃ depth, bodyDepth ≤ depth ∧ d.slot = some ⟨depth, positions decls (f.body.locals.take i)⟩

theorem layout_stacked {item item' : Item} {decls decls' : List Decl}
    (h : item.layout decls = .ok (item', decls')) (hnodup : (item.listed decls).Nodup) :
    item'.Stacked decls' := by
  cases item with
  | var id =>
      obtain ⟨rfl, rfl⟩ := layout_var h
      trivial
  | func f =>
      obtain ⟨body, frame, hbody, rfl, rfl⟩ := layout_func h
      obtain ⟨hgrows, hbare, -⟩ := Clause.layout_spec (Nat.le_refl _) hbody
      obtain ⟨hnext, hplaced⟩ := Clause.layout_stacks (Nat.le_refl _) hbody
      have hlocals : body.locals = f.body.locals := by
        rw [← Clause.locals_bare body, hbare, Clause.locals_bare]
      rw [listed, List.nodup_cons, List.nodup_append] at hnodup
      simp only [Nat.zero_add, ← hgrows.same.positions_eq] at hnext hplaced
      refine ⟨?_, ?_⟩
      · rw [hlocals, hnext]
      · rw [hlocals]
        exact hplaced hnodup.2.2.1

theorem Stacked.of_same {item : Item} {decls decls' : List Decl} (h : item.Stacked decls)
    (hsame : SameButSlots decls decls')
    (hkept : ∀ id ∈ item.listed decls, decls'[id]? = decls[id]?) : item.Stacked decls' := by
  cases item with
  | var id => trivial
  | func f =>
      obtain ⟨hsize, hplaced⟩ := h
      refine ⟨by rw [hsame.positions_eq, hsize], ?_⟩
      intro i id hid d hd
      rw [hkept id (by simp [listed, List.mem_of_getElem? hid])] at hd
      rw [hsame.positions_eq]
      exact hplaced i id hid d hd

/-- Whether the bytes of an item's locals, and the depth of its blocks, can be counted. -/
def Countable (decls : List Decl) : Item → Prop
  | .var _ => True
  | .func f =>
      8 * positions decls f.body.locals < Word.bound ∧ bodyDepth + f.body.nesting < Word.bound

theorem Countable.of_same {item : Item} {decls decls' : List Decl} (h : item.Countable decls)
    (hsame : SameButSlots decls decls') : item.Countable decls' := by
  cases item with
  | var id => trivial
  | func f => rwa [Countable, hsame.positions_eq]

theorem exists_layout {item : Item} {decls : List Decl} (h : item.Countable decls) :
    ∃ item' decls', item.layout decls = .ok (item', decls') := by
  cases item with
  | var id => exact ⟨_, _, rfl⟩
  | func f =>
      obtain ⟨hsmall, hnesting⟩ := h
      let placed := place decls f.decl 0 0
      let start : Frame := { decls := placeParams placed (paramsAt placed f.decl) 0, next := 0 }
      have hsame : SameButSlots decls start.decls :=
        (place_sameButSlots decls f.decl 0 0).trans placeParams_spec.1
      obtain ⟨body, frame, hbody⟩ := f.body.exists_layout (Nat.le_refl bodyDepth)
        (Nat.zero_le start.next) (by rwa [hsame.positions_eq, Nat.zero_add]) hnesting
      have hnext := (Clause.layout_stacks (Nat.le_refl _) hbody).next
      rw [hsame.positions_eq, Nat.zero_add] at hnext
      have hsize : Word.mul 8 frame.next = .ok (8 * frame.next) :=
        Word.mul_eq_ok_iff.mpr ⟨by omega, rfl⟩
      refine ⟨.func { f with body, frameSize := 8 * frame.next }, frame.decls, ?_⟩
      simp only [start, placed, paramsAt] at hbody
      simp only [layout, hbody, hsize, except_ok_bind]
      rfl

theorem exists_layoutAll {items : List Item} {decls : List Decl}
    (h : ∀ item ∈ items, item.Countable decls) :
    ∃ items' decls', layoutAll decls items = .ok (items', decls') := by
  induction items generalizing decls with
  | nil => exact ⟨_, _, rfl⟩
  | cons item rest ih =>
      rw [List.forall_mem_cons] at h
      obtain ⟨item', decls₁, hitem⟩ := exists_layout h.1
      have hsame := (layout_spec hitem).1
      obtain ⟨rest', decls₂, hrest⟩ := ih fun item hmem => (h.2 item hmem).of_same hsame
      refine ⟨item' :: rest', decls₂, ?_⟩
      simp only [layoutAll, hitem, hrest, except_ok_bind]
      rfl

end Item

/-! ## Bytes of a frame -/

namespace Decl

variable {d : Decl}

/-- The bytes of a variable, counted from the frame base. -/
def Takes (d : Decl) (b : Int) : Prop :=
  ∃ offset, d.offset = .ok (some offset) ∧ offset ≤ b ∧ b < offset + 8 * d.width

theorem offset_eq_of_param {i : Nat} (hslot : d.slot = some ⟨1, i⟩)
    (hsmall : i + 2 < 0x1000_0000_0000_0000) : d.offset = .ok (some (16 + 8 * i)) := by
  have hsigned : Word.toSigned i = i := Word.toSigned_of_lt (by unfold Word.bound; omega)
  have hmul : Signed.mul 8 i = .ok (8 * i) := if_pos (by unfold Signed.InRange; omega)
  have hadd : Signed.add 16 (8 * i) = .ok (16 + 8 * i) := if_pos (by unfold Signed.InRange; omega)
  simp only [offset, hslot, hsigned, except_bind_eq_ok_iff, except_pure_eq_ok_iff]
  exact ⟨_, hmul, _, hadd, rfl⟩

theorem offset_eq_of_local {depth position : Nat} (hslot : d.slot = some ⟨depth, position⟩)
    (hdepth : bodyDepth ≤ depth) (hpos : 0 < position + d.width)
    (hsmall : position + d.width < 0x1000_0000_0000_0000) :
    d.offset = .ok (some (-8 * (position + d.width))) := by
  obtain ⟨k, rfl⟩ : ∃ k, depth = k + 2 := ⟨depth - 2, by simp only [bodyDepth] at hdepth; omega⟩
  have hstop : Word.add position d.width = .ok (position + d.width) :=
    Word.add_eq_ok_iff.mpr ⟨by unfold Word.bound; omega, rfl⟩
  obtain ⟨last, hlast⟩ : ∃ last, position + d.width = last + 1 :=
    ⟨position + d.width - 1, by omega⟩
  have hlast' : Word.sub (position + d.width) 1 = .ok last :=
    Word.sub_eq_ok_iff.mpr ⟨by omega, by omega⟩
  have hsigned : Word.toSigned last = last := Word.toSigned_of_lt (by unfold Word.bound; omega)
  have hmul : Signed.mul 8 (Word.toSigned last) = .ok (8 * last) := by
    rw [hsigned]
    exact if_pos (by unfold Signed.InRange; omega)
  have hsub : Signed.sub (-8) (8 * last) = .ok (-8 - 8 * last) :=
    if_pos (by unfold Signed.InRange; omega)
  have hoffset : (-8 - 8 * last : Int) = -8 * (position + d.width) := by omega
  rw [hoffset] at hsub
  simp only [offset, hslot, except_bind_eq_ok_iff, except_pure_eq_ok_iff]
  exact ⟨_, hstop, last, hlast', _, hmul, _, hsub, rfl⟩

theorem takes_iff {offset : Int} (h : d.offset = .ok (some offset)) {b : Int} :
    d.Takes b ↔ offset ≤ b ∧ b < offset + 8 * d.width := by
  simp [Takes, h]

theorem takes_local_iff {depth position : Nat} (hslot : d.slot = some ⟨depth, position⟩)
    (hdepth : bodyDepth ≤ depth) (hsmall : position + d.width < 0x1000_0000_0000_0000) {b : Int} :
    d.Takes b ↔ -8 * (position + d.width : Int) ≤ b ∧ b < -8 * position := by
  rcases Nat.eq_zero_or_pos d.width with hwidth | hwidth
  · simp only [Takes, hwidth]
    constructor
    · rintro ⟨offset, -, hstart, hstop⟩
      omega
    · omega
  · rw [takes_iff (offset_eq_of_local hslot hdepth (by omega) hsmall)]
    omega

end Decl

theorem Decl.width_eq_one_of_isParam {d : Decl} (h : d.kind.isParam = true) : d.width = 1 := by
  cases hkind : d.kind <;> simp_all [DeclKind.isParam, width]

theorem Decl.width_eq_one_of_params {d : Decl} (h : d.params ≠ []) : d.width = 1 := by
  cases hkind : d.kind <;> simp_all [params, width]

theorem positions_eq_length {decls : List Decl} {ids : List DeclId}
    (h : ∀ id ∈ ids, widthAt decls id = 1) : positions decls ids = ids.length := by
  induction ids with
  | nil => rfl
  | cons id rest ih =>
      rw [List.forall_mem_cons] at h
      rw [positions_cons, ih h.2, h.1, List.length_cons, Nat.add_comm]

/-- The variables of a function share no byte of its frame, whose bytes are just those of the
locals, and leave alone the two words above the frame base. -/
structure Func.Separated (decls : List Decl) (f : Func) : Prop where
  /-- Parameters follow each other above the return address. -/
  params : ∀ (i : Nat) (id : DeclId), (paramsAt decls f.decl)[i]? = some id → ∃ d,
    decls[id]? = some d ∧ d.offset = .ok (some (16 + 8 * i)) ∧ d.width = 1
  /-- Locals that take positions have an offset. -/
  locals : ∀ id ∈ f.body.locals, ∃ d, decls[id]? = some d ∧
    (0 < d.width → ∃ offset, d.offset = .ok (some offset))
  cover : ∀ b : Int, (∃ id ∈ f.body.locals, ∃ d, decls[id]? = some d ∧ d.Takes b) ↔
    -f.frameSize ≤ b ∧ b < 0
  disjoint : ∀ id ∈ paramsAt decls f.decl ++ f.body.locals,
    ∀ id' ∈ paramsAt decls f.decl ++ f.body.locals, id ≠ id' →
    ∀ d d', decls[id]? = some d → decls[id']? = some d' → ∀ b, d.Takes b → ¬ d'.Takes b
  /-- The saved frame register and the return address are not touched. -/
  linkage : ∀ id ∈ paramsAt decls f.decl ++ f.body.locals, ∀ d, decls[id]? = some d →
    ∀ b, d.Takes b → b < 0 ∨ 16 ≤ b
  /-- The elements of an array are its own. -/
  elements : ∀ id ∈ f.body.locals, ∀ d length, decls[id]? = some d → d.kind = .array length →
    ∀ i : Nat, i < length → ∃ offset, d.offset = .ok (some offset) ∧
      ∀ b, offset + 8 * i ≤ b → b < offset + 8 * (i + 1) → d.Takes b

/-- A laid out function whose variables are listed once each and are all within reach. -/
structure Func.Addressable (decls : List Decl) (f : Func) : Prop where
  placed : (Item.func f).Placed decls
  stacked : (Item.func f).Stacked decls
  once : ((Item.func f).listed decls).Nodup
  inRange : ∀ id ∈ (Item.func f).listed decls, id < decls.length
  params : ∀ id ∈ paramsAt decls f.decl, ∀ d, decls[id]? = some d → d.kind.isParam = true
  small : positions decls ((Item.func f).listed decls) < 0x1000_0000_0000_0000

namespace Func.Addressable

variable {decls : List Decl} {f : Func} (h : f.Addressable decls) {i j : Nat} {id id' : DeclId}
  {d d' : Decl} {b : Int}
include h

theorem exists_decl (hid : id ∈ paramsAt decls f.decl ++ f.body.locals) :
    ∃ d, decls[id]? = some d :=
  ⟨_, List.getElem?_eq_getElem (h.inRange id (List.mem_cons_of_mem _ hid))⟩

theorem exists_param (hid : id ∈ paramsAt decls f.decl) :
    ∃ d, decls[id]? = some d ∧ d.width = 1 := by
  obtain ⟨d, hd⟩ := h.exists_decl (List.mem_append_left _ hid)
  exact ⟨d, hd, Decl.width_eq_one_of_isParam (h.params id hid d hd)⟩

/-- The parameters of a function and the function itself count as one position each. -/
theorem length_params_lt (hid : id ∈ paramsAt decls f.decl) :
    (paramsAt decls f.decl).length + 1 < 0x1000_0000_0000_0000 := by
  have hself : widthAt decls f.decl = 1 := by
    cases hf : decls[f.decl]? with
    | none => simp [paramsAt, hf] at hid
    | some e =>
        rw [widthAt_eq hf]
        apply Decl.width_eq_one_of_params
        rw [paramsAt, hf] at hid
        exact List.ne_nil_of_mem hid
  have hparams : positions decls (paramsAt decls f.decl) = (paramsAt decls f.decl).length := by
    apply positions_eq_length
    intro id hid
    obtain ⟨d, hd, hwidth⟩ := h.exists_param hid
    rw [widthAt_eq hd, hwidth]
  have hsmall := h.small
  rw [Item.listed, positions_cons, positions_append, hself, hparams] at hsmall
  omega

theorem positions_locals_lt : positions decls f.body.locals < 0x1000_0000_0000_0000 := by
  have hsmall := h.small
  rw [Item.listed, positions_cons, positions_append] at hsmall
  omega

theorem offset_param (hid : (paramsAt decls f.decl)[i]? = some id) :
    ∃ d, decls[id]? = some d ∧ d.offset = .ok (some (16 + 8 * i)) ∧ d.width = 1 := by
  have hmem := List.mem_of_getElem? hid
  obtain ⟨d, hd, hwidth⟩ := h.exists_param hmem
  obtain ⟨hlt, -⟩ := List.getElem?_eq_some_iff.mp hid
  have hnodup : (paramsAt decls f.decl).Nodup :=
    (List.nodup_append.mp (List.nodup_cons.mp h.once).2).1
  obtain ⟨k, hk, hslot⟩ := h.placed.1 id hmem d hd
  obtain rfl : i = k := (List.getElem?_inj hlt hnodup).mp (hid.trans hk.symm)
  have hlength := h.length_params_lt hmem
  exact ⟨d, hd, Decl.offset_eq_of_param hslot (by omega), hwidth⟩

theorem takes_param_iff (hid : (paramsAt decls f.decl)[i]? = some id) (hd : decls[id]? = some d) :
    d.Takes b ↔ 16 + 8 * (i : Int) ≤ b ∧ b < 24 + 8 * i := by
  obtain ⟨e, he, hoffset, hwidth⟩ := h.offset_param hid
  cases hd.symm.trans he
  rw [Decl.takes_iff hoffset, hwidth]
  omega

/-- A local ends where the next one starts. -/
theorem takes_local_iff (hid : f.body.locals[i]? = some id) (hd : decls[id]? = some d) :
    d.Takes b ↔ -8 * positions decls (f.body.locals.take (i + 1)) ≤ b ∧
      b < -8 * positions decls (f.body.locals.take i) := by
  obtain ⟨depth, hdepth, hslot⟩ := h.stacked.2 i id hid d hd
  have hstop := positions_take_succ decls hid
  have hle := positions_take_le decls f.body.locals (i + 1)
  have hsmall := h.positions_locals_lt
  rw [widthAt_eq hd] at hstop
  rw [Decl.takes_local_iff hslot hdepth (by omega), hstop, Int.natCast_add]

theorem offset_local (hid : id ∈ f.body.locals) (hd : decls[id]? = some d) (hwidth : 0 < d.width) :
    ∃ offset, d.offset = .ok (some offset) := by
  obtain ⟨i, hi⟩ := List.getElem?_of_mem hid
  obtain ⟨depth, hdepth, hslot⟩ := h.stacked.2 i id hi d hd
  have hstop := positions_take_succ decls hi
  have hle := positions_take_le decls f.body.locals (i + 1)
  have hsmall := h.positions_locals_lt
  rw [widthAt_eq hd] at hstop
  exact ⟨_, Decl.offset_eq_of_local hslot hdepth (by omega) (by omega)⟩

/-- The bytes of the locals are those below the frame base, down to the end of the frame. -/
theorem exists_takes_iff :
    (∃ id ∈ f.body.locals, ∃ d, decls[id]? = some d ∧ d.Takes b) ↔ -f.frameSize ≤ b ∧ b < 0 := by
  rw [h.stacked.1]
  constructor
  · rintro ⟨id, hid, d, hd, hb⟩
    obtain ⟨i, hi⟩ := List.getElem?_of_mem hid
    have hle := positions_take_le decls f.body.locals (i + 1)
    rw [h.takes_local_iff hi hd] at hb
    omega
  · rintro ⟨hstart, hstop⟩
    -- The position that the byte is in, counted down from the frame base.
    obtain ⟨k, hk⟩ : ∃ k : Nat, -8 * (k + 1 : Int) ≤ b ∧ b < -8 * k :=
      ⟨((-b - 1) / 8).toNat, by omega⟩
    have hlt : k < positions decls f.body.locals := by omega
    obtain ⟨i, id, hid, hfirst, hlast⟩ := exists_of_lt_positions decls hlt
    have hmem := List.mem_of_getElem? hid
    obtain ⟨d, hd⟩ := h.exists_decl (List.mem_append_right _ hmem)
    refine ⟨id, hmem, d, hd, ?_⟩
    rw [h.takes_local_iff hid hd, positions_take_succ decls hid]
    omega

theorem param_above (hid : id ∈ paramsAt decls f.decl) (hd : decls[id]? = some d)
    (hb : d.Takes b) : 16 ≤ b := by
  obtain ⟨i, hi⟩ := List.getElem?_of_mem hid
  rw [h.takes_param_iff hi hd] at hb
  omega

theorem local_below (hid : id ∈ f.body.locals) (hd : decls[id]? = some d) (hb : d.Takes b) :
    b < 0 :=
  (h.exists_takes_iff.mp ⟨id, hid, d, hd, hb⟩).2

theorem params_disjoint (hid : id ∈ paramsAt decls f.decl) (hid' : id' ∈ paramsAt decls f.decl)
    (hne : id ≠ id') (hd : decls[id]? = some d) (hd' : decls[id']? = some d') (hb : d.Takes b) :
    ¬ d'.Takes b := by
  obtain ⟨i, hi⟩ := List.getElem?_of_mem hid
  obtain ⟨j, hj⟩ := List.getElem?_of_mem hid'
  have hplaces : i ≠ j := by
    rintro rfl
    exact hne (Option.some.inj (hi.symm.trans hj))
  rw [h.takes_param_iff hi hd] at hb
  rw [h.takes_param_iff hj hd']
  omega

theorem locals_disjoint (hid : id ∈ f.body.locals) (hid' : id' ∈ f.body.locals) (hne : id ≠ id')
    (hd : decls[id]? = some d) (hd' : decls[id']? = some d') (hb : d.Takes b) : ¬ d'.Takes b := by
  obtain ⟨i, hi⟩ := List.getElem?_of_mem hid
  obtain ⟨j, hj⟩ := List.getElem?_of_mem hid'
  rw [h.takes_local_iff hi hd, positions_take_succ decls hi] at hb
  rw [h.takes_local_iff hj hd', positions_take_succ decls hj]
  rcases Nat.lt_trichotomy i j with hlt | rfl | hlt
  · have hapart := positions_separate decls hlt hi
    omega
  · exact absurd (Option.some.inj (hi.symm.trans hj)) hne
  · have hapart := positions_separate decls hlt hj
    omega

theorem element_takes {length : Nat} (hid : id ∈ f.body.locals) (hd : decls[id]? = some d)
    (hkind : d.kind = .array length) (hi : i < length) :
    ∃ offset, d.offset = .ok (some offset) ∧
      ∀ b, offset + 8 * i ≤ b → b < offset + 8 * (i + 1) → d.Takes b := by
  have hwidth : d.width = length := by simp [Decl.width, hkind]
  obtain ⟨offset, hoffset⟩ := h.offset_local hid hd (by omega)
  refine ⟨offset, hoffset, fun b hstart hstop => ?_⟩
  rw [Decl.takes_iff hoffset, hwidth]
  omega

/-- So the variables of the function are kept apart. -/
theorem separated : f.Separated decls where
  params := fun _ _ => h.offset_param
  locals := by
    intro id hid
    obtain ⟨d, hd⟩ := h.exists_decl (List.mem_append_right _ hid)
    exact ⟨d, hd, h.offset_local hid hd⟩
  cover := fun _ => h.exists_takes_iff
  disjoint := by
    intro id hid id' hid' hne d d' hd hd' b hb hb'
    rcases List.mem_append.mp hid with hid | hid <;> rcases List.mem_append.mp hid' with hid' | hid'
    · exact h.params_disjoint hid hid' hne hd hd' hb hb'
    · have habove := h.param_above hid hd hb
      have hbelow := h.local_below hid' hd' hb'
      omega
    · have hbelow := h.local_below hid hd hb
      have habove := h.param_above hid' hd' hb'
      omega
    · exact h.locals_disjoint hid hid' hne hd hd' hb hb'
  linkage := by
    intro id hid d hd b hb
    rcases List.mem_append.mp hid with hid | hid
    · exact .inr (h.param_above hid hd hb)
    · exact .inl (h.local_below hid hd hb)
  elements := fun _ hid _ _ hd hkind _ hi => h.element_takes hid hd hkind hi

end Func.Addressable

namespace Program

theorem layout_stacked {p r : Program} (h : p.layout = .ok r) (hnodup : p.listed.Nodup)
    {item : Item} (hitem : item ∈ r.items) : item.Stacked r.decls :=
  Item.layoutAll_forall Item.layout_stacked Item.Stacked.of_same (layout_eq_ok_iff.mp h) hnodup
    item hitem

theorem positions_item_le {p : Program} {item : Item} (hitem : item ∈ p.items) :
    positions p.decls (item.listed p.decls) ≤ positions p.decls p.listed := by
  obtain ⟨before, after, hitems⟩ := List.append_of_mem hitem
  rw [listed, hitems, List.flatMap_append, List.flatMap_cons, positions_append, positions_append]
  omega

section Storage

variable {p : Program} (hrange : p.InRange) (honce : p.listed.Nodup)
  (hsmall : positions p.decls p.listed < 0x1000_0000_0000_0000)
include hsmall

theorem exists_layout
    (hnesting : ∀ f, .func f ∈ p.items → bodyDepth + f.body.nesting < Word.bound) :
    ∃ r, p.layout = .ok r := by
  have hcountable : ∀ item ∈ p.items, item.Countable p.decls := by
    intro item hitem
    cases item with
    | var id => trivial
    | func f =>
        have hle := positions_item_le hitem
        rw [Item.listed, positions_cons, positions_append] at hle
        exact ⟨by unfold Word.bound; omega, hnesting f hitem⟩
  obtain ⟨items, decls, hlayout⟩ := Item.exists_layoutAll hcountable
  exact ⟨{ decls, items }, layout_eq_ok_iff.mpr hlayout⟩

include hrange honce

theorem addressable_of_layout
    (hparams : ∀ f, .func f ∈ p.items → ∀ id ∈ paramsAt p.decls f.decl,
      ∀ d, p.decls[id]? = some d → d.kind.isParam = true)
    {r : Program} (h : p.layout = .ok r) {f : Func} (hf : .func f ∈ r.items) :
    f.Addressable r.decls := by
  have hsame := layout_sameButSlots h
  obtain ⟨f₀, hf₀, hdecl, hbody⟩ := func_of_layout h hf
  have hlisted : (Item.func f).listed r.decls = (Item.func f₀).listed p.decls := by
    rw [Item.listed_eq_of_same hsame]
    apply Item.listed_eq_of_bare
    rw [Item.bare, Item.bare, hdecl, hbody]
  have hmem : ∀ id ∈ (Item.func f₀).listed p.decls, id ∈ p.listed := fun id hid =>
    List.mem_flatMap.mpr ⟨.func f₀, hf₀, hid⟩
  have hlength : r.decls.length = p.decls.length := by
    simpa using congrArg List.length hsame
  refine ⟨layout_placed h honce hf, layout_stacked h honce hf, ?_, ?_, ?_, ?_⟩
  · rw [hlisted]
    exact (List.nodup_flatMap.mp honce).1 _ hf₀
  · rw [hlisted, hlength]
    exact fun id hid => hrange id (hmem id hid)
  · intro id hid d hd
    obtain ⟨d₀, hd₀, hbare⟩ := hsame.exists_of_getElem? hd
    rw [Decl.kind_eq_of_bare hbare]
    rw [hsame.paramsAt_eq, hdecl] at hid
    exact hparams f₀ hf₀ id hid d₀ hd₀
  · rw [hlisted, hsame.positions_eq]
    exact Nat.lt_of_le_of_lt (positions_item_le hf₀) hsmall

end Storage

/-- No two variables share storage. A program whose declarations are listed once each, and
take fewer than 2⁶⁰ positions, is laid out unless its blocks are nested too deep to be
counted. Then all that it lists has a slot, and every function keeps its variables apart. -/
theorem layout_keeps_variables_apart {p : Program} (hrange : p.InRange) (honce : p.listed.Nodup)
    (hparams : ∀ f, .func f ∈ p.items → ∀ id ∈ paramsAt p.decls f.decl,
      ∀ d, p.decls[id]? = some d → d.kind.isParam = true)
    (hsmall : positions p.decls p.listed < 0x1000_0000_0000_0000) :
    ((∀ f, .func f ∈ p.items → bodyDepth + f.body.nesting < Word.bound) → ∃ r, p.layout = .ok r) ∧
    ∀ r, p.layout = .ok r →
      (∀ id ∈ p.listed, ∃ d, r.decls[id]? = some d ∧ d.slot.isSome) ∧
      ∀ f, .func f ∈ r.items → f.Separated r.decls := by
  refine ⟨exists_layout hsmall, fun r h => ⟨?_, ?_⟩⟩
  · intro id hid
    have hd₀ := List.getElem?_eq_getElem (hrange id hid)
    obtain ⟨d, hd, -⟩ := (layout_sameButSlots h).symm.exists_of_getElem? hd₀
    exact ⟨d, hd, layout_slot h hid hd⟩
  · intro f hf
    exact (addressable_of_layout hrange honce hsmall hparams h hf).separated

end Program

namespace Branches

/-- Two parameters, an array, and in the branches an empty array, a variable and a pointer. -/
def func : Func where
  decl := 2
  body := .ofStmts [3] [
    .ifElse (.var "n") (.block (.ofStmts [4, 5] [])) (.block (.ofStmts [6] []))]

def program : Program where
  decls := [.param 1 .int "n", .arrayParam 1 .int "v",
    { line := 1, name := "f", base := .void, kind := .func [0, 1] }, .array 2 .int "a" 2,
    .array 3 .int "none" 0, .var 3 .int "k", .pointer 4 .int "q"]
  items := [.func func]

theorem variables_apart :
    ∃ r f, program.layout = .ok r ∧ r.items = [.func f] ∧ f.frameSize = 32 ∧
      f.Separated r.decls := by
  have hparams : ∀ f, .func f ∈ program.items → ∀ id ∈ paramsAt program.decls f.decl,
      ∀ d, program.decls[id]? = some d → d.kind.isParam = true := by
    intro f hf id hid d hd
    obtain rfl : f = func := by simpa [program] using hf
    obtain rfl | rfl : id = 0 ∨ id = 1 := by simpa using (show id ∈ [0, 1] from hid)
    · cases hd
      rfl
    · cases hd
      rfl
  have hnesting : ∀ f, .func f ∈ program.items → bodyDepth + f.body.nesting < Word.bound := by
    intro f hf
    obtain rfl : f = func := by simpa [program] using hf
    decide
  have hrange : program.InRange := by
    unfold Program.InRange
    decide
  obtain ⟨hlayout, hapart⟩ :=
    Program.layout_keeps_variables_apart hrange (by decide) hparams (by decide)
  obtain ⟨r, hr⟩ := hlayout hnesting
  cases hr
  exact ⟨_, _, rfl, rfl, rfl, (hapart _ rfl).2 _ (List.mem_singleton.mpr rfl)⟩

end Branches

end Backend
