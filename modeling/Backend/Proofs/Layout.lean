import Backend.Frame.Layout
import Backend.Proofs.Binding

/-! # What a layout assigns

Laying out changes slots and sizes only. The locals of a body are placed between the
first free position before it and the one behind it, parameters at their own places,
and globals at depth 0.
-/

namespace Backend

/-- A declaration without its slot. -/
def Decl.bare (d : Decl) : Decl := { d with slot := none }

/-- Two lists of the same declarations, up to their slots. -/
def SameButSlots (decls decls' : List Decl) : Prop :=
  decls'.map Decl.bare = decls.map Decl.bare

namespace SameButSlots

variable {decls decls' decls'' : List Decl}

theorem refl (decls : List Decl) : SameButSlots decls decls := rfl

theorem trans (h : SameButSlots decls decls') (h' : SameButSlots decls' decls'') :
    SameButSlots decls decls'' :=
  Eq.trans h' h

theorem getElem? (h : SameButSlots decls decls') (id : DeclId) :
    decls'[id]?.map Decl.bare = decls[id]?.map Decl.bare := by
  rw [← List.getElem?_map, ← List.getElem?_map, h]

/-- A declaration is found on both sides or on none. -/
theorem exists_of_getElem? (h : SameButSlots decls decls') {id : DeclId} {d : Decl}
    (hd : decls'[id]? = some d) : ∃ d₀, decls[id]? = some d₀ ∧ d.bare = d₀.bare := by
  have hbare := h.getElem? id
  rw [hd, Option.map_some, eq_comm, Option.map_eq_some_iff] at hbare
  obtain ⟨d₀, hd₀, heq⟩ := hbare
  exact ⟨d₀, hd₀, heq.symm⟩

theorem symm (h : SameButSlots decls decls') : SameButSlots decls' decls := Eq.symm h

end SameButSlots

namespace Decl

theorem name_eq_of_bare {d e : Decl} (h : d.bare = e.bare) : d.name = e.name := by
  have hname := congrArg Decl.name h
  exact hname

theorem kind_eq_of_bare {d e : Decl} (h : d.bare = e.bare) : d.kind = e.kind := by
  have hkind := congrArg Decl.kind h
  exact hkind

theorem params_eq_of_bare {d e : Decl} (h : d.bare = e.bare) : d.params = e.params := by
  simp only [params, kind_eq_of_bare h]

theorem ty_eq_of_bare {d e : Decl} (h : d.bare = e.bare) : d.ty = e.ty := by
  have hty := congrArg Decl.ty h
  exact hty

theorem isFunc_eq_of_bare {d e : Decl} (h : d.bare = e.bare) : d.isFunc = e.isFunc := by
  simp only [isFunc, kind_eq_of_bare h]

end Decl

theorem SameButSlots.paramsAt_eq {decls decls' : List Decl} (h : SameButSlots decls decls')
    (id : DeclId) : paramsAt decls' id = paramsAt decls id := by
  have hbare := h.getElem? id
  unfold paramsAt
  cases hd : decls[id]? with
  | none =>
      rw [hd, Option.map_none, Option.map_eq_none_iff] at hbare
      rw [hbare]
  | some d =>
      rw [hd, Option.map_some, Option.map_eq_some_iff] at hbare
      obtain ⟨d', hd', heq⟩ := hbare
      rw [hd']
      exact Decl.params_eq_of_bare heq

theorem place_getElem? (decls : List Decl) (id : DeclId) (depth position : Nat) (j : DeclId) :
    (place decls id depth position)[j]? =
      if id = j then decls[j]?.map fun d => { d with slot := some ⟨depth, position⟩ }
      else decls[j]? := by
  rw [place, List.getElem?_modify]
  split <;> simp

theorem place_sameButSlots (decls : List Decl) (id : DeclId) (depth position : Nat) :
    SameButSlots decls (place decls id depth position) := by
  apply List.ext_getElem?
  intro j
  rw [List.getElem?_map, List.getElem?_map, place_getElem?]
  split
  · rw [Option.map_map]
    rfl
  · rfl

/-- From one frame to a later one with some declarations placed in between. -/
structure Frame.Grows (ids : List DeclId) (a b : Frame) : Prop where
  same : SameButSlots a.decls b.decls
  next : a.next ≤ b.next
  others : ∀ id ∉ ids, b.decls[id]? = a.decls[id]?
  placed : ∀ id ∈ ids, ∀ d, b.decls[id]? = some d → ∃ s, d.slot = some s ∧ bodyDepth ≤ s.depth ∧
    a.next ≤ s.position ∧ s.position + d.width ≤ b.next

namespace Frame.Grows

theorem refl (a : Frame) : Grows [] a a :=
  ⟨.refl _, Nat.le_refl _, fun _ _ => rfl, fun _ h => absurd h List.not_mem_nil⟩

theorem trans {ids ids' : List DeclId} {a b c : Frame} (h : Grows ids a b) (h' : Grows ids' b c) :
    Grows (ids ++ ids') a c where
  same := h.same.trans h'.same
  next := Nat.le_trans h.next h'.next
  others := by
    intro id hid
    simp only [List.mem_append, not_or] at hid
    rw [h'.others id hid.2, h.others id hid.1]
  placed := by
    intro id hid d hd
    -- The latest placement counts, so look into the second list first.
    by_cases hlate : id ∈ ids'
    · obtain ⟨s, hs, hdepth, hstart, hstop⟩ := h'.placed id hlate d hd
      exact ⟨s, hs, hdepth, Nat.le_trans h.next hstart, hstop⟩
    · rw [h'.others id hlate] at hd
      have hearly : id ∈ ids := (List.mem_append.mp hid).resolve_right hlate
      obtain ⟨s, hs, hdepth, hstart, hstop⟩ := h.placed id hearly d hd
      exact ⟨s, hs, hdepth, hstart, Nat.le_trans hstop h'.next⟩

end Frame.Grows

theorem Frame.placeLocals_grows {depth : Nat} (hdepth : bodyDepth ≤ depth) {ids : List DeclId}
    {a b : Frame} (h : Frame.placeLocals depth ids a = .ok b) : Grows ids a b := by
  induction ids generalizing a with
  | nil =>
      cases h
      exact .refl _
  | cons id rest ih =>
      rw [placeLocals] at h
      split at h
      -- A place that does not exist is skipped.
      next hnone =>
        have hstep : Grows [id] a a := by
          refine ⟨.refl _, Nat.le_refl _, fun _ _ => rfl, ?_⟩
          intro i hi d hd
          cases List.mem_singleton.mp hi
          rw [hnone] at hd
          cases hd
        exact hstep.trans (ih h)
      next d hd =>
        rw [except_bind_eq_ok_iff] at h
        obtain ⟨next, hnext, h⟩ := h
        obtain ⟨-, rfl⟩ := Word.add_eq_ok_iff.mp hnext
        have hstep : Grows [id] a
            { decls := place a.decls id depth a.next, next := a.next + d.width } := by
          refine ⟨place_sameButSlots _ _ _ _, Nat.le_add_right _ _, ?_, ?_⟩
          · intro i hi
            rw [List.mem_singleton] at hi
            rw [place_getElem?, if_neg (Ne.symm hi)]
          · intro i hi e he
            cases List.mem_singleton.mp hi
            rw [place_getElem?, if_pos rfl, hd, Option.map_some, Option.some.injEq] at he
            subst he
            exact ⟨_, rfl, hdepth, Nat.le_refl _, Nat.le_refl _⟩
        exact hstep.trans (ih h)

namespace Clause

/-- A statement without the sizes of its blocks. -/
def bare {f : Form} : Clause f → Clause f
  | .eval line e => .eval line e
  | .braces line b => .braces line b.bare
  | .ifElse line c t e => .ifElse line c t.bare e.bare
  | .loop line c s => .loop line c s.bare
  | .ret line e => .ret line e
  | .write line e => .write line e
  | .absent => .absent
  | .present s => .present s.bare
  | .nil => .nil
  | .cons s rest => .cons s.bare rest.bare
  | .block line ids stmts _ _ => .block line ids stmts.bare 0 0

theorem bare_bare {f : Form} (c : Clause f) : c.bare.bare = c.bare := by
  induction c <;> simp_all [bare]

theorem exprs_bare {f : Form} (c : Clause f) : c.bare.exprs = c.exprs := by
  induction c <;> simp_all [bare, exprs]

theorem written_bare {f : Form} (c : Clause f) : c.bare.written = c.written := by
  induction c <;> simp_all [bare, written]

theorem locals_bare {f : Form} (c : Clause f) : c.bare.locals = c.locals := by
  induction c <;> simp_all [bare, locals]

/-- The bytes that each block reserves. -/
def spans {f : Form} : Clause f → List Nat
  | .braces _ b => b.spans
  | .ifElse _ _ t e => t.spans ++ e.spans
  | .loop _ _ s => s.spans
  | .present s => s.spans
  | .cons s rest => s.spans ++ rest.spans
  | .block _ _ stmts _ span => span :: stmts.spans
  | .eval .. | .ret .. | .write .. | .absent | .nil => []

/-- Laying out a statement places its locals, changes nothing else than sizes, and
reserves whole positions. -/
theorem layout_spec {f : Form} {depth floor : Nat} (hdepth : bodyDepth ≤ depth) {c c' : Clause f}
    {a b : Frame} (h : c.layout depth floor a = .ok (c', b)) :
    Frame.Grows c.locals a b ∧ c'.bare = c.bare ∧ ∀ span ∈ c'.spans, 8 ∣ span := by
  induction c generalizing depth floor a b with
  | eval line e | ret line e | write line e | absent | nil =>
      cases h
      exact ⟨.refl _, rfl, by simp [spans]⟩
  | braces line s ih =>
      simp only [layout, except_bind_eq_ok_iff, Prod.exists, except_pure_eq_ok_iff, Prod.mk.injEq,
        Word.add_eq_ok_iff] at h
      obtain ⟨_, ⟨-, rfl⟩, s', b', hs, rfl, rfl⟩ := h
      obtain ⟨hgrows, hbare, hspans⟩ := ih (Nat.le_succ_of_le hdepth) hs
      exact ⟨hgrows, by rw [bare, bare, hbare], hspans⟩
  | loop line e s ih | present s ih =>
      simp only [layout, except_bind_eq_ok_iff, Prod.exists, except_pure_eq_ok_iff,
        Prod.mk.injEq] at h
      obtain ⟨s', b', hs, rfl, rfl⟩ := h
      obtain ⟨hgrows, hbare, hspans⟩ := ih hdepth hs
      exact ⟨hgrows, by rw [bare, bare, hbare], hspans⟩
  | ifElse line e s t ihs iht | cons s t ihs iht =>
      simp only [layout, except_bind_eq_ok_iff, Prod.exists, except_pure_eq_ok_iff,
        Prod.mk.injEq] at h
      obtain ⟨s', b₁, hs, t', b₂, ht, rfl, rfl⟩ := h
      obtain ⟨hgrows, hbare, hspans⟩ := ihs hdepth hs
      obtain ⟨hgrows', hbare', hspans'⟩ := iht hdepth ht
      refine ⟨hgrows.trans hgrows', by rw [bare, bare, hbare, hbare'], ?_⟩
      intro span hspan
      rcases List.mem_append.mp hspan with hspan | hspan
      · exact hspans span hspan
      · exact hspans' span hspan
  | block line ids stmts size span ih =>
      simp only [layout, except_bind_eq_ok_iff, Prod.exists, except_pure_eq_ok_iff, Prod.mk.injEq,
        Word.mul_eq_ok_iff] at h
      obtain ⟨b₁, hlocals, _, -, _, -, _, -, _, ⟨-, rfl⟩, stmts', b₂, hstmts, rfl, rfl⟩ := h
      have hgrows := Frame.placeLocals_grows hdepth hlocals
      obtain ⟨hgrows', hbare, hspans⟩ := ih hdepth hstmts
      refine ⟨hgrows.trans hgrows', by rw [bare, bare, hbare], ?_⟩
      intro span hspan
      rcases List.mem_cons.mp hspan with rfl | hspan
      · exact Nat.dvd_mul_right _ _
      · exact hspans span hspan

end Clause

/-- Parameters get the places they have in their list, the last one where a parameter is
listed again. -/
theorem placeParams_spec {ids : List DeclId} {decls : List Decl} {position : Nat} :
    SameButSlots decls (placeParams decls ids position) ∧
    (∀ id ∉ ids, (placeParams decls ids position)[id]? = decls[id]?) ∧
    (∀ id ∈ ids, ∀ d, (placeParams decls ids position)[id]? = some d →
      ∃ i, ids[i]? = some id ∧ d.slot = some ⟨1, position + i⟩) := by
  induction ids generalizing decls position with
  | nil => exact ⟨.refl _, fun _ _ => rfl, fun _ h => absurd h List.not_mem_nil⟩
  | cons id rest ih =>
      obtain ⟨hsame, hothers, hplaced⟩ := @ih (place decls id 1 position) (position + 1)
      refine ⟨(place_sameButSlots _ _ _ _).trans hsame, ?_, ?_⟩
      · intro i hi
        simp only [List.mem_cons, not_or] at hi
        rw [placeParams, hothers i hi.2, place_getElem?, if_neg (Ne.symm hi.1)]
      · intro i hi d hd
        rw [placeParams] at hd
        by_cases hlate : i ∈ rest
        · obtain ⟨k, hk, hslot⟩ := hplaced i hlate d hd
          refine ⟨k + 1, by simpa using hk, ?_⟩
          rw [hslot]
          congr 2
          omega
        · cases (List.mem_cons.mp hi).resolve_right hlate
          rw [hothers id hlate, place_getElem?, if_pos rfl, Option.map_eq_some_iff] at hd
          obtain ⟨d₀, -, rfl⟩ := hd
          exact ⟨0, rfl, rfl⟩

namespace Item

/-- An item without the sizes of its blocks and frame. -/
def bare : Item → Item
  | .var id => .var id
  | .func f => .func { f with body := f.body.bare, frameSize := 0 }

theorem bare_bare (item : Item) : item.bare.bare = item.bare := by
  cases item <;> simp [bare, Clause.bare_bare]

/-- Where the variables of an item are, once it is laid out. -/
def Placed (decls : List Decl) : Item → Prop
  | .var id => ∀ d, decls[id]? = some d → d.slot = some ⟨0, 0⟩
  | .func f =>
      (∀ id ∈ paramsAt decls f.decl, ∀ d, decls[id]? = some d →
        ∃ i, (paramsAt decls f.decl)[i]? = some id ∧ d.slot = some ⟨1, i⟩) ∧
      (∀ id ∈ f.body.locals, ∀ d, decls[id]? = some d → ∃ s, d.slot = some s ∧
        bodyDepth ≤ s.depth ∧ 8 * (s.position + d.width) ≤ f.frameSize) ∧
      8 ∣ f.frameSize ∧ ∀ span ∈ f.body.spans, 8 ∣ span

theorem layout_var {id : DeclId} {decls decls' : List Decl} {item : Item}
    (h : (Item.var id).layout decls = .ok (item, decls')) :
    item = .var id ∧ decls' = place decls id 0 0 := by
  simp only [layout, Except.ok.injEq, Prod.mk.injEq] at h
  exact ⟨h.1.symm, h.2.symm⟩

/-- A function is laid out in three steps: itself, its parameters, its body. -/
theorem layout_func {f : Func} {decls decls' : List Decl} {item : Item}
    (h : (Item.func f).layout decls = .ok (item, decls')) :
    ∃ body frame, f.body.layout bodyDepth 0
        { decls := placeParams (place decls f.decl 0 0) (paramsAt decls f.decl) 0, next := 0 } =
        .ok (body, frame) ∧
      item = .func { f with body, frameSize := 8 * frame.next } ∧ decls' = frame.decls := by
  have hparams := (place_sameButSlots decls f.decl 0 0).paramsAt_eq f.decl
  simp only [layout, except_bind_eq_ok_iff, Prod.exists, except_pure_eq_ok_iff, Prod.mk.injEq,
    Word.mul_eq_ok_iff] at h
  obtain ⟨body, frame, hbody, _, ⟨-, rfl⟩, rfl, rfl⟩ := h
  change f.body.layout bodyDepth 0
    { decls := placeParams _ (paramsAt (place decls f.decl 0 0) f.decl) 0, next := 0 } = _ at hbody
  rw [hparams] at hbody
  exact ⟨body, frame, hbody, rfl, rfl⟩

/-- What laying out an item does to the declarations. -/
theorem layout_spec {item item' : Item} {decls decls' : List Decl}
    (h : item.layout decls = .ok (item', decls')) :
    SameButSlots decls decls' ∧ item'.bare = item.bare ∧
    (∀ id ∉ item.listed decls, decls'[id]? = decls[id]?) ∧
    ∀ id ∈ item.listed decls, ∀ d, decls'[id]? = some d → d.slot.isSome := by
  cases item with
  | var id =>
      obtain ⟨rfl, rfl⟩ := layout_var h
      refine ⟨place_sameButSlots _ _ _ _, rfl, ?_, ?_⟩
      · intro i hi
        rw [listed, List.mem_singleton] at hi
        rw [place_getElem?, if_neg (Ne.symm hi)]
      · intro i hi d hd
        cases List.mem_singleton.mp hi
        rw [place_getElem?, if_pos rfl, Option.map_eq_some_iff] at hd
        obtain ⟨d₀, -, rfl⟩ := hd
        rfl
  | func f =>
      obtain ⟨body, frame, hbody, rfl, rfl⟩ := layout_func h
      obtain ⟨hgrows, hbare, -⟩ := Clause.layout_spec (Nat.le_refl _) hbody
      obtain ⟨hsame, hothers, hplaced⟩ :=
        @placeParams_spec (paramsAt decls f.decl) (place decls f.decl 0 0) 0
      refine ⟨((place_sameButSlots _ _ _ _).trans hsame).trans hgrows.same,
        by simp [bare, hbare], ?_, ?_⟩
      · intro i hi
        simp only [listed, List.mem_cons, List.mem_append, not_or] at hi
        rw [hgrows.others i hi.2.2, hothers i hi.2.1, place_getElem?, if_neg (Ne.symm hi.1)]
      · intro i hi d hd
        -- Locals are placed last, so they decide where something is listed more than once.
        by_cases hlocal : i ∈ f.body.locals
        · obtain ⟨s, hs, -⟩ := hgrows.placed i hlocal d hd
          simp [hs]
        · rw [hgrows.others i hlocal] at hd
          by_cases hparam : i ∈ paramsAt decls f.decl
          · obtain ⟨k, -, hslot⟩ := hplaced i hparam d hd
            simp [hslot]
          · rw [hothers i hparam] at hd
            simp only [listed, List.mem_cons, List.mem_append, hparam, hlocal, or_false] at hi
            subst hi
            rw [place_getElem?, if_pos rfl, Option.map_eq_some_iff] at hd
            obtain ⟨d₀, -, rfl⟩ := hd
            rfl

/-- In an item that lists nothing twice, everything is where it belongs. -/
theorem layout_placed {item item' : Item} {decls decls' : List Decl}
    (h : item.layout decls = .ok (item', decls')) (hnodup : (item.listed decls).Nodup) :
    item'.Placed decls' := by
  obtain ⟨hsame', -, -, -⟩ := layout_spec h
  cases item with
  | var id =>
      obtain ⟨rfl, rfl⟩ := layout_var h
      intro d hd
      rw [place_getElem?, if_pos rfl, Option.map_eq_some_iff] at hd
      obtain ⟨d₀, -, rfl⟩ := hd
      rfl
  | func f =>
      obtain ⟨body, frame, hbody, rfl, rfl⟩ := layout_func h
      obtain ⟨hgrows, hbare, hspans⟩ := Clause.layout_spec (Nat.le_refl _) hbody
      obtain ⟨hsame, hothers, hplaced⟩ :=
        @placeParams_spec (paramsAt decls f.decl) (place decls f.decl 0 0) 0
      have hlocals : body.locals = f.body.locals := by
        rw [← Clause.locals_bare body, hbare, Clause.locals_bare]
      rw [listed, List.nodup_cons, List.nodup_append] at hnodup
      obtain ⟨-, -, -, hdisjoint⟩ := hnodup
      refine ⟨?_, ?_, Nat.dvd_mul_right _ _, hspans⟩
      · intro id hid d hd
        rw [hsame'.paramsAt_eq] at hid ⊢
        rw [hgrows.others id fun hmem => hdisjoint id hid id hmem rfl] at hd
        obtain ⟨i, hi, hslot⟩ := hplaced id hid d hd
        exact ⟨i, hi, by rw [hslot, Nat.zero_add]⟩
      · intro id hid d hd
        rw [hlocals] at hid
        obtain ⟨s, hs, hdepth, -, hstop⟩ := hgrows.placed id hid d hd
        exact ⟨s, hs, hdepth, Nat.mul_le_mul_left 8 hstop⟩

theorem listed_eq_of_same {decls decls' : List Decl} (h : SameButSlots decls decls') :
    listed decls' = listed decls := by
  funext item
  cases item <;> simp [listed, h.paramsAt_eq]

theorem listed_eq_of_bare {item item' : Item} (h : item'.bare = item.bare) (decls : List Decl) :
    item'.listed decls = item.listed decls := by
  cases item <;> cases item' <;>
    simp only [bare, func.injEq, var.injEq, Func.mk.injEq, reduceCtorEq] at h
  case var.var => rw [h]
  case func.func f g =>
    rw [listed, listed, h.1, ← Clause.locals_bare g.body, h.2.1, Clause.locals_bare]

/-- Nothing moves while other declarations are placed. -/
theorem Placed.of_same {item : Item} {decls decls' : List Decl} (h : item.Placed decls)
    (hsame : SameButSlots decls decls')
    (hkept : ∀ id ∈ item.listed decls, decls'[id]? = decls[id]?) : item.Placed decls' := by
  cases item with
  | var id =>
      intro d hd
      rw [hkept id (by simp [listed])] at hd
      exact h d hd
  | func f =>
      obtain ⟨hparams, hlocals, hsize, hspans⟩ := h
      refine ⟨?_, ?_, hsize, hspans⟩
      · intro id hid d hd
        rw [hsame.paramsAt_eq] at hid ⊢
        rw [hkept id (by simp [listed, hid])] at hd
        exact hparams id hid d hd
      · intro id hid d hd
        rw [hkept id (by simp [listed, hid])] at hd
        exact hlocals id hid d hd

theorem layoutAll_spec {items items' : List Item} {decls decls' : List Decl}
    (h : layoutAll decls items = .ok (items', decls')) :
    SameButSlots decls decls' ∧ items'.map bare = items.map bare ∧
    (∀ id ∉ items.flatMap (listed decls), decls'[id]? = decls[id]?) ∧
    ∀ id ∈ items.flatMap (listed decls), ∀ d, decls'[id]? = some d → d.slot.isSome := by
  induction items generalizing decls items' with
  | nil =>
      cases h
      exact ⟨.refl _, rfl, fun _ _ => rfl, by simp⟩
  | cons item rest ih =>
      simp only [layoutAll, except_bind_eq_ok_iff, Prod.exists, except_pure_eq_ok_iff,
        Prod.mk.injEq] at h
      obtain ⟨item', decls₁, hitem, rest', decls₂, hrest, rfl, rfl⟩ := h
      obtain ⟨hsame, hbare, hothers, hplaced⟩ := layout_spec hitem
      obtain ⟨hsame', hbares, hothers', hplaced'⟩ := ih hrest
      rw [listed_eq_of_same hsame] at hothers' hplaced'
      refine ⟨hsame.trans hsame', by rw [List.map_cons, List.map_cons, hbare, hbares], ?_, ?_⟩
      · intro id hid
        simp only [List.flatMap_cons, List.mem_append, not_or] at hid
        rw [hothers' id hid.2, hothers id hid.1]
      · intro id hid d hd
        by_cases hlate : id ∈ rest.flatMap (listed decls)
        · exact hplaced' id hlate d hd
        · rw [hothers' id hlate] at hd
          rw [List.flatMap_cons, List.mem_append] at hid
          exact hplaced id (hid.resolve_right hlate) d hd

/-- What is so of every item and its layout, and stays so while others are laid out, is so of
all items in the end, given that nothing is listed twice. -/
theorem layoutAll_forall₂ {P : List Decl → Item → Item → Prop}
    (hlayout : ∀ {item item' : Item} {decls decls' : List Decl},
      item.layout decls = .ok (item', decls') → (item.listed decls).Nodup → P decls' item item')
    (hkept : ∀ {item item' : Item} {decls decls' : List Decl}, P decls item item' →
      SameButSlots decls decls' → (∀ id ∈ item'.listed decls, decls'[id]? = decls[id]?) →
      P decls' item item')
    {items items' : List Item} {decls decls' : List Decl}
    (h : layoutAll decls items = .ok (items', decls'))
    (hnodup : (items.flatMap (listed decls)).Nodup) : List.Forall₂ (P decls') items items' := by
  induction items generalizing decls items' with
  | nil =>
      cases h
      exact .nil
  | cons item rest ih =>
      simp only [layoutAll, except_bind_eq_ok_iff, Prod.exists, except_pure_eq_ok_iff,
        Prod.mk.injEq] at h
      obtain ⟨item', decls₁, hitem, rest', decls₂, hrest, rfl, rfl⟩ := h
      obtain ⟨hsame, hbare, -⟩ := layout_spec hitem
      obtain ⟨hsame', -, hothers', -⟩ := layoutAll_spec hrest
      rw [List.flatMap_cons, List.nodup_append] at hnodup
      obtain ⟨hown, hlater, hdisjoint⟩ := hnodup
      refine .cons ?_ (ih hrest ?_)
      · refine hkept (hlayout hitem hown) hsame' fun id hid => hothers' id ?_
        rw [listed_eq_of_same hsame, listed_eq_of_bare hbare] at hid
        rw [listed_eq_of_same hsame]
        exact fun hmem => hdisjoint id hid id hmem rfl
      · rw [listed_eq_of_same hsame]
        exact hlater

/-- What is so of every item once it is laid out, and stays so while others are, is so of all
items in the end, given that nothing is listed twice. -/
theorem layoutAll_forall {P : List Decl → Item → Prop}
    (hlayout : ∀ {item item' : Item} {decls decls' : List Decl},
      item.layout decls = .ok (item', decls') → (item.listed decls).Nodup → P decls' item')
    (hkept : ∀ {item : Item} {decls decls' : List Decl}, P decls item →
      SameButSlots decls decls' → (∀ id ∈ item.listed decls, decls'[id]? = decls[id]?) →
      P decls' item)
    {items items' : List Item} {decls decls' : List Decl}
    (h : layoutAll decls items = .ok (items', decls'))
    (hnodup : (items.flatMap (listed decls)).Nodup) : ∀ item ∈ items', P decls' item := by
  have hall := layoutAll_forall₂ (P := fun decls _ item => P decls item) hlayout hkept h hnodup
  intro item hitem
  obtain ⟨i, hi, rfl⟩ := List.getElem_of_mem hitem
  obtain ⟨hlength, hplaces⟩ := List.forall₂_iff_get.mp hall
  exact hplaces i (hlength ▸ hi) hi

theorem layoutAll_placed {items items' : List Item} {decls decls' : List Decl}
    (h : layoutAll decls items = .ok (items', decls'))
    (hnodup : (items.flatMap (listed decls)).Nodup) : ∀ item ∈ items', item.Placed decls' :=
  layoutAll_forall layout_placed Placed.of_same h hnodup

end Item

namespace Program

theorem layout_eq_ok_iff {p r : Program} :
    p.layout = .ok r ↔ Item.layoutAll p.decls p.items = .ok (r.items, r.decls) := by
  cases r
  simp only [layout, except_bind_eq_ok_iff, except_pure_eq_ok_iff, Prod.exists, mk.injEq]
  grind

theorem layout_sameButSlots {p r : Program} (h : p.layout = .ok r) :
    SameButSlots p.decls r.decls :=
  (Item.layoutAll_spec (layout_eq_ok_iff.mp h)).1

/-- The functions of a laid out program are those it had, with sizes filled in. -/
theorem layout_items {p r : Program} (h : p.layout = .ok r) :
    r.items.map Item.bare = p.items.map Item.bare :=
  (Item.layoutAll_spec (layout_eq_ok_iff.mp h)).2.1

/-- Everything a program lists has a slot once it is laid out. -/
theorem layout_slot {p r : Program} (h : p.layout = .ok r) {id : DeclId} (hid : id ∈ p.listed)
    {d : Decl} (hd : r.decls[id]? = some d) : d.slot.isSome :=
  (Item.layoutAll_spec (layout_eq_ok_iff.mp h)).2.2.2 id hid d hd

theorem layout_placed {p r : Program} (h : p.layout = .ok r) (hnodup : p.listed.Nodup)
    {item : Item} (hitem : item ∈ r.items) : item.Placed r.decls :=
  Item.layoutAll_placed (layout_eq_ok_iff.mp h) hnodup item hitem

theorem func_of_layout {p r : Program} (h : p.layout = .ok r) {f : Func}
    (hf : .func f ∈ r.items) :
    ∃ f₀, .func f₀ ∈ p.items ∧ f.decl = f₀.decl ∧ f.body.bare = f₀.body.bare := by
  have hmem : (Item.func f).bare ∈ p.items.map Item.bare := by
    rw [← layout_items h]
    exact List.mem_map_of_mem hf
  obtain ⟨item, hitem, hbare⟩ := List.mem_map.mp hmem
  cases item with
  | var id => simp [Item.bare] at hbare
  | func f₀ =>
      simp only [Item.bare, Item.func.injEq, Func.mk.injEq] at hbare
      exact ⟨f₀, hitem, hbare.1.symm, hbare.2.1.symm⟩

theorem map_of_layout {α : Type} {g : Item → α} (hg : ∀ item, g item.bare = g item)
    {p r : Program} (h : p.layout = .ok r) : r.items.map g = p.items.map g := by
  have hcomp : g = g ∘ Item.bare := funext fun item => (hg item).symm
  rw [hcomp, ← List.map_map, ← List.map_map, layout_items h]

theorem ids_of_layout {p r : Program} (h : p.layout = .ok r) :
    r.items.map Item.id = p.items.map Item.id :=
  map_of_layout (fun item => by cases item <;> rfl) h

theorem funcDecls_of_layout {p r : Program} (h : p.layout = .ok r) :
    r.items.map Item.funcDecl? = p.items.map Item.funcDecl? :=
  map_of_layout (fun item => by cases item <;> rfl) h

theorem listed_of_layout {p r : Program} (h : p.layout = .ok r) : r.listed = p.listed := by
  rw [listed, listed, List.flatMap_def, List.flatMap_def,
    Item.listed_eq_of_same (layout_sameButSlots h), map_of_layout _ h]
  intro item
  exact Item.listed_eq_of_bare item.bare_bare _

theorem visible_of_layout {p r : Program} (h : p.layout = .ok r) {f f₀ : Func}
    (hdecl : f.decl = f₀.decl) (hbody : f.body.bare = f₀.body.bare) :
    r.visible f = p.visible f₀ := by
  rw [visible, visible, ids_of_layout h, (layout_sameButSlots h).paramsAt_eq, hdecl,
    ← Clause.locals_bare f.body, hbody, Clause.locals_bare]

/-- Every variable in the code of a function is bound to what the function can name. -/
theorem uses_of_layout {p q r : Program} {scope : Scope} (hresolve : p.resolve scope = (q, .ok ()))
    (hlayout : q.layout = .ok r) {f : Func} (hf : .func f ∈ r.items) {e : Expr}
    (he : e ∈ f.body.exprs) {x : Ident} (hx : x ∈ e.uses) :
    ∃ id d, x.decl = some id ∧ id ∈ r.visible f ∧ r.decls[id]? = some d ∧ d.isFunc = false := by
  obtain ⟨f₀, hf₀, hdecl, hbody⟩ := func_of_layout hlayout hf
  rw [← Clause.exprs_bare, hbody, Clause.exprs_bare] at he
  obtain ⟨Γ, e₀, t, htyped, hscope⟩ := typed_of_resolve hresolve hf₀ he
  obtain ⟨id, d₀, hid, hmeans, hd₀, hfunc⟩ := htyped.uses_bound hx
  obtain ⟨d, hd, hbare⟩ := (layout_sameButSlots hlayout).symm.exists_of_getElem? hd₀
  refine ⟨id, d, hid, ?_, hd, ?_⟩
  · rw [visible_of_layout hlayout hdecl hbody]
    exact hscope x.name id hmeans
  · rw [← Decl.isFunc_eq_of_bare hbare]
    exact hfunc

end Program

end Backend
