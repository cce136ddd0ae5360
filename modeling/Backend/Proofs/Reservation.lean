import Backend.Proofs.Storage

/-! # What blocks reserve

A block reserves the positions from the end of its surroundings' locals to the end of its own,
so the blocks around a place together reserve all positions that were given out up to there.
Hence no slot that has been placed lies beyond what is reserved.
-/

namespace Backend

/-- A block of a laid out body, with what stands around it and before it. -/
structure Visit where
  /-- The locals of the block itself. -/
  own : List DeclId
  size : Nat
  span : Nat
  /-- The spans of the enclosing blocks, the innermost block first. -/
  around : List Nat := []
  /-- The locals of all blocks visited earlier, the enclosing ones among them. -/
  earlier : List DeclId := []

namespace Visit

/-- The bytes that the block and the blocks around it reserve. -/
def reserved (v : Visit) : Nat := (v.span :: v.around).sum

/-- The same block seen from outside a block around it. -/
def inside (ids : List DeclId) (span : Nat) (v : Visit) : Visit :=
  { v with around := v.around ++ [span], earlier := ids ++ v.earlier }

/-- The same block seen from before other blocks. -/
def behind (ids : List DeclId) (v : Visit) : Visit :=
  { v with earlier := ids ++ v.earlier }

end Visit

/-- What the position counter shows when a block is laid out. -/
structure Count where
  /-- Behind the own locals of the enclosing block; 0 for a body. -/
  floor : Nat
  /-- In front of the own locals of the block. -/
  start : Nat
  /-- Just behind the own locals of the block. -/
  stop : Nat

namespace Clause

/-- The blocks of a statement in the order in which they are visited. -/
def visits {f : Form} : Clause f → List Visit
  | .braces _ b => b.visits
  | .ifElse _ _ t e => t.visits ++ e.visits.map (Visit.behind t.locals)
  | .loop _ _ s => s.visits
  | .present s => s.visits
  | .cons s rest => s.visits ++ rest.visits.map (Visit.behind s.locals)
  | .block _ ids stmts size span =>
      { own := ids, size, span } :: stmts.visits.map (Visit.inside ids span)
  | .eval .. | .ret .. | .write .. | .absent | .nil => []

/-- The position counter at each block of a statement that is laid out from the given frame. -/
def counts {f : Form} (depth floor : Nat) : Clause f → Frame → List Count
  | .braces _ b, frame => b.counts (depth + 1) floor frame
  | .ifElse _ _ t e, frame =>
      t.counts depth floor frame ++
        match t.layout depth floor frame with
        | .ok (_, frame) => e.counts depth floor frame
        | .error _ => []
  | .loop _ _ s, frame => s.counts depth floor frame
  | .present s, frame => s.counts depth floor frame
  | .cons s rest, frame =>
      s.counts depth floor frame ++
        match s.layout depth floor frame with
        | .ok (_, frame) => rest.counts depth floor frame
        | .error _ => []
  | .block _ ids stmts _ _, frame =>
      match frame.placeLocals depth ids with
      | .ok behind =>
          { floor, start := frame.next, stop := behind.next } ::
            stmts.counts depth behind.next behind
      | .error _ => []
  | .eval .., _ | .ret .., _ | .write .., _ | .absent, _ | .nil, _ => []

end Clause

/-! ## The blocks of a statement -/

namespace Clause

variable {f : Form}

theorem visits_own (c : Clause f) : c.visits.flatMap Visit.own = c.locals := by
  have hinside (ids : List DeclId) (span : Nat) (vs : List Visit) :
      (vs.map (Visit.inside ids span)).flatMap Visit.own = vs.flatMap Visit.own := by
    rw [List.flatMap_map]
    rfl
  have hbehind (ids : List DeclId) (vs : List Visit) :
      (vs.map (Visit.behind ids)).flatMap Visit.own = vs.flatMap Visit.own := by
    rw [List.flatMap_map]
    rfl
  induction c <;> simp_all [visits, locals]

/-- What has been visited when a block is laid out is a front part of all locals. -/
theorem visits_front (c : Clause f) : ∀ v ∈ c.visits, v.earlier ++ v.own <+: c.locals := by
  induction c with
  | eval line e | ret line e | write line e | absent | nil => simp [visits]
  | braces line s ih | loop line e s ih | present s ih => exact ih
  | ifElse line e s t ihs iht | cons s t ihs iht =>
      intro v hv
      rcases List.mem_append.mp hv with hv | hv
      · exact (ihs v hv).trans (List.prefix_append _ _)
      · obtain ⟨w, hw, rfl⟩ := List.mem_map.mp hv
        simp only [Visit.behind, locals, List.append_assoc]
        exact (List.prefix_append_right_inj _).mpr (iht w hw)
  | block line ids stmts size span ih =>
      intro v hv
      rcases List.mem_cons.mp hv with rfl | hv
      · exact List.prefix_append _ _
      · obtain ⟨w, hw, rfl⟩ := List.mem_map.mp hv
        simp only [Visit.inside, locals, List.append_assoc]
        exact (List.prefix_append_right_inj _).mpr (ih w hw)

end Clause

/-! ## What the layout counts -/

namespace Visit

/-- The sizes of a block against the counter, in a statement that is laid out with the counter
at `next` and with the positions below `floor` reserved around it. -/
structure Counted (decls : List Decl) (floor next : Nat) (v : Visit) (n : Count) : Prop where
  floor_le : n.floor ≤ n.start
  start : n.start = next + positions decls v.earlier
  stop : n.stop = n.start + positions decls v.own
  size : v.size = 8 * positions decls v.own
  span : v.span = 8 * (n.stop - n.floor)
  reserved : 8 * floor + v.reserved = 8 * n.stop

variable {decls decls' : List Decl} {floor next : Nat} {ids : List DeclId} {vs : List Visit}
  {ns : List Count}

theorem counted_of_same (hsame : SameButSlots decls decls')
    (h : List.Forall₂ (Counted decls' floor next) vs ns) :
    List.Forall₂ (Counted decls floor next) vs ns := by
  refine h.imp fun v n hv => ?_
  obtain ⟨hfloor, hstart, hstop, hsize, hspan, hreserved⟩ := hv
  rw [hsame.positions_eq] at hstart hstop hsize
  exact ⟨hfloor, hstart, hstop, hsize, hspan, hreserved⟩

theorem counted_behind (h : List.Forall₂ (Counted decls floor (next + positions decls ids)) vs ns) :
    List.Forall₂ (Counted decls floor next) (vs.map (behind ids)) ns := by
  rw [List.forall₂_map_left_iff]
  refine h.imp fun v n hv => ?_
  refine { hv with start := ?_ }
  rw [hv.start, behind, positions_append, Nat.add_assoc]

/-- The floor inside a block is the end of its locals, and its span leads there from the floor
outside. -/
theorem counted_inside {stop : Nat} (hstop : stop = next + positions decls ids)
    (hfloor : floor ≤ stop) (h : List.Forall₂ (Counted decls stop stop) vs ns) :
    List.Forall₂ (Counted decls floor next) (vs.map (inside ids (8 * (stop - floor)))) ns := by
  rw [List.forall₂_map_left_iff]
  refine h.imp fun v n hv => ?_
  refine { hv with start := ?_, reserved := ?_ }
  · rw [hv.start, hstop, inside, positions_append, Nat.add_assoc]
  · have hreserved := hv.reserved
    simp only [reserved, inside, List.sum_cons, List.sum_append, List.sum_nil] at hreserved ⊢
    omega

end Visit

theorem Clause.layout_counted {f : Form} {depth floor : Nat} (hdepth : bodyDepth ≤ depth)
    {c c' : Clause f} {a b : Frame} (hfloor : floor ≤ a.next)
    (h : c.layout depth floor a = .ok (c', b)) :
    List.Forall₂ (Visit.Counted a.decls floor a.next) c'.visits (c.counts depth floor a) := by
  induction c generalizing depth floor a b with
  | eval line e | ret line e | write line e | absent | nil =>
      cases h
      exact .nil
  | braces line s ih =>
      simp only [layout, except_bind_eq_ok_iff, Prod.exists, except_pure_eq_ok_iff, Prod.mk.injEq,
        Word.add_eq_ok_iff] at h
      obtain ⟨_, ⟨-, rfl⟩, s', b', hs, rfl, rfl⟩ := h
      exact ih (Nat.le_succ_of_le hdepth) hfloor hs
  | loop line e s ih | present s ih =>
      simp only [layout, except_bind_eq_ok_iff, Prod.exists, except_pure_eq_ok_iff,
        Prod.mk.injEq] at h
      obtain ⟨s', b', hs, rfl, rfl⟩ := h
      have hinner := ih hdepth hfloor hs
      exact hinner
  | ifElse line e s t ihs iht | cons s t ihs iht =>
      simp only [layout, except_bind_eq_ok_iff, Prod.exists, except_pure_eq_ok_iff,
        Prod.mk.injEq] at h
      obtain ⟨s', b₁, hs, t', b₂, ht, rfl, rfl⟩ := h
      obtain ⟨hgrows, hbare, -⟩ := layout_spec hdepth hs
      have hnext := (layout_stacks hdepth hs).next
      have hlocals : s'.locals = s.locals := by rw [← locals_bare s', hbare, locals_bare]
      have hfirst := ihs hdepth hfloor hs
      have hsecond := iht hdepth (Nat.le_trans hfloor hgrows.next) ht
      simp only [counts, hs, visits, hlocals]
      rw [hnext] at hsecond
      exact List.rel_append hfirst
        (Visit.counted_behind (Visit.counted_of_same hgrows.same hsecond))
  | block line ids stmts size span ih =>
      simp only [layout, except_bind_eq_ok_iff, Prod.exists, except_pure_eq_ok_iff, Prod.mk.injEq,
        Word.mul_eq_ok_iff, Word.sub_eq_ok_iff] at h
      obtain ⟨b₁, hlocals, _, ⟨-, rfl⟩, _, ⟨-, rfl⟩, _, ⟨hle, rfl⟩, _, ⟨-, rfl⟩, stmts', b₂, hstmts,
        rfl, rfl⟩ := h
      have hgrows := Frame.placeLocals_grows hdepth hlocals
      have hnext := (Frame.placeLocals_stacks hdepth hlocals).next
      have hinner := ih hdepth (Nat.le_refl _) hstmts
      simp only [counts, hlocals, visits]
      refine .cons ⟨hfloor, rfl, hnext, ?_, rfl, ?_⟩
        (Visit.counted_inside hnext hle (Visit.counted_of_same hgrows.same hinner))
      · simp only
        omega
      · simp only [Visit.reserved, List.sum_cons, List.sum_nil]
        omega

/-! ## Functions -/

/-- What a block of a laid out function reserves, next to the position counter at that block. -/
structure Visit.Reserves (decls : List Decl) (v : Visit) (n : Count) : Prop where
  size : v.size = 8 * positions decls v.own
  /-- The blocks around the place reserve all positions given out so far. -/
  reserved : v.reserved = 8 * n.stop
  /-- So every slot placed so far is within what is reserved. -/
  above : ∀ id ∈ v.earlier ++ v.own, ∀ d, decls[id]? = some d →
    ∃ s, d.slot = some s ∧ 8 * (s.position + d.width) ≤ v.reserved
  size_le : v.size ≤ v.span
  /-- The block reserves more than its own locals exactly if positions were given out since
  the locals of the enclosing block. -/
  size_eq_iff : v.span = v.size ↔ n.start = n.floor

/-- A slot of a local is within the positions of any front part of the locals that has it. -/
theorem Item.Stacked.slot_le {decls : List Decl} {f : Func} (h : (Item.func f).Stacked decls)
    {ids : List DeclId} (hids : ids <+: f.body.locals) {id : DeclId} (hid : id ∈ ids) {d : Decl}
    (hd : decls[id]? = some d) :
    ∃ s, d.slot = some s ∧ s.position + d.width ≤ positions decls ids := by
  obtain ⟨i, hi⟩ := List.getElem?_of_mem hid
  obtain ⟨hlt, -⟩ := List.getElem?_eq_some_iff.mp hi
  obtain ⟨later, hlocals⟩ := hids
  have hbody : f.body.locals[i]? = some id := by
    rw [← hlocals, List.getElem?_append_left hlt, hi]
  have hfront : f.body.locals.take i = ids.take i := by
    rw [← hlocals, List.take_append_of_le_length (Nat.le_of_lt hlt)]
  obtain ⟨depth, -, hslot⟩ := h.2 i id hbody d hd
  refine ⟨_, hslot, ?_⟩
  have hstop := positions_take_succ decls hi
  have hle := positions_take_le decls ids (i + 1)
  rw [widthAt_eq hd] at hstop
  simp only [hfront]
  omega

theorem Visit.Counted.reserves {decls : List Decl} {f : Func}
    (hstacked : (Item.func f).Stacked decls) {v : Visit}
    (hids : v.earlier ++ v.own <+: f.body.locals) {n : Count} (h : v.Counted decls 0 0 n) :
    v.Reserves decls n := by
  obtain ⟨hfloor, hstart, hstop, hsize, hspan, hreserved⟩ := h
  rw [Nat.mul_zero, Nat.zero_add] at hreserved
  have hpositions : n.stop = positions decls (v.earlier ++ v.own) := by
    rw [hstop, hstart, positions_append, Nat.zero_add]
  refine ⟨hsize, hreserved, ?_, by omega, by omega⟩
  intro id hid d hd
  obtain ⟨s, hslot, hle⟩ := hstacked.slot_le hids hid hd
  exact ⟨s, hslot, by omega⟩

/-- The sizes of blocks add up to the positions of their locals. -/
theorem Visit.sum_size {decls : List Decl} {floor next : Nat} {vs : List Visit} {ns : List Count}
    (h : List.Forall₂ (Counted decls floor next) vs ns) :
    (vs.map size).sum = 8 * positions decls (vs.flatMap own) := by
  induction h with
  | nil => rfl
  | cons hv _ ih =>
      rw [List.map_cons, List.sum_cons, ih, List.flatMap_cons, positions_append, hv.size,
        Nat.mul_add]

namespace Item

/-- The blocks of an item against the counter of the run that laid it out. -/
def Reserved (decls : List Decl) : Item → Item → Prop
  | .func f₀, .func f => ∃ start frame, start.next = 0 ∧
      f₀.body.layout bodyDepth 0 start = .ok (f.body, frame) ∧
      List.Forall₂ (Visit.Reserves decls) f.body.visits (f₀.body.counts bodyDepth 0 start) ∧
      f.frameSize = (f.body.visits.map Visit.size).sum
  | .var id₀, .var id => id = id₀
  | _, _ => False

theorem layout_reserved {item item' : Item} {decls decls' : List Decl}
    (h : item.layout decls = .ok (item', decls')) (hnodup : (item.listed decls).Nodup) :
    item.Reserved decls' item' := by
  have hstacked := layout_stacked h hnodup
  cases item with
  | var id =>
      obtain ⟨rfl, rfl⟩ := layout_var h
      rfl
  | func f =>
      obtain ⟨body, frame, hbody, rfl, rfl⟩ := layout_func h
      obtain ⟨hgrows, -⟩ := Clause.layout_spec (Nat.le_refl _) hbody
      have hcounted := Visit.counted_of_same hgrows.same.symm
        (Clause.layout_counted (Nat.le_refl _) (Nat.le_refl 0) hbody)
      refine ⟨_, frame, rfl, hbody, ?_, ?_⟩
      · have hvisits := (List.forall₂_and_left _ _).mpr ⟨body.visits_front, hcounted⟩
        exact hvisits.imp fun v n hv => hv.2.reserves hstacked hv.1
      · rw [Visit.sum_size hcounted, Clause.visits_own]
        exact hstacked.1

/-- Slots move only where something is laid out again. -/
theorem Reserved.of_same {item item' : Item} {decls decls' : List Decl}
    (h : item.Reserved decls item') (hsame : SameButSlots decls decls')
    (hkept : ∀ id ∈ item'.listed decls, decls'[id]? = decls[id]?) : item.Reserved decls' item' := by
  cases item <;> cases item' <;> try exact h
  case func.func f₀ f =>
    obtain ⟨start, frame, hstart, hbody, hvisits, hsize⟩ := h
    refine ⟨start, frame, hstart, hbody, ?_, hsize⟩
    have hall := (List.forall₂_and_left _ _).mpr ⟨f.body.visits_front, hvisits⟩
    refine hall.imp fun v n hv => ?_
    obtain ⟨hfront, hv⟩ := hv
    refine { hv with size := by rw [hsame.positions_eq, hv.size], above := ?_ }
    intro id hid d hd
    have hlisted : id ∈ (Item.func f).listed decls := by
      simp [listed, hfront.subset hid]
    rw [hkept id hlisted] at hd
    exact hv.above id hid d hd

end Item

namespace Program

/-- Of a program that lists nothing twice, every block of every laid out function has the size
of its own locals, and together with the blocks around it reserves all positions that the
layout has given out when it comes to the block. So no slot placed by then lies beyond. The
frame of the function has the size of all of its blocks. -/
theorem layout_reserves_placed_slots {p r : Program} (h : p.layout = .ok r)
    (honce : p.listed.Nodup) {place : Nat} {f₀ : Func} (hf : p.items[place]? = some (.func f₀)) :
    ∃ f start frame, r.items[place]? = some (.func f) ∧ start.next = 0 ∧
      f₀.body.layout bodyDepth 0 start = .ok (f.body, frame) ∧
      List.Forall₂ (Visit.Reserves r.decls) f.body.visits (f₀.body.counts bodyDepth 0 start) ∧
      f.frameSize = (f.body.visits.map Visit.size).sum := by
  have hall := Item.layoutAll_forall₂ Item.layout_reserved Item.Reserved.of_same
    (layout_eq_ok_iff.mp h) honce
  obtain ⟨hlt, hget⟩ := List.getElem?_eq_some_iff.mp hf
  obtain ⟨hlength, hplaces⟩ := List.forall₂_iff_get.mp hall
  have hreserved := hplaces place hlt (hlength ▸ hlt)
  have hitem := List.getElem?_eq_getElem (hlength ▸ hlt)
  simp only [List.get_eq_getElem, hget] at hreserved
  generalize r.items[place] = item at hitem hreserved
  cases item with
  | var id => exact absurd hreserved (fun h => h)
  | func f =>
      obtain ⟨start, frame, hreserved⟩ := hreserved
      exact ⟨f, start, frame, hitem, hreserved⟩

end Program

namespace Siblings

/-- An array, a block with a block in it, and in a loop behind them a block that starts where
theirs ended. -/
def main : Func where
  decl := 0
  body := .ofStmts [1] [
    .block (.ofStmts [2] [.block (.ofStmts [3] [])]),
    .loop (.num 0) (.block (.ofStmts [4] []))]

def program : Program where
  decls := [{ line := 1, name := "main", base := .void, kind := .func [] }, .array 2 .int "a" 2,
    .var 3 .int "k", .var 4 .int "m", .pointer 6 .int "q"]
  items := [.func main]

/-- The last block has 8 bytes of locals but reserves 24, since 16 bytes were given out to the
blocks before it. -/
theorem blocks_reserve :
    ∃ r f, program.layout = .ok r ∧ r.items = [.func f] ∧
      f.body.visits.map (fun v => (v.size, v.span, v.reserved)) =
        [(16, 16, 16), (8, 8, 24), (8, 8, 32), (8, 24, 40)] ∧
      (f.body.visits.map Visit.size).sum = f.frameSize ∧
      ∀ v ∈ f.body.visits, ∀ id ∈ v.earlier ++ v.own, ∀ d, r.decls[id]? = some d →
        ∃ s, d.slot = some s ∧ 8 * (s.position + d.width) ≤ v.reserved := by
  obtain ⟨r, hlayout⟩ : ∃ r, program.layout = .ok r := ⟨_, rfl⟩
  have hmain : program.items[0]? = some (.func main) := rfl
  obtain ⟨f, start, frame, hitem, -, -, hvisits, hsize⟩ :=
    Program.layout_reserves_placed_slots hlayout (by decide) hmain
  cases hlayout
  cases hitem
  refine ⟨_, _, rfl, rfl, rfl, hsize.symm, ?_⟩
  intro v hv
  obtain ⟨i, hi, rfl⟩ := List.getElem_of_mem hv
  obtain ⟨hlength, hreserves⟩ := List.forall₂_iff_get.mp hvisits
  exact (hreserves i hi (hlength ▸ hi)).above

end Siblings

end Backend
