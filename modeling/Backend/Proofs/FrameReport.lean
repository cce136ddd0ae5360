import Backend.Proofs.Overflow
import Backend.Proofs.Symbols

/-! # What the frame map reports

The layout, the frame map, the data section and the generator each walk the tree on their own.
They agree: the map lists as globals what the data section sets storage aside for, and for each
function its variables, one behind the other, at the displacements that the code of the
function uses.
-/

namespace Backend

/-! ## Entries -/

/-- An entry that says of a declaration where the layout puts it, and where the code finds it. -/
structure SlotEntry.Describes (e : SlotEntry) (d : Decl) : Prop where
  name : e.name = d.name
  slot : d.slot = some ⟨e.depth, e.position⟩
  size : e.size = 8 * d.width
  cell : d.cell = pure (.mem e.offset .rbx)

/-- The entry describes the declaration at a place. -/
def SlotEntry.Reports (decls : List Decl) (id : DeclId) (e : SlotEntry) : Prop :=
  ∃ d, decls[id]? = some d ∧ e.Describes d

/-- Entries of which each one starts where the one before it ends, from one position to
another. -/
def SlotEntry.Tile : List SlotEntry → Nat → Nat → Prop
  | [], start, stop => start = stop
  | e :: rest, start, stop => e.position = start ∧ Tile rest (start + e.size / 8) stop

/-- What the entry of a function should say. -/
structure FrameEntry.Describes (entry : FrameEntry) (decls : List Decl) (f : Func) : Prop where
  frameSize : entry.frameSize = f.frameSize
  params : List.Forall₂ (SlotEntry.Reports decls) (paramsAt decls f.decl) entry.params
  above : ∀ (i : Nat) e, entry.params[i]? = some e → e.position = i ∧ e.offset = 16 + 8 * i
  locals : List.Forall₂ (SlotEntry.Reports decls) f.body.locals entry.locals
  once : f.body.locals.Nodup
  whole : 8 ∣ f.frameSize
  tile : SlotEntry.Tile entry.locals 0 (f.frameSize / 8)

theorem Decl.cell_of_offset {d : Decl} {s : Slot} (hslot : d.slot = some s) {offset : Int}
    (h : d.offset = .ok (some offset)) : d.cell = pure (.mem offset .rbx) := by
  simp only [cell, hslot, h]
  rfl

theorem Decl.width_pos {d : Decl} (h : d.kind ≠ .array 0) : 0 < d.width := by
  cases hkind : d.kind with
  | array length =>
      have hne : length ≠ 0 := by
        rintro rfl
        exact h hkind
      simpa [width, hkind] using Nat.pos_of_ne_zero hne
  | _ => simp [width, hkind]

theorem Decl.size_of_lt {d : Decl} (h : d.width < 0x1000_0000_0000_0000) :
    d.size = .ok (8 * d.width) :=
  Word.mul_eq_ok_iff.mpr ⟨by unfold Word.bound; omega, rfl⟩

/-- A declaration with a place in a frame has an entry that describes it. -/
theorem Decl.exists_entry {d : Decl} {s : Slot} (hslot : d.slot = some s)
    (hwidth : d.width < 0x1000_0000_0000_0000) {offset : Int}
    (hoffset : d.offset = .ok (some offset)) :
    ∃ e, d.entry = .ok (some e) ∧ e.Describes d := by
  refine ⟨⟨d.name, s.depth, s.position, 8 * d.width, offset⟩, ?_, ?_⟩
  · simp only [entry, hslot, size_of_lt hwidth, hoffset, except_ok_bind]
    rfl
  · exact ⟨rfl, hslot, rfl, cell_of_offset hslot hoffset⟩

namespace SlotEntry.Describes

variable {e : SlotEntry} {d : Decl} (h : e.Describes d)
include h

theorem position_eq {depth position : Nat} (hslot : d.slot = some ⟨depth, position⟩) :
    e.position = position := by
  have heq := Option.some.inj (h.slot.symm.trans hslot)
  exact congrArg Slot.position heq

theorem offset_eq {offset : Int} (hoffset : d.offset = .ok (some offset)) : e.offset = offset := by
  have hcells := h.cell.symm.trans (Decl.cell_of_offset h.slot hoffset)
  have hoperands := (Emit.pure_eq_ok_iff.mp (congrFun hcells 0)).1
  injection hoperands

end SlotEntry.Describes

/-- Where every declaration has an entry, a list of them has its entries in that order. -/
theorem exists_slotEntries {decls : List Decl} {ids : List DeclId}
    (h : ∀ id ∈ ids, ∃ d e, decls[id]? = some d ∧ d.entry = .ok (some e) ∧ e.Describes d) :
    ∃ entries, slotEntries decls ids = .ok entries ∧
      List.Forall₂ (SlotEntry.Reports decls) ids entries := by
  induction ids with
  | nil => exact ⟨[], rfl, .nil⟩
  | cons id rest ih =>
      rw [List.forall_mem_cons] at h
      obtain ⟨⟨d, e, hd, hentry, hdescribes⟩, hrest⟩ := h
      obtain ⟨entries, hentries, hreports⟩ := ih hrest
      refine ⟨e :: entries, ?_, .cons ⟨d, hd, hdescribes⟩ hreports⟩
      simp only [slotEntries, hd, hentry, hentries, except_ok_bind]
      rfl

namespace Func.Addressable

variable {decls : List Decl} {f : Func} (h : f.Addressable decls)
include h

theorem width_lt {id : DeclId} (hid : id ∈ paramsAt decls f.decl ++ f.body.locals) {d : Decl}
    (hd : decls[id]? = some d) : d.width < 0x1000_0000_0000_0000 := by
  have hle := widthAt_le_positions decls (List.mem_cons_of_mem f.decl hid)
  have hsmall := h.small
  rw [widthAt_eq hd] at hle
  rw [Item.listed] at hsmall
  omega

theorem entry_of_param {id : DeclId} (hid : id ∈ paramsAt decls f.decl) :
    ∃ d e, decls[id]? = some d ∧ d.entry = .ok (some e) ∧ e.Describes d := by
  obtain ⟨i, hi⟩ := List.getElem?_of_mem hid
  obtain ⟨d, hd, hoffset, -⟩ := h.offset_param hi
  obtain ⟨_, -, hslot⟩ := h.placed.1 id hid d hd
  obtain ⟨e, he, hdescribes⟩ :=
    Decl.exists_entry hslot (h.width_lt (List.mem_append_left _ hid) hd) hoffset
  exact ⟨d, e, hd, he, hdescribes⟩

theorem entry_of_local (hwidth : ∀ id ∈ f.body.locals, 0 < widthAt decls id) {id : DeclId}
    (hid : id ∈ f.body.locals) :
    ∃ d e, decls[id]? = some d ∧ d.entry = .ok (some e) ∧ e.Describes d := by
  have hmem := List.mem_append_right (paramsAt decls f.decl) hid
  obtain ⟨d, hd⟩ := h.exists_decl hmem
  have hpos := hwidth id hid
  rw [widthAt_eq hd] at hpos
  obtain ⟨offset, hoffset⟩ := h.offset_local hid hd hpos
  obtain ⟨s, hslot, -⟩ := h.placed.2.1 id hid d hd
  obtain ⟨e, he, hdescribes⟩ := Decl.exists_entry hslot (h.width_lt hmem hd) hoffset
  exact ⟨d, e, hd, he, hdescribes⟩

/-- The entries of parameters are numbered, from the word behind the return address on. -/
theorem params_above {entries : List SlotEntry}
    (hentries : List.Forall₂ (SlotEntry.Reports decls) (paramsAt decls f.decl) entries) {i : Nat}
    {e : SlotEntry} (he : entries[i]? = some e) : e.position = i ∧ e.offset = 16 + 8 * i := by
  obtain ⟨hlt, rfl⟩ := List.getElem?_eq_some_iff.mp he
  rw [← hentries.length_eq] at hlt
  have hid := List.getElem?_eq_getElem hlt
  obtain ⟨d, hd, hdescribes⟩ := hentries.get hlt (by rwa [← hentries.length_eq])
  rw [List.get_eq_getElem] at hd hdescribes
  obtain ⟨d', hd', hoffset, -⟩ := h.offset_param hid
  cases hd.symm.trans hd'
  have hmem := List.getElem_mem hlt
  obtain ⟨k, hk, hslot⟩ := h.placed.1 _ hmem d hd
  have hnodup : (paramsAt decls f.decl).Nodup :=
    (List.nodup_append.mp (List.nodup_cons.mp h.once).2).1
  obtain rfl : i = k := (List.getElem?_inj hlt hnodup).mp (hid.trans hk.symm)
  exact ⟨hdescribes.position_eq hslot, hdescribes.offset_eq hoffset⟩

/-- The entries of locals follow the layout, from any of the locals on. -/
theorem locals_tile (before : List DeclId) {ids : List DeclId}
    (hlocals : f.body.locals = before ++ ids) {entries : List SlotEntry}
    (hentries : List.Forall₂ (SlotEntry.Reports decls) ids entries) :
    SlotEntry.Tile entries (positions decls before) (f.frameSize / 8) := by
  induction hentries generalizing before with
  | nil =>
      rw [List.append_nil] at hlocals
      rw [h.stacked.1, hlocals, Nat.mul_div_cancel_left _ (by decide)]
      rfl
  | @cons id e rest entries hreports _ ih =>
      obtain ⟨d, hd, hdescribes⟩ := hreports
      have hid : f.body.locals[before.length]? = some id := by simp [hlocals]
      obtain ⟨depth, -, hslot⟩ := h.stacked.2 _ id hid d hd
      rw [hlocals, List.take_left] at hslot
      refine ⟨hdescribes.position_eq hslot, ?_⟩
      have hrest := ih (before ++ [id]) (by rw [hlocals, List.append_assoc]; rfl)
      rwa [positions_append, positions_cons, positions_nil, Nat.add_zero, widthAt_eq hd,
        ← Nat.mul_div_cancel_left d.width (show 0 < 8 by decide), ← hdescribes.size] at hrest

/-- A function has an entry that describes it. -/
theorem exists_frameEntry (hwidth : ∀ id ∈ f.body.locals, 0 < widthAt decls id) :
    ∃ params locals, slotEntries decls (paramsAt decls f.decl) = .ok params ∧
      slotEntries decls f.body.locals = .ok locals ∧
      FrameEntry.Describes { frameSize := f.frameSize, params, locals } decls f := by
  obtain ⟨params, hparams, habove⟩ := exists_slotEntries fun _ => h.entry_of_param
  obtain ⟨locals, hlocals, hbelow⟩ := exists_slotEntries fun _ => h.entry_of_local hwidth
  refine ⟨params, locals, hparams, hlocals, rfl, habove, fun _ _ => h.params_above habove, hbelow,
    ?_, h.placed.2.2.1, ?_⟩
  · exact (List.nodup_append.mp (List.nodup_cons.mp h.once).2).2.1
  · exact h.locals_tile [] rfl hbelow

end Func.Addressable

/-! ## Items -/

/-- A name that has no value yet gets one at the end. -/
theorem setEntry_of_not_mem {α : Type} {name : String} {value : α} {entries : List (String × α)}
    (h : name ∉ entries.map Prod.fst) :
    setEntry name value entries = entries ++ [(name, value)] := by
  induction entries with
  | nil => rfl
  | cons entry rest ih =>
      rw [List.map_cons, List.mem_cons, not_or] at h
      rw [setEntry, if_neg (Ne.symm h.1), ih h.2, List.cons_append]

/-- The name and the bytes of a global. -/
def Item.global? (decls : List Decl) : Item → Option (String × Nat)
  | .var id => decls[id]?.map fun d => (d.name, 8 * d.width)
  | .func _ => none

/-- The name and the entry of a function. -/
def Func.Reported (decls : List Decl) (f : Func) (named : String × FrameEntry) : Prop :=
  decls[f.decl]?.map Decl.name = some named.1 ∧ named.2.Describes decls f

/-- An item that can be reported: it is declared and within range. -/
structure Item.Reportable (decls : List Decl) (item : Item) : Prop where
  declared : ∃ d, decls[item.id]? = some d ∧ d.width < 0x1000_0000_0000_0000
  addressable : ∀ f, item = .func f → f.Addressable decls ∧
    ∀ id ∈ f.body.locals, 0 < widthAt decls id

namespace FrameMap

variable {decls : List Decl}

def names (map : FrameMap) : List String :=
  map.globals.map Prod.fst ++ map.functions.map Prod.fst

/-- An item with a new name is added to the map behind all others. -/
theorem addItem_eq {map : FrameMap} {item : Item} (h : item.Reportable decls)
    (hnew : ∀ name ∈ item.name? decls, name ∉ map.names) :
    ∃ functions, map.addItem decls item =
        .ok ⟨map.globals ++ (item.global? decls).toList, map.functions ++ functions⟩ ∧
      List.Forall₂ (Func.Reported decls) (Program.functions ⟨decls, [item]⟩) functions ∧
      functions.map Prod.fst ++ (item.global? decls).toList.map Prod.fst =
        (item.name? decls).toList := by
  obtain ⟨d, hd, hwidth⟩ := h.declared
  have hname : d.name ∉ map.names := hnew d.name (by simp [Item.name?, hd])
  rw [names, List.mem_append, not_or] at hname
  cases item with
  | var id =>
      rw [Item.id] at hd
      refine ⟨[], ?_, .nil, by simp [Item.global?, Item.name?, Item.id, hd]⟩
      simp only [addItem, hd, Decl.size_of_lt hwidth, except_ok_bind,
        setEntry_of_not_mem hname.1, Item.global?, Option.map_some, Option.toList_some,
        List.append_nil]
      rfl
  | func f =>
      rw [Item.id] at hd
      obtain ⟨haddressable, hpos⟩ := h.addressable f rfl
      obtain ⟨params, locals, hparams, hlocals, hdescribes⟩ := haddressable.exists_frameEntry hpos
      rw [paramsAt, hd, Option.elim_some] at hparams
      refine ⟨[(d.name, { frameSize := f.frameSize, params, locals })], ?_, ?_, ?_⟩
      · simp only [addItem, hd, hparams, hlocals, except_ok_bind, setEntry_of_not_mem hname.2,
          Item.global?, Option.toList_none, List.append_nil]
        rfl
      · exact .cons ⟨by rw [hd, Option.map_some], hdescribes⟩ .nil
      · simp [Item.global?, Item.name?, Item.id, hd]

/-- Items with names of their own are added in order. -/
theorem addItems_eq (map : FrameMap) {items : List Item}
    (h : ∀ item ∈ items, item.Reportable decls)
    (hnames : (items.map (Item.name? decls)).Nodup)
    (hnew : ∀ item ∈ items, ∀ name ∈ item.name? decls, name ∉ map.names) :
    ∃ functions, map.addItems decls items =
        .ok ⟨map.globals ++ items.filterMap (Item.global? decls), map.functions ++ functions⟩ ∧
      List.Forall₂ (Func.Reported decls) (Program.functions ⟨decls, items⟩) functions := by
  induction items generalizing map with
  | nil => exact ⟨[], by simp [addItems], .nil⟩
  | cons item rest ih =>
      rw [List.forall_mem_cons] at h hnew
      rw [List.map_cons, List.nodup_cons] at hnames
      obtain ⟨first, hfirst, hreported, hown⟩ := addItem_eq h.1 hnew.1
      -- The names of the items behind it are not the one that was added.
      have hrest : ∀ other ∈ rest, ∀ name ∈ other.name? decls, name ∉
          names ⟨map.globals ++ (item.global? decls).toList, map.functions ++ first⟩ := by
        intro other hother name hname hmem
        have hcases : name ∈ map.names ∨ name ∈ (item.name? decls).toList := by
          rw [← hown]
          simp only [names, List.map_append, List.mem_append] at hmem ⊢
          tauto
        rcases hcases with hold | hadded
        · exact hnew.2 other hother name hname hold
        · apply hnames.1
          rw [Option.mem_toList.mp hadded, ← Option.mem_def.mp hname]
          exact List.mem_map_of_mem hother
      obtain ⟨others, hothers, hall⟩ := ih _ h.2 hnames.2 hrest
      refine ⟨first ++ others, ?_, ?_⟩
      · rw [addItems, hfirst, except_ok_bind, hothers]
        cases hglobal : item.global? decls <;> simp [hglobal]
      · have hsplit : Program.functions ⟨decls, item :: rest⟩ =
            Program.functions ⟨decls, [item]⟩ ++ Program.functions ⟨decls, rest⟩ := by
          cases item <;> rfl
        rw [hsplit]
        exact List.rel_append hreported hall

end FrameMap

/-! ## Globals -/

/-- The storage that a line sets aside. -/
def Line.comm? : Line → Option (String × Nat)
  | .comm name size _ => some (name, size)
  | _ => none

theorem comms_globalStorage {decls : List Decl} {items : List Item} {n n' : Nat} {code : Code}
    (h : globalStorage decls items n = .ok code n') :
    code.filterMap Line.comm? = items.filterMap (Item.global? decls) := by
  induction items generalizing n n' code with
  | nil =>
      obtain ⟨rfl, -⟩ := Emit.pure_eq_ok_iff.mp h
      rfl
  | cons item rest ih =>
      cases item with
      | func f => exact ih h
      | var id =>
          simp only [globalStorage, Emit.bind_eq_ok_iff, Emit.ofExcept_eq_ok_iff,
            declared_eq_ok_iff, Emit.checked_eq_ok_iff, Emit.pure_eq_ok_iff] at h
          obtain ⟨d, _, ⟨hd, rfl⟩, size, _, ⟨hsize, rfl⟩, others, _, hothers, rfl, -⟩ := h
          obtain ⟨-, rfl⟩ := Word.mul_eq_ok_iff.mp hsize
          simp [Item.global?, Line.comm?, hd, ih hothers]

theorem comms_data {r : Program} {n n' : Nat} {code : Code} {pool : Pool}
    (h : r.data n = .ok (code, pool) n') :
    code.filterMap Line.comm? = r.items.filterMap (Item.global? r.decls) := by
  obtain ⟨storage, hstorage, -, rfl⟩ := Program.data_eq_ok h
  have hpool : pool.code.filterMap Line.comm? = [] := by
    simp [Pool.code, List.filterMap_map, Function.comp_def, Line.comm?]
  rw [List.filterMap_append, List.filterMap_append, hpool, comms_globalStorage hstorage,
    List.append_nil]
  rfl

/-! ## Programs -/

theorem Clause.locals_erase {f : Form} (c : Clause f) : c.erase.locals = c.locals := by
  induction c <;> simp_all [erase, locals]

namespace Program

variable {p p' : Program}

theorem paramsAt_erase (p : Program) : paramsAt p.erase.decls = paramsAt p.decls := by
  funext id
  rw [paramsAt, paramsAt, erase, List.getElem?_map]
  cases p.decls[id]? <;> rfl

theorem listed_erase (p : Program) : p.erase.listed = p.listed := by
  have hitem : ∀ item : Item, item.erase.listed p.erase.decls = item.listed p.decls := by
    intro item
    cases item <;> simp [Item.erase, Item.listed, paramsAt_erase, Clause.locals_erase]
  rw [listed, listed, funext_iff.mpr fun item => (hitem item).symm, erase, List.flatMap_map]

theorem wellFormed_erase (p : Program) : p.erase.WellFormed ↔ p.WellFormed := by
  have hkind : ∀ (check : Decl → Bool), (∀ d, check d.bare = check d) → ∀ id : DeclId,
      p.erase.decls[id]?.all check = p.decls[id]?.all check := by
    intro check hcheck id
    rw [erase, List.getElem?_map]
    cases p.decls[id]? with
    | none => rfl
    | some d => exact hcheck d
  have hitem : ∀ item : Item, item.erase.hasKinds p.erase.decls = item.hasKinds p.decls := by
    intro item
    cases item with
    | var id => exact hkind _ (fun _ => rfl) id
    | func f =>
        simp only [Item.erase, Item.hasKinds, paramsAt_erase, Clause.locals_erase]
        rw [hkind _ (fun _ => rfl)]
        congr 2 <;> congr 1 <;> funext id <;> exact hkind _ (fun _ => rfl) id
  rw [wellFormed_iff, wellFormed_iff, listed_erase]
  simp only [erase] at hitem
  simp [erase, hitem]

theorem wellFormed_of_erase (h : p'.erase = p.erase) (hwf : p.WellFormed) : p'.WellFormed := by
  rwa [← wellFormed_erase, h, wellFormed_erase]

theorem positions_of_erase (h : p'.erase = p.erase) :
    positions p'.decls p'.listed = positions p.decls p.listed := by
  have hsame : SameButSlots p.decls p'.decls := congrArg Program.decls h
  rw [hsame.positions_eq, ← listed_erase, h, listed_erase]

theorem noEmptyLocals_of_erase (h : p'.erase = p.erase) (hnone : p.NoEmptyLocals) :
    p'.NoEmptyLocals := by
  intro f hf id hid d hd
  have hsame : SameButSlots p.decls p'.decls := congrArg Program.decls h
  have hitem : (Item.func f).erase ∈ p.items.map Item.erase := by
    have hitems : p'.items.map Item.erase = p.items.map Item.erase := congrArg Program.items h
    rw [← hitems]
    exact List.mem_map_of_mem hf
  obtain ⟨item, hitem, herase⟩ := List.mem_map.mp hitem
  obtain ⟨d₀, hd₀, hbare⟩ := hsame.exists_of_getElem? hd
  rw [Decl.kind_eq_of_bare hbare]
  cases item with
  | var _ => cases herase
  | func f₀ =>
      injection herase with herase
      have hbody : f₀.body.erase = f.body.erase := congrArg Func.body herase
      rw [← Clause.locals_erase, ← hbody, Clause.locals_erase] at hid
      exact hnone f₀ hitem id hid d₀ hd₀

section FrameMap

variable {q r : Program} {scope : Scope} (hwf : p.WellFormed)
  (hresolve : p.resolve scope = (q, .ok ())) (hlayout : q.layout = .ok r) (hnone : p.NoEmptyLocals)
  (hpositions : positions p.decls p.listed < 0x1000_0000_0000_0000)
include hwf hresolve hlayout hnone hpositions

theorem reportable_of_layout {item : Item} (hitem : item ∈ r.items) :
    item.Reportable r.decls := by
  have hwf' := wellFormed_of_erase (erase_of_both hresolve hlayout) hwf
  have hnone' := noEmptyLocals_of_erase (erase_of_both hresolve hlayout) hnone
  rw [← positions_of_erase (erase_of_both hresolve hlayout)] at hpositions
  refine ⟨?_, ?_⟩
  · have hlisted : item.id ∈ r.listed := mem_listed_iff.mpr ⟨item, hitem, .inl rfl⟩
    have hd := List.getElem?_eq_getElem (hwf'.inRange _ hlisted)
    have hle := widthAt_le_positions r.decls hlisted
    rw [widthAt_eq hd] at hle
    exact ⟨_, hd, by omega⟩
  · rintro f rfl
    have hq := wellFormed_of_erase (erase_of_resolve hresolve) hwf
    rw [positions_of_erase (erase_of_layout hlayout)] at hpositions
    refine ⟨addressable_of_layout hq.inRange hq.once hpositions hq.params hlayout hitem, ?_⟩
    intro id hid
    have hlisted : id ∈ r.listed :=
      mem_listed_iff.mpr ⟨.func f, hitem, .inr (List.mem_append_right _ hid)⟩
    have hd := List.getElem?_eq_getElem (hwf'.inRange _ hlisted)
    have hkind := hnone' f hitem id hid _ hd
    rw [widthAt_eq hd]
    exact Decl.width_pos hkind

/-- The data section can be written as long as there are labels for the literals. -/
theorem exists_data {n : Nat} (hn : n + r.literals.length < Word.bound) :
    ∃ code pool n', r.data n = .ok (code, pool) n' := by
  have hstorage : Emit.Fits 0 False (globalStorage r.decls r.items) := by
    apply fits_globalStorage
    intro id hid
    obtain ⟨d, hd, hwidth⟩ :=
      (reportable_of_layout hwf hresolve hlayout hnone hpositions hid).declared
    have hslot := placed_of_layout hwf hresolve hlayout hid d hd
    exact ⟨d, hd, hwidth, 0, 0, hslot, .inl rfl⟩
  have hpool := (Pool.fits_assign r.literals.eraseDups).mono (length_eraseDups_le _) Iff.rfl
  have hdata : Emit.Fits (0 + r.literals.length) (False ∨ False) r.data :=
    hstorage.bind fun _ => hpool.last fun _ => .pure _
  rcases hdata n (by omega) with ⟨-, ⟨code, pool⟩, n', hok, -⟩ | ⟨hlost, -⟩
  · exact ⟨code, pool, n', hok⟩
  · simp at hlost

omit hnone hpositions in
/-- An item that is used as a variable is addressed by its symbol, and has storage. -/
theorem global_of_item {item : Item} (hitem : item ∈ r.items) {d : Decl}
    (hd : r.decls[item.id]? = some d) (hfunc : d.isFunc = false) :
    (d.name, 8 * d.width) ∈ r.items.filterMap (Item.global? r.decls) ∧
      d.cell = pure (.rip d.name) := by
  cases item with
  | func f =>
      rw [isFunc_of_layout hwf hresolve hlayout hitem hd] at hfunc
      cases hfunc
  | var id =>
      rw [Item.id] at hd
      have hslot := placed_of_layout hwf hresolve hlayout hitem d hd
      refine ⟨List.mem_filterMap.mpr ⟨_, hitem, by rw [Item.global?, hd, Option.map_some]⟩, ?_⟩
      simp only [Decl.cell, hslot, Decl.offset]
      rfl

end FrameMap

/-- The frame map tells the truth about the code. It lists as globals just the storage that the
data section sets aside, in that order, and has one entry for each function, in order, which
describes the frame: parameters at their numbers above the linkage, locals one behind the other
from the frame base to the end of the frame, all at the displacements that the generator uses.
Whatever a function uses as a variable is a parameter or local of it, or one of the globals and
then addressed by its symbol. -/
theorem frameMap_agrees_with_code {q r : Program} {scope : Scope} (hwf : p.WellFormed)
    (hresolve : p.resolve scope = (q, .ok ())) (hlayout : q.layout = .ok r)
    (hnone : p.NoEmptyLocals) (hpositions : positions p.decls p.listed < 0x1000_0000_0000_0000) :
    ∃ map, r.frameMap = .ok map ∧
      (∀ n, n + r.literals.length < Word.bound → ∃ code pool n', r.data n = .ok (code, pool) n') ∧
      (∀ n code pool n', r.data n = .ok (code, pool) n' →
        map.globals = code.filterMap Line.comm?) ∧
      List.Forall₂ (Func.Reported r.decls) r.functions map.functions ∧
      ∀ f, .func f ∈ r.items → ∀ e ∈ f.body.exprs, ∀ x ∈ e.uses, ∃ id d,
        x.decl = some id ∧ r.decls[id]? = some d ∧
        (id ∈ paramsAt r.decls f.decl ++ f.body.locals ∨
          (d.name, 8 * d.width) ∈ map.globals ∧ d.cell = pure (.rip d.name)) := by
  obtain ⟨functions, hmap, hfunctions⟩ :=
    FrameMap.addItems_eq {} (fun _ => reportable_of_layout hwf hresolve hlayout hnone hpositions)
      (namesDistinct_of_layout hresolve hlayout) (by simp [FrameMap.names])
  simp only [List.nil_append] at hmap
  refine ⟨_, hmap, fun n => exists_data hwf hresolve hlayout hnone hpositions,
    fun n code pool n' hdata => (comms_data hdata).symm, hfunctions, ?_⟩
  intro f hf e he x hx
  obtain ⟨id, d, hid, hvisible, hd, hfunc⟩ := uses_of_layout hresolve hlayout hf he hx
  refine ⟨id, d, hid, hd, ?_⟩
  rw [visible, List.mem_append] at hvisible
  rcases hvisible with hown | htop
  · exact .inl hown
  · obtain ⟨item, hitem, rfl⟩ := List.mem_map.mp htop
    exact .inr (global_of_item hwf hresolve hlayout hitem hd hfunc)

end Program

namespace Inventory

/-- Two parameters, an array, and a local in each branch. -/
def count : Func where
  decl := 3
  body := .ofStmts [4] [
    .ifElse (.var "n") (.block (.ofStmts [5] [.expr (.setVar "k" (.var "n"))]))
      (.block (.ofStmts [6] [])),
    .expr (.setVar "total" (.elem "v" (.num 0))),
    .ret (some (.var "n"))]

def main : Func where
  decl := 8
  body := .ofStmts [9] [.expr (.setVar "i" (.call "count" [.num 2, .var "table"]))]

def program : Program where
  decls := [.var 1 .int "total", .param 2 .int "n", .arrayParam 2 .int "v",
    { line := 2, name := "count", base := .int, kind := .func [1, 2] }, .array 3 .int "a" 2,
    .var 4 .int "k", .pointer 5 .int "q", .array 8 .int "table" 3,
    { line := 9, name := "main", base := .void, kind := .func [] }, .var 10 .int "i"]
  items := [.var 0, .func count, .var 7, .func main]

def resolved : Program := (program.resolve .block).1

def laidOut : Program := resolved.layout.toOption.getD {}

theorem frames_reported :
    ∃ map, laidOut.frameMap = .ok map ∧ map.globals = [("total", 8), ("table", 24)] ∧
      map.functions.map (fun named => named.2.locals.map SlotEntry.offset) =
        [[-16, -24, -32], [-8]] ∧
      List.Forall₂ (Func.Reported laidOut.decls) laidOut.functions map.functions := by
  have hwf : program.WellFormed := by decide
  have hresolve : program.resolve .block = (resolved, .ok ()) := by rfl
  have hlayout : resolved.layout = .ok laidOut := by rfl
  have hnone : program.NoEmptyLocals := by
    have hkinds : ∀ id ∈ [4, 5, 6, 9], ∀ d ∈ program.decls[id]?, d.kind ≠ .array 0 := by decide
    intro f hf id hid
    obtain rfl | rfl : f = count ∨ f = main := by simpa [program] using hf
    · exact hkinds id (List.mem_append_left [9] hid)
    · exact hkinds id (List.mem_append_right [4, 5, 6] hid)
  obtain ⟨map, hmap, -, -, hfunctions, -⟩ :=
    Program.frameMap_agrees_with_code hwf hresolve hlayout hnone (by decide)
  have hglobals : laidOut.frameMap.map FrameMap.globals = .ok [("total", 8), ("table", 24)] := by
    rfl
  have hlocals : laidOut.frameMap.map (fun map => map.functions.map fun named =>
      named.2.locals.map SlotEntry.offset) = .ok [[-16, -24, -32], [-8]] := by
    decide +kernel
  rw [hmap] at hglobals hlocals
  exact ⟨map, hmap, Except.ok.inj hglobals, Except.ok.inj hlocals, hfunctions⟩

end Inventory

end Backend
