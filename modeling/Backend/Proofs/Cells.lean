import Backend.Proofs.Expression

/-! # Where the variables of a function are

The layout gives each variable of a function a cell of its own: above the frame base, in the
reserved bytes below it, or at a symbol. So code that only uses such variables can reach
them all.
-/

namespace Backend

namespace Signed

variable {a b c : Int}

theorem add_eq_ok (h : add a b = .ok c) : c = a + b := by
  unfold add at h
  split at h <;> cases h
  rfl

theorem sub_eq_ok (h : sub a b = .ok c) : c = a - b := by
  unfold sub at h
  split at h <;> cases h
  rfl

theorem mul_eq_ok (h : mul a b = .ok c) : c = a * b := by
  unfold mul at h
  split at h <;> cases h
  rfl

end Signed

namespace Decl

variable {d : Decl} {offset : Option Int}

theorem offset_param {i : Nat} (hslot : d.slot = some ⟨1, i⟩) (h : d.offset = .ok offset) :
    offset = some (16 + 8 * Word.toSigned i) := by
  simp only [Decl.offset, hslot, except_bind_eq_ok_iff, except_pure_eq_ok_iff] at h
  obtain ⟨bytes, hbytes, _, hsum, rfl⟩ := h
  rw [Signed.add_eq_ok hsum, Signed.mul_eq_ok hbytes]

/-- A local is addressed at the last one of its positions. -/
theorem offset_local {slot : Slot} (hslot : d.slot = some slot) (hdepth : bodyDepth ≤ slot.depth)
    (h : d.offset = .ok offset) :
    ∃ last, slot.position + d.width = last + 1 ∧ offset = some (-8 - 8 * Word.toSigned last) := by
  obtain ⟨depth, position⟩ := slot
  obtain ⟨k, rfl⟩ : ∃ k, depth = k + 2 := ⟨depth - 2, by simp only [bodyDepth] at hdepth; omega⟩
  simp only [Decl.offset, hslot, except_bind_eq_ok_iff, except_pure_eq_ok_iff, Word.add_eq_ok_iff,
    Word.sub_eq_ok_iff] at h
  obtain ⟨stop, ⟨-, rfl⟩, last, ⟨hpos, rfl⟩, bytes, hbytes, _, hsum, rfl⟩ := h
  refine ⟨position + d.width - 1, by simp only; omega, ?_⟩
  rw [Signed.sub_eq_ok hsum, Signed.mul_eq_ok hbytes]

end Decl

namespace Activation

variable {A : Activation} {d : Decl} {a : Quad}

theorem toNat_address_param {i : Nat} (hslot : d.slot = some ⟨1, i⟩)
    (hbound : A.base.toNat + 16 + 8 * (i + 1) ≤ Word.bound) (ha : A.address d = some a) :
    a.toNat = A.base.toNat + 16 + 8 * i := by
  unfold Word.bound at hbound
  unfold address at ha
  cases hoffset : d.offset with
  | error _ => simp [hoffset] at ha
  | ok offset =>
      obtain rfl := Decl.offset_param hslot hoffset
      rw [Word.toSigned_of_lt (by unfold Word.bound; omega)] at hoffset
      simp only [hoffset, Option.some.injEq] at ha
      rw [← ha, BitVec.toNat_add, BitVec.toNat_ofInt]
      omega

theorem toNat_address_local {slot : Slot} (hslot : d.slot = some slot)
    (hdepth : bodyDepth ≤ slot.depth) (hbound : 8 * (slot.position + d.width) ≤ A.base.toNat)
    (ha : A.address d = some a) :
    a.toNat = A.base.toNat - 8 * (slot.position + d.width) ∧ 0 < slot.position + d.width := by
  have hlt := A.base.isLt
  unfold address at ha
  cases hoffset : d.offset with
  | error _ => simp [hoffset] at ha
  | ok offset =>
      obtain ⟨last, hlast, rfl⟩ := Decl.offset_local hslot hdepth hoffset
      rw [Word.toSigned_of_lt (by unfold Word.bound; omega)] at hoffset
      simp only [hoffset, Option.some.injEq] at ha
      rw [← ha, BitVec.toNat_add, BitVec.toNat_ofInt]
      omega

theorem address_global (hslot : d.slot = some ⟨0, 0⟩) : A.address d = some (A.symbols d.name) := by
  simp [address, Decl.offset, hslot]

end Activation

namespace Program

/-- An activation of a function: the frame base is the address of a cell, the reserved bytes
lie below it and the parameters above it, and no global is in the free part of the stack. -/
structure Framed (r : Program) (f : Func) (A : Activation) : Prop where
  decls : A.decls = r.decls
  aligned : A.base.Aligned
  reserved : A.top + f.frameSize ≤ A.base.toNat
  params : A.base.toNat + 16 + 8 * (paramsAt r.decls f.decl).length ≤ Word.bound
  globals : ∀ id d, .var id ∈ r.items → r.decls[id]? = some d → A.Reachable (A.symbols d.name)

section Placement

variable {r : Program} {f : Func} {A : Activation} {d : Decl} {a : Quad}

theorem Framed.reachable_param (h : r.Framed f A) {i : Nat} (hslot : d.slot = some ⟨1, i⟩)
    (hi : i < (paramsAt r.decls f.decl).length) (ha : A.address d = some a) : A.Reachable a := by
  have hbase := h.aligned
  have hreserved := h.reserved
  have hparams := h.params
  have haddress := Activation.toNat_address_param hslot (by omega) ha
  unfold Activation.Reachable Quad.Aligned at *
  omega

theorem Framed.reachable_local (h : r.Framed f A) {slot : Slot} (hslot : d.slot = some slot)
    (hdepth : bodyDepth ≤ slot.depth) (hsize : 8 * (slot.position + d.width) ≤ f.frameSize)
    (ha : A.address d = some a) : A.Reachable a := by
  have hbase := h.aligned
  have hreserved := h.reserved
  have haddress := Activation.toNat_address_local hslot hdepth (by omega) ha
  unfold Activation.Reachable Quad.Aligned at *
  omega

end Placement

section Layout

variable {p q r : Program} {scope : Scope} (hwf : p.WellFormed)
  (hresolve : p.resolve scope = (q, .ok ())) (hlayout : q.layout = .ok r)
include hwf hresolve hlayout

/-- Functions are still declared as functions. -/
theorem isFunc_of_layout {f : Func} (hf : .func f ∈ r.items) {d : Decl}
    (hd : r.decls[f.decl]? = some d) : d.isFunc = true := by
  have hmem : some f.decl ∈ p.items.map Item.funcDecl? := by
    rw [← funcDecls_of_resolve hresolve, ← funcDecls_of_layout hlayout]
    exact List.mem_map_of_mem hf
  obtain ⟨item, hitem, hdecl⟩ := List.mem_map.mp hmem
  obtain ⟨d₀, hd₀, hbare⟩ := (layout_sameButSlots hlayout).exists_of_getElem? hd
  rw [decls_of_resolve hresolve] at hd₀
  cases item with
  | var id => cases hdecl
  | func f₀ =>
      rw [← Option.some.inj hdecl] at hd₀
      rw [Decl.isFunc_eq_of_bare hbare]
      exact hwf.funcs f₀ hitem d₀ hd₀

theorem placed_of_layout {item : Item} (hitem : item ∈ r.items) : item.Placed r.decls := by
  apply layout_placed hlayout _ hitem
  rw [listed_of_resolve hresolve]
  exact hwf.once

variable {f : Func} (hf : .func f ∈ r.items) {A : Activation} (hA : r.Framed f A)
include hf hA

/-- What a function can name, other than functions, has a cell that it can reach. -/
theorem reachable_of_visible {id : DeclId} (hid : id ∈ r.visible f) {d : Decl}
    (hd : r.decls[id]? = some d) (hfunc : d.isFunc = false) {a : Quad}
    (ha : A.address d = some a) : A.Reachable a := by
  obtain ⟨hparams, hlocals, -⟩ := placed_of_layout hwf hresolve hlayout hf
  simp only [visible, List.mem_append] at hid
  rcases hid with (hid | hid) | hid
  · obtain ⟨i, hi, hslot⟩ := hparams id hid d hd
    exact hA.reachable_param hslot (List.getElem?_eq_some_iff.mp hi).1 ha
  · obtain ⟨slot, hslot, hdepth, hsize⟩ := hlocals id hid d hd
    exact hA.reachable_local hslot hdepth hsize ha
  · obtain ⟨item, hitem, rfl⟩ := List.mem_map.mp hid
    cases item with
    | var id =>
        have hslot := placed_of_layout hwf hresolve hlayout hitem d hd
        rw [Activation.address_global hslot] at ha
        cases ha
        exact hA.globals id d hitem hd
    | func g =>
        rw [isFunc_of_layout hwf hresolve hlayout hitem hd] at hfunc
        cases hfunc

/-- The code of a function can reach all that its expressions name. -/
theorem supports_of_layout {e : Expr} (he : e ∈ f.body.exprs) : A.Supports e where
  cells := by
    intro x hx a ha
    obtain ⟨id, d, hid, hvisible, hd, hfunc⟩ := uses_of_layout hresolve hlayout hf he hx
    have hdecl : A.decl x = some d := by
      rw [Activation.decl, hid, Option.bind_some, hA.decls, hd]
    rw [Activation.cell_of_decl hdecl] at ha
    exact reachable_of_visible hwf hresolve hlayout hf hA hvisible hd hfunc ha
  arrays := by
    intro x hx d hd
    obtain ⟨f₀, hf₀, -, hbody⟩ := func_of_layout hlayout hf
    rw [← Clause.exprs_bare, hbody, Clause.exprs_bare] at he
    obtain ⟨Γ, e₀, t, htyped, -⟩ := typed_of_resolve hresolve hf₀ he
    obtain ⟨id, d₀, hid, hd₀, -, harray⟩ := htyped.indexed_bound hx
    obtain ⟨d', hd', hbare⟩ := (layout_sameButSlots hlayout).symm.exists_of_getElem? hd₀
    rw [Activation.decl, hid, Option.bind_some, hA.decls, hd'] at hd
    cases hd
    rw [← Decl.ty_eq_of_bare hbare]
    exact harray

end Layout

end Program

end Backend
