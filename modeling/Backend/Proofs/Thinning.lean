import Backend.Document.Decode
import Mathlib.Data.List.Basic

/-! # Documents with fields left out and added

A document of a tree is still read when fields that have a default are left out of its records,
and when fields with other names are put into them, in any number and at any depth. Here is what
such a change does to a document, and what reading a field makes of it.
-/

namespace Backend.Doc

/-! ## Records -/

/-- What a record has in place of a field that is left out. -/
inductive Omission where
  /-- The field cannot be left out. -/
  | refused
  | filled (value : Doc)
  /-- It has nothing there. -/
  | nothing

/-- The sorts of objects that stand for records. -/
inductive Record where
  | program
  | func
  | decl
  | slot
  | block
  | stmt
  | ident
  | node
deriving DecidableEq

namespace Record

/-- The fields of a record in the order in which they are written. -/
def fields : Record → List (String × Omission)
  | .program => [("decls", .refused), ("items", .refused)]
  | .func => [("decl", .refused), ("body", .refused), ("frame_size", .filled (.int 0))]
  | .decl =>
      [("line", .refused), ("name", .refused), ("base", .refused), ("kind", .refused),
        ("slot", .nothing)]
  | .slot => [("depth", .refused), ("position", .refused)]
  | .block =>
      [("line", .refused), ("locals", .refused), ("stmts", .refused), ("size", .filled (.int 0)),
        ("span", .filled (.int 0))]
  | .stmt => [("line", .refused), ("kind", .refused)]
  | .ident => [("name", .refused), ("decl", .nothing)]
  | .node => [("line", .filled (.int 0)), ("ty", .filled (.str "None")), ("kind", .refused)]

def names (r : Record) : List String := r.fields.map Prod.fst

theorem nodup_names (r : Record) : r.names.Nodup := by
  cases r <;> decide

/-- The names of the fields of all records. -/
def allNames : List String :=
  [program, func, decl, slot, block, stmt, ident, node].flatMap names

theorem names_subset_allNames (r : Record) : r.names ⊆ allNames := by
  cases r <;> decide

end Record

/-- Changes in the fields of a record, where `P` tells what may become of a part: `ys` is `xs`
with fields left out and with fields that have the names `added`, and `zs` is `xs` with the
omissions made up for. -/
inductive Fields (P : Doc → Doc → Doc → Prop) :
    (layout : List (String × Omission)) → (added : List String) →
      (xs ys zs : List (String × Doc)) → Prop where
  | nil : Fields P [] [] [] [] []
  | keep {name : String} {omission : Omission} {layout : List (String × Omission)}
      {added : List String} {x y z : Doc} {xs ys zs : List (String × Doc)} (part : P x y z)
      (rest : Fields P layout added xs ys zs) :
      Fields P ((name, omission) :: layout) added ((name, x) :: xs) ((name, y) :: ys)
        ((name, z) :: zs)
  | fill {name : String} {value : Doc} {layout : List (String × Omission)} {added : List String}
      {x : Doc} {xs ys zs : List (String × Doc)} (rest : Fields P layout added xs ys zs) :
      Fields P ((name, .filled value) :: layout) added ((name, x) :: xs) ys ((name, value) :: zs)
  | drop {name : String} {layout : List (String × Omission)} {added : List String} {x : Doc}
      {xs ys zs : List (String × Doc)} (rest : Fields P layout added xs ys zs) :
      Fields P ((name, .nothing) :: layout) added ((name, x) :: xs) ys zs
  /-- There was no such field. -/
  | lack {name : String} {layout : List (String × Omission)} {added : List String}
      {xs ys zs : List (String × Doc)} (rest : Fields P layout added xs ys zs) :
      Fields P ((name, .nothing) :: layout) added xs ys zs
  | add {name : String} {layout : List (String × Omission)} {added : List String} {y : Doc}
      {xs ys zs : List (String × Doc)} (rest : Fields P layout added xs ys zs) :
      Fields P layout (name :: added) xs ((name, y) :: ys) zs

/-- The changes in the items of a list. -/
inductive Each (P : Doc → Doc → Doc → Prop) : (xs ys zs : List Doc) → Prop where
  | nil : Each P [] [] []
  | cons {x y z : Doc} {xs ys zs : List Doc} (item : P x y z) (rest : Each P xs ys zs) :
      Each P (x :: xs) (y :: ys) (z :: zs)

/-- `Thins d e f`: the document `e` is `d` with fields left out of records and with fields added
whose names the records do not know, and `f` is `d` with the default in place of every field that
was left out. -/
inductive Thins : Doc → Doc → Doc → Prop where
  | same (d : Doc) : Thins d d d
  | choice {tag : String} (htag : tag ∉ Record.allNames) {x y z : Doc} (part : Thins x y z) :
      Thins (.obj [(tag, x)]) (.obj [(tag, y)]) (.obj [(tag, z)])
  | list {xs ys zs : List Doc} (items : Each Thins xs ys zs) : Thins (.arr xs) (.arr ys) (.arr zs)
  | record (r : Record) {added : List String} (unknown : ∀ name ∈ added, name ∉ r.names)
      {xs ys zs : List (String × Doc)} (parts : Fields Thins r.fields added xs ys zs) :
      Thins (.obj xs) (.obj ys) (.obj zs)

/-! ## Looking up fields -/

theorem field?_obj (fields : List (String × Doc)) (key : String) :
    ((Doc.obj fields).field? key).map Subtype.val = fields.lookup key := by
  simp only [field?, Option.map_map]
  induction fields with
  | nil => rfl
  | cons field rest ih =>
      obtain ⟨name, x⟩ := field
      by_cases h : name = key
      · simp [Doc.lookup, h]
      · simpa [Doc.lookup, h, List.lookup_cons, beq_false_of_ne (Ne.symm h), Function.comp_def]
          using ih

section Read

variable {α : Type} {fields : List (String × Doc)} {key : String} {read : Doc → Option α}

theorem exists_field?_obj {x : Doc} (h : fields.lookup key = some x) :
    ∃ hx, (Doc.obj fields).field? key = some ⟨x, hx⟩ := by
  rw [← field?_obj, Option.map_eq_some_iff] at h
  obtain ⟨⟨_, hx⟩, hfield, rfl⟩ := h
  exact ⟨hx, hfield⟩

theorem required?_obj : (Doc.obj fields).required? key read = (fields.lookup key).bind read := by
  rw [← field?_obj, Option.bind_map]
  rfl

theorem default?_obj {default : α} :
    (Doc.obj fields).default? key default read = (fields.lookup key).elim (some default) read := by
  rw [← field?_obj, default?]
  cases (Doc.obj fields).field? key <;> rfl

theorem optional?_obj_none (h : fields.lookup key = none) :
    (Doc.obj fields).optional? key read = some none := by
  rw [← field?_obj, Option.map_eq_none_iff] at h
  simp [optional?, h]

theorem optional?_obj_some {x : Doc} (h : fields.lookup key = some x) (hx : x ≠ .null) :
    (Doc.obj fields).optional? key read = (read x).map some := by
  obtain ⟨_, hfield⟩ := exists_field?_obj h
  simp only [optional?, hfield]
  cases x <;> first | rfl | exact absurd rfl hx

end Read

namespace Fields

variable {P : Doc → Doc → Doc → Prop} {layout : List (String × Omission)} {added : List String}
  {xs ys zs : List (String × Doc)}

theorem lookup_eq_none (h : Fields P layout added xs ys zs) {key : String}
    (hlayout : key ∉ layout.map Prod.fst) :
    xs.lookup key = none ∧ zs.lookup key = none ∧ (key ∉ added → ys.lookup key = none) := by
  induction h with
  | nil => simp
  | keep _ _ ih | fill _ ih | drop _ ih | lack _ ih =>
      rw [List.map_cons, List.mem_cons, not_or] at hlayout
      simpa [List.lookup_cons, beq_false_of_ne hlayout.1] using ih hlayout.2
  | add _ ih =>
      obtain ⟨hxs, hzs, hys⟩ := ih hlayout
      refine ⟨hxs, hzs, fun hadded => ?_⟩
      rw [List.mem_cons, not_or] at hadded
      simpa [List.lookup_cons, beq_false_of_ne hadded.1] using hys hadded.2

theorem ne_of_mem {head : String} (hhead : head ∉ layout.map Prod.fst) {field : String × Omission}
    (hfield : field ∈ layout) : field.1 ≠ head := by
  intro heq
  exact hhead (List.mem_map.mpr ⟨field, hfield, heq⟩)

/-- A field of a record is kept, or it is left out and its omission is made up for. -/
theorem lookup_cases (h : Fields P layout added xs ys zs) (hnodup : (layout.map Prod.fst).Nodup)
    (hadded : added.Disjoint (layout.map Prod.fst)) {name : String} {omission : Omission}
    (hname : (name, omission) ∈ layout) :
    (∃ x y z, xs.lookup name = some x ∧ ys.lookup name = some y ∧ zs.lookup name = some z ∧
      P x y z) ∨
    ys.lookup name = none ∧
      ((∃ value, omission = .filled value ∧ zs.lookup name = some value) ∨
        omission = .nothing ∧ zs.lookup name = none) := by
  induction h with
  | nil => cases hname
  | keep part rest ih =>
      rw [List.map_cons, List.nodup_cons] at hnodup
      rw [List.map_cons, List.disjoint_cons_right] at hadded
      rcases List.mem_cons.mp hname with hhead | htail
      · cases hhead
        exact .inl ⟨_, _, _, List.lookup_cons_self, List.lookup_cons_self, List.lookup_cons_self,
          part⟩
      · simpa only [List.lookup_cons, beq_false_of_ne (ne_of_mem hnodup.1 htail)] using
          ih hnodup.2 hadded.2 htail
  | fill rest ih =>
      rw [List.map_cons, List.nodup_cons] at hnodup
      rw [List.map_cons, List.disjoint_cons_right] at hadded
      rcases List.mem_cons.mp hname with hhead | htail
      · cases hhead
        obtain ⟨-, -, hys⟩ := rest.lookup_eq_none hnodup.1
        exact .inr ⟨hys hadded.1, .inl ⟨_, rfl, List.lookup_cons_self⟩⟩
      · simpa only [List.lookup_cons, beq_false_of_ne (ne_of_mem hnodup.1 htail)] using
          ih hnodup.2 hadded.2 htail
  | drop rest ih | lack rest ih =>
      rw [List.map_cons, List.nodup_cons] at hnodup
      rw [List.map_cons, List.disjoint_cons_right] at hadded
      rcases List.mem_cons.mp hname with hhead | htail
      · cases hhead
        obtain ⟨-, hzs, hys⟩ := rest.lookup_eq_none hnodup.1
        exact .inr ⟨hys hadded.1, .inr ⟨rfl, hzs⟩⟩
      · simpa only [List.lookup_cons, beq_false_of_ne (ne_of_mem hnodup.1 htail)] using
          ih hnodup.2 hadded.2 htail
  | add _ ih =>
      -- A field that is added has no name of the record, so it does not hide this one.
      rw [List.disjoint_cons_left] at hadded
      simpa only [List.lookup_cons, beq_false_of_ne (ne_of_mem hadded.1 hname)] using
        ih hnodup hadded.2 hname

/-- What a record is without omissions is given by its fields. -/
theorem eq_filterMap (h : Fields P layout added xs ys zs) (hnodup : (layout.map Prod.fst).Nodup) :
    zs = layout.filterMap fun field => (zs.lookup field.1).map (field.1, ·) := by
  induction h with
  | nil => rfl
  | keep _ rest ih | fill rest ih =>
      rw [List.map_cons, List.nodup_cons] at hnodup
      rw [List.filterMap_cons, List.lookup_cons_self, Option.map_some]
      refine congrArg _ ((ih hnodup.2).trans (List.filterMap_congr fun field hfield => ?_))
      rw [List.lookup_cons, beq_false_of_ne (ne_of_mem hnodup.1 hfield)]
  | drop rest ih | lack rest ih =>
      rw [List.map_cons, List.nodup_cons] at hnodup
      rw [List.filterMap_cons, (rest.lookup_eq_none hnodup.1).2.1]
      exact ih hnodup.2
  | add _ ih => exact ih hnodup

end Fields

/-- Whether an object with fields of the given names can be a record that is laid out in this
way. -/
def fits : List (String × Omission) → List String → Bool
  | [], names => names.isEmpty
  | (_, .nothing) :: layout, [] => fits layout []
  | _ :: _, [] => false
  | (name, .nothing) :: layout, key :: keys =>
      key == name && fits layout keys || fits layout (key :: keys)
  | (name, _) :: layout, key :: keys => key == name && fits layout keys

theorem Fields.fits_names {P : Doc → Doc → Doc → Prop} {layout : List (String × Omission)}
    {added : List String} {xs ys zs : List (String × Doc)} (h : Fields P layout added xs ys zs) :
    fits layout (xs.map Prod.fst) = true := by
  induction h with
  | nil => rfl
  | @keep _ omission _ _ _ _ _ _ _ _ _ _ ih => cases omission <;> simp [Doc.fits, ih]
  | fill _ ih | drop _ ih => simp [Doc.fits, ih]
  | @lack _ _ _ xs _ _ _ ih => cases xs <;> simp_all [Doc.fits]
  | add _ ih => exact ih

theorem subset_of_fits {layout : List (String × Omission)} {names : List String}
    (h : fits layout names = true) : names ⊆ layout.map Prod.fst := by
  fun_induction fits layout names with
  | case1 names => simp_all
  | case2 name layout ih => simp
  | case3 => simp
  | case4 name layout key keys ih ih' =>
      simp only [Bool.or_eq_true, Bool.and_eq_true, beq_iff_eq] at h
      rw [List.map_cons]
      obtain ⟨rfl, h⟩ | h := h
      · exact List.cons_subset_cons _ (ih h)
      · exact List.subset_cons_of_subset _ (ih' h)
  | case5 name omission layout key keys _ ih =>
      simp only [Bool.and_eq_true, beq_iff_eq] at h
      obtain ⟨rfl, h⟩ := h
      exact List.cons_subset_cons _ (ih h)

/-- The names of its fields tell what record an object is. -/
theorem Record.eq_of_fits {r r' : Record} {names : List String} (h : fits r.fields names = true)
    (h' : fits r'.fields names = true) : r = r' := by
  -- The first two names are enough to tell two sorts of records apart.
  rcases names with _ | ⟨first, _ | ⟨second, rest⟩⟩ <;> cases r <;> cases r' <;>
    simp_all [Record.fields, fits]

/-! ## Parts of a changed document -/

theorem Fields.refl {P : Doc → Doc → Doc → Prop} (hP : ∀ d, P d d d)
    {layout : List (String × Omission)} {xs : List (String × Doc)}
    (h : fits layout (xs.map Prod.fst) = true) : Fields P layout [] xs xs xs := by
  induction layout generalizing xs with
  | nil =>
      cases xs with
      | nil => exact .nil
      | cons => cases h
  | cons field layout ih =>
      obtain ⟨name, omission⟩ := field
      cases xs with
      | nil =>
          cases omission with
          | nothing => exact .lack (ih h)
          | refused | filled => cases h
      | cons x xs =>
          obtain ⟨key, x⟩ := x
          cases omission with
          | nothing =>
              simp only [List.map_cons, Doc.fits, Bool.or_eq_true, Bool.and_eq_true,
                beq_iff_eq] at h
              obtain ⟨rfl, h⟩ | h := h
              · exact .keep (hP x) (ih h)
              · exact .lack (ih h)
          | refused | filled =>
              simp only [List.map_cons, Doc.fits, Bool.and_eq_true, beq_iff_eq] at h
              obtain ⟨rfl, h⟩ := h
              exact .keep (hP x) (ih h)

namespace Thins

variable {d e : Doc}

theorem of_int {n : Int} (h : Thins (.int n) d e) : d = .int n ∧ e = .int n := by
  cases h
  exact ⟨rfl, rfl⟩

theorem of_str {text : String} (h : Thins (.str text) d e) : d = .str text ∧ e = .str text := by
  cases h
  exact ⟨rfl, rfl⟩

theorem of_null (h : Thins .null d e) : d = .null ∧ e = .null := by
  cases h
  exact ⟨rfl, rfl⟩

theorem of_tagged {tag : String} (htag : tag ∉ Record.allNames) {x : Doc}
    (h : Thins (.tagged tag x) d e) :
    ∃ y z, d = .tagged tag y ∧ e = .tagged tag z ∧ Thins x y z := by
  cases h with
  | same => exact ⟨x, x, rfl, rfl, .same x⟩
  | choice _ part => exact ⟨_, _, rfl, rfl, part⟩
  | record r unknown parts =>
      -- No record has a field with the name of an alternative.
      have hmem := subset_of_fits parts.fits_names List.mem_cons_self
      exact absurd (r.names_subset_allNames hmem) htag

theorem of_arr {xs : List Doc} (h : Thins (.arr xs) d e) :
    ∃ ys zs, d = .arr ys ∧ e = .arr zs ∧ Each Thins xs ys zs := by
  cases h with
  | same =>
      refine ⟨xs, xs, rfl, rfl, ?_⟩
      induction xs with
      | nil => exact .nil
      | cons x xs ih => exact .cons (.same x) ih
  | list items => exact ⟨_, _, rfl, rfl, items⟩

end Thins

/-- The changes in the fields of a record of a certain sort. -/
def Record.Changes (r : Record) (xs ys zs : List (String × Doc)) : Prop :=
  ∃ added, Fields Thins r.fields added xs ys zs ∧ ∀ name ∈ added, name ∉ r.names

/-- An object that is a record by the names of its fields is changed as such a record. -/
theorem Thins.of_record {r : Record} {xs : List (String × Doc)} {d e : Doc}
    (h : Thins (.obj xs) d e) (hfits : fits r.fields (xs.map Prod.fst) = true) :
    ∃ ys zs, d = .obj ys ∧ e = .obj zs ∧ r.Changes xs ys zs := by
  cases h with
  | same => exact ⟨xs, xs, rfl, rfl, [], .refl .same hfits, by simp⟩
  | choice htag part =>
      have hmem := subset_of_fits hfits List.mem_cons_self
      exact absurd (r.names_subset_allNames hmem) htag
  | record r' unknown parts =>
      cases r.eq_of_fits hfits parts.fits_names
      exact ⟨_, _, rfl, rfl, _, parts, unknown⟩

/-! ## Reading -/

/-- Whatever is left out of the document of a value and added to it, the document is read, and
what is read is the value that the document without omissions stands for. -/
def Reads {α : Type} (write : α → Doc) (read : Doc → Option α) (a : α) : Prop :=
  ∀ d e, Thins (write a) d e → ∃ b, write b = e ∧ read d = some b

theorem reads_word {n : Nat} (h : n < Word.bound) : Reads ofNat word? n := by
  intro d e hthins
  obtain ⟨rfl, rfl⟩ := hthins.of_int
  exact ⟨n, rfl, by simp [word?, h]⟩

theorem reads_signed {n : Int} (h : Signed.InRange n) : Reads int signed? n := by
  intro d e hthins
  obtain ⟨rfl, rfl⟩ := hthins.of_int
  exact ⟨n, rfl, by simp [signed?, h]⟩

theorem reads_text (text : String) : Reads str text? text := by
  intro d e hthins
  obtain ⟨rfl, rfl⟩ := hthins.of_str
  exact ⟨text, rfl, rfl⟩

section Reads

variable {α : Type} {write : α → Doc} {read : Doc → Option α}

theorem reads_constant {name : α → String} {a : α} (h : read (str (name a)) = some a) :
    Reads (fun a => str (name a)) read a := by
  intro d e hthins
  obtain ⟨rfl, rfl⟩ := hthins.of_str
  exact ⟨a, rfl, h⟩

theorem reads_list {as : List α} (h : ∀ a ∈ as, Reads write read a) :
    Reads (fun as => arr (as.map write)) (list? read) as := by
  have hmapM : ∀ ys zs, Each Thins (as.map write) ys zs →
      ∃ bs : List α, bs.map write = zs ∧ ys.mapM read = some bs := by
    induction as with
    | nil =>
        intro ys zs hitems
        cases hitems
        exact ⟨[], rfl, rfl⟩
    | cons a as ih =>
        intro ys zs hitems
        rw [List.forall_mem_cons] at h
        obtain _ | ⟨hitem, hrest⟩ := hitems
        obtain ⟨b, rfl, hb⟩ := h.1 _ _ hitem
        obtain ⟨bs, rfl, hbs⟩ := ih h.2 _ _ hrest
        exact ⟨b :: bs, rfl, by simp [hb, hbs]⟩
  intro d e hthins
  obtain ⟨ys, zs, rfl, rfl, hitems⟩ := hthins.of_arr
  obtain ⟨bs, rfl, hbs⟩ := hmapM ys zs hitems
  exact ⟨bs, rfl, hbs⟩

theorem reads_pair {β : Type} {write' : β → Doc} {read' : Doc → Option β} {a : α} {b : β}
    (ha : Reads write read a) (hb : Reads write' read' b) {d e : Doc}
    (h : Thins (.arr [write a, write' b]) d e) :
    ∃ y y' a' b', d = .arr [y, y'] ∧ e = .arr [write a', write' b'] ∧ read y = some a' ∧
      read' y' = some b' := by
  obtain ⟨_, _, rfl, rfl, items⟩ := h.of_arr
  obtain _ | ⟨hx, _ | ⟨hx', _ | _⟩⟩ := items
  obtain ⟨a', rfl, ha'⟩ := ha _ _ hx
  obtain ⟨b', rfl, hb'⟩ := hb _ _ hx'
  exact ⟨_, _, a', b', rfl, rfl, ha', hb'⟩

theorem reads_triple {β γ : Type} {write' : β → Doc} {read' : Doc → Option β} {write'' : γ → Doc}
    {read'' : Doc → Option γ} {a : α} {b : β} {c : γ} (ha : Reads write read a)
    (hb : Reads write' read' b) (hc : Reads write'' read'' c) {d e : Doc}
    (h : Thins (.arr [write a, write' b, write'' c]) d e) :
    ∃ y y' y'' a' b' c', d = .arr [y, y', y''] ∧ e = .arr [write a', write' b', write'' c'] ∧
      read y = some a' ∧ read' y' = some b' ∧ read'' y'' = some c' := by
  obtain ⟨_, _, rfl, rfl, items⟩ := h.of_arr
  obtain _ | ⟨hx, _ | ⟨hx', _ | ⟨hx'', _ | _⟩⟩⟩ := items
  obtain ⟨a', rfl, ha'⟩ := ha _ _ hx
  obtain ⟨b', rfl, hb'⟩ := hb _ _ hx'
  obtain ⟨c', rfl, hc'⟩ := hc _ _ hx''
  exact ⟨_, _, _, a', b', c', rfl, rfl, ha', hb', hc'⟩

variable {r : Record} {xs ys zs : List (String × Doc)} (h : r.Changes xs ys zs)
include h

namespace Record.Changes

theorem eq_filterMap :
    zs = r.fields.filterMap fun field => (zs.lookup field.1).map (field.1, ·) := by
  obtain ⟨added, hfields, -⟩ := h
  exact hfields.eq_filterMap r.nodup_names

theorem lookup_cases {name : String} {omission : Omission} (hname : (name, omission) ∈ r.fields) :
    (∃ x y z, xs.lookup name = some x ∧ ys.lookup name = some y ∧ zs.lookup name = some z ∧
      Thins x y z) ∨
    ys.lookup name = none ∧
      ((∃ value, omission = .filled value ∧ zs.lookup name = some value) ∨
        omission = .nothing ∧ zs.lookup name = none) := by
  obtain ⟨added, hfields, hadded⟩ := h
  exact hfields.lookup_cases r.nodup_names (fun name hname => hadded name hname) hname

theorem part (name : String) (hname : (name, .refused) ∈ r.fields) {x : Doc}
    (hx : xs.lookup name = some x) :
    ∃ y z, ys.lookup name = some y ∧ zs.lookup name = some z ∧ Thins x y z := by
  obtain ⟨x', y, z, hx', hy, hz, hthins⟩ | ⟨-, ⟨value, hfilled, -⟩ | ⟨hnothing, -⟩⟩ :=
    h.lookup_cases hname
  · cases hx.symm.trans hx'
    exact ⟨y, z, hy, hz, hthins⟩
  · cases hfilled
  · cases hnothing

theorem required (name : String) (hname : (name, .refused) ∈ r.fields) {a : α}
    (ha : Reads write read a) (hx : xs.lookup name = some (write a)) :
    ∃ b, zs.lookup name = some (write b) ∧ (obj ys).required? name read = some b := by
  obtain ⟨y, z, hy, hz, hthins⟩ := h.part name hname hx
  obtain ⟨b, rfl, hb⟩ := ha _ _ hthins
  exact ⟨b, hz, by rw [required?_obj, hy, Option.bind_some, hb]⟩

theorem default (name : String) (value : α) (hname : (name, .filled (write value)) ∈ r.fields)
    {a : α} (ha : Reads write read a) (hx : xs.lookup name = some (write a)) :
    ∃ b, zs.lookup name = some (write b) ∧ (obj ys).default? name value read = some b := by
  obtain ⟨x', y, z, hx', hy, hz, hthins⟩ | ⟨hy, ⟨_, hfilled, hz⟩ | ⟨hnothing, -⟩⟩ :=
    h.lookup_cases hname
  · cases hx.symm.trans hx'
    obtain ⟨b, rfl, hb⟩ := ha _ _ hthins
    exact ⟨b, hz, by rw [default?_obj, hy, Option.elim_some, hb]⟩
  · cases hfilled
    exact ⟨value, hz, by rw [default?_obj, hy, Option.elim_none]⟩
  · cases hnothing

theorem optional (name : String) (hname : (name, .nothing) ∈ r.fields) {a : Option α}
    (ha : ∀ x ∈ a, Reads write read x) (hnull : read .null = none)
    (hx : xs.lookup name = a.map write) :
    ∃ b : Option α, zs.lookup name = b.map write ∧ (obj ys).optional? name read = some b := by
  obtain ⟨x', y, z, hx', hy, hz, hthins⟩ | ⟨hy, ⟨_, hfilled, -⟩ | ⟨-, hz⟩⟩ :=
    h.lookup_cases hname
  · obtain ⟨x, hx, rfl⟩ := Option.map_eq_some_iff.mp (hx.symm.trans hx')
    obtain ⟨b, rfl, hb⟩ := ha x hx _ _ hthins
    -- A field that is null counts as left out, but no value is written as null.
    have hne : y ≠ .null := by
      rintro rfl
      cases hnull.symm.trans hb
    exact ⟨some b, hz, by rw [optional?_obj_some hy hne, hb, Option.map_some]⟩
  · cases hfilled
  · exact ⟨none, hz, optional?_obj_none hy⟩

end Record.Changes

end Reads

end Backend.Doc
