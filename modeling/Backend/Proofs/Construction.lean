import Backend.Proofs.Listing
import Backend.Tree.Build
import Mathlib.Data.List.Nodup
import Mathlib.Data.List.Perm.Basic

/-! # Building programs

A program is built by declaring locals, adding globals and adding functions. Declarations are only
added at the end, so every place that was handed out keeps its declaration. All places are listed
as soon as they are handed out, except those of declared locals, which the body of some function
has to list. If every declared local is listed in one block, then every declaration is listed
once.
-/

namespace Backend

/-- Made by one of the constructors for parameters. -/
inductive Decl.MadeAsParam : Decl → Prop where
  | param (line : Nat) (base : Base) (name : String) : MadeAsParam (.param line base name)
  | arrayParam (line : Nat) (base : Base) (name : String) : MadeAsParam (.arrayParam line base name)
  | pointerParam (line : Nat) (base : Base) (name : String) :
      MadeAsParam (.pointerParam line base name)

/-- Made by one of the constructors for variables. -/
inductive Decl.MadeAsVariable : Decl → Prop where
  | var (line : Nat) (base : Base) (name : String) : MadeAsVariable (.var line base name)
  | array (line : Nat) (base : Base) (name : String) (length : Nat) :
      MadeAsVariable (.array line base name length)
  | pointer (line : Nat) (base : Base) (name : String) : MadeAsVariable (.pointer line base name)

theorem Decl.MadeAsParam.isParam {d : Decl} (h : d.MadeAsParam) : d.kind.isParam = true := by
  cases h <;> rfl

theorem Decl.MadeAsVariable.isStorage {d : Decl} (h : d.MadeAsVariable) :
    d.kind.isStorage = true := by
  cases h <;> rfl

/-! ## Additions -/

/-- Something added to a program. -/
inductive Addition where
  | declare (d : Decl)
  | global (d : Decl)
  | function (line : Nat) (ret : Base) (name : String) (params : List Decl) (body : Block)

namespace Addition

/-- The program with the addition, and the place that is handed out for it. -/
def apply (p : Program) : Addition → Program × DeclId
  | .declare d => p.declare d
  | .global d => p.global d
  | .function line ret name params body => p.function line ret name params body

/-- The declaration that belongs to the place handed out. The parameters of a function have the
places just before. -/
def declaration (id : DeclId) : Addition → Decl
  | .declare d | .global d => d
  | .function line ret name params _ =>
      { line, name, base := ret, kind := .func (List.range' (id - params.length) params.length) }

/-- Locals and globals come from the constructors for variables, and parameters from those for
parameters. -/
def WellMade : Addition → Prop
  | .declare d | .global d => d.MadeAsVariable
  | .function _ _ _ params _ => ∀ d ∈ params, d.MadeAsParam

/-- The places that the blocks of a function's body list. -/
def blockLocals : Addition → List DeclId
  | .declare _ | .global _ => []
  | .function _ _ _ _ body => body.locals

/-- The place handed out for a declared local. -/
def declaredLocals (p : Program) : Addition → List DeclId
  | .declare d => [(p.declare d).2]
  | .global _ | .function .. => []

end Addition

namespace Program

/-- The program with some additions, made one after the other. -/
def extend (p : Program) (additions : List Addition) : Program :=
  additions.foldl (fun p a => (a.apply p).1) p

/-- The program that is built from nothing. -/
def build (additions : List Addition) : Program := extend {} additions

/-- The places handed out for declared locals. -/
def declaredLocals (p : Program) : List Addition → List DeclId
  | [] => []
  | a :: rest => a.declaredLocals p ++ declaredLocals (a.apply p).1 rest

end Program

/-- Additions in which declarations are well made, and every declared local is put into exactly
one block, of whatever function and however deep, and nothing else is put into any block. -/
structure Proper (additions : List Addition) : Prop where
  made : ∀ a ∈ additions, a.WellMade
  placed : ∀ id ∈ Program.declaredLocals {} additions,
    (additions.flatMap Addition.blockLocals).count id = 1
  declared : ∀ id ∈ additions.flatMap Addition.blockLocals,
    id ∈ Program.declaredLocals {} additions

/-! ## One addition -/

namespace Addition

/-- The declarations added behind `start` others. -/
def decls (start : Nat) : Addition → List Decl
  | .declare d | .global d => [d]
  | .function line ret name params body =>
      params ++ [declaration (start + params.length) (.function line ret name params body)]

/-- The items added. -/
def items (start : Nat) : Addition → List Item
  | .declare _ => []
  | .global _ => [.var start]
  | .function _ _ _ params body => [.func { decl := start + params.length, body }]

variable (p : Program) (a : Addition)

theorem decls_apply : (a.apply p).1.decls = p.decls ++ a.decls p.decls.length := by
  cases a <;> simp [apply, decls, declaration, Program.declare, Program.global, Program.function]

theorem items_apply : (a.apply p).1.items = p.items ++ a.items p.decls.length := by
  cases a <;> simp [apply, items, Program.declare, Program.global, Program.function]

theorem getElem?_apply :
    (a.apply p).1.decls[(a.apply p).2]? = some (a.declaration (a.apply p).2) := by
  cases a <;> simp [apply, declaration, Program.declare, Program.global, Program.function]

end Addition

/-- What an item lists without its blocks. -/
def Item.heading (decls : List Decl) : Item → List DeclId
  | .var id => [id]
  | .func f => f.decl :: paramsAt decls f.decl

/-- The places that the blocks of an item list. -/
def Item.blockLocals : Item → List DeclId
  | .var _ => []
  | .func f => f.body.locals

/-- What an item lists without its blocks is of the kinds asked for. -/
def Item.Headed (decls : List Decl) : Item → Prop
  | .var id => ∀ d, decls[id]? = some d → d.kind.isStorage = true
  | .func f => (∀ d, decls[f.decl]? = some d → d.isFunc = true) ∧
      ∀ id ∈ paramsAt decls f.decl, ∀ d, decls[id]? = some d → d.kind.isParam = true

theorem Item.listed_eq (decls : List Decl) (item : Item) :
    item.listed decls = item.heading decls ++ item.blockLocals := by
  cases item <;> rfl

section Append

variable {decls more : List Decl} {item : Item} (h : ∀ id ∈ item.heading decls, id < decls.length)
include h

theorem Item.heading_append : item.heading (decls ++ more) = item.heading decls := by
  cases item with
  | var id => rfl
  | func f =>
      have hf : f.decl < decls.length := h f.decl List.mem_cons_self
      simp only [heading, paramsAt, List.getElem?_append_left hf]

theorem Item.Headed.append (hitem : item.Headed decls) : item.Headed (decls ++ more) := by
  have hget (id : DeclId) (hid : id ∈ item.heading decls) : (decls ++ more)[id]? = decls[id]? :=
    List.getElem?_append_left (h id hid)
  cases item with
  | var id =>
      intro d hd
      rw [hget id List.mem_cons_self] at hd
      exact hitem d hd
  | func f =>
      have hparams : paramsAt (decls ++ more) f.decl = paramsAt decls f.decl := by
        rw [paramsAt, paramsAt, hget f.decl List.mem_cons_self]
      refine ⟨?_, ?_⟩
      · intro d hd
        rw [hget f.decl List.mem_cons_self] at hd
        exact hitem.1 d hd
      · intro id hid d hd
        rw [hparams] at hid
        rw [hget id (List.mem_cons_of_mem _ hid)] at hd
        exact hitem.2 id hid d hd

end Append

namespace Program

/-- All that is listed outside blocks. -/
def headings (p : Program) : List DeclId := p.items.flatMap (Item.heading p.decls)

/-- A program with the given declared locals, in which every declaration is one of these or
listed once outside blocks. -/
structure Catalogued (p : Program) (locals : List DeclId) : Prop where
  perm : (p.headings ++ locals).Perm (List.range p.decls.length)
  storage : ∀ id ∈ locals, ∀ d, p.decls[id]? = some d → d.kind.isStorage = true
  items : ∀ item ∈ p.items, item.Headed p.decls

theorem Catalogued.lt_length {p : Program} {locals : List DeclId} (h : p.Catalogued locals)
    {id : DeclId} (hid : id ∈ p.headings ∨ id ∈ locals) : id < p.decls.length :=
  List.mem_range.mp (h.perm.subset (List.mem_append.mpr hid))

end Program

namespace Addition

/-- What an addition lists outside blocks. -/
def heading (start : Nat) : Addition → List DeclId
  | .declare _ => []
  | .global _ => [start]
  | .function _ _ _ params _ => (start + params.length) :: List.range' start params.length

variable (p : Program) (a : Addition)

/-- Every declaration that is added is listed outside blocks, or is a declared local. -/
theorem heading_perm :
    (a.heading p.decls.length ++ a.declaredLocals p).Perm
      (List.range' p.decls.length (a.decls p.decls.length).length) := by
  cases a with
  | declare d => exact .refl _
  | global d => exact .refl _
  | function line ret name params body =>
      simp only [heading, declaredLocals, decls, List.append_nil, List.length_append,
        List.length_singleton, List.range'_1_concat]
      exact (List.perm_append_singleton _ _).symm

theorem getElem?_function (line : Nat) (ret : Base) (name : String) (params : List Decl)
    (body : Block) :
    (apply p (.function line ret name params body)).1.decls[p.decls.length + params.length]? =
      some { line, name, base := ret,
             kind := .func (List.range' p.decls.length params.length) } := by
  simp [apply, Program.function]

theorem getElem?_param (line : Nat) (ret : Base) (name : String) {params : List Decl}
    (body : Block) {i : Nat} {d : Decl} (h : params[i]? = some d) :
    (apply p (.function line ret name params body)).1.decls[p.decls.length + i]? = some d := by
  have hi : i < params.length := (List.getElem?_eq_some_iff.mp h).1
  rw [decls_apply, List.getElem?_append_right (by omega), Nat.add_sub_cancel_left, decls,
    List.getElem?_append_left hi, h]

theorem flatMap_heading_items :
    (a.items p.decls.length).flatMap (Item.heading (a.apply p).1.decls) =
      a.heading p.decls.length := by
  cases a with
  | declare d => rfl
  | global d => rfl
  | function line ret name params body =>
      simp [items, Item.heading, paramsAt, getElem?_function, Decl.params, heading]

theorem headed_items {a : Addition} (h : a.WellMade) :
    ∀ item ∈ a.items p.decls.length, item.Headed (a.apply p).1.decls := by
  cases a with
  | declare d => simp [items]
  | global d =>
      simp only [items, List.forall_mem_singleton]
      intro d' hd'
      have hd : d' = d := by simpa [decls_apply, decls, eq_comm] using hd'
      exact hd ▸ h.isStorage
  | function line ret name params body =>
      simp only [items, List.forall_mem_singleton]
      have hget := getElem?_function p line ret name params body
      refine ⟨?_, ?_⟩
      · intro d hd
        cases hget.symm.trans hd
        rfl
      · intro id hid d hd
        simp only [paramsAt, hget, Option.elim_some, Decl.params, List.mem_range'_1] at hid
        obtain ⟨hfirst, hlast⟩ := hid
        have hparam : params[id - p.decls.length]? = some d := by
          rw [← hd, decls_apply, List.getElem?_append_right hfirst, decls,
            List.getElem?_append_left (by omega)]
        exact (h d (List.mem_of_getElem? hparam)).isParam

end Addition

namespace Program.Catalogued

variable {p : Program} {locals : List DeclId}

theorem lt_of_heading (h : p.Catalogued locals) {item : Item} (hitem : item ∈ p.items) :
    ∀ id ∈ item.heading p.decls, id < p.decls.length := by
  intro id hid
  exact h.lt_length (.inl (List.mem_flatMap.mpr ⟨item, hitem, hid⟩))

theorem headings_apply (h : p.Catalogued locals) (a : Addition) :
    (a.apply p).1.headings = p.headings ++ a.heading p.decls.length := by
  -- Earlier items only refer to earlier places, so more declarations do not change what they list.
  have hbefore : p.items.flatMap (Item.heading (a.apply p).1.decls) = p.headings := by
    apply List.flatMap_congr
    intro item hitem
    rw [a.decls_apply]
    exact Item.heading_append (h.lt_of_heading hitem)
  rw [headings, a.items_apply, List.flatMap_append, hbefore, a.flatMap_heading_items]

/-- One addition keeps all declarations catalogued. -/
theorem apply (h : p.Catalogued locals) {a : Addition} (ha : a.WellMade) :
    (a.apply p).1.Catalogued (locals ++ a.declaredLocals p) where
  perm := by
    have hrange : List.range (p.decls ++ a.decls p.decls.length).length =
        List.range p.decls.length ++
          List.range' p.decls.length (a.decls p.decls.length).length := by
      simp [List.range_eq_range', ← List.range'_append_1]
    rw [h.headings_apply, a.decls_apply, hrange, List.append_assoc]
    -- What the addition lists moves behind the earlier locals, so that old and new places part.
    have hswap : (p.headings ++ (a.heading p.decls.length ++ (locals ++ a.declaredLocals p))).Perm
        (p.headings ++ (locals ++ (a.heading p.decls.length ++ a.declaredLocals p))) :=
      (List.perm_append_comm_assoc _ _ _).append_left _
    refine hswap.trans ?_
    rw [← List.append_assoc]
    exact h.perm.append (a.heading_perm p)
  storage := by
    intro id hid d hd
    rw [a.decls_apply] at hd
    rcases List.mem_append.mp hid with hid | hid
    · rw [List.getElem?_append_left (h.lt_length (.inr hid))] at hd
      exact h.storage id hid d hd
    · cases a with
      | declare d' =>
          cases List.mem_singleton.mp hid
          have hd' : d = d' := by simpa [declare, Addition.decls, eq_comm] using hd
          exact hd' ▸ ha.isStorage
      | global _ => cases hid
      | function => cases hid
  items := by
    intro item hitem
    rw [a.items_apply] at hitem
    rcases List.mem_append.mp hitem with hitem | hitem
    · rw [a.decls_apply]
      exact Item.Headed.append (h.lt_of_heading hitem) (h.items item hitem)
    · exact Addition.headed_items p ha item hitem

/-- So do any number of additions. -/
theorem extend (h : p.Catalogued locals) {additions : List Addition}
    (hmade : ∀ a ∈ additions, a.WellMade) :
    (p.extend additions).Catalogued (locals ++ p.declaredLocals additions) := by
  induction additions generalizing p locals with
  | nil => simpa [Program.extend, declaredLocals] using h
  | cons a rest ih =>
      obtain ⟨ha, hrest⟩ := List.forall_mem_cons.mp hmade
      rw [declaredLocals, ← List.append_assoc]
      exact ih (h.apply ha) hrest

end Program.Catalogued

/-! ## Many additions -/

namespace Program

theorem extend_append (p : Program) (before after : List Addition) :
    p.extend (before ++ after) = (p.extend before).extend after :=
  List.foldl_append

theorem isPrefix_extend (p : Program) (additions : List Addition) :
    p.decls <+: (p.extend additions).decls := by
  induction additions generalizing p with
  | nil => exact List.prefix_rfl
  | cons a rest ih =>
      have hone : p.decls <+: (a.apply p).1.decls := by
        rw [a.decls_apply]
        exact List.prefix_append _ _
      exact hone.trans (ih (a.apply p).1)

/-- Whatever is declared stays declared at its place. -/
theorem getElem?_extend {p : Program} {id : DeclId} {d : Decl} (h : p.decls[id]? = some d)
    (additions : List Addition) : (p.extend additions).decls[id]? = some d := by
  obtain ⟨more, hmore⟩ := p.isPrefix_extend additions
  rw [← hmore, List.getElem?_append_left (List.getElem?_eq_some_iff.mp h).1, h]

theorem blockLocals_extend (p : Program) (additions : List Addition) :
    (p.extend additions).items.flatMap Item.blockLocals =
      p.items.flatMap Item.blockLocals ++ additions.flatMap Addition.blockLocals := by
  induction additions generalizing p with
  | nil => simp [extend]
  | cons a rest ih =>
      have hone : (a.items p.decls.length).flatMap Item.blockLocals = a.blockLocals := by
        cases a <;> simp [Addition.items, Item.blockLocals, Addition.blockLocals]
      have hrest := ih (a.apply p).1
      rw [a.items_apply, List.flatMap_append, hone] at hrest
      rw [List.flatMap_cons, ← List.append_assoc]
      exact hrest

/-- Every item that was not there before comes from one of the additions. -/
theorem mem_items_extend {p : Program} {additions : List Addition} {item : Item}
    (h : item ∈ (p.extend additions).items) :
    item ∈ p.items ∨ ∃ before a after, additions = before ++ a :: after ∧
      item ∈ a.items (p.extend before).decls.length := by
  induction additions generalizing p with
  | nil => exact .inl h
  | cons a rest ih =>
      rcases ih h with hitem | ⟨before, b, after, rfl, hitem⟩
      · rw [a.items_apply] at hitem
        rcases List.mem_append.mp hitem with hitem | hitem
        · exact .inl hitem
        · exact .inr ⟨[], a, rest, rfl, hitem⟩
      · exact .inr ⟨a :: before, b, after, rfl, hitem⟩

/-- Every function was added as one. -/
theorem exists_function {additions : List Addition} {f : Func}
    (h : .func f ∈ (build additions).items) : ∃ before line ret name params after,
      additions = before ++ .function line ret name params f.body :: after ∧
      f.decl = (build before).decls.length + params.length := by
  rcases mem_items_extend h with hitem | ⟨before, a, after, rfl, hitem⟩
  · cases hitem
  cases a with
  | declare d => cases hitem
  | global d => cases List.mem_singleton.mp hitem
  | function line ret name params body =>
      cases List.mem_singleton.mp hitem
      exact ⟨before, line, ret, name, params, after, rfl, rfl⟩

theorem catalogued_empty : Catalogued {} [] where
  perm := .refl _
  storage := by simp
  items := by simp

theorem listed_perm (p : Program) :
    p.listed.Perm (p.headings ++ p.items.flatMap Item.blockLocals) := by
  have hlisted : p.listed =
      p.items.flatMap fun item => item.heading p.decls ++ item.blockLocals :=
    List.flatMap_congr fun item _ => item.listed_eq p.decls
  rw [hlisted]
  exact (List.flatMap_append_perm _ _ _).symm

end Program

namespace Proper

variable {additions : List Addition} (h : Proper additions)
include h

theorem catalogued : (Program.build additions).Catalogued (Program.declaredLocals {} additions) :=
  Program.catalogued_empty.extend h.made

theorem blockLocals_perm :
    ((Program.build additions).items.flatMap Item.blockLocals).Perm
      (Program.declaredLocals {} additions) := by
  have hlocals : (Program.build additions).items.flatMap Item.blockLocals =
      additions.flatMap Addition.blockLocals :=
    Program.blockLocals_extend {} additions
  have hnodup : (Program.declaredLocals {} additions).Nodup :=
    (List.nodup_append.mp (h.catalogued.perm.nodup_iff.mpr List.nodup_range)).2.1
  rw [hlocals, List.perm_iff_count]
  -- No place is handed out twice, so a declared local counts once on both sides.
  intro id
  by_cases hid : id ∈ Program.declaredLocals {} additions
  · rw [h.placed id hid, List.count_eq_one_of_mem hnodup hid]
  · rw [List.count_eq_zero_of_not_mem hid, List.count_eq_zero_of_not_mem (mt (h.declared id) hid)]

/-- Every declaration is listed exactly once. -/
theorem listed_perm_range :
    (Program.build additions).listed.Perm
      (List.range (Program.build additions).decls.length) :=
  (Program.listed_perm _).trans ((h.blockLocals_perm.append_left _).trans h.catalogued.perm)

theorem wellFormed : (Program.build additions).WellFormed where
  inRange id hid := List.mem_range.mp (h.listed_perm_range.subset hid)
  once := h.listed_perm_range.nodup_iff.mpr List.nodup_range
  funcs f hf := (h.catalogued.items _ hf).1
  params f hf := (h.catalogued.items _ hf).2
  globals id hid := h.catalogued.items _ hid
  locals f hf id hid := by
    apply h.catalogued.storage
    exact h.blockLocals_perm.subset (List.mem_flatMap.mpr ⟨.func f, hf, hid⟩)

end Proper

namespace Program

/-- Additions build well-formed programs. Every place keeps the declaration for which it was handed
out, and every declaration is listed once and is of the kind asked for. Each function was added as
such, and its parameters have the places just before its own, in order. -/
theorem additions_build_well_formed {additions : List Addition} (h : Proper additions) :
    (∀ before a after, (build (before ++ a :: after)).decls[(a.apply (build before)).2]? =
      some (a.declaration (a.apply (build before)).2)) ∧
    (∀ before after (id : DeclId) (d : Decl), (build before).decls[id]? = some d →
      (build (before ++ after)).decls[id]? = some d) ∧
    (build additions).WellFormed ∧
    (build additions).listed.Perm (List.range (build additions).decls.length) ∧
    ∀ f, .func f ∈ (build additions).items → ∃ before line ret name params after,
      additions = before ++ .function line ret name params f.body :: after ∧
      f.decl = (Addition.apply (build before) (.function line ret name params f.body)).2 ∧
      params.length ≤ f.decl ∧
      paramsAt (build additions).decls f.decl =
        List.range' (f.decl - params.length) params.length ∧
      ∀ i d, params[i]? = some d →
        (build additions).decls[f.decl - params.length + i]? = some d := by
  refine ⟨?_, ?_, h.wellFormed, h.listed_perm_range, ?_⟩
  · intro before a after
    rw [build, extend_append]
    exact getElem?_extend (a.getElem?_apply (build before)) after
  · intro before after id d hd
    rw [build, extend_append]
    exact getElem?_extend hd after
  · intro f hf
    obtain ⟨before, line, ret, name, params, after, rfl, hdecl⟩ := exists_function hf
    have hbuild : build (before ++ .function line ret name params f.body :: after) =
        (Addition.apply (build before) (.function line ret name params f.body)).1.extend after :=
      extend_append {} before _
    have hfunc := getElem?_extend
      (Addition.getElem?_function (build before) line ret name params f.body) after
    refine ⟨before, line, ret, name, params, after, rfl, hdecl, ?_, ?_, ?_⟩
    · rw [hdecl]
      exact Nat.le_add_left _ _
    · rw [hbuild, hdecl, Nat.add_sub_cancel, paramsAt, hfunc]
      rfl
    · intro i d hd
      rw [hbuild, hdecl, Nat.add_sub_cancel]
      exact getElem?_extend (Addition.getElem?_param (build before) line ret name f.body hd) after

end Program

namespace Interleaved

/-- A function with a block in a loop, a global, and a function that lists its locals in an order
of their own. Locals are declared before the functions that list them, and between others. -/
def additions : List Addition :=
  [.declare (.var 1 .int "i"), .declare (.array 2 .string "words" 3),
    .function 1 .int "f" [.param 1 .int "n", .arrayParam 1 .int "a"]
      (.ofStmts [0] [.loop (.var "n") (.block (.ofStmts [1] []))]),
    .declare (.pointer 6 .int "p"), .global (.var 5 .int "g"), .declare (.var 6 .int "k"),
    .function 6 .void "main" [] (.ofStmts [7, 5] [])]

theorem proper : Proper additions where
  made := by
    simp only [additions, List.forall_mem_cons, Addition.WellMade]
    exact ⟨.var .., .array .., ⟨.param .., .arrayParam .., by simp⟩, .pointer .., .var .., .var ..,
      by simp, by simp⟩
  placed := by decide
  declared := by decide

/-- Local variables of both functions were declared between places that are listed elsewhere. -/
theorem every_place_listed_once : Proper additions ∧ (Program.build additions).WellFormed ∧
    (Program.build additions).listed = [4, 2, 3, 0, 1, 6, 8, 7, 5] := by
  obtain ⟨-, -, hwf, -, -⟩ := Program.additions_build_well_formed proper
  exact ⟨proper, hwf, by decide⟩

end Interleaved

end Backend
