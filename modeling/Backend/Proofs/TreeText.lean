import Backend.Proofs.BlockText
import Mathlib

/-! # Reading tree files back

The text that is written for a program is read as that program: the lexer gives the tokens of its
document, the parser their events, and the reader of tree files the document, from which the program
is decoded.
-/

namespace Backend

namespace Markup.Scalar

theorem isCut_of_not_mem {cs : List Char} (h : ∀ c ∈ cs, c ≠ ':' ∧ c ≠ '#') (before : Char) :
    isCut before cs = false := by
  induction cs generalizing before with
  | nil => rfl
  | cons c cs ih =>
      obtain ⟨hcolon, hcomment⟩ := h c (by simp)
      simp [isCut, hcolon, hcomment, ih fun d hd => h d (by simp [hd])]

theorem ne_of_isNameChar {c d : Char} (hc : isNameChar c = true) (hd : isNameChar d = false) :
    c ≠ d := by
  rintro rfl
  rw [hd] at hc
  cases hc

/-- A word of letters, digits and dashes is plain, unless it starts with more than one dash. -/
theorem plain_of_isNameChar {c : Char} {cs : List Char} (h : ∀ d ∈ c :: cs, isNameChar d = true)
    (hdash : c = '-' → ∃ d rest, cs = d :: rest ∧ d ≠ '-') : Plain (c :: cs) := by
  have hc := h c (by simp)
  have hspace : ∀ d ∈ c :: cs, isSpace d = false := fun d hd => by
    simpa [isSpace] using ne_of_isNameChar (h d hd) (by decide)
  have hindicator : indicators.contains c = false := by
    have hall : (indicators.all fun d => !isNameChar d) = true := by decide
    by_contra hmem
    rw [Bool.not_eq_false, List.contains_iff_mem] at hmem
    simpa [hc] using List.all_eq_true.mp hall c hmem
  have hlead : ((c = '-' || c = '?' || c = ':') && spaceOrEnd cs) = false := by
    by_cases hc' : c = '-'
    · obtain ⟨d, rest, rfl, -⟩ := hdash hc'
      simp [spaceOrEnd, hspace d (by simp)]
    · simp [hc', ne_of_isNameChar hc (show isNameChar '?' = false by decide),
        ne_of_isNameChar hc (show isNameChar ':' = false by decide)]
  have hlast : (c :: cs).getLast?.any isSpace = false := by
    rw [Option.any_eq_false]
    intro d hd
    simp [hspace d (List.mem_of_getLast? hd)]
  have hdashes : (c :: cs).take 3 ≠ ['-', '-', '-'] := by
    intro htake
    obtain ⟨d, rest, rfl, hd⟩ := hdash (List.cons.inj htake).1
    simp [hd] at htake
  have hpoints : (c :: cs).take 3 ≠ ['.', '.', '.'] := by
    intro htake
    exact ne_of_isNameChar hc (by decide) (List.cons.inj htake).1
  have hcut : isCut c cs = false := isCut_of_not_mem (fun d hd =>
    ⟨ne_of_isNameChar (h d (by simp [hd])) (by decide),
      ne_of_isNameChar (h d (by simp [hd])) (by decide)⟩) c
  refine ⟨?_, fun d hd => clean_of_isNameChar (h d hd)⟩
  simp only [fitsBlock, hindicator, hlead, hspace c (by simp), hlast, hdashes, hpoints, hcut]
  rfl

theorem plain_toString (n : Int) : Plain (toString n).toList := by
  have hdigit {c : Char} (hc : c.isDigit = true) : isNameChar c = true := by
    simp [isNameChar, Char.isAlphanum, hc]
  have hdigits (m : Nat) : ∀ c ∈ Nat.toDigits 10 m, c.isDigit = true := fun c hc =>
    Nat.isDigit_of_mem_toDigits (by decide) (by decide) hc
  have hsome (m : Nat) : ∃ c cs, Nat.toDigits 10 m = c :: cs :=
    List.exists_cons_of_ne_nil Nat.toDigits_ne_nil
  have hne {c : Char} (hc : c.isDigit = true) : c ≠ '-' := by
    rintro rfl
    cases hc
  rw [Int.toString_eq_repr, Int.repr_eq_if]
  split
  · rw [Nat.toList_repr]
    obtain ⟨c, cs, hcs⟩ := hsome n.toNat
    have hcs' := hdigits n.toNat
    rw [hcs] at hcs' ⊢
    exact plain_of_isNameChar (fun d hd => hdigit (hcs' d hd))
      fun h => absurd h (hne (hcs' c (by simp)))
  · rw [String.toList_append, Nat.toList_repr]
    obtain ⟨c, cs, hcs⟩ := hsome (-n).toNat
    have hcs' := hdigits (-n).toNat
    rw [hcs] at hcs' ⊢
    -- The sign is a dash with a digit behind it.
    exact plain_of_isNameChar (c := '-') (by simpa [show isNameChar '-' = true by decide] using
      ⟨hdigit (hcs' c (by simp)), fun d hd => hdigit (hcs' d (by simp [hd]))⟩)
      fun _ => ⟨c, cs, rfl, hne (hcs' c (by simp))⟩

end Markup.Scalar

namespace Doc

mutual

/-- The texts in a document. -/
def texts : Doc → List String
  | .str s => [s]
  | .arr items => textsItems items
  | .obj fields => textsFields fields
  | .null | .bool _ | .int _ | .fraction _ => []

def textsItems : List Doc → List String
  | [] => []
  | x :: rest => x.texts ++ textsItems rest

def textsFields : List (String × Doc) → List String
  | [] => []
  | (_, x) :: rest => x.texts ++ textsFields rest

end

theorem mem_textsItems {items : List Doc} {x : Doc} (hx : x ∈ items) {s : String}
    (hs : s ∈ x.texts) : s ∈ textsItems items := by
  induction items with
  | nil => cases hx
  | cons y items ih =>
      rw [textsItems, List.mem_append]
      rcases List.mem_cons.mp hx with rfl | hx
      · exact .inl hs
      · exact .inr (ih hx)

theorem mem_textsFields {fields : List (String × Doc)} {field : String × Doc}
    (hfield : field ∈ fields) {s : String} (hs : s ∈ field.2.texts) : s ∈ textsFields fields := by
  induction fields with
  | nil => cases hfield
  | cons other fields ih =>
      rw [textsFields, List.mem_append]
      rcases List.mem_cons.mp hfield with rfl | hfield
      · exact .inl hs
      · exact .inr (ih hfield)

theorem toNodes_eq (items : List Doc) : toNodes items = items.map toNode := by
  induction items with
  | nil => rfl
  | cons x items ih => rw [toNodes, ih, List.map_cons]

theorem toFields_eq (fields : List (String × Doc)) :
    toFields fields = fields.map fun field => (field.1, field.2.toNode) := by
  induction fields with
  | nil => rfl
  | cons field fields ih => rw [toFields, ih, List.map_cons]

theorem isTagged_toNode {x : Doc} (h : x.Untagged) : x.toNode.isTagged = false := by
  cases x with
  | obj fields =>
      rw [toNode_obj h]
      rfl
  | _ => rfl

theorem Writable.legible {x : Doc} (h : x.Writable)
    (htexts : ∀ s ∈ x.texts, Markup.Scalar.OneLine s) : x.toNode.Legible := by
  induction h with
  | null => exact .word (by decide)
  | bool b => cases b <;> exact .word (by decide)
  | @int n _ _ => exact .word (Markup.Scalar.plain_toString n)
  | str s => exact .text (htexts s (by simp [texts]))
  | @arr items _ ih =>
      rw [toNode, toNodes_eq]
      refine .list fun n hn => ?_
      obtain ⟨x, hx, rfl⟩ := List.mem_map.mp hn
      exact ih x hx fun s hs => htexts s (mem_textsItems hx hs)
  | @obj fields huntagged hkeys _ ih =>
      rw [toNode_obj huntagged, toFields_eq]
      refine .map (fun field hfield => ?_) fun field hfield => ?_
      all_goals obtain ⟨field', hfield', rfl⟩ := List.mem_map.mp hfield
      · exact hkeys field' hfield'
      · exact ih field' hfield' fun s hs => htexts s (mem_textsFields hfield' hs)
  | @tagged name x hname huntagged _ ih =>
      rw [toNode_tagged hname]
      refine .tagged hname (isTagged_toNode huntagged) (ih fun s hs => htexts s ?_)
      rw [Doc.tagged, texts]
      exact mem_textsFields (List.mem_singleton.mpr rfl) hs

/-- The names of the fields in the document of a program. -/
def fieldNames : List String :=
  ["name", "decl", "depth", "position", "line", "base", "kind", "slot", "ty", "locals", "stmts",
    "size", "span", "body", "frame_size", "decls", "items"]

theorem namesField_of_mem : ∀ name ∈ fieldNames, Markup.Scalar.NamesField name := by
  decide

theorem not_isAlternative_of_mem : ∀ name ∈ fieldNames, isAlternative name = false := by
  decide

/-- A document that an alternative can hold. -/
structure Bare (x : Doc) : Prop where
  writable : x.Writable
  untagged : x.Untagged

theorem bare_null : Bare .null := ⟨.null, by simp [Untagged]⟩

theorem bare_str (s : String) : Bare (.str s) := ⟨.str s, by simp [Untagged]⟩

theorem bare_ofNat {n : Nat} (h : n < Word.bound) : Bare (.ofNat n) := by
  refine ⟨.int ?_ ?_, by simp [Untagged, ofNat]⟩
  · omega
  · have hbound : Word.bound = 0x1_0000_0000_0000_0000 := rfl
    omega

theorem bare_int {n : Int} (h : Signed.InRange n) : Bare (.int n) := by
  obtain ⟨hlow, hhigh⟩ := h
  exact ⟨.int hlow (by omega), by simp [Untagged]⟩

theorem bare_arr {items : List Doc} (h : ∀ x ∈ items, x.Writable) : Bare (.arr items) :=
  ⟨.arr h, by simp [Untagged]⟩

theorem bare_obj {fields : List (String × Doc)}
    (h : ∀ field ∈ fields, field.1 ∈ fieldNames ∧ field.2.Writable) : Bare (.obj fields) := by
  have huntagged : Untagged (.obj fields) := by
    rintro key y ⟨⟩
    exact not_isAlternative_of_mem key (h (key, y) (by simp)).1
  exact ⟨.obj huntagged (fun field hfield => namesField_of_mem _ (h field hfield).1)
    fun field hfield => (h field hfield).2, huntagged⟩

theorem writable_tagged {name : String} (hname : AlternativeName name) {x : Doc} (h : x.Bare) :
    (tagged name x).Writable :=
  .tagged hname h.untagged h.writable

theorem bare_cons {x d : Doc} (hx : x.Writable) (hd : d.Bare) : (cons x d).Bare := by
  cases d with
  | arr items =>
      cases hd.writable with
      | arr h => exact bare_arr (by simpa [hx] using h)
  | _ => exact hd

end Doc

open Doc

theorem Ident.bare_encode {x : Ident} (h : x.Bounded) : x.encode.Bare := by
  refine bare_obj ?_
  cases hdecl : x.decl with
  | none => simpa using ⟨by decide, .str _⟩
  | some id => simpa using ⟨⟨by decide, .str _⟩, by decide, (bare_ofNat (h id hdecl)).writable⟩

theorem Mark.bare_encode {m : Mark} (h : m.Bounded) {kind : Doc} (hkind : kind.Writable) :
    (m.encode kind).Bare := by
  refine bare_obj ?_
  simpa using ⟨⟨by decide, (bare_ofNat h).writable⟩, ⟨by decide, .str _⟩, by decide, hkind⟩

theorem Node.bare_encode {l : Layer} {x : Node l} (h : x.Bounded) : x.encode.Bare := by
  induction x with
  | nil => exact bare_arr (by simp)
  | cons e es ihe ihes => exact bare_cons (ihe h.1).writable (ihes h.2)
  | read m => exact Mark.bare_encode h (.str _)
  | str m text => exact Mark.bare_encode h (writable_tagged (by decide) (bare_str text))
  | num m n => exact Mark.bare_encode h.1 (writable_tagged (by decide) (bare_int h.2))
  | setVar m x | setDeref m x | var m x =>
      exact Mark.bare_encode h.1 (writable_tagged (by decide) (Ident.bare_encode h.2))
  | comp m x ih | sum m x ih | term m x ih | unary m x ih | neg m x ih | addrOf m x ih
  | deref m x ih | factor m x ih | paren m x ih =>
      exact Mark.bare_encode h.1 (writable_tagged (by decide) (ih h.2))
  | assign m t v iht ihv =>
      refine Mark.bare_encode h.1 (writable_tagged (by decide) (bare_arr ?_))
      simpa using ⟨(iht h.2.1).writable, (ihv h.2.2).writable⟩
  | setElem m x i ih | elem m x i ih | call m x i ih =>
      refine Mark.bare_encode h.1 (writable_tagged (by decide) (bare_arr ?_))
      simpa using ⟨(Ident.bare_encode h.2.1).writable, (ih h.2.2).writable⟩
  | rel m a op b iha ihb | add m a op b iha ihb | mul m a op b iha ihb =>
      refine Mark.bare_encode h.1 (writable_tagged (by decide) (bare_arr ?_))
      simpa using ⟨(iha h.2.1).writable, .str _, (ihb h.2.2).writable⟩

theorem Node.bare_ofOption {e : Option Expr} (h : ∀ x ∈ e, x.Bounded) :
    (Doc.ofOption Node.encode e).Bare := by
  cases e with
  | none => exact bare_null
  | some x => exact Node.bare_encode (h x rfl)

theorem writable_ofNats {ids : List Nat} (h : ∀ id ∈ ids, id < Word.bound) :
    ∀ x ∈ ids.map Doc.ofNat, x.Writable := by
  intro x hx
  obtain ⟨id, hid, rfl⟩ := List.mem_map.mp hx
  exact (bare_ofNat (h id hid)).writable

theorem bare_stmtDoc {line : Nat} (h : line < Word.bound) {kind : Doc} (hkind : kind.Writable) :
    (stmtDoc line kind).Bare := by
  refine bare_obj ?_
  simpa using ⟨⟨by decide, (bare_ofNat h).writable⟩, by decide, hkind⟩

theorem Clause.bare_encode {f : Form} {c : Clause f} (h : c.Bounded) : c.encode.Bare := by
  induction c with
  | absent => exact bare_null
  | present s ih => exact ih h
  | nil => exact bare_arr (by simp)
  | cons s rest ihs ihrest => exact bare_cons (ihs h.1).writable (ihrest h.2)
  | eval line e | ret line e | write line e =>
      exact bare_stmtDoc h.1 (writable_tagged (by decide) (Node.bare_ofOption h.2))
  | braces line b ih => exact bare_stmtDoc h.1 (writable_tagged (by decide) (ih h.2))
  | ifElse line x t e iht ihe =>
      refine bare_stmtDoc h.1 (writable_tagged (by decide) (bare_arr ?_))
      simpa using ⟨(Node.bare_encode h.2.1).writable, (iht h.2.2.1).writable,
        (ihe h.2.2.2).writable⟩
  | loop line x s ih =>
      refine bare_stmtDoc h.1 (writable_tagged (by decide) (bare_arr ?_))
      simpa using ⟨(Node.bare_encode h.2.1).writable, (ih h.2.2).writable⟩
  | block line locals stmts size span ih =>
      obtain ⟨hline, hlocals, hstmts, hsize, hspan⟩ := h
      refine bare_obj ?_
      simpa using ⟨⟨by decide, (bare_ofNat hline).writable⟩,
        ⟨by decide, .arr (writable_ofNats hlocals)⟩, ⟨by decide, (ih hstmts).writable⟩,
        ⟨by decide, (bare_ofNat hsize).writable⟩, by decide, (bare_ofNat hspan).writable⟩

theorem DeclKind.writable_encode {k : DeclKind} (h : k.Bounded) : k.encode.Writable := by
  cases k with
  | array length => exact writable_tagged (by decide) (bare_ofNat h)
  | func params => exact writable_tagged (by decide) (bare_arr (writable_ofNats h))
  | var | pointer | param | arrayParam | pointerParam => exact .str _

theorem Slot.bare_encode {s : Slot} (h : s.Bounded) : s.encode.Bare := by
  refine bare_obj ?_
  simpa using ⟨⟨by decide, (bare_ofNat h.1).writable⟩, by decide, (bare_ofNat h.2).writable⟩

theorem Decl.bare_encode {d : Decl} (h : d.Bounded) : d.encode.Bare := by
  have hline := (bare_ofNat h.line).writable
  have hkind := DeclKind.writable_encode h.kind
  refine bare_obj ?_
  cases hslot : d.slot with
  | none =>
      simpa using ⟨⟨by decide, hline⟩, ⟨by decide, .str _⟩, ⟨by decide, .str _⟩, by decide, hkind⟩
  | some slot =>
      have hplace := (Slot.bare_encode (h.slot slot hslot)).writable
      simpa using ⟨⟨by decide, hline⟩, ⟨by decide, .str _⟩, ⟨by decide, .str _⟩,
        ⟨by decide, hkind⟩, by decide, hplace⟩

theorem Item.writable_encode {item : Item} (h : item.Bounded) : item.encode.Writable := by
  cases item with
  | var id => exact writable_tagged (by decide) (bare_ofNat h)
  | func f =>
      obtain ⟨hdecl, hbody, hsize⟩ := h
      refine writable_tagged (by decide) (bare_obj ?_)
      simpa using ⟨⟨by decide, (bare_ofNat hdecl).writable⟩,
        ⟨by decide, (Clause.bare_encode hbody).writable⟩, by decide, (bare_ofNat hsize).writable⟩

namespace Program

variable {p : Program}

theorem bare_encode (h : p.Bounded) : p.encode.Bare := by
  have hdecls : ∀ x ∈ p.decls.map Decl.encode, x.Writable := by
    intro x hx
    obtain ⟨d, hd, rfl⟩ := List.mem_map.mp hx
    exact (Decl.bare_encode (h.decls d hd)).writable
  have hitems : ∀ x ∈ p.items.map Item.encode, x.Writable := by
    intro x hx
    obtain ⟨item, hitem, rfl⟩ := List.mem_map.mp hx
    exact Item.writable_encode (h.items item hitem)
  refine bare_obj ?_
  simpa using ⟨⟨by decide, Doc.Writable.arr hdecls⟩, by decide, Doc.Writable.arr hitems⟩

/-- The text that is written for a program is read as the program. A text with line breaks in it is
written on lines of its own, which the hypothesis on the texts leaves out. -/
theorem ofText_toText (h : p.Bounded) (htexts : ∀ s ∈ p.encode.texts, Markup.Scalar.OneLine s)
    (hdepth : p.encode.toNode.depth ≤ TreeFile.depthLimit) : ofText p.toText = .ok p := by
  have hwritable := (bare_encode h).writable
  have hlegible := hwritable.legible htexts
  obtain ⟨field, fields, hnode⟩ : ∃ field fields, p.encode.toNode = .map (field :: fields) :=
    ⟨_, _, Doc.toNode_obj (bare_encode h).untagged⟩
  rw [hnode] at hlegible
  obtain ⟨ts, htokens, hkinds⟩ := Markup.Node.tokens_render hlegible
  obtain ⟨hevents, hfinish⟩ := Markup.Document.ofText_of_tokens hlegible htokens hkinds
  rw [← hnode] at hevents hfinish
  exact TreeFile.ofDocument_spelled h hwritable hdepth hevents hfinish

example :
    let p : Program := { decls := [.var 1 .int "x"], items := [.var 0] }
    p.toText = "decls:\n- line: 1\n  name: x\n  base: Int\n  kind: Var\nitems:\n- !Var 0\n" ∧
      (∀ s ∈ p.encode.texts, Markup.Scalar.OneLine s) ∧
      p.encode.toNode.depth ≤ TreeFile.depthLimit := by
  decide +kernel

end Program

end Backend
