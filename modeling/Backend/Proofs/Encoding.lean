import Backend.Document.Decode
import Mathlib.Data.List.Basic
import Mathlib.Logic.Function.Basic

/-! # A document stands for one tree

Whatever differs in two trees differs in their documents too, annotations included.
-/

namespace Backend

/-! ## Numbers and lists -/

namespace Doc

@[simp]
theorem ofNat_inj {m n : Nat} : ofNat m = ofNat n ↔ m = n := by
  simp only [ofNat, int.injEq, Int.natCast_inj]

theorem ofNat_injective : Function.Injective ofNat := by
  intro m n h
  exact ofNat_inj.mp h

/-- The items of a list are known from its document. -/
theorem cons_inj {x y d e : Doc} (hd : ∃ items, d = .arr items)
    (he : ∃ items, e = .arr items) :
    cons x d = cons y e ↔ x = y ∧ d = e := by
  obtain ⟨items, rfl⟩ := hd
  obtain ⟨items', rfl⟩ := he
  simp [cons]

theorem cons_ne_nil {x d : Doc} (hd : ∃ items, d = .arr items) : cons x d ≠ .arr [] := by
  obtain ⟨items, rfl⟩ := hd
  simp [cons]

theorem injective_of_read {α : Type} {write : α → Doc} {read : Doc → Option α}
    (h : ∀ a, read (write a) = some a) : Function.Injective write := by
  intro a b hab
  rw [← Option.some_inj, ← h a, hab, h b]

end Doc

/-! ## Constants and declarations -/

theorem Ty.decode?_encode (t : Ty) : Ty.decode? t.encode = some t := by
  cases t <;> rfl

theorem Base.decode?_encode (b : Base) : Base.decode? b.encode = some b := by
  cases b <;> rfl

theorem RelOp.decode?_encode (op : RelOp) : RelOp.decode? op.encode = some op := by
  cases op <;> rfl

theorem AddOp.decode?_encode (op : AddOp) : AddOp.decode? op.encode = some op := by
  cases op <;> rfl

theorem MulOp.decode?_encode (op : MulOp) : MulOp.decode? op.encode = some op := by
  cases op <;> rfl

theorem Ty.encode_injective : Function.Injective Ty.encode :=
  Doc.injective_of_read Ty.decode?_encode

theorem Base.encode_injective : Function.Injective Base.encode :=
  Doc.injective_of_read Base.decode?_encode

theorem RelOp.encode_injective : Function.Injective RelOp.encode :=
  Doc.injective_of_read RelOp.decode?_encode

theorem AddOp.encode_injective : Function.Injective AddOp.encode :=
  Doc.injective_of_read AddOp.decode?_encode

theorem MulOp.encode_injective : Function.Injective MulOp.encode :=
  Doc.injective_of_read MulOp.decode?_encode

theorem Slot.encode_injective : Function.Injective Slot.encode := by
  rintro ⟨depth, position⟩ ⟨depth', position'⟩ h
  simpa [encode] using h

theorem DeclKind.encode_injective : Function.Injective DeclKind.encode := by
  intro k k' h
  cases k <;> cases k' <;> simp_all [encode, Doc.tagged, Doc.ofNat_injective.list_map.eq_iff]

theorem Decl.encode_injective : Function.Injective Decl.encode := by
  rintro ⟨line, name, base, kind, slot⟩ ⟨line', name', base', kind', slot'⟩ h
  cases slot <;> cases slot' <;>
    simp_all [encode, Base.encode_injective.eq_iff, DeclKind.encode_injective.eq_iff,
      Slot.encode_injective.eq_iff]

/-! ## Expressions -/

theorem Ident.encode_injective : Function.Injective Ident.encode := by
  rintro ⟨name, decl⟩ ⟨name', decl'⟩ h
  cases decl <;> cases decl' <;> simp_all [encode]

theorem Mark.encode_inj {m m' : Mark} {kind kind' : Doc} :
    m.encode kind = m'.encode kind' ↔ m = m' ∧ kind = kind' := by
  cases m
  cases m'
  simp [encode, Ty.encode_injective.eq_iff, and_assoc]

namespace Node

attribute [local simp] encode

theorem exists_arr (es : Node .args) : ∃ items, es.encode = .arr items := by
  cases es with
  | nil => exact ⟨[], rfl⟩
  | cons e es =>
      obtain ⟨items, hitems⟩ := exists_arr es
      exact ⟨e.encode :: items, by rw [encode, hitems, Doc.cons]⟩

theorem encode_injective {l : Layer} : Function.Injective (encode (l := l)) := by
  intro x y h
  induction x with
  | nil =>
      cases y with
      | nil => rfl
      | cons e es => exact absurd h.symm (Doc.cons_ne_nil (exists_arr es))
  | cons e es ihe ihes =>
      cases y with
      | nil => exact absurd h (Doc.cons_ne_nil (exists_arr es))
      | cons e' es' =>
          obtain ⟨he, hes⟩ := (Doc.cons_inj (exists_arr es) (exists_arr es')).mp h
          rw [ihe he, ihes hes]
  | assign | comp | setVar | setElem | setDeref | sum | rel | term | add | unary | mul | neg
  | addrOf | deref | factor | paren | var | elem | call | num | str | read =>
      -- Two alternatives of a layer have different tags; where the tags agree, so do the parts.
      cases y <;> simp only [encode, Mark.encode_inj, Doc.tagged, Doc.obj.injEq, Doc.arr.injEq,
        Doc.int.injEq, Doc.str.injEq, List.cons.injEq, Prod.mk.injEq, String.reduceEq, reduceCtorEq,
        Ident.encode_injective.eq_iff, RelOp.encode_injective.eq_iff,
        AddOp.encode_injective.eq_iff, MulOp.encode_injective.eq_iff, false_and, and_false] at h
      all_goals grind

theorem encode_ne_null (e : Expr) : e.encode ≠ .null := by
  cases e <;> simp [Mark.encode]

theorem ofOption_inj {e e' : Option Expr} :
    Doc.ofOption encode e = Doc.ofOption encode e' ↔ e = e' := by
  cases e <;> cases e' <;>
    simp [Doc.ofOption, encode_injective.eq_iff, encode_ne_null, (encode_ne_null _).symm]

end Node

/-! ## Statements -/

namespace Clause

attribute [local simp] encode

theorem exists_arr (ss : Clause .seq) : ∃ items, ss.encode = .arr items := by
  cases ss with
  | nil => exact ⟨[], rfl⟩
  | cons s ss =>
      obtain ⟨items, hitems⟩ := exists_arr ss
      exact ⟨s.encode :: items, by rw [encode, hitems, Doc.cons]⟩

theorem stmtDoc_inj {line line' : Nat} {kind kind' : Doc} :
    stmtDoc line kind = stmtDoc line' kind' ↔ line = line' ∧ kind = kind' := by
  simp [stmtDoc]

theorem encode_ne_null (s : Stmt) : s.encode ≠ .null := by
  cases s <;> simp [stmtDoc]

theorem encode_injective {f : Form} : Function.Injective (encode (f := f)) := by
  intro x y h
  induction x with
  | nil =>
      cases y with
      | nil => rfl
      | cons s ss => exact absurd h.symm (Doc.cons_ne_nil (exists_arr ss))
  | cons s ss ihs ihss =>
      cases y with
      | nil => exact absurd h (Doc.cons_ne_nil (exists_arr ss))
      | cons s' ss' =>
          obtain ⟨hs, hss⟩ := (Doc.cons_inj (exists_arr ss) (exists_arr ss')).mp h
          rw [ihs hs, ihss hss]
  | absent =>
      cases y with
      | absent => rfl
      | present s => exact absurd h.symm (encode_ne_null s)
  | present s ih =>
      cases y with
      | absent => exact absurd h (encode_ne_null s)
      | present s' => rw [ih h]
  | block line locals stmts size span ih =>
      cases y with
      | block line' locals' stmts' size' span' =>
          simp only [encode, Doc.obj.injEq, Doc.arr.injEq, List.cons.injEq, Prod.mk.injEq,
            Doc.ofNat_inj, Doc.ofNat_injective.list_map.eq_iff] at h
          grind
  | eval | braces | ifElse | loop | ret | write =>
      cases y <;> simp only [encode, stmtDoc_inj, Doc.tagged, Doc.obj.injEq, Doc.arr.injEq,
        List.cons.injEq, Prod.mk.injEq, String.reduceEq, Node.ofOption_inj,
        Node.encode_injective.eq_iff, false_and, and_false] at h
      all_goals grind

end Clause

/-! ## Programs -/

theorem Item.encode_injective : Function.Injective Item.encode := by
  intro x y h
  cases x with
  | var id =>
      cases y with
      | var id' => simpa [encode, Doc.tagged] using h
      | func f => simp [encode, Doc.tagged] at h
  | func f =>
      cases y with
      | var id => simp [encode, Doc.tagged] at h
      | func f' =>
          cases f
          cases f'
          simpa [encode, Doc.tagged, Func.encode, Clause.encode_injective.eq_iff] using h

theorem Program.encode_injective : Function.Injective Program.encode := by
  rintro ⟨decls, items⟩ ⟨decls', items'⟩ h
  simpa [encode, Decl.encode_injective.list_map.eq_iff, Item.encode_injective.list_map.eq_iff]
    using h

end Backend
