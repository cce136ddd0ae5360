import Backend.Proofs.References

/-! # What the generator asks of a tree

The generator looks up what earlier passes have filled in. Every name of every body has to be
bound, every variable needs a slot, what is written needs a type that can be printed, and an
operand of `&` has to have an address. Trees come with any annotations, so each of these may
be missing. Overflows apart, code comes out exactly when nothing is, and otherwise the
generator reports that something is missing.
-/

namespace Backend

namespace Emit

variable {α β : Type} {P Q : Prop}

/-- A computation that succeeds only where `P` holds. It fails by an overflow, or by reporting
that something is missing. -/
structure Requires (P : Prop) (x : Emit α) : Prop where
  holds : ∀ n a n', x n = .ok a n' → P
  reports : ∀ n stop n', x n = .error stop n' →
    (∃ o, stop = .overflow o) ∨ ∃ what, stop = .error (.unresolved what)

theorem OnlyOverflows.requires {x : Emit α} (h : OnlyOverflows x) : Requires True x where
  holds _ _ _ _ := trivial
  reports n stop n' hstop := .inl (h n stop n' hstop)

namespace Requires

theorem pure (h : P) (a : α) : Requires P (pure a : Emit α) where
  holds _ _ _ _ := h
  reports := by
    intro n stop n' hstop
    cases hstop

theorem missing (what : Missing) : Requires P (missing what : Emit α) where
  holds _ _ _ hok := absurd hok missing_ne_ok
  reports := by
    intro n stop n' hstop
    cases hstop
    exact .inr ⟨what, rfl⟩

theorem bind {x : Emit α} {f : α → Emit β} (hx : Requires P x)
    (hf : P → ∀ a n n', x n = .ok a n' → Requires Q (f a)) : Requires Q (x >>= f) where
  holds := by
    intro n b n' h
    obtain ⟨a, k, ha, hb⟩ := bind_eq_ok_iff.mp h
    exact (hf (hx.holds n a k ha) a n k ha).holds k b n' hb
  reports := by
    intro n stop n' h
    rcases bind_eq_error_iff.mp h with h | ⟨a, k, ha, h⟩
    · exact hx.reports n stop n' h
    · exact (hf (hx.holds n a k ha) a n k ha).reports k stop n' h

theorem mono {x : Emit α} (h : Requires P x) (hPQ : P → Q) : Requires Q x where
  holds n a n' ha := hPQ (h.holds n a n' ha)
  reports := h.reports

theorem declared (decls : List Decl) (id : DeclId) :
    Requires (∃ d, decls[id]? = some d) (ofExcept (declared decls id)) := by
  unfold Backend.declared
  split
  next d hd => exact pure ⟨d, hd⟩ d
  next => exact missing _

end Requires

end Emit

open Emit (Requires)

/-! ## Expressions -/

namespace Node

/-- A variable or an array element, in any number of parentheses. -/
inductive Addressable : {l : Layer} → Node l → Prop
  | var (m : Mark) (x : Ident) : Addressable (.var m x)
  | elem (m : Mark) (x : Ident) (index : Expr) : Addressable (.elem m x index)
  | paren (m : Mark) {e : Expr} : Addressable e → Addressable (.paren m e)
  | comp (m : Mark) {x : Node .comp} : Addressable x → Addressable (.comp m x)
  | sum (m : Mark) {x : Node .sum} : Addressable x → Addressable (.sum m x)
  | term (m : Mark) {x : Node .term} : Addressable x → Addressable (.term m x)
  | unary (m : Mark) {x : Node .unary} : Addressable x → Addressable (.unary m x)
  | factor (m : Mark) {x : Factor} : Addressable x → Addressable (.factor m x)

theorem isSome_place_iff {l : Layer} {x : Node l} : x.place.isSome ↔ x.Addressable := by
  constructor
  · intro h
    induction x with
    | var m y => exact .var m y
    | elem m y i => exact .elem m y i
    | paren m x ih => exact .paren m (ih h)
    | comp m x ih => exact .comp m (ih h)
    | sum m x ih => exact .sum m (ih h)
    | term m x ih => exact .term m (ih h)
    | unary m x ih => exact .unary m (ih h)
    | factor m x ih => exact .factor m (ih h)
    | _ => cases h
  · intro h
    induction h with
    | var | elem => rfl
    | paren _ _ ih | comp _ _ ih | sum _ _ ih | term _ _ ih | unary _ _ ih | factor _ _ ih =>
        exact ih

end Node

namespace CodeEnv.Covers

variable {cx : CodeEnv} {l l₁ l₂ : Layer} {x : Node l} {a : Node l₁} {b : Node l₂}

/-- What two parts need is all that is needed. -/
theorem append (ha : cx.Covers a) (hb : cx.Covers b) (huses : x.uses = a.uses ++ b.uses)
    (hcallees : x.callees = a.callees ++ b.callees)
    (haddressed : x.addressed = a.addressed ++ b.addressed)
    (hliterals : x.literals = a.literals ++ b.literals) : cx.Covers x where
  uses := by
    rw [huses]
    exact List.forall_mem_append.mpr ⟨ha.uses, hb.uses⟩
  callees := by
    rw [hcallees]
    exact List.forall_mem_append.mpr ⟨ha.callees, hb.callees⟩
  addressed := by
    rw [haddressed]
    exact List.forall_mem_append.mpr ⟨ha.addressed, hb.addressed⟩
  literals := by
    rw [hliterals]
    exact List.forall_mem_append.mpr ⟨ha.literals, hb.literals⟩

end CodeEnv.Covers

theorem CodeEnv.decl_requires (cx : CodeEnv) (y : Ident) :
    Requires (∃ id d, y.decl = some id ∧ cx.decls[id]? = some d) (cx.decl y) := by
  unfold decl
  split
  next => exact .missing _
  next id hid =>
    apply (Requires.declared cx.decls id).mono
    rintro ⟨d, hd⟩
    exact ⟨id, d, hid, hd⟩

namespace Decl

variable (d : Decl)

theorem cell_requires : Requires (d.slot.isSome = true) d.cell := by
  unfold cell
  split
  next => exact .missing _
  next slot hslot =>
    have hsome : d.slot.isSome = true := by rw [hslot, Option.isSome_some]
    apply (Emit.OnlyOverflows.checked d.offset).requires.bind
    intro _ offset _ _ _
    cases offset <;> exact .pure hsome _

theorem arrayBase_requires : Requires (d.slot.isSome = true) d.arrayBase := by
  apply d.cell_requires.bind
  intro hslot cell _ _ _
  split <;> exact .pure hslot _

theorem load_requires (access : Access) : Requires (d.slot.isSome = true) (d.load access) := by
  have hcell (build : Operand → Inst) :
      Requires (d.slot.isSome = true) (d.cell >>= fun cell => pure (build cell)) :=
    d.cell_requires.bind fun hslot _ _ _ _ => .pure hslot _
  cases access with
  | address => exact hcell (.leaq · .rax)
  | value =>
      simp only [load]
      split
      · exact d.arrayBase_requires
      · exact d.arrayBase_requires
      · exact hcell (.movq · .rax)

end Decl

/-- The name is bound to a declaration that has a slot. -/
def CodeEnv.Places (cx : CodeEnv) (y : Ident) : Prop :=
  ∃ id d, y.decl = some id ∧ cx.decls[id]? = some d ∧ d.slot.isSome

/-- Whatever is done with the storage of a variable needs its slot. -/
theorem CodeEnv.decl_places {cx : CodeEnv} {y : Ident} {α : Type} {f : Decl → Emit α} {P : Prop}
    (hf : ∀ d, Requires (d.slot.isSome = true ∧ P) (f d)) :
    Requires (cx.Places y ∧ P) (cx.decl y >>= f) := by
  apply (cx.decl_requires y).bind
  intro _ d _ _ hd
  obtain ⟨id, hid, hget⟩ := decl_eq_ok hd
  apply (hf d).mono
  rintro ⟨hslot, hP⟩
  exact ⟨⟨id, d, hid, hget, hslot⟩, hP⟩

theorem CodeEnv.element_requires {cx : CodeEnv} {y : Ident} {index : Emit Code} {P : Prop}
    (hindex : Requires P index) : Requires (cx.Places y ∧ P) (cx.element y index) := by
  apply decl_places
  intro d
  apply d.arrayBase_requires.bind
  intro hslot _ _ _ _
  apply hindex.bind
  intro hP _ _ _ _
  exact .pure ⟨hslot, hP⟩ _

theorem Pool.label_requires (pool : Pool) (text : String) :
    Requires ((pool.lookup text).isSome = true) (pool.label text) := by
  unfold label
  split
  next label hlabel => exact .pure (by rw [hlabel, Option.isSome_some]) label
  next => exact .missing _

/-- The code of a node is emitted only where the node has all that it needs. -/
theorem Node.code_requires {l : Layer} (cx : CodeEnv) (x : Node l) (access : Access) :
    Requires (cx.Covers x) (x.code cx access) := by
  induction x generalizing access with
  | comp m x ih | sum m x ih | term m x ih | unary m x ih | factor m x ih | paren m x ih =>
      exact (ih access).mono fun h => ⟨h.uses, h.callees, h.addressed, h.literals⟩
  | num m n | read m | nil =>
      exact .pure ⟨by simp [uses], by simp [callees], by simp [addressed], by simp [literals]⟩ _
  | str m text =>
      apply (cx.pool.label_requires text).bind
      intro hlabel _ _ _ _
      exact .pure ⟨by simp [uses], by simp [callees], by simp [addressed],
        by simpa [literals] using hlabel⟩ _
  | var m y =>
      apply (CodeEnv.decl_places fun d => (d.load_requires access).bind
        fun hslot _ _ _ _ => .pure ⟨hslot, trivial⟩ _).mono
      rintro ⟨hy, -⟩
      exact ⟨List.forall_mem_singleton.mpr hy, by simp [callees], by simp [addressed],
        by simp [literals]⟩
  | setVar m y | setDeref m y =>
      apply (CodeEnv.decl_places fun d => d.cell_requires.bind
        fun hslot _ _ _ _ => .pure ⟨hslot, trivial⟩ _).mono
      rintro ⟨hy, -⟩
      exact ⟨List.forall_mem_singleton.mpr hy, by simp [callees], by simp [addressed],
        by simp [literals]⟩
  | elem m y i ih | setElem m y i ih =>
      apply (CodeEnv.element_requires (ih .value)).bind
      rintro ⟨hy, hi⟩ _ _ _ _
      exact .pure ⟨List.forall_mem_cons.mpr ⟨hy, hi.uses⟩, hi.callees, hi.addressed, hi.literals⟩ _
  | neg m x ih | deref m x ih =>
      apply (ih .value).bind
      intro hx _ _ _ _
      exact .pure ⟨hx.uses, hx.callees, hx.addressed, hx.literals⟩ _
  | addrOf m x ih =>
      rw [code]
      split
      next => exact .missing _
      next hplace =>
        apply (ih .address).mono
        intro hx
        have hsome : x.place.isSome := by
          rw [Option.isSome_iff_ne_none]
          simpa using hplace
        exact ⟨hx.uses, hx.callees, List.forall_mem_cons.mpr ⟨hsome, hx.addressed⟩, hx.literals⟩
  | add m a op b iha ihb | mul m a op b iha ihb | cons a b iha ihb | assign m a b iha ihb =>
      -- In each of the four, the part on the right comes first.
      apply (ihb .value).bind
      intro hb _ _ _ _
      apply (iha .value).bind
      intro ha _ _ _ _
      exact .pure (ha.append hb rfl rfl rfl rfl) _
  | rel m a op b iha ihb =>
      apply Emit.OnlyOverflows.jumpLabel.requires.bind
      intro _ other _ _ _
      apply Emit.OnlyOverflows.jumpLabel.requires.bind
      intro _ stop _ _ _
      apply (ihb .value).bind
      intro hb _ _ _ _
      apply (iha .value).bind
      intro ha _ _ _ _
      exact .pure (ha.append hb rfl rfl rfl rfl) _
  | call m y as ih =>
      apply (cx.decl_requires y).bind
      intro hy d _ _ _
      apply (ih .value).bind
      intro has pushes _ _ _
      apply (Emit.OnlyOverflows.checked _).requires.bind
      intro _ size _ _ _
      exact .pure ⟨has.uses, List.forall_mem_cons.mpr ⟨hy, has.callees⟩, has.addressed,
        has.literals⟩ _

/-! ## Statements and functions -/

/-- What the code of a statement needs is there: what its expressions need, and types that can
be printed for what it writes. -/
structure CodeEnv.Serves {f : Form} (cx : CodeEnv) (c : Clause f) : Prop where
  exprs : ∀ e ∈ c.exprs, cx.Covers e
  written : ∀ e ∈ c.written, e.ty = .int ∨ e.ty = .string

theorem Ty.print_requires (t : Ty) : Requires (t = .int ∨ t = .string) t.print := by
  unfold print
  split
  · exact .pure (.inl rfl) _
  · exact .pure (.inr rfl) _
  · exact .missing _

theorem Clause.code_requires {f : Form} (cx : CodeEnv) (c : Clause f) :
    Requires (cx.Serves c) (c.code cx) := by
  induction c with
  | absent | nil => exact .pure ⟨by simp [exprs], by simp [written]⟩ _
  | eval line e =>
      cases e with
      | none => exact .pure ⟨by simp [exprs], by simp [written]⟩ _
      | some e =>
          apply (e.code_requires cx .value).mono
          intro he
          exact ⟨List.forall_mem_singleton.mpr he, by simp [written]⟩
  | ret line e =>
      cases e with
      | none => exact .pure ⟨by simp [exprs], by simp [written]⟩ _
      | some e =>
          apply (e.code_requires cx .value).bind
          intro he _ _ _ _
          exact .pure ⟨List.forall_mem_singleton.mpr he, by simp [written]⟩ _
  | write line e =>
      cases e with
      | none => exact .pure ⟨by simp [exprs], by simp [written]⟩ _
      | some e =>
          apply e.ty.print_requires.bind
          intro hty _ _ _ _
          apply (e.code_requires cx .value).bind
          intro he _ _ _ _
          exact .pure ⟨List.forall_mem_singleton.mpr he, List.forall_mem_singleton.mpr hty⟩ _
  | braces line s ih | present s ih => exact ih.mono fun h => ⟨h.exprs, h.written⟩
  | block line ids stmts size span ih =>
      exact ih.bind fun h _ _ _ _ => .pure ⟨h.exprs, h.written⟩ _
  | ifElse line e s t ihs iht =>
      apply Emit.OnlyOverflows.jumpLabel.requires.bind
      intro _ start _ _ _
      apply Emit.OnlyOverflows.jumpLabel.requires.bind
      intro _ other _ _ _
      apply Emit.OnlyOverflows.jumpLabel.requires.bind
      intro _ stop _ _ _
      apply (e.code_requires cx .value).bind
      intro he _ _ _ _
      apply ihs.bind
      intro hs _ _ _ _
      apply iht.bind
      intro ht _ _ _ _
      exact .pure ⟨List.forall_mem_cons.mpr ⟨he, List.forall_mem_append.mpr ⟨hs.exprs, ht.exprs⟩⟩,
        List.forall_mem_append.mpr ⟨hs.written, ht.written⟩⟩ _
  | loop line e s ih =>
      apply Emit.OnlyOverflows.jumpLabel.requires.bind
      intro _ start _ _ _
      apply Emit.OnlyOverflows.jumpLabel.requires.bind
      intro _ stop _ _ _
      apply (e.code_requires cx .value).bind
      intro he _ _ _ _
      apply ih.bind
      intro hs _ _ _ _
      exact .pure ⟨List.forall_mem_cons.mpr ⟨he, hs.exprs⟩, hs.written⟩ _
  | cons s t ihs iht =>
      apply ihs.bind
      intro hs _ _ _ _
      apply iht.bind
      intro ht _ _ _ _
      exact .pure ⟨List.forall_mem_append.mpr ⟨hs.exprs, ht.exprs⟩,
        List.forall_mem_append.mpr ⟨hs.written, ht.written⟩⟩ _

theorem Func.codeAll_requires (cx : CodeEnv) (fs : List Func) :
    Requires (∀ f ∈ fs, (∃ d, cx.decls[f.decl]? = some d) ∧ cx.Serves f.body) (codeAll cx fs) := by
  induction fs with
  | nil => exact .pure (by simp) _
  | cons f rest ih =>
      have hf : Requires ((∃ d, cx.decls[f.decl]? = some d) ∧ cx.Serves f.body) (f.code cx) := by
        apply (Requires.declared cx.decls f.decl).bind
        intro hd d _ _ _
        apply (f.body.code_requires cx).bind
        intro hbody _ _ _ _
        exact .pure ⟨hd, hbody⟩ _
      apply hf.bind
      intro hf _ _ _ _
      apply ih.bind
      intro hrest _ _ _ _
      apply Requires.pure
      rw [List.forall_mem_cons]
      exact ⟨hf, hrest⟩

/-! ## Programs -/

namespace Program

/-- A program that was annotated as far as the generator asks. The function of every item is
declared. In every body, each name is bound to a declaration, each one that is not called to
a declaration with a slot; what is written is an integer or a string; and the operands of `&`
are variables or array elements, in any number of parentheses. -/
structure Annotated (p : Program) : Prop where
  functions : ∀ f, .func f ∈ p.items → ∃ d, p.decls[f.decl]? = some d
  bound : ∀ f, .func f ∈ p.items → ∀ e ∈ f.body.exprs, ∀ x ∈ e.uses ++ e.callees,
    ∃ id d, x.decl = some id ∧ p.decls[id]? = some d
  placed : ∀ f, .func f ∈ p.items → ∀ e ∈ f.body.exprs, ∀ x ∈ e.uses, ∀ id d,
    x.decl = some id → p.decls[id]? = some d → d.slot.isSome
  written : ∀ f, .func f ∈ p.items → ∀ e ∈ f.body.written, e.ty = .int ∨ e.ty = .string
  addressed : ∀ f, .func f ∈ p.items → ∀ e ∈ f.body.exprs, ∀ x ∈ e.addressed, x.Addressable

variable {p : Program} {pool : Pool}

/-- With labels for its literals, an annotated program has all that its code needs. -/
theorem Annotated.serves (h : p.Annotated)
    (hpool : ∀ text ∈ p.literals, (pool.lookup text).isSome) {f : Func} (hf : .func f ∈ p.items) :
    CodeEnv.Serves { decls := p.decls, pool } f.body := by
  refine ⟨?_, h.written f hf⟩
  intro e he
  refine ⟨?_, ?_, ?_, ?_⟩
  · intro x hx
    obtain ⟨id, d, hid, hd⟩ := h.bound f hf e he x (List.mem_append_left _ hx)
    exact ⟨id, d, hid, hd, h.placed f hf e he x hx id d hid hd⟩
  · intro x hx
    exact h.bound f hf e he x (List.mem_append_right _ hx)
  · intro x hx
    exact Node.isSome_place_iff.mpr (h.addressed f hf e he x hx)
  · intro text htext
    apply hpool
    exact List.mem_flatMap.mpr
      ⟨f, mem_functions_iff.mpr hf, Clause.literals_of_mem_exprs he htext⟩

theorem annotated_of_serves
    (h : ∀ f ∈ p.functions, (∃ d, p.decls[f.decl]? = some d) ∧
      CodeEnv.Serves { decls := p.decls, pool } f.body) : p.Annotated := by
  have hserves : ∀ f, .func f ∈ p.items → CodeEnv.Serves { decls := p.decls, pool } f.body :=
    fun f hf => (h f (mem_functions_iff.mpr hf)).2
  refine ⟨?_, ?_, ?_, ?_, ?_⟩
  · intro f hf
    exact (h f (mem_functions_iff.mpr hf)).1
  · intro f hf e he x hx
    rcases List.mem_append.mp hx with hx | hx
    · obtain ⟨id, d, hid, hd, -⟩ := ((hserves f hf).exprs e he).uses x hx
      exact ⟨id, d, hid, hd⟩
    · exact ((hserves f hf).exprs e he).callees x hx
  · intro f hf e he x hx id d hid hd
    obtain ⟨id', d', hid', hd', hslot⟩ := ((hserves f hf).exprs e he).uses x hx
    obtain rfl : id' = id := Option.some.inj (hid'.symm.trans hid)
    obtain rfl : d' = d := Option.some.inj (hd'.symm.trans hd)
    exact hslot
  · intro f hf
    exact (hserves f hf).written
  · intro f hf e he x hx
    exact Node.isSome_place_iff.mp (((hserves f hf).exprs e he).addressed x hx)

theorem text_of_hasMain (hmain : p.hasMain = true) : Requires p.Annotated (p.text pool) := by
  rw [text, if_pos hmain]
  apply (Func.codeAll_requires _ _).bind
  intro hserves _ _ _ _
  exact .pure (annotated_of_serves hserves) _

theorem Annotated.text_onlyOverflows (h : p.Annotated) (hmain : p.hasMain = true)
    (hpool : ∀ text ∈ p.literals, (pool.lookup text).isSome) :
    Emit.OnlyOverflows (p.text pool) := by
  rw [text, if_pos hmain]
  have hcodes : Emit.OnlyOverflows (Func.codeAll { decls := p.decls, pool } p.functions) := by
    apply Func.codeAll_onlyOverflows
    · intro f hf
      exact h.functions f (mem_functions_iff.mp hf)
    · intro f hf
      have hserves := h.serves hpool (mem_functions_iff.mp hf)
      exact Clause.code_onlyOverflows hserves.exprs hserves.written
  exact hcodes.bind fun _ _ _ _ => .pure _

/-- The generator accepts exactly the annotated programs. With the labels that the data
section gave to the literals, and with any label counter, overflows apart: a program is
refused for want of a function `main` exactly when it has none. Otherwise its code comes out
exactly when it is annotated, and something is reported missing when it is not. -/
theorem generator_accepts_exactly_annotated {p : Program} {n₀ n₁ : Nat} {data : Code} {pool : Pool}
    (hdata : p.data n₀ = .ok (data, pool) n₁) (n : Nat)
    (hfits : ∀ o n', p.text pool n ≠ .error (.overflow o) n') :
    ((∃ n', p.text pool n = .error (.error .noMain) n') ↔ ¬ p.DeclaresMain) ∧
    (p.DeclaresMain →
      ((∃ code n', p.text pool n = .ok code n') ↔ p.Annotated) ∧
      (¬ p.Annotated → ∃ what n', p.text pool n = .error (.error (.unresolved what)) n')) := by
  rw [← hasMain_iff]
  by_cases hmain : p.hasMain = true
  · have hrequires : Requires p.Annotated (p.text pool) := text_of_hasMain hmain
    cases htext : p.text pool n with
    | ok code n' =>
        have hannotated := hrequires.holds n code n' htext
        simp [hmain, hannotated]
    | error stop n' =>
        rcases hrequires.reports n stop n' htext with ⟨o, rfl⟩ | ⟨what, rfl⟩
        · exact absurd htext (hfits o n')
        · have hlacks : ¬ p.Annotated := by
            intro h
            have honly := h.text_onlyOverflows hmain fun _ => lookup_isSome_of_data hdata
            obtain ⟨o, ho⟩ := honly n _ n' htext
            cases ho
          simp [hmain, hlacks]
  · have htext : p.text pool n = .error (.error .noMain) n := by
      rw [text, if_neg hmain]
      rfl
    simp [hmain, htext]

end Program

namespace Countdown

/-- The label of the program's one literal. -/
def labels : Pool := [("off", Label.literal 3)]

/-- With a layout the program is accepted, with bindings and types alone it is not. -/
theorem accepted_when_laid_out :
    (∃ code n', laidOut.text labels 40 = .ok code n') ∧ laidOut.Annotated ∧
      ¬ resolved.Annotated ∧
      ∃ what n', resolved.text labels 40 = .error (.error (.unresolved what)) n' := by
  have haccepted : ∃ code n', laidOut.text labels 40 = .ok code n' := ⟨_, _, rfl⟩
  have hrefused : resolved.text labels 40 = .error (.error (.unresolved (.name "n"))) 40 := by rfl
  have hfits : ∀ o n', laidOut.text labels 40 ≠ .error (.overflow o) n' := by
    intro o n' h
    obtain ⟨code, k, hcode⟩ := haccepted
    cases h.symm.trans hcode
  have hfits' : ∀ o n', resolved.text labels 40 ≠ .error (.overflow o) n' := by
    intro o n' h
    cases h.symm.trans hrefused
  have hgenerator := Program.generator_accepts_exactly_annotated
    (show laidOut.data 3 = .ok (_, labels) 4 from rfl) 40 hfits
  have hgenerator' := Program.generator_accepts_exactly_annotated
    (show resolved.data 3 = .ok (_, labels) 4 from rfl) 40 hfits'
  obtain ⟨hiff, -⟩ := hgenerator.2 (Program.hasMain_iff.mp (by decide))
  obtain ⟨hiff', hmissing⟩ := hgenerator'.2 (Program.hasMain_iff.mp (by decide))
  have hbare : ¬ resolved.Annotated := by
    rw [← hiff', hrefused]
    simp
  exact ⟨haccepted, hiff.mp haccepted, hbare, hmissing hbare⟩

end Countdown

end Backend
