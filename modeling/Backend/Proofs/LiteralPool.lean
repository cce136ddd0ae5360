import Backend.Proofs.References
import Backend.Proofs.SourceOrder
import Mathlib.Data.List.Perm.Basic

/-! # The pool of literals

The data section defines every text once, in the order of first occurrence, under consecutive
numbers. In the text section, labels of literals stand nowhere but where a literal is loaded.
To say so, code is compared with its template, in which these loads are left open: the template
depends on the program alone, and every pool puts its own labels in.
-/

namespace Backend

/-! ## Lines of the data section -/

/-- The label and the text of a line that defines a literal. -/
def Line.literal? : Line → Option (String × String)
  | .string name contents =>
      if name.toList.take 2 = ['.', 'S'] then some (name, contents) else none
  | _ => none

/-- The literals that code defines, in order. -/
def Code.literals (code : Code) : List (String × String) := code.filterMap Line.literal?

theorem Code.literals_append (a b : Code) : literals (a ++ b) = literals a ++ literals b :=
  List.filterMap_append

/-- Texts with their labels, numbered from the given number on. -/
def numberedLiterals (texts : List String) (n : Nat) : List (String × String) :=
  (texts.zipIdx n).map fun entry => (Label.literal entry.2, entry.1)

theorem literals_globalStorage {decls : List Decl} {items : List Item} {n n' : Nat} {code : Code}
    (h : globalStorage decls items n = .ok code n') : code.literals = [] := by
  induction items generalizing n n' code with
  | nil =>
      obtain ⟨rfl, -⟩ := Emit.pure_eq_ok_iff.mp h
      rfl
  | cons item rest ih =>
      cases item with
      | func _ => exact ih h
      | var id =>
          simp only [globalStorage, Emit.bind_eq_ok_iff, Emit.pure_eq_ok_iff] at h
          obtain ⟨d, _, -, size, _, -, others, _, hothers, rfl, -⟩ := h
          simpa [Code.literals, Line.literal?] using ih hothers

namespace Pool

variable {texts : List String} {pool : Pool} {n n' : Nat}

theorem assign_eq_ok (h : assign texts n = .ok pool n') :
    pool = (texts.zipIdx n).map fun entry => (entry.1, Label.literal entry.2) := by
  induction texts generalizing pool n with
  | nil => exact (Emit.pure_eq_ok_iff.mp h).1.symm
  | cons text rest ih =>
      simp only [assign, Emit.bind_eq_ok_iff, Emit.pure_eq_ok_iff,
        Emit.literalLabel_eq_ok_iff] at h
      obtain ⟨_, _, ⟨-, rfl, rfl⟩, others, _, hothers, rfl, rfl⟩ := h
      have hrest := ih hothers
      rw [hrest, List.zipIdx_cons, List.map_cons]

theorem literals_code (h : assign texts n = .ok pool n') :
    pool.code.literals = numberedLiterals texts n := by
  have hline : (fun entry : String × Nat =>
      Line.literal? (.string (Label.literal entry.2) entry.1)) =
        some ∘ fun entry => (Label.literal entry.2, entry.1) := by
    funext entry
    simp [Line.literal?, Label.take_toList_literal]
  rw [assign_eq_ok h, code, Code.literals, numberedLiterals, List.map_map, List.filterMap_map,
    ← List.filterMap_eq_map, ← hline]
  rfl

/-- A text has the label of the line that defines it. -/
theorem mem_literals_of_lookup (h : assign texts n = .ok pool n') {text label : String}
    (hlookup : pool.lookup text = some label) : (label, text) ∈ pool.code.literals := by
  rw [literals_code h, numberedLiterals, List.mem_map]
  obtain ⟨first, rest, hpool, -⟩ := List.lookup_eq_some_iff.mp hlookup
  have hmem : (text, label) ∈ pool := by simp [hpool]
  rw [assign_eq_ok h, List.mem_map] at hmem
  obtain ⟨entry, hentry, heq⟩ := hmem
  cases heq
  exact ⟨entry, hentry, rfl⟩

/-- The label of a text, for texts that have one. -/
def labelOf (pool : Pool) (text : String) : String := (pool.lookup text).getD ""

end Pool

/-! ## Templates -/

/-- Code in which the loads of literals are left open: such a load is the text of the
literal. -/
abbrev Template := List (Line ⊕ String)

namespace Template

/-- Code that loads no literal. -/
def lines (code : Code) : Template := code.map .inl

/-- The texts to be loaded, in order. -/
def texts (template : Template) : List String := template.filterMap Sum.getRight?

/-- The code with labels put in. -/
def fill (template : Template) (label : String → String) : Code :=
  template.map (Sum.elim id fun text => .inst (.leaq (.rip (label text)) .rax))

section Append

variable (label : String → String) (a b : Template) (code : Code)

@[simp]
theorem fill_append : fill (a ++ b) label = fill a label ++ fill b label := List.map_append

@[simp]
theorem fill_lines : fill (lines code) label = code := by
  simp [fill, lines]

@[simp]
theorem texts_append : texts (a ++ b) = texts a ++ texts b := List.filterMap_append

@[simp]
theorem texts_lines : texts (lines code) = [] := by
  simp [texts, lines, List.filterMap_map]

end Append

theorem texts_map_inr (texts : List String) : Template.texts (texts.map .inr) = texts := by
  simp [Template.texts, List.filterMap_map, Function.comp_def]

theorem fill_congr {template : Template} {label label' : String → String}
    (h : ∀ text ∈ template.texts, label text = label' text) :
    template.fill label = template.fill label' := by
  apply List.map_congr_left
  intro entry hentry
  cases entry with
  | inl line => rfl
  | inr text =>
      have htext : text ∈ template.texts := List.mem_filterMap.mpr ⟨_, hentry, rfl⟩
      rw [Sum.elim_inr, Sum.elim_inr, h text htext]

end Template

/-- Code depends on the pool by the labels of the given texts only, and loads them in the given
order. -/
def Fills (texts : List String) (x : Pool → Emit Code) : Prop :=
  ∀ n, ∃ (template : Template) (k : Nat), template.texts = texts ∧
    ∀ pool c n', x pool n = .ok c n' → c = template.fill pool.labelOf ∧ n' = k

namespace Fills

variable {α : Type} {texts own : List String}

theorem pure (template : Template) {c : Pool → Code} (htexts : template.texts = texts)
    (hc : ∀ pool, c pool = template.fill pool.labelOf) :
    Fills texts fun pool => Pure.pure (c pool) := by
  intro n
  refine ⟨template, n, htexts, ?_⟩
  intro pool c' n' h
  obtain ⟨rfl, rfl⟩ := Emit.pure_eq_ok_iff.mp h
  exact ⟨hc pool, rfl⟩

theorem missing (what : Missing) : Fills texts fun _ => Emit.missing what := by
  intro n
  refine ⟨texts.map .inr, n, Template.texts_map_inr texts, ?_⟩
  intro pool c n' h
  exact absurd h Emit.missing_ne_ok

/-- A computation that does not use the pool may come first. -/
theorem before {z : Pool → Emit α} {f : α → Pool → Emit Code} (hz : ∀ pool, z pool = z [])
    (hf : ∀ a, Fills texts (f a)) : Fills texts fun pool => z pool >>= fun a => f a pool := by
  intro n
  cases hstart : z [] n with
  | error stop k =>
      -- No code is generated, so any template with these texts will do.
      refine ⟨texts.map .inr, n, Template.texts_map_inr texts, ?_⟩
      intro pool c n' h
      obtain ⟨a, m, ha, -⟩ := Emit.bind_eq_ok_iff.mp h
      rw [hz, hstart] at ha
      cases ha
  | ok a k =>
      obtain ⟨template, k', htexts, htemplate⟩ := hf a k
      refine ⟨template, k', htexts, ?_⟩
      intro pool c n' h
      obtain ⟨b, m, hb, hrest⟩ := Emit.bind_eq_ok_iff.mp h
      rw [hz, hstart] at hb
      cases hb
      exact htemplate pool c n' hrest

theorem bind {x : Pool → Emit Code} {f : Code → Pool → Emit Code} (hx : Fills own x)
    (hf : ∀ template : Template, template.texts = own →
      Fills texts fun pool => f (template.fill pool.labelOf) pool) :
    Fills texts fun pool => x pool >>= fun c => f c pool := by
  intro n
  obtain ⟨first, k, hfirst, hx⟩ := hx n
  obtain ⟨template, k', htexts, htemplate⟩ := hf first hfirst k
  refine ⟨template, k', htexts, ?_⟩
  intro pool c n' h
  obtain ⟨a, m, ha, hrest⟩ := Emit.bind_eq_ok_iff.mp h
  obtain ⟨rfl, rfl⟩ := hx pool a m ha
  exact htemplate pool c n' hrest

end Fills

/-! ## The order of evaluation -/

/-- The texts of the literals in a node in the order in which they are loaded. -/
def Node.loaded {l : Layer} : Node l → List String
  | .assign _ t v => v.loaded ++ t.loaded
  | .comp _ x => x.loaded
  | .setElem _ _ i => i.loaded
  | .sum _ x => x.loaded
  | .rel _ a _ b => b.loaded ++ a.loaded
  | .term _ x => x.loaded
  | .add _ a _ b => b.loaded ++ a.loaded
  | .unary _ x => x.loaded
  | .mul _ a _ b => b.loaded ++ a.loaded
  | .neg _ x => x.loaded
  | .addrOf _ x => x.loaded
  | .deref _ x => x.loaded
  | .factor _ x => x.loaded
  | .paren _ x => x.loaded
  | .elem _ _ i => i.loaded
  | .call _ _ as => as.loaded
  | .str _ text => [text]
  | .cons e es => es.loaded ++ e.loaded
  | .setVar .. | .setDeref .. | .var .. | .num .. | .read .. | .nil => []

def Clause.loaded {f : Form} : Clause f → List String
  | .eval _ e => e.elim [] Node.loaded
  | .braces _ b => b.loaded
  | .ifElse _ c t e => c.loaded ++ t.loaded ++ e.loaded
  | .loop _ c s => c.loaded ++ s.loaded
  | .ret _ e => e.elim [] Node.loaded
  | .write _ e => e.elim [] Node.loaded
  | .absent => []
  | .present s => s.loaded
  | .nil => []
  | .cons s rest => s.loaded ++ rest.loaded
  | .block _ _ stmts _ _ => stmts.loaded

def Program.loaded (p : Program) : List String :=
  p.functions.flatMap fun f => f.body.loaded

theorem Node.loaded_perm {l : Layer} (x : Node l) : x.loaded.Perm x.literals := by
  induction x with
  | setVar | setDeref | var | num | str | read | nil => exact .refl _
  | comp m x ih | sum m x ih | term m x ih | unary m x ih | neg m x ih | addrOf m x ih
  | deref m x ih | factor m x ih | paren m x ih | setElem m y x ih | elem m y x ih
  | call m y x ih => exact ih
  | assign m a b iha ihb | rel m a op b iha ihb | add m a op b iha ihb | mul m a op b iha ihb
  | cons a b iha ihb => exact (ihb.append iha).trans List.perm_append_comm

theorem Clause.loaded_perm {f : Form} (c : Clause f) : c.loaded.Perm c.literals := by
  induction c with
  | absent | nil => exact .refl _
  | eval line e | ret line e | write line e =>
      cases e with
      | none => exact .refl _
      | some e => exact e.loaded_perm
  | braces line s ih | present s ih | block line ids s size span ih => exact ih
  | cons s t ihs iht => exact ihs.append iht
  | loop line e s ih => exact e.loaded_perm.append ih
  | ifElse line e s t ihs iht => exact (e.loaded_perm.append ihs).append iht

theorem Program.loaded_perm (p : Program) : p.loaded.Perm p.literals :=
  List.Perm.flatMap_left _ fun f _ => f.body.loaded_perm

/-! ## Templates of code -/

section Templates

variable {decls : List Decl}

theorem Pool.fills_label (text : String) :
    Fills [text] fun pool =>
      pool.label text >>= fun label => pure [.inst (.leaq (.rip label) .rax)] := by
  intro n
  refine ⟨[.inr text], n, rfl, ?_⟩
  intro pool c n' h
  simp only [Emit.bind_eq_ok_iff, Emit.pure_eq_ok_iff] at h
  obtain ⟨label, _, hlabel, rfl, rfl⟩ := h
  have hcounter := pool.still_label text _ _ _ hlabel
  refine ⟨?_, hcounter.symm⟩
  simp [Template.fill, Pool.labelOf, Pool.label_eq_ok hlabel]

theorem CodeEnv.fills_element {texts : List String} (x : Ident) {index : Pool → Emit Code}
    (hindex : Fills texts index) :
    Fills texts fun pool => CodeEnv.element { decls, pool } x (index pool) := by
  apply Fills.before (fun _ => rfl)
  intro d
  apply Fills.before (fun _ => rfl)
  intro base
  apply hindex.bind
  intro own hown
  apply Fills.pure (.lines [.inst base, .inst Snippet.pushValue] ++ own ++ .lines Snippet.index)
  · simp [hown]
  · simp

/-- Two operands and what is done with them. The right one is computed first. -/
theorem Fills.operands {left right : List String} {x y : Pool → Emit Code}
    (hx : Fills left x) (hy : Fills right y) (last : Code) :
    Fills (right ++ left) fun pool => do
      let right ← y pool
      let left ← x pool
      return right ++ [.inst Snippet.pushValue] ++ left ++ last := by
  apply hy.bind
  intro b hb
  apply hx.bind
  intro a ha
  apply Fills.pure (b ++ .lines [.inst Snippet.pushValue] ++ a ++ .lines last)
  · simp [ha, hb]
  · simp

/-- Code with lines behind it. -/
theorem Fills.andThen {texts : List String} {x : Pool → Emit Code} (hx : Fills texts x)
    (last : Code) : Fills texts fun pool => x pool >>= fun c => Pure.pure (c ++ last) := by
  apply hx.bind
  intro a ha
  apply Fills.pure (a ++ .lines last)
  · simp [ha]
  · simp

theorem Node.fills_code {l : Layer} (x : Node l) (access : Access) :
    Fills x.loaded fun pool => x.code { decls, pool } access := by
  induction x generalizing access with
  | comp m x ih | sum m x ih | term m x ih | unary m x ih | factor m x ih | paren m x ih =>
      exact ih access
  | assign m t v iht ihv =>
      apply (ihv .value).bind
      intro value hvalue
      apply (iht .value).bind
      intro store hstore
      apply Fills.pure (value ++ store)
      · simp [loaded, hvalue, hstore]
      · simp
  | setVar m x =>
      apply Fills.before (fun _ => rfl)
      intro d
      apply Fills.before (fun _ => rfl)
      intro cell
      exact .pure (.lines [.inst (.movq .rax cell)]) (by simp [loaded]) (by simp)
  | setDeref m x =>
      apply Fills.before (fun _ => rfl)
      intro d
      apply Fills.before (fun _ => rfl)
      intro cell
      exact .pure (.lines [.inst Snippet.pushValue, .inst (.movq cell .rsi), .inst (.popq .rax),
        .inst Snippet.storeAtRsi]) (by simp [loaded]) (by simp)
  | setElem m x index ih =>
      apply (CodeEnv.fills_element x (ih .value)).bind
      intro element helement
      apply Fills.pure (.lines [.inst Snippet.pushValue] ++ element ++
        .lines [.inst (.popq .rax), .inst Snippet.storeAtRsi])
      · simp [loaded, helement]
      · simp
  | rel m a op b iha ihb =>
      apply Fills.before (fun _ => rfl)
      intro other
      apply Fills.before (fun _ => rfl)
      intro stop
      exact (iha .value).operands (ihb .value) (Snippet.compare op.cond other stop)
  | add m a op b iha ihb => exact (iha .value).operands (ihb .value) (Snippet.combine op)
  | mul m a op b iha ihb => exact (iha .value).operands (ihb .value) (Snippet.scale op)
  | neg m x ih => exact (ih .value).andThen [.inst (.negl .eax)]
  | deref m x ih => exact (ih .value).andThen [.inst (.movq (.mem 0 .rax) .rax)]
  | addrOf m x ih =>
      simp only [code]
      split
      · exact .missing .place
      · exact ih .address
  | var m x =>
      apply Fills.before (fun _ => rfl)
      intro d
      apply Fills.before (fun _ => rfl)
      intro load
      exact .pure (.lines [.inst load]) (by simp [loaded]) (by simp)
  | elem m x index ih => exact (CodeEnv.fills_element x (ih .value)).andThen _
  | call m x args ih =>
      apply Fills.before (fun _ => rfl)
      intro d
      apply (ih .value).bind
      intro pushes hpushes
      apply Fills.before (fun _ => rfl)
      intro size
      apply Fills.pure (pushes ++ .lines (Snippet.call d.name) ++
        .lines (if args.count = 0 then [] else [.inst (.addq (.imm size) .rsp)]))
      · simp [loaded, hpushes]
      · simp
  | num m n => exact .pure (.lines [.inst (.movq (.imm n) .rax)]) rfl (by simp)
  | str m text => exact Pool.fills_label text
  | read m => exact .pure (.lines Snippet.readInt) rfl (by simp)
  | nil => exact .pure [] rfl fun _ => rfl
  | cons arg rest iharg ihrest =>
      apply (ihrest .value).bind
      intro others hothers
      apply (iharg .value).bind
      intro first hfirst
      apply Fills.pure (others ++ first ++ .lines [.inst Snippet.pushValue])
      · simp [loaded, hothers, hfirst]
      · simp

theorem Clause.fills_code {f : Form} (c : Clause f) :
    Fills c.loaded fun pool => c.code { decls, pool } := by
  induction c with
  | absent | nil => exact .pure [] rfl fun _ => rfl
  | present s ih | braces line s ih => exact ih
  | eval line e =>
      cases e with
      | none => exact .pure [] rfl fun _ => rfl
      | some e => exact e.fills_code .value
  | ret line e =>
      cases e with
      | none => exact .pure (.lines Snippet.epilogue) rfl (by simp)
      | some e => exact (e.fills_code .value).andThen Snippet.epilogue
  | write line e =>
      cases e with
      | none => exact .pure (.lines (Snippet.print FormatString.newline)) rfl (by simp)
      | some e =>
          apply Fills.before (fun _ => rfl)
          intro print
          exact (e.fills_code .value).andThen print
  | ifElse line e s t ihs iht =>
      apply Fills.before (fun _ => rfl)
      intro start
      apply Fills.before (fun _ => rfl)
      intro other
      apply Fills.before (fun _ => rfl)
      intro stop
      apply (e.fills_code .value).bind
      intro condition hcondition
      apply ihs.bind
      intro first hfirst
      apply iht.bind
      intro second hsecond
      apply Fills.pure (.lines [.label start] ++ condition ++
        .lines (Snippet.jumpIfZero other) ++ first ++
        .lines [.inst (.jmp stop), .label other] ++ second ++ .lines [.label stop])
      · simp [loaded, hcondition, hfirst, hsecond]
      · simp
  | loop line e s ih =>
      apply Fills.before (fun _ => rfl)
      intro start
      apply Fills.before (fun _ => rfl)
      intro stop
      apply (e.fills_code .value).bind
      intro condition hcondition
      apply ih.bind
      intro body hbody
      apply Fills.pure (.lines [.label start] ++ condition ++
        .lines (Snippet.jumpIfZero stop) ++ body ++ .lines [.inst (.jmp start), .label stop])
      · simp [loaded, hcondition, hbody]
      · simp
  | cons s t ihs iht =>
      apply ihs.bind
      intro first hfirst
      apply iht.bind
      intro others hothers
      apply Fills.pure (first ++ others)
      · simp [loaded, hfirst, hothers]
      · simp
  | block line ids s size span ih =>
      apply ih.bind
      intro body hbody
      -- Without cells to reserve there is nothing around the body.
      by_cases hspan : span = 0
      · exact .pure body hbody (by simp [Snippet.reserving, hspan])
      · apply Fills.pure (.lines [.inst (.subq (.imm (Word.toSigned span)) .rsp)] ++ body ++
          .lines [.inst (.addq (.imm (Word.toSigned span)) .rsp)])
        · simp [loaded, hbody]
        · simp [Snippet.reserving, hspan]

theorem Func.fills_code (f : Func) :
    Fills f.body.loaded fun pool => f.code { decls, pool } := by
  apply Fills.before (fun _ => rfl)
  intro d
  apply f.body.fills_code.bind
  intro body hbody
  apply Fills.pure (.lines [.label d.name, .inst (.movq .rsp (.reg .rbx))] ++
    .lines (if f.frameSize = 0 then []
      else [.inst (.subq (.imm (Word.toSigned f.frameSize)) .rsp)]) ++
    body ++ .lines Snippet.epilogue)
  · simp [hbody]
  · simp

theorem Func.fills_codeAll (fs : List Func) :
    Fills (fs.flatMap fun f => f.body.loaded) fun pool => codeAll { decls, pool } fs := by
  induction fs with
  | nil => exact .pure [] rfl fun _ => rfl
  | cons f rest ih =>
      apply f.fills_code.bind
      intro first hfirst
      apply ih.bind
      intro others hothers
      apply Fills.pure (first ++ others)
      · simp [hfirst, hothers]
      · simp

end Templates

namespace Program

theorem fills_text (p : Program) : Fills p.loaded p.text := by
  intro n
  obtain ⟨functions, k, htexts, hfunctions⟩ := Func.fills_codeAll p.functions n
  refine ⟨.lines [.text, .global "main"] ++ functions ++
    .lines [.segment ".note.GNU-stack,\"\",@progbits"], k, ?_, ?_⟩
  · simp [htexts, loaded]
  · intro pool c n' h
    obtain ⟨code, hcode, rfl⟩ := text_eq_ok h
    obtain ⟨rfl, rfl⟩ := hfunctions pool code n' hcode
    simp

/-- What stays of the text section when the loads of literals are left open. Every pool that
knows the literals of the program fills the same template. -/
def HasTemplate (p : Program) (n : Nat) (template : Template) : Prop :=
  template.texts = p.loaded ∧ ∀ (pool : Pool) (label : String → String) (code : Code) (n' : Nat),
    (∀ text ∈ p.literals, pool.lookup text = some (label text)) →
      p.text pool n = .ok code n' → code = template.fill label

theorem exists_hasTemplate (p : Program) (n : Nat) : ∃ template, p.HasTemplate n template := by
  obtain ⟨template, k, htexts, htemplate⟩ := p.fills_text n
  refine ⟨template, htexts, ?_⟩
  intro pool label code n' hlabel htext
  rw [(htemplate pool code n' htext).1]
  apply Template.fill_congr
  intro text hmem
  rw [htexts, p.loaded_perm.mem_iff] at hmem
  rw [Pool.labelOf, hlabel text hmem, Option.getD_some]

section Data

variable {p : Program} {n n' : Nat} {data : Code} {pool : Pool}
  (h : p.data n = .ok (data, pool) n')
include h

theorem literals_data : data.literals = numberedLiterals p.literals.eraseDups n := by
  obtain ⟨storage, hstorage, hpool, rfl⟩ := data_eq_ok h
  have hformats : Code.literals FormatString.code = [] := by decide
  rw [Code.literals_append, Code.literals_append, hformats, literals_globalStorage hstorage,
    Pool.literals_code hpool]
  rfl

theorem mem_literals_data {text : String} (htext : text ∈ p.literals) :
    ∃ label, pool.lookup text = some label ∧ (label, text) ∈ data.literals := by
  obtain ⟨label, hlabel⟩ := Option.isSome_iff_exists.mp (lookup_isSome_of_data h htext)
  obtain ⟨storage, -, hpool, rfl⟩ := data_eq_ok h
  refine ⟨label, hlabel, ?_⟩
  rw [Code.literals_append]
  exact List.mem_append_right _ (Pool.mem_literals_of_lookup hpool hlabel)

end Data

/-- Literals are pooled exactly. The data section defines one literal for each text that occurs
in a function, in the order of first occurrence, under consecutive numbers. Code that is
generated with this pool loads the literals of the program in the order of evaluation, each
under the label that is defined with its text, and depends on the pool in no other way. -/
theorem literals_pooled_by_first_occurrence {p : Program} {n n' : Nat} {data : Code} {pool : Pool}
    (h : p.data n = .ok (data, pool) n') :
    (∃ texts, data.literals = numberedLiterals texts n ∧ texts.Nodup ∧
      (∀ text, text ∈ texts ↔ ∃ position, (Fragment.program p).LiteralAt position text) ∧
      texts.Pairwise (Fragment.program p).OccursBefore) ∧
    p.loaded.Perm p.literals ∧ (Fragment.program p).Lists p.literals ∧
    ∃ label : String → String, (∀ text ∈ p.loaded, (label text, text) ∈ data.literals) ∧
      ∀ k, ∃ template, p.HasTemplate k template ∧
        ∀ code k', p.text pool k = .ok code k' → code = template.fill label := by
  have hordered := p.lists_literals.pairwise_occursBefore
  refine ⟨⟨p.literals.eraseDups, literals_data h, ?_, ?_, hordered⟩, p.loaded_perm,
    p.lists_literals, ?_⟩
  · exact hordered.imp Fragment.OccursBefore.ne
  · intro text
    rw [List.mem_eraseDups]
    exact p.lists_literals.mem_iff
  · have hlabel {text : String} (htext : text ∈ p.literals) :
        pool.lookup text = some (pool.labelOf text) ∧
          (pool.labelOf text, text) ∈ data.literals := by
      obtain ⟨label, hlookup, hmem⟩ := mem_literals_data h htext
      rw [Pool.labelOf, hlookup, Option.getD_some]
      exact ⟨rfl, hmem⟩
    refine ⟨pool.labelOf, ?_, ?_⟩
    · intro text htext
      exact (hlabel (p.loaded_perm.mem_iff.mp htext)).2
    · intro k
      obtain ⟨template, htemplate⟩ := p.exists_hasTemplate k
      refine ⟨template, htemplate, ?_⟩
      intro code k'
      exact htemplate.2 pool pool.labelOf code k' fun _ htext => (hlabel htext).1

end Program

namespace Shelf

def length : Func where
  decl := 2
  body := .ofStmts [] [.ret (some (.num 1))]

/-- Uses a literal to index an array of strings, and again behind it. -/
def main : Func where
  decl := 3
  body := .ofStmts [] [
    .expr (.setElem "shelf" (.call "length" [.str "index"]) (.str "value")),
    .write (.str "index")]

def program : Program where
  decls := [.array 1 .string "shelf" 2, .param 2 .string "s",
    { line := 2, name := "length", base := .int, kind := .func [1] },
    { line := 3, name := "main", base := .int, kind := .func [] }]
  items := [.var 0, .func length, .func main]

def laidOut : Program := (program.resolve .block).1.layout.toOption.getD {}

def labels : Pool := [("index", ".S7"), ("value", ".S8")]

/-- The index stands before the value, which is computed before it. -/
theorem index_defined_first_loaded_last :
    ∃ (data code : Code) (template : Template) (label : String → String),
      laidOut.data 7 = .ok (data, labels) 9 ∧
      data.literals = [(".S7", "index"), (".S8", "value")] ∧
      (Fragment.program laidOut).OccursBefore "index" "value" ∧
      template.texts = ["value", "index", "index"] ∧
      label "index" = ".S7" ∧ label "value" = ".S8" ∧
      laidOut.text labels 9 = .ok code 9 ∧ code = template.fill label := by
  have hdata : laidOut.data 7 = .ok (_, labels) 9 := rfl
  have htext : laidOut.text labels 9 = .ok _ 9 := rfl
  obtain ⟨⟨texts, hlines, -, -, hordered⟩, -, -, label, hlabel, hcode⟩ :=
    Program.literals_pooled_by_first_occurrence hdata
  obtain ⟨template, ⟨hloaded, -⟩, hfill⟩ := hcode 9
  have htexts : texts = ["index", "value"] := by
    have hnames := congrArg (List.map Prod.snd) hlines
    rw [numberedLiterals, List.map_map] at hnames
    exact (List.zipIdx_map_fst 7 texts).symm.trans hnames.symm
  have hdefined : ∀ text ∈ laidOut.loaded,
      (label text, text) ∈ [(".S7", "index"), (".S8", "value")] := hlabel
  refine ⟨_, _, template, label, hdata, rfl, ?_, hloaded, ?_, ?_, htext, hfill _ _ htext⟩
  · rw [htexts] at hordered
    exact List.rel_of_pairwise_cons hordered (List.mem_singleton_self "value")
  · simpa using hdefined "index" (by decide)
  · simpa using hdefined "value" (by decide)

end Shelf

end Backend
