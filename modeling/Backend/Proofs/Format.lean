import Backend.Proofs.Encoding
import Backend.Proofs.Thinning

/-! # The tree format

A tree is read back from its document. It is also read from a document in which annotations are
missing, and in which records have fields that they do not know: then the annotations that are
missing have their defaults, and all else is as it was written.
-/

namespace Backend

open Doc (Thins Reads Record reads_word reads_signed reads_text reads_constant reads_list
  reads_pair reads_triple)

/-! ## Trees whose numbers are words -/

def Slot.Bounded (s : Slot) : Prop := s.depth < Word.bound ∧ s.position < Word.bound

def DeclKind.Bounded : DeclKind → Prop
  | .array length => length < Word.bound
  | .func params => ∀ id ∈ params, id < Word.bound
  | .var | .pointer | .param | .arrayParam | .pointerParam => True

structure Decl.Bounded (d : Decl) : Prop where
  line : d.line < Word.bound
  kind : d.kind.Bounded
  slot : ∀ s ∈ d.slot, s.Bounded

def Mark.Bounded (m : Mark) : Prop := m.line < Word.bound

def Ident.Bounded (x : Ident) : Prop := ∀ id ∈ x.decl, id < Word.bound

def Node.Bounded {l : Layer} : Node l → Prop
  | .assign m t v => m.Bounded ∧ t.Bounded ∧ v.Bounded
  | .comp m x => m.Bounded ∧ x.Bounded
  | .setVar m x => m.Bounded ∧ x.Bounded
  | .setElem m x i => m.Bounded ∧ x.Bounded ∧ i.Bounded
  | .setDeref m x => m.Bounded ∧ x.Bounded
  | .sum m x => m.Bounded ∧ x.Bounded
  | .rel m a _ b => m.Bounded ∧ a.Bounded ∧ b.Bounded
  | .term m x => m.Bounded ∧ x.Bounded
  | .add m a _ b => m.Bounded ∧ a.Bounded ∧ b.Bounded
  | .unary m x => m.Bounded ∧ x.Bounded
  | .mul m a _ b => m.Bounded ∧ a.Bounded ∧ b.Bounded
  | .neg m x => m.Bounded ∧ x.Bounded
  | .addrOf m x => m.Bounded ∧ x.Bounded
  | .deref m x => m.Bounded ∧ x.Bounded
  | .factor m x => m.Bounded ∧ x.Bounded
  | .paren m x => m.Bounded ∧ x.Bounded
  | .var m x => m.Bounded ∧ x.Bounded
  | .elem m x i => m.Bounded ∧ x.Bounded ∧ i.Bounded
  | .call m x as => m.Bounded ∧ x.Bounded ∧ as.Bounded
  | .num m n => m.Bounded ∧ Signed.InRange n
  | .str m _ => m.Bounded
  | .read m => m.Bounded
  | .nil => True
  | .cons e es => e.Bounded ∧ es.Bounded

def Clause.Bounded {f : Form} : Clause f → Prop
  | .eval line e => line < Word.bound ∧ ∀ x ∈ e, x.Bounded
  | .braces line b => line < Word.bound ∧ b.Bounded
  | .ifElse line c t e => line < Word.bound ∧ c.Bounded ∧ t.Bounded ∧ e.Bounded
  | .loop line c s => line < Word.bound ∧ c.Bounded ∧ s.Bounded
  | .ret line e => line < Word.bound ∧ ∀ x ∈ e, x.Bounded
  | .write line e => line < Word.bound ∧ ∀ x ∈ e, x.Bounded
  | .absent => True
  | .present s => s.Bounded
  | .nil => True
  | .cons s rest => s.Bounded ∧ rest.Bounded
  | .block line locals stmts size span =>
      line < Word.bound ∧ (∀ id ∈ locals, id < Word.bound) ∧ stmts.Bounded ∧
        size < Word.bound ∧ span < Word.bound

def Item.Bounded : Item → Prop
  | .var id => id < Word.bound
  | .func f => f.decl < Word.bound ∧ f.body.Bounded ∧ f.frameSize < Word.bound

/-- Lines, lengths, places and sizes are unsigned words, and integer literals are signed ones. -/
structure Program.Bounded (p : Program) : Prop where
  decls : ∀ d ∈ p.decls, d.Bounded
  items : ∀ item ∈ p.items, item.Bounded

/-! ## Constants and declarations -/

theorem Slot.reads {s : Slot} (h : s.Bounded) : Reads Slot.encode Slot.decode? s := by
  intro d e hthins
  obtain ⟨ys, zs, rfl, rfl, hchanges⟩ := Thins.of_record (r := .slot) hthins rfl
  obtain ⟨depth, hdepth, hdepth'⟩ :=
    hchanges.required "depth" (by simp [Record.fields]) (reads_word h.1) rfl
  obtain ⟨position, hposition, hposition'⟩ :=
    hchanges.required "position" (by simp [Record.fields]) (reads_word h.2) rfl
  refine ⟨{ depth, position }, ?_, by simp [decode?, hdepth', hposition']⟩
  rw [hchanges.eq_filterMap]
  simp only [Record.fields, List.filterMap_cons, List.filterMap_nil, hdepth, hposition]
  rfl

theorem DeclKind.reads {k : DeclKind} (h : k.Bounded) :
    Reads DeclKind.encode DeclKind.decode? k := by
  intro d e hthins
  cases k with
  | array length =>
      obtain ⟨y, z, rfl, rfl, hpart⟩ := hthins.of_tagged (by decide)
      obtain ⟨length, rfl, hlength⟩ := reads_word h _ _ hpart
      exact ⟨.array length, rfl, by simp [decode?, Doc.tagged, hlength]⟩
  | func params =>
      obtain ⟨y, z, rfl, rfl, hpart⟩ := hthins.of_tagged (by decide)
      obtain ⟨params, rfl, hparams⟩ := reads_list (fun id hid => reads_word (h id hid)) _ _ hpart
      exact ⟨.func params, rfl, by simp [decode?, Doc.tagged, hparams]⟩
  | var | pointer | param | arrayParam | pointerParam =>
      obtain ⟨rfl, rfl⟩ := hthins.of_str
      exact ⟨_, rfl, rfl⟩

theorem Decl.reads {d : Decl} (h : d.Bounded) : Reads Decl.encode Decl.decode? d := by
  intro y z hthins
  obtain ⟨ys, zs, rfl, rfl, hchanges⟩ :=
    Thins.of_record (r := .decl) hthins (by cases d.slot <;> rfl)
  obtain ⟨line, hline, hline'⟩ :=
    hchanges.required "line" (by simp [Record.fields]) (reads_word h.line) rfl
  obtain ⟨name, hname, hname'⟩ :=
    hchanges.required "name" (by simp [Record.fields]) (reads_text d.name) rfl
  obtain ⟨base, hbase, hbase'⟩ :=
    hchanges.required "base" (by simp [Record.fields]) (reads_constant d.base.decode?_encode) rfl
  obtain ⟨kind, hkind, hkind'⟩ :=
    hchanges.required "kind" (by simp [Record.fields]) (DeclKind.reads h.kind) rfl
  obtain ⟨slot, hslot, hslot'⟩ :=
    hchanges.optional "slot" (by simp [Record.fields])
      (fun s hs => Slot.reads (h.slot s hs)) rfl (by cases d.slot <;> rfl)
  refine ⟨{ line, name, base, kind, slot }, ?_,
    by simp [decode?, hline', hname', hbase', hkind', hslot']⟩
  rw [hchanges.eq_filterMap]
  simp only [Record.fields, List.filterMap_cons, List.filterMap_nil, hline, hname, hbase, hkind,
    hslot]
  cases slot <;> rfl

/-! ## Expressions -/

theorem Ident.reads {x : Ident} (h : x.Bounded) : Reads Ident.encode Ident.decode? x := by
  intro d e hthins
  obtain ⟨ys, zs, rfl, rfl, hchanges⟩ :=
    Thins.of_record (r := .ident) hthins (by cases x.decl <;> rfl)
  obtain ⟨name, hname, hname'⟩ :=
    hchanges.required "name" (by simp [Record.fields]) (reads_text x.name) rfl
  obtain ⟨decl, hdecl, hdecl'⟩ :=
    hchanges.optional "decl" (by simp [Record.fields]) (fun id hid => reads_word (h id hid)) rfl
      (by cases x.decl <;> rfl)
  refine ⟨{ name, decl }, ?_, by simp [decode?, hname', hdecl']⟩
  rw [hchanges.eq_filterMap]
  simp only [Record.fields, List.filterMap_cons, List.filterMap_nil, hname, hdecl]
  cases decl <;> rfl

namespace Mark

variable {m : Mark} {d e : Doc}

/-- A node is read as its mark, which may have been left out, and its kind. -/
theorem thins_encode (h : m.Bounded) {kind : Doc} (hthins : Thins (m.encode kind) d e) :
    ∃ ys m' kind' kind'', d = .obj ys ∧ e = Mark.encode m' kind'' ∧ decode? d = some m' ∧
      ys.lookup "kind" = some kind' ∧ Thins kind kind' kind'' := by
  obtain ⟨ys, zs, rfl, rfl, hchanges⟩ := Thins.of_record (r := .node) hthins rfl
  obtain ⟨line, hline, hline'⟩ :=
    hchanges.default "line" 0 (by simp [Record.fields, Doc.ofNat]) (reads_word h) rfl
  obtain ⟨ty, hty, hty'⟩ :=
    hchanges.default "ty" .none (by simp [Record.fields, Ty.docName])
      (reads_constant m.ty.decode?_encode) rfl
  obtain ⟨kind', kind'', hkind', hkind'', hpart⟩ :=
    hchanges.part "kind" (by simp [Record.fields]) rfl
  refine ⟨ys, { line, ty }, kind', kind'', rfl, ?_, by simp [decode?, hline', hty'], hkind', hpart⟩
  rw [hchanges.eq_filterMap]
  simp only [Record.fields, List.filterMap_cons, List.filterMap_nil, hline, hty, hkind'']
  rfl

/-- A node that holds something is read as its mark, the alternative and what it holds. -/
theorem thins_tagged (h : m.Bounded) {tag : String} (htag : tag ∉ Record.allNames) {x : Doc}
    (hthins : Thins (m.encode (.tagged tag x)) d e) :
    ∃ m' y z hy, e = Mark.encode m' (.tagged tag z) ∧ variant? d = some (m', tag, ⟨y, hy⟩) ∧
      Thins x y z ∧ d.required? "kind" Doc.text? = none := by
  obtain ⟨ys, m', _, _, rfl, rfl, hm', hkind, hthins'⟩ := thins_encode h hthins
  obtain ⟨y, z, rfl, rfl, hpart⟩ := hthins'.of_tagged htag
  obtain ⟨hsize, hfield⟩ := Doc.exists_field?_obj hkind
  have hy : sizeOf y < sizeOf (Doc.tagged tag y) := Doc.sizeOf_lt_obj (List.mem_singleton.mpr rfl)
  refine ⟨m', y, z, Nat.lt_trans hy hsize, rfl, ?_, hpart, ?_⟩
  · simp only [variant?, hm', hfield]
    rfl
  · rw [Doc.required?_obj, hkind]
    rfl

end Mark

namespace Node

section Holding

variable {l : Layer} {α β γ : Type} {write : α → Doc} {read : Doc → Option α} {write' : β → Doc}
  {read' : Doc → Option β} {write'' : γ → Doc} {read'' : Doc → Option γ} {tag : String}
  (htag : tag ∉ Record.allNames) {m : Mark} (hm : m.Bounded) {a : α} (ha : Reads write read a)
include htag hm ha

/-- An alternative that holds one thing is read if that is read. -/
theorem reads_of_one (make : Mark → α → Node l)
    (hencode : ∀ m a, (make m a).encode = m.encode (.tagged tag (write a)))
    (hdecode : ∀ {d m y hy a}, Mark.variant? d = some (m, tag, ⟨y, hy⟩) →
      d.required? "kind" Doc.text? = none → read y = some a → decode? l d = some (make m a)) :
    Reads encode (decode? l) (make m a) := by
  intro d e hthins
  rw [hencode] at hthins
  obtain ⟨m', y, _, hy, rfl, hvariant, hpart, hkind⟩ := Mark.thins_tagged hm htag hthins
  obtain ⟨a', rfl, ha'⟩ := ha _ _ hpart
  exact ⟨make m' a', hencode m' a', hdecode hvariant hkind ha'⟩

theorem reads_of_two {b : β} (hb : Reads write' read' b) (make : Mark → α → β → Node l)
    (hencode : ∀ m a b, (make m a b).encode = m.encode (.tagged tag (.arr [write a, write' b])))
    (hdecode : ∀ {d m y y' hy a b}, Mark.variant? d = some (m, tag, ⟨.arr [y, y'], hy⟩) →
      d.required? "kind" Doc.text? = none → read y = some a → read' y' = some b →
      decode? l d = some (make m a b)) :
    Reads encode (decode? l) (make m a b) := by
  intro d e hthins
  rw [hencode] at hthins
  obtain ⟨m', _, _, hy, rfl, hvariant, hpart, hkind⟩ := Mark.thins_tagged hm htag hthins
  obtain ⟨_, _, a', b', rfl, rfl, ha', hb'⟩ := reads_pair ha hb hpart
  exact ⟨make m' a' b', hencode m' a' b', hdecode hvariant hkind ha' hb'⟩

theorem reads_of_three {b : β} (hb : Reads write' read' b) {c : γ} (hc : Reads write'' read'' c)
    (make : Mark → α → β → γ → Node l)
    (hencode : ∀ m a b c,
      (make m a b c).encode = m.encode (.tagged tag (.arr [write a, write' b, write'' c])))
    (hdecode : ∀ {d m y y' y'' hy a b c},
      Mark.variant? d = some (m, tag, ⟨.arr [y, y', y''], hy⟩) →
      read y = some a → read' y' = some b → read'' y'' = some c →
      decode? l d = some (make m a b c)) :
    Reads encode (decode? l) (make m a b c) := by
  intro d e hthins
  rw [hencode] at hthins
  obtain ⟨m', _, _, hy, rfl, hvariant, hpart, -⟩ := Mark.thins_tagged hm htag hthins
  obtain ⟨_, _, _, a', b', c', rfl, rfl, ha', hb', hc'⟩ := reads_triple ha hb hc hpart
  exact ⟨make m' a' b' c', hencode m' a' b' c', hdecode hvariant ha' hb' hc'⟩

end Holding

theorem reads {l : Layer} {x : Node l} (h : x.Bounded) : Reads encode (decode? l) x := by
  induction x with
  | comp m x ih | sum m x ih | term m x ih | unary m x ih | neg m x ih | addrOf m x ih
  | deref m x ih | factor m x ih | paren m x ih =>
      apply reads_of_one (by decide) h.1 (ih h.2) _ fun _ _ => rfl
      intro d m y hy x hvariant hkind hx
      -- The kind of a factor may be a bare name, which is tried first; hence `hkind`.
      rw [decode?]
      simp [hkind, hvariant, hx]
  | setVar m x | setDeref m x | var m x =>
      apply reads_of_one (by decide) h.1 (Ident.reads h.2) _ fun _ _ => rfl
      intro d m y hy x hvariant hkind hx
      rw [decode?]
      simp [hkind, hvariant, hx]
  | assign m t v iht ihv =>
      apply reads_of_two (by decide) h.1 (iht h.2.1) (ihv h.2.2) _ fun _ _ _ => rfl
      intro d m y y' hy t v hvariant hkind ht hv
      rw [decode?]
      simp [hvariant, Doc.pair?, ht, hv]
  | setElem m x i ih | elem m x i ih | call m x as ih =>
      apply reads_of_two (by decide) h.1 (Ident.reads h.2.1) (ih h.2.2) _ fun _ _ _ => rfl
      intro d m y y' hy x i hvariant hkind hx hi
      rw [decode?]
      simp [hkind, hvariant, Doc.pair?, hx, hi]
  | rel m a op b iha ihb | add m a op b iha ihb | mul m a op b iha ihb =>
      apply reads_of_three (by decide) h.1 (iha h.2.1) (reads_constant op.decode?_encode)
        (ihb h.2.2) _ fun _ _ _ _ => rfl
      intro d m y y' y'' hy a op b hvariant ha hop hb
      rw [decode?]
      simp [hvariant, Doc.triple?, ha, hop, hb]
  | num m n =>
      apply reads_of_one (by decide) h.1 (reads_signed h.2) _ fun _ _ => rfl
      intro d m y hy n hvariant hkind hn
      rw [decode?]
      simp [hkind, hvariant, hn]
  | str m text =>
      apply reads_of_one (by decide) h (reads_text text) _ fun _ _ => rfl
      intro d m y hy text hvariant hkind htext
      rw [decode?]
      simp [hkind, hvariant, htext]
  | read m =>
      intro d e hthins
      obtain ⟨ys, m', _, _, rfl, rfl, hm', hkind, hthins'⟩ := Mark.thins_encode h hthins
      obtain ⟨rfl, rfl⟩ := hthins'.of_str
      have hread : (Doc.obj ys).required? "kind" Doc.text? = some "Read" := by
        rw [Doc.required?_obj, hkind]
        rfl
      refine ⟨.read m', rfl, ?_⟩
      rw [decode?]
      simp [hread, hm']
  | nil =>
      intro d e hthins
      obtain ⟨_, _, rfl, rfl, hitems⟩ := hthins.of_arr
      cases hitems
      refine ⟨.nil, rfl, ?_⟩
      rw [decode?]
  | cons x es ihx ihes =>
      intro d e hthins
      obtain ⟨items, hitems⟩ := exists_arr es
      rw [encode, hitems] at hthins
      obtain ⟨_, _, rfl, rfl, hall⟩ := hthins.of_arr
      cases hall with
      | @cons _ y z _ ys zs hitem hrest =>
          have hlist : Thins es.encode (.arr ys) (.arr zs) := by
            rw [hitems]
            exact .list hrest
          obtain ⟨x', rfl, hx⟩ := ihx h.1 _ _ hitem
          obtain ⟨es', hes', hes⟩ := ihes h.2 _ _ hlist
          refine ⟨.cons x' es', by rw [encode, hes', Doc.cons], ?_⟩
          rw [decode?]
          simp [hx, hes]

theorem decode?_null : decode? .expr .null = none := by
  rw [decode?]
  rfl

theorem reads_option {e : Option Expr} (h : ∀ x ∈ e, x.Bounded) :
    Reads (Doc.ofOption encode) decodeOption? e := by
  intro y z hthins
  cases e with
  | none =>
      obtain ⟨rfl, rfl⟩ := hthins.of_null
      exact ⟨none, rfl, rfl⟩
  | some x =>
      obtain ⟨x', rfl, hx⟩ := reads (h x rfl) _ _ hthins
      refine ⟨some x', rfl, ?_⟩
      cases y with
      | null =>
          -- An absent expression is written as null, so no expression may be read from it.
          cases decode?_null.symm.trans hx
      | bool | int | fraction | str | arr | obj => simp [decodeOption?, hx]

end Node

/-! ## Statements -/

namespace Clause

/-- A statement is read as its line, the alternative and what it holds. -/
theorem thins_stmtDoc {line : Nat} (h : line < Word.bound) {tag : String}
    (htag : tag ∉ Record.allNames) {x d e : Doc}
    (hthins : Thins (stmtDoc line (.tagged tag x)) d e) :
    ∃ line' y z hkind, e = stmtDoc line' (.tagged tag z) ∧
      d.required? "line" Doc.word? = some line' ∧
      d.field? "kind" = some ⟨.tagged tag y, hkind⟩ ∧ Thins x y z := by
  obtain ⟨ys, zs, rfl, rfl, hchanges⟩ := Thins.of_record (r := .stmt) hthins rfl
  obtain ⟨line', hline, hline'⟩ :=
    hchanges.required "line" (by simp [Record.fields]) (reads_word h) rfl
  obtain ⟨_, _, hkind, hkind', hthins'⟩ := hchanges.part "kind" (by simp [Record.fields]) rfl
  obtain ⟨y, z, rfl, rfl, hpart⟩ := hthins'.of_tagged htag
  obtain ⟨hsize, hfield⟩ := Doc.exists_field?_obj hkind
  refine ⟨line', y, z, hsize, ?_, hline', hfield, hpart⟩
  rw [hchanges.eq_filterMap]
  simp only [Record.fields, List.filterMap_cons, List.filterMap_nil, hline, hkind']
  rfl

theorem decode?_null : decode? .stmt .null = none := by
  rw [decode?]
  rfl

/-- A statement that holds one thing is read if that is read. -/
theorem reads_of_one {α : Type} {write : α → Doc} {read : Doc → Option α} {tag : String}
    (htag : tag ∉ Record.allNames) {line : Nat} (hline : line < Word.bound) {a : α}
    (ha : Reads write read a) (make : Nat → α → Stmt)
    (hencode : ∀ line a, (make line a).encode = stmtDoc line (.tagged tag (write a)))
    (hdecode : ∀ {d line y hkind a}, d.required? "line" Doc.word? = some line →
      d.field? "kind" = some ⟨.tagged tag y, hkind⟩ → read y = some a →
      decode? .stmt d = some (make line a)) :
    Reads encode (decode? .stmt) (make line a) := by
  intro d e hthins
  rw [hencode] at hthins
  obtain ⟨line', y, _, hkind, rfl, hline', hfield, hpart⟩ := thins_stmtDoc hline htag hthins
  obtain ⟨b, rfl, hb⟩ := ha _ _ hpart
  exact ⟨make line' b, hencode line' b, hdecode hline' hfield hb⟩

theorem reads {f : Form} {c : Clause f} (h : c.Bounded) : Reads encode (decode? f) c := by
  induction c with
  | eval line e | ret line e | write line e =>
      apply reads_of_one (by decide) h.1 (Node.reads_option h.2) _ fun _ _ => rfl
      intro d line y hkind e hline hfield he
      rw [decode?]
      simp [hline, hfield, Doc.tagged, Doc.variant?, he]
  | braces line b ih =>
      apply reads_of_one (by decide) h.1 (ih h.2) _ fun _ _ => rfl
      intro d line y hkind b hline hfield hb
      rw [decode?]
      simp [hline, hfield, Doc.tagged, Doc.variant?, hb]
  | ifElse line x t e iht ihe =>
      intro d d' hthins
      obtain ⟨line', _, _, hkind, rfl, hline, hfield, hpart⟩ :=
        thins_stmtDoc h.1 (by decide) hthins
      obtain ⟨_, _, _, x', t', e', rfl, rfl, hx, ht, he⟩ :=
        reads_triple (Node.reads h.2.1) (iht h.2.2.1) (ihe h.2.2.2) hpart
      refine ⟨.ifElse line' x' t' e', rfl, ?_⟩
      rw [decode?]
      simp [hline, hfield, Doc.tagged, Doc.variant?, Doc.triple?, hx, ht, he]
  | loop line x s ih =>
      intro d d' hthins
      obtain ⟨line', _, _, hkind, rfl, hline, hfield, hpart⟩ :=
        thins_stmtDoc h.1 (by decide) hthins
      obtain ⟨_, _, x', s', rfl, rfl, hx, hs⟩ :=
        reads_pair (Node.reads h.2.1) (ih h.2.2) hpart
      refine ⟨.loop line' x' s', rfl, ?_⟩
      rw [decode?]
      simp [hline, hfield, Doc.tagged, Doc.variant?, Doc.pair?, hx, hs]
  | absent =>
      intro d d' hthins
      obtain ⟨rfl, rfl⟩ := hthins.of_null
      refine ⟨.absent, rfl, ?_⟩
      rw [decode?]
  | present s ih =>
      intro d d' hthins
      obtain ⟨s', rfl, hs⟩ := ih h _ _ hthins
      refine ⟨.present s', rfl, ?_⟩
      cases d with
      | null => cases decode?_null.symm.trans hs
      | bool | int | fraction | str | arr | obj =>
          rw [decode?]
          · simp [hs]
          · intro hnull
            cases hnull
  | nil =>
      intro d d' hthins
      obtain ⟨_, _, rfl, rfl, hitems⟩ := hthins.of_arr
      cases hitems
      refine ⟨.nil, rfl, ?_⟩
      rw [decode?]
  | cons s ss ihs ihss =>
      intro d d' hthins
      obtain ⟨items, hitems⟩ := exists_arr ss
      rw [encode, hitems] at hthins
      obtain ⟨_, _, rfl, rfl, hall⟩ := hthins.of_arr
      cases hall with
      | @cons _ y z _ ys zs hitem hrest =>
          have hlist : Thins ss.encode (.arr ys) (.arr zs) := by
            rw [hitems]
            exact .list hrest
          obtain ⟨s', rfl, hs⟩ := ihs h.1 _ _ hitem
          obtain ⟨ss', hss', hss⟩ := ihss h.2 _ _ hlist
          refine ⟨.cons s' ss', by rw [encode, hss', Doc.cons], ?_⟩
          rw [decode?]
          simp [hs, hss]
  | block line locals stmts size span ih =>
      obtain ⟨hline, hlocals, hstmts, hsize, hspan⟩ := h
      intro d d' hthins
      obtain ⟨ys, zs, rfl, rfl, hchanges⟩ := Thins.of_record (r := .block) hthins rfl
      obtain ⟨line', hline, hline'⟩ :=
        hchanges.required "line" (by simp [Record.fields]) (reads_word hline) rfl
      obtain ⟨locals', hlocals, hlocals'⟩ :=
        hchanges.required "locals" (by simp [Record.fields])
          (reads_list fun id hid => reads_word (hlocals id hid)) rfl
      obtain ⟨y, _, hy, hz, hpart⟩ := hchanges.part "stmts" (by simp [Record.fields]) rfl
      obtain ⟨stmts', rfl, hstmts⟩ := ih hstmts _ _ hpart
      obtain ⟨hy, hfield⟩ := Doc.exists_field?_obj hy
      obtain ⟨size', hsize, hsize'⟩ :=
        hchanges.default "size" 0 (by simp [Record.fields, Doc.ofNat]) (reads_word hsize) rfl
      obtain ⟨span', hspan, hspan'⟩ :=
        hchanges.default "span" 0 (by simp [Record.fields, Doc.ofNat]) (reads_word hspan) rfl
      refine ⟨.block line' locals' stmts' size' span', ?_, ?_⟩
      · rw [hchanges.eq_filterMap]
        simp only [Record.fields, List.filterMap_cons, List.filterMap_nil, hline, hlocals, hz,
          hsize, hspan]
        rfl
      · rw [decode?]
        simp [hline', hlocals', hfield, hstmts, hsize', hspan']

end Clause

/-! ## Programs -/

theorem Func.reads {f : Func} (h : (Item.func f).Bounded) : Reads Func.encode Func.decode? f := by
  intro d e hthins
  obtain ⟨ys, zs, rfl, rfl, hchanges⟩ := Thins.of_record (r := .func) hthins rfl
  obtain ⟨decl, hdecl, hdecl'⟩ :=
    hchanges.required "decl" (by simp [Record.fields]) (reads_word h.1) rfl
  obtain ⟨body, hbody, hbody'⟩ :=
    hchanges.required "body" (by simp [Record.fields]) (Clause.reads h.2.1) rfl
  obtain ⟨frameSize, hsize, hsize'⟩ :=
    hchanges.default "frame_size" 0 (by simp [Record.fields, Doc.ofNat]) (reads_word h.2.2) rfl
  refine ⟨{ decl, body, frameSize }, ?_, by simp [decode?, hdecl', hbody', hsize']⟩
  rw [hchanges.eq_filterMap]
  simp only [Record.fields, List.filterMap_cons, List.filterMap_nil, hdecl, hbody, hsize]
  rfl

theorem Item.reads {item : Item} (h : item.Bounded) : Reads Item.encode Item.decode? item := by
  intro d e hthins
  cases item with
  | var id =>
      obtain ⟨y, z, rfl, rfl, hpart⟩ := hthins.of_tagged (by decide)
      obtain ⟨id', rfl, hid⟩ := reads_word h _ _ hpart
      exact ⟨.var id', rfl, by simp [decode?, Doc.tagged, Doc.variant?, hid]⟩
  | func f =>
      obtain ⟨y, z, rfl, rfl, hpart⟩ := hthins.of_tagged (by decide)
      obtain ⟨f', rfl, hf⟩ := Func.reads h _ _ hpart
      exact ⟨.func f', rfl, by simp [decode?, Doc.tagged, Doc.variant?, hf]⟩

theorem Program.reads {p : Program} (h : p.Bounded) : Reads Program.encode Program.decode? p := by
  intro d e hthins
  obtain ⟨ys, zs, rfl, rfl, hchanges⟩ := Thins.of_record (r := .program) hthins rfl
  obtain ⟨decls, hdecls, hdecls'⟩ :=
    hchanges.required "decls" (by simp [Record.fields])
      (reads_list fun d hd => Decl.reads (h.decls d hd)) rfl
  obtain ⟨items, hitems, hitems'⟩ :=
    hchanges.required "items" (by simp [Record.fields])
      (reads_list fun item hitem => Item.reads (h.items item hitem)) rfl
  refine ⟨{ decls, items }, ?_, by simp [decode?, hdecls', hitems']⟩
  rw [hchanges.eq_filterMap]
  simp only [Record.fields, List.filterMap_cons, List.filterMap_nil, hdecls, hitems]
  rfl

/-- A tree is read back from its document. If annotations are left out of the document and fields
that no record knows are added to it, then what is read is the one tree whose document has the
defaults in place of what was left out. -/
theorem Program.decode_fills_omissions {p : Program} (h : p.Bounded) :
    Program.decode? p.encode = some p ∧
      ∀ d e, Thins p.encode d e →
        ∃ p' : Program, (∀ q : Program, q.encode = e ↔ q = p') ∧ Program.decode? d = some p' := by
  constructor
  · obtain ⟨p', hencode, hread⟩ := Program.reads h _ _ (.same p.encode)
    rwa [Program.encode_injective hencode] at hread
  · intro d e hthins
    obtain ⟨p', rfl, hread⟩ := Program.reads h _ _ hthins
    exact ⟨p', fun q => Program.encode_injective.eq_iff, hread⟩

namespace Stripped

def mark : Mark := { line := 3, ty := .int }

def five : Expr := .comp mark (.sum mark (.term mark (.unary mark (.factor mark (.num mark 5)))))

/-- A function with the statement `x = 5;`, where some of the annotations are open. -/
def program (slot : Option Slot) (decl : Option DeclId) (m : Mark) (size frameSize : Nat) :
    Program where
  decls := [{ line := 1, name := "x", base := .int, kind := .var, slot },
    { line := 2, name := "main", base := .void, kind := .func [] }]
  items := [.var 0, .func {
    decl := 1
    body := .block 2 []
      (.cons (.eval 3 (some (.assign m (.setVar mark { name := "x", decl }) five))) .nil) size 8
    frameSize }]

def annotated : Program := program (some { depth := 0, position := 1 }) (some 0) mark 8 16

def bare : Program := program none none {} 0 0

/-- The document of the annotated program without these annotations, and with fields that are
unknown. -/
def document : Doc :=
  .obj [
    ("version", .int 2),
    ("decls", .arr [
      .obj [("line", .int 1), ("name", .str "x"), ("base", .str "Int"), ("kind", .str "Var")],
      .obj [("line", .int 2), ("name", .str "main"), ("base", .str "Void"),
        ("kind", .tagged "Func" (.arr []))]]),
    ("items", .arr [
      .tagged "Var" (.int 0),
      .tagged "Func" (.obj [
        ("decl", .int 1),
        ("body", .obj [
          ("line", .int 2),
          ("locals", .arr []),
          ("stmts", .arr [.obj [
            ("line", .int 3),
            ("kind", .tagged "Expr" (.obj [
              ("kind", .tagged "Assign" (.arr [
                .obj [("line", .int 3), ("ty", .str "Int"),
                  ("kind", .tagged "Id" (.obj [("name", .str "x"), ("column", .int 4)]))],
                five.encode]))]))]]),
          ("span", .int 8)])])])]

theorem annotated_bounded : annotated.Bounded := by
  constructor
  · intro d hd
    simp only [annotated, program, List.mem_cons, List.not_mem_nil, or_false] at hd
    rcases hd with rfl | rfl
    · exact ⟨by decide, trivial, by simp [Slot.Bounded, Word.bound]⟩
    · exact ⟨by decide, by simp [DeclKind.Bounded], by simp⟩
  · simp [annotated, program, five, mark, Item.Bounded, Clause.Bounded, Node.Bounded,
      Mark.Bounded, Ident.Bounded, Word.bound, Signed.InRange]

theorem thins_document : Thins annotated.encode document bare.encode := by
  have hident : Thins (Ident.encode { name := "x", decl := some 0 })
      (.obj [("name", .str "x"), ("column", .int 4)]) (Ident.encode { name := "x" }) :=
    .record .ident (by decide) (.keep (.same _) (.drop (.add .nil)))
  have hdecl : Thins
      (Decl.encode { line := 1, name := "x", base := .int, kind := .var, slot := some ⟨0, 1⟩ })
      (.obj [("line", .int 1), ("name", .str "x"), ("base", .str "Int"), ("kind", .str "Var")])
      (Decl.encode { line := 1, name := "x", base := .int, kind := .var }) :=
    .record .decl (by decide)
      (.keep (.same _) (.keep (.same _) (.keep (.same _) (.keep (.same _) (.drop .nil)))))
  -- From the program down to the assigned name.
  refine .record .program (by decide) (.add
    (.keep (.list (.cons hdecl (.cons (.same _) .nil)))
      (.keep (.list (.cons (.same _) (.cons (.choice (by decide) ?_) .nil))) .nil)))
  refine .record .func (by decide) (.keep (.same _) (.keep ?_ (.fill .nil)))
  refine .record .block (by decide) (.keep (.same _) (.keep (.same _)
    (.keep (.list (.cons ?_ .nil)) (.fill (.keep (.same _) .nil)))))
  refine .record .stmt (by decide) (.keep (.same _) (.keep (.choice (by decide) ?_) .nil))
  refine .record .node (by decide) (.fill (.fill
    (.keep (.choice (by decide) (.list (.cons ?_ (.cons (.same _) .nil)))) .nil)))
  exact .record .node (by decide) (.keep (.same _) (.keep (.same _)
    (.keep (.choice (by decide) hident) .nil)))

theorem reads_document :
    Program.decode? annotated.encode = some annotated ∧ Program.decode? document = some bare := by
  obtain ⟨hsame, hthinned⟩ := Program.decode_fills_omissions annotated_bounded
  obtain ⟨p, hp, hread⟩ := hthinned _ _ thins_document
  rw [← (hp bare).mp rfl] at hread
  exact ⟨hsame, hread⟩

end Stripped

end Backend
