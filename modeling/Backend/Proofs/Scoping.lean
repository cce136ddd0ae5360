import Backend.Proofs.Binding

/-! # The scope rule

Which declaration a name means, said by where the name stands: the blocks around it, the
blocks entered before it, the parameters of its function and the items up to the function.
Resolution binds every name by this rule, and refuses a name to which it gives nothing.
-/

namespace Backend

/-- All names in a node, those of variables and of functions, as they stand. -/
def Node.names {l : Layer} : Node l → List Ident
  | .assign _ t v => t.names ++ v.names
  | .comp _ x => x.names
  | .setVar _ x => [x]
  | .setElem _ x i => x :: i.names
  | .setDeref _ x => [x]
  | .sum _ x => x.names
  | .rel _ a _ b => a.names ++ b.names
  | .term _ x => x.names
  | .add _ a _ b => a.names ++ b.names
  | .unary _ x => x.names
  | .mul _ a _ b => a.names ++ b.names
  | .neg _ x => x.names
  | .addrOf _ x => x.names
  | .deref _ x => x.names
  | .factor _ x => x.names
  | .paren _ x => x.names
  | .var _ x => [x]
  | .elem _ x i => x :: i.names
  | .call _ f as => f :: as.names
  | .cons e es => e.names ++ es.names
  | .num .. | .str .. | .read .. | .nil => []

/-- The use of a name, and the blocks it stands in and behind. -/
structure Site where
  use : Ident
  /-- The locals of each enclosing block, the innermost block first. -/
  blocks : List (List DeclId) := []
  /-- The locals of all blocks entered before the use, whether or not they have ended. -/
  entered : List DeclId := []
deriving DecidableEq

namespace Site

/-- The same use seen from outside a block around it. -/
def inside (ids : List DeclId) (s : Site) : Site :=
  { s with blocks := s.blocks ++ [ids], entered := ids ++ s.entered }

/-- The same use seen from before other blocks. -/
def behind (ids : List DeclId) (s : Site) : Site :=
  { s with entered := ids ++ s.entered }

/-- The same use, bound. -/
def bind (s : Site) (id : DeclId) : Site :=
  { s with use := { s.use with decl := some id } }

end Site

def Node.sites {l : Layer} (x : Node l) : List Site :=
  x.names.map fun use => { use }

/-- Where names are used in a statement, from left to right. -/
def Clause.sites {f : Form} : Clause f → List Site
  | .eval _ e | .ret _ e | .write _ e => e.elim [] Node.sites
  | .braces _ b => b.sites
  | .ifElse _ c t e => c.sites ++ (t.sites ++ e.sites.map (Site.behind t.locals))
  | .loop _ c s => c.sites ++ s.sites
  | .present s => s.sites
  | .cons s rest => s.sites ++ rest.sites.map (Site.behind s.locals)
  | .block _ ids stmts _ _ => stmts.sites.map (Site.inside ids)
  | .absent | .nil => []

section Rule

variable (decls : List Decl) (name : String)

def Named (id : DeclId) : Prop :=
  ∃ d, decls[id]? = some d ∧ d.name = name

/-- The last one of some declarations to have the name. -/
def LastNamed (ids : List DeclId) (id : DeclId) : Prop :=
  ∃ before after, ids = before ++ id :: after ∧ Named decls name id ∧
    ∀ other ∈ after, ¬ Named decls name other

end Rule

/-- The local that a use means. -/
inductive Site.MeansLocal (decls : List Decl) (s : Site) : Scope → DeclId → Prop
  /-- The last one of the innermost enclosing block that declares the name. -/
  | block {inner outer : List (List DeclId)} {own : List DeclId} {id : DeclId} :
      s.blocks = inner ++ own :: outer →
      (∀ ids ∈ inner, ∀ other ∈ ids, ¬ Named decls s.use.name other) →
      LastNamed decls s.use.name own id → MeansLocal decls s .block id
  /-- The last one of all blocks entered before. -/
  | function {id : DeclId} : LastNamed decls s.use.name s.entered id →
      MeansLocal decls s .function id

namespace Program

/-- An item at or before a place is the only one of all items to have the name. -/
def ItemNamed (p : Program) (place : Nat) (name : String) (id : DeclId) : Prop :=
  ∃ k ≤ place, ∃ item, p.items[k]? = some item ∧ item.id = id ∧ Named p.decls name id ∧
    ∀ k' item', p.items[k']? = some item' → Named p.decls name item'.id → k' = k

/-- What a use in the body of the function at a place means: a local, else a parameter, else
an item. -/
inductive ScopeRule (p : Program) (scope : Scope) (place : Nat) (f : Func) (s : Site) :
    DeclId → Prop
  | local {id : DeclId} : s.MeansLocal p.decls scope id → ScopeRule p scope place f s id
  | param {id : DeclId} : (∀ other, ¬ s.MeansLocal p.decls scope other) →
      LastNamed p.decls s.use.name (paramsAt p.decls f.decl) id → ScopeRule p scope place f s id
  | item {id : DeclId} : (∀ other, ¬ s.MeansLocal p.decls scope other) →
      (∀ other ∈ paramsAt p.decls f.decl, ¬ Named p.decls s.use.name other) →
      p.ItemNamed place s.use.name id → ScopeRule p scope place f s id

end Program

/-! ## The rule computed -/

/-- The last declaration of a name. -/
def last? (decls : List Decl) (name : String) (ids : List DeclId) : Option DeclId :=
  ids.reverse.find? fun id => decls[id]?.any (·.name == name)

section Last

variable {decls : List Decl} {name : String} {ids : List DeclId} {id : DeclId}

theorem any_name_iff : decls[id]?.any (·.name == name) = true ↔ Named decls name id := by
  simp [Option.any_eq_true, Named]

theorem last?_eq_some_iff : last? decls name ids = some id ↔ LastNamed decls name ids id := by
  rw [last?, List.find?_eq_some_iff_append]
  simp only [Bool.not_eq_true', ← Bool.not_eq_true, any_name_iff]
  constructor
  · rintro ⟨hnamed, after, before, hids, hlast⟩
    refine ⟨before.reverse, after.reverse, ?_, hnamed, ?_⟩
    · have hreverse := congrArg List.reverse hids
      simpa using hreverse
    · intro other hother
      exact hlast other (List.mem_reverse.mp hother)
  · rintro ⟨before, after, rfl, hnamed, hlast⟩
    refine ⟨hnamed, after.reverse, before.reverse, by simp, ?_⟩
    intro other hother
    exact hlast other (List.mem_reverse.mp hother)

theorem last?_eq_none_iff : last? decls name ids = none ↔ ∀ id ∈ ids, ¬ Named decls name id := by
  simp only [last?, List.find?_eq_none, List.mem_reverse, any_name_iff]

theorem last?_append (ids ids' : List DeclId) :
    last? decls name (ids ++ ids') = (last? decls name ids').or (last? decls name ids) := by
  rw [last?, List.reverse_append, List.find?_append]
  rfl

theorem Meaning.declare_apply (Γ : Meaning) (ids : List DeclId) (name : String) :
    Γ.declare decls ids name = (last? decls name ids).or (Γ name) := rfl

end Last

namespace Site

variable {decls : List Decl} {scope : Scope} {s : Site}

/-- The local that a use means, found from the inside. -/
def local? (decls : List Decl) (scope : Scope) (s : Site) : Option DeclId :=
  match scope with
  | .block => s.blocks.findSome? (last? decls s.use.name)
  | .function => last? decls s.use.name s.entered

theorem local?_eq_some_iff {id : DeclId} :
    s.local? decls scope = some id ↔ s.MeansLocal decls scope id := by
  cases scope with
  | function =>
      rw [local?, last?_eq_some_iff]
      constructor
      · exact .function
      · rintro ⟨⟩
        assumption
  | block =>
      rw [local?, List.findSome?_eq_some_iff]
      simp only [last?_eq_some_iff, last?_eq_none_iff]
      constructor
      · rintro ⟨inner, own, outer, hblocks, hlast, hinner⟩
        exact .block hblocks hinner hlast
      · rintro (⟨hblocks, hinner, hlast⟩ | _)
        exact ⟨_, _, _, hblocks, hlast, hinner⟩

theorem local?_eq_none_iff :
    s.local? decls scope = none ↔ ∀ id, ¬ s.MeansLocal decls scope id := by
  simp only [Option.eq_none_iff_forall_ne_some, ne_eq, local?_eq_some_iff]

theorem local?_inside (Γ : Meaning) (ids : List DeclId) :
    ((s.inside ids).local? decls scope).or (Γ s.use.name) =
      (s.local? decls scope).or (Γ.declare decls ids s.use.name) := by
  cases scope with
  | block => simp [local?, inside, List.findSome?_append, Option.or_assoc, Meaning.declare_apply]
  | function => simp only [local?, inside, last?_append, Option.or_assoc, Meaning.declare_apply]

theorem local?_behind (cx : Rules) (Γ : Meaning) (ids : List DeclId) :
    ((s.behind ids).local? cx.decls cx.scope).or (Γ s.use.name) =
      (s.local? cx.decls cx.scope).or (cx.leave Γ (Γ.declare cx.decls ids) s.use.name) := by
  cases hscope : cx.scope with
  | block => simp [local?, behind, Rules.leave, hscope]
  | function =>
      simp only [local?, behind, Rules.leave, hscope, last?_append, Option.or_assoc,
        Meaning.declare_apply]

end Site

/-! ## Resolution follows the rule -/

/-- A name and the same name bound to its meaning. -/
def BoundBy (Γ : Meaning) (x x' : Ident) : Prop :=
  ∃ id, Γ x.name = some id ∧ x' = { x with decl := some id }

theorem Means.boundBy {decls : List Decl} {Γ : Meaning} {x x' : Ident} {d : Decl}
    (h : Means decls Γ x x' d) : BoundBy Γ x x' := by
  obtain ⟨id, hid, -, rfl⟩ := h
  exact ⟨id, hid, rfl⟩

theorem Typed.names_bound {decls : List Decl} {Γ : Meaning} {l : Layer} {x x' : Node l}
    {ts : List Ty} (h : Typed decls Γ x x' ts) :
    List.Forall₂ (BoundBy Γ) x.names x'.names := by
  induction h with
  | assign _ _ _ iha ihb | rel _ _ iha ihb | add _ _ iha ihb | mul _ _ iha ihb
  | cons _ _ iha ihb => exact List.rel_append iha ihb
  | setVar hx _ _ | setDeref hx _ _ | var hx _ => exact .cons hx.boundBy .nil
  | setElem hx _ _ _ ih | elem hx _ _ _ ih | call hx _ _ _ ih => exact .cons hx.boundBy ih
  | comp _ ih | sum _ ih | term _ ih | unary _ ih | neg _ ih | addrOf _ _ _ ih | deref _ _ ih
  | factor _ ih | paren _ ih => exact ih
  | num | str | read | nil => exact .nil

/-- A use and the same use bound, where names not declared by a local mean what `Γ` says. -/
def Site.BoundIn (decls : List Decl) (scope : Scope) (Γ : Meaning) (s s' : Site) : Prop :=
  ∃ id, (s.local? decls scope).or (Γ s.use.name) = some id ∧ s' = s.bind id

theorem Typed.sites_bound {decls : List Decl} {Γ : Meaning} {l : Layer} {x x' : Node l}
    {ts : List Ty} (h : Typed decls Γ x x' ts) (scope : Scope) :
    List.Forall₂ (Site.BoundIn decls scope Γ) x.sites x'.sites := by
  rw [Node.sites, Node.sites, List.forall₂_map_left_iff, List.forall₂_map_right_iff]
  refine h.names_bound.imp ?_
  rintro use use' ⟨id, hid, rfl⟩
  refine ⟨id, ?_, rfl⟩
  cases scope with
  | block => exact hid
  | function => exact hid

theorem Site.BoundIn.map {decls : List Decl} {scope : Scope} {Γ Γ' : Meaning} {g : Site → Site}
    (hbind : ∀ s id, g (s.bind id) = (g s).bind id)
    (hmeaning : ∀ s, ((g s).local? decls scope).or (Γ (g s).use.name) =
      (s.local? decls scope).or (Γ' s.use.name))
    {ss ss' : List Site} (h : List.Forall₂ (BoundIn decls scope Γ') ss ss') :
    List.Forall₂ (BoundIn decls scope Γ) (ss.map g) (ss'.map g) := by
  rw [List.forall₂_map_left_iff, List.forall₂_map_right_iff]
  refine h.imp ?_
  rintro s s' ⟨id, hid, rfl⟩
  exact ⟨id, by rw [hmeaning, hid], hbind s id⟩

theorem Meaning.declare_append {decls : List Decl} (Γ : Meaning) (ids ids' : List DeclId) :
    (Γ.declare decls ids).declare decls ids' = Γ.declare decls (ids ++ ids') := by
  funext name
  simp only [declare_apply, last?_append, Option.or_assoc]

/-- The names behind a statement whose blocks have the given locals. -/
def Rules.past (cx : Rules) (Γ : Meaning) (ids : List DeclId) : Meaning :=
  cx.leave Γ (Γ.declare cx.decls ids)

namespace Rules

variable (cx : Rules) (Γ : Meaning)

theorem past_nil : cx.past Γ [] = Γ := by
  cases hscope : cx.scope with
  | block => simp [past, leave, hscope]
  | function =>
      funext name
      simp [past, leave, hscope, Meaning.declare_apply, last?]

theorem past_append (ids ids' : List DeclId) :
    cx.past (cx.past Γ ids) ids' = cx.past Γ (ids ++ ids') := by
  cases hscope : cx.scope with
  | block => simp [past, leave, hscope]
  | function => simp [past, leave, hscope, Meaning.declare_append]

/-- Leaving a block leaves the blocks in it. -/
theorem leave_past (ids ids' : List DeclId) :
    cx.leave Γ (cx.past (Γ.declare cx.decls ids) ids') = cx.past Γ (ids ++ ids') := by
  cases hscope : cx.scope with
  | block => simp [past, leave, hscope]
  | function => simp [past, leave, hscope, Meaning.declare_append]

end Rules

/-- The uses in an accepted statement are bound by the locals of its own blocks and then by
what was in scope before it. -/
theorem Accepted.sites_bound {cx : Rules} {f : Form} {Γ Γ' : Meaning} {c c' : Clause f}
    (h : Accepted cx Γ c c' Γ') :
    List.Forall₂ (Site.BoundIn cx.decls cx.scope Γ) c.sites c'.sites ∧
      Γ' = cx.past Γ c.locals := by
  have hbehind {Γ : Meaning} (ids : List DeclId) {ss ss' : List Site}
      (hss : List.Forall₂ (Site.BoundIn cx.decls cx.scope (cx.past Γ ids)) ss ss') :
      List.Forall₂ (Site.BoundIn cx.decls cx.scope Γ) (ss.map (Site.behind ids))
        (ss'.map (Site.behind ids)) :=
    Site.BoundIn.map (fun _ _ => rfl) (fun s => s.local?_behind cx Γ ids) hss
  induction h with
  | empty | leave _ | newline | absent | nil => exact ⟨.nil, (cx.past_nil _).symm⟩
  | eval hd | ret hd | write hd _ => exact ⟨hd.sites_bound cx.scope, (cx.past_nil _).symm⟩
  | braces _ ih | present _ ih => exact ih
  | loop hd _ ih => exact ⟨List.rel_append (hd.sites_bound cx.scope) ih.1, ih.2⟩
  | ifElse hd ht _ iht ihe =>
      obtain ⟨hthen, rfl⟩ := iht
      obtain ⟨helse, rfl⟩ := ihe
      refine ⟨List.rel_append (hd.sites_bound cx.scope) (List.rel_append hthen ?_),
        cx.past_append _ _ _⟩
      rw [ht.locals_eq]
      exact hbehind _ helse
  | cons hs _ ihs ihrest =>
      obtain ⟨hfirst, rfl⟩ := ihs
      obtain ⟨hothers, rfl⟩ := ihrest
      refine ⟨List.rel_append hfirst ?_, cx.past_append _ _ _⟩
      rw [hs.locals_eq]
      exact hbehind _ hothers
  | @block Γ _ _ _ _ ids _ _ _ ih =>
      obtain ⟨hstmts, rfl⟩ := ih
      exact ⟨Site.BoundIn.map (fun _ _ => rfl) (fun s => s.local?_inside Γ ids) hstmts,
        cx.leave_past Γ ids _⟩

namespace Program

variable {p : Program} {scope : Scope} {place : Nat}

theorem NamesDistinct.unique (h : p.NamesDistinct) {name : String} {i j : Nat} {x y : Item}
    (hi : p.items[i]? = some x) (hx : Named p.decls name x.id) (hj : p.items[j]? = some y)
    (hy : Named p.decls name y.id) : j = i := by
  have hname {k : Nat} {item : Item} (hk : p.items[k]? = some item)
      (hitem : Named p.decls name item.id) :
      (p.items.map (Item.name? p.decls))[k]? = some (some name) := by
    obtain ⟨d, hd, rfl⟩ := hitem
    simp [hk, Item.name?, hd]
  have hlt : j < (p.items.map (Item.name? p.decls)).length := by
    rw [List.length_map]
    exact (List.getElem?_eq_some_iff.mp hj).1
  exact (List.getElem?_inj hlt h).mp ((hname hj hy).trans (hname hi hx).symm)

/-- Where items have names of their own, the first of a name is the only one. -/
theorem NamesDistinct.itemNames_eq_some_iff (h : p.NamesDistinct) {name : String} {id : DeclId} :
    itemNames p.decls (p.items.take (place + 1)) name = some id ↔ p.ItemNamed place name id := by
  have hfound {id : DeclId}
      (hid : itemNames p.decls (p.items.take (place + 1)) name = some id) :
      p.ItemNamed place name id := by
    have hname := List.find?_some hid
    have hnamed : Named p.decls name id := any_name_iff.mp hname
    obtain ⟨item, hitem, rfl⟩ := List.mem_map.mp (itemNames_mem hid)
    obtain ⟨k, hk⟩ := List.getElem?_of_mem hitem
    rw [List.getElem?_take] at hk
    split at hk
    next hlt =>
      exact ⟨k, Nat.le_of_lt_succ hlt, item, hk, rfl, hnamed,
        fun _ _ hk' hnamed' => h.unique hk hnamed hk' hnamed'⟩
    next => cases hk
  constructor
  · exact hfound
  · rintro ⟨k, hle, item, hitem, rfl, ⟨d, hd, rfl⟩, hunique⟩
    have hmem : item ∈ p.items.take (place + 1) := by
      apply List.mem_of_getElem?
      rw [List.getElem?_take_of_lt (Nat.lt_succ_of_le hle)]
      exact hitem
    cases hother : itemNames p.decls (p.items.take (place + 1)) d.name with
    | none =>
        have hnone := itemNames_eq_none_iff.mp hother
        exact absurd (List.mem_map.mpr ⟨item, hmem, by simp [Item.name?, hd]⟩) hnone
    | some other =>
        obtain ⟨k', -, item', hitem', rfl, hnamed', -⟩ := hfound hother
        obtain rfl := hunique k' item' hitem' hnamed'
        cases hitem.symm.trans hitem'
        rfl

theorem scopeRule_iff (h : p.NamesDistinct) {f : Func} {s : Site} {id : DeclId} :
    p.ScopeRule scope place f s id ↔
      (s.local? p.decls scope).or
        ((itemNames p.decls (p.items.take (place + 1))).declare p.decls (paramsAt p.decls f.decl)
          s.use.name) = some id := by
  rw [Meaning.declare_apply, Option.or_eq_some_iff, Option.or_eq_some_iff,
    h.itemNames_eq_some_iff, Site.local?_eq_some_iff, Site.local?_eq_none_iff, last?_eq_some_iff,
    last?_eq_none_iff]
  constructor
  · rintro (hlocal | ⟨hlocal, hparam⟩ | ⟨hlocal, hparam, hitem⟩)
    · exact .inl hlocal
    · exact .inr ⟨hlocal, .inl hparam⟩
    · exact .inr ⟨hlocal, .inr ⟨hparam, hitem⟩⟩
  · rintro (hlocal | ⟨hlocal, hparam | ⟨hparam, hitem⟩⟩)
    · exact .local hlocal
    · exact .param hlocal hparam
    · exact .item hlocal hparam hitem

theorem namesDistinct_of_resolve {q : Program} (h : p.resolve scope = (q, .ok ())) :
    p.NamesDistinct := by
  simpa [NamesDistinct] using (resolve_eq_ok_iff_allAdmitted.mp h).2.nodup List.nodup_nil

/-- In a resolved program each use of a name is bound to the declaration that the rule gives
it, and the rule gives it no other. -/
theorem sites_of_resolve {q : Program} (h : p.resolve scope = (q, .ok ())) {f : Func}
    (hf : p.items[place]? = some (.func f)) :
    ∃ body, q.items[place]? = some (.func { f with body }) ∧
      List.Forall₂ (fun s s' => ∃ id, s' = s.bind id ∧
        ∀ other, p.ScopeRule scope place f s other ↔ other = id) f.body.sites body.sites := by
  obtain ⟨-, hall⟩ := resolve_eq_ok_iff_allAdmitted.mp h
  obtain ⟨hlength, hplaces⟩ := Item.allAdmitted_iff.mp hall
  have hlt : place < q.items.length := by
    rw [hlength]
    exact (List.getElem?_eq_some_iff.mp hf).1
  have hitem := List.getElem?_eq_getElem hlt
  have hadmitted := hplaces place _ _ hf hitem
  rw [List.nil_append] at hadmitted
  generalize q.items[place] = item' at hitem hadmitted
  cases hadmitted with
  | @func _ d body Γ hd _ _ _ haccepted =>
      refine ⟨body, hitem, ?_⟩
      rw [← take_succ_of_getElem? hf] at haccepted
      refine haccepted.sites_bound.1.imp ?_
      rintro s s' ⟨id, hid, rfl⟩
      refine ⟨id, rfl, ?_⟩
      intro other
      have hparams : paramsAt p.decls f.decl = d.params := by simp [paramsAt, hd]
      rw [scopeRule_iff (namesDistinct_of_resolve h), hparams, hid, Option.some.injEq, eq_comm]

end Program

namespace Item

/-- Items are resolved in order, so what comes later changes nothing before it. -/
theorem resolveAll_take (decls : List Decl) (scope : Scope) (globals : Globals) (items : List Item)
    (count : Nat) :
    (resolveAll decls scope globals items).1.take count =
      (resolveAll decls scope globals (items.take count)).1 := by
  induction items generalizing globals count with
  | nil => simp [resolveAll]
  | cons item rest ih =>
      cases count with
      | zero => simp [resolveAll]
      | succ count =>
          rw [List.take_succ_cons, resolveAll, resolveAll]
          rcases item.resolve decls scope globals with ⟨item', e | globals'⟩
          · simp
          · simp [ih]

end Item

namespace Program

/-- In a resolved program every use of a name is bound to the declaration that the scope rule
gives it, which is one only; a use to which the rule gives none makes resolution fail. So what
stands behind a function does not change its bindings, and the name of a function means the
function itself in its own body unless a local or a parameter has it. -/
theorem resolve_binds_by_scope_rule (p : Program) (scope : Scope) :
    (∀ q, p.resolve scope = (q, .ok ()) → ∀ place f, p.items[place]? = some (.func f) →
      ∃ body, q.items[place]? = some (.func { f with body }) ∧
        List.Forall₂ (fun s s' => ∃ id, s' = s.bind id ∧
          ∀ other, p.ScopeRule scope place f s other ↔ other = id) f.body.sites body.sites) ∧
    (∀ place f s, p.items[place]? = some (.func f) → s ∈ f.body.sites →
      (∀ id, ¬ p.ScopeRule scope place f s id) → ∃ e, (p.resolve scope).2 = .error e) ∧
    (∀ (p' : Program) (count : Nat), p'.decls = p.decls → p'.items.take count = p.items.take count →
      (p'.resolve scope).1.items.take count = (p.resolve scope).1.items.take count) ∧
    ∀ q, p.resolve scope = (q, .ok ()) → ∀ place f, p.items[place]? = some (.func f) →
      ∀ s, Named p.decls s.use.name f.decl → (∀ id, ¬ s.MeansLocal p.decls scope id) →
        (∀ id ∈ paramsAt p.decls f.decl, ¬ Named p.decls s.use.name id) →
        p.ScopeRule scope place f s f.decl := by
  refine ⟨fun q h place f hf => sites_of_resolve h hf, ?_, ?_, ?_⟩
  · intro place f s hf hs hnone
    cases hresult : (p.resolve scope).2 with
    | error e => exact ⟨e, rfl⟩
    | ok u =>
        obtain ⟨body, -, hsites⟩ := sites_of_resolve (Prod.ext rfl hresult) hf
        obtain ⟨i, hi, rfl⟩ := List.getElem_of_mem hs
        obtain ⟨hlength, hbound⟩ := List.forall₂_iff_get.mp hsites
        obtain ⟨id, -, hrule⟩ := hbound i hi (hlength ▸ hi)
        exact absurd ((hrule id).mpr rfl) (hnone id)
  · intro p' count hdecls hitems
    simp only [resolve, Item.resolveAll_take, hdecls, hitems]
  · intro q h place f hf s hnamed hlocal hparam
    have hnames := namesDistinct_of_resolve h
    exact .item hlocal hparam ⟨place, Nat.le_refl _, .func f, hf, rfl, hnamed,
      fun _ _ hk hname => hnames.unique hf hnamed hk hname⟩

end Program

namespace Shadowing

/-- Three variables have the same name: a global, a parameter and the local of a block that has
ended where the name is used. -/
def func : Func where
  decl := 3
  body := .ofStmts [4] [
    .block (.ofStmts [5] [.expr (.setVar "x" (.var "n"))]),
    .expr (.setVar "y" (.call "f" [.var "x", .var "n"])),
    .ret (some (.var "y"))]

def program : Program where
  decls := [.var 1 .int "x", .param 2 .int "x", .param 2 .int "n",
    { line := 2, name := "f", base := .int, kind := .func [1, 2] }, .var 3 .int "y",
    .var 4 .int "x"]
  items := [.var 0, .func func]

/-- The last use of the name, in the arguments of the call. -/
def argument : Site where
  use := { name := "x" }
  blocks := [[4]]
  entered := [4, 5]

/-- The function that is called. -/
def callee : Site := { argument with use := { name := "f" } }

/-- The argument is the parameter, or the local where locals outlive their block. The
function calls itself. -/
theorem argument_by_scope :
    program.ScopeRule .block 1 func argument 1 ∧ program.ScopeRule .function 1 func argument 5 ∧
      program.ScopeRule .block 1 func callee 3 := by
  obtain ⟨hblock, -, -, hself⟩ := Program.resolve_binds_by_scope_rule program .block
  obtain ⟨hfunction, -⟩ := Program.resolve_binds_by_scope_rule program .function
  refine ⟨?_, ?_, ?_⟩
  · obtain ⟨body, hbody, hsites⟩ := hblock _ rfl 1 func rfl
    cases hbody
    obtain ⟨id, hid, hrule⟩ := (List.forall₂_iff_get.mp hsites).2 4 (by decide) (by decide)
    cases hid
    exact (hrule 1).mpr rfl
  · obtain ⟨body, hbody, hsites⟩ := hfunction _ rfl 1 func rfl
    cases hbody
    obtain ⟨id, hid, hrule⟩ := (List.forall₂_iff_get.mp hsites).2 4 (by decide) (by decide)
    cases hid
    exact (hrule 5).mpr rfl
  · refine hself _ rfl 1 func rfl callee ⟨_, rfl, rfl⟩ ?_ ?_
    · rw [← Site.local?_eq_none_iff]
      decide
    · rw [← last?_eq_none_iff]
      decide

end Shadowing

end Backend
