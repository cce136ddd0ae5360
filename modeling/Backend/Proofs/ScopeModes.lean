import Backend.Proofs.Scoping

/-! # The two scopes

Where no name of a function is declared twice, the two choices of `Scope` bind every name in
the same way as long as they bind it at all. Resolving with one or the other differs only
when a local is used behind its block, which is refused where locals end with their block.
-/

namespace Backend

/-! ## Uses and their lines -/

/-- The uses of names in a node from left to right, each with the line that it is reported on. A
node without a line of its own is on the line of the statement. -/
def Node.located {l : Layer} (line : Nat) : Node l → List (Site × Nat)
  | .setVar m x | .setDeref m x | .var m x => [({ use := x }, orLine m.line line)]
  | .setElem m x i | .elem m x i => ({ use := x }, orLine m.line line) :: i.located line
  | .call m f as => ({ use := f }, orLine m.line line) :: as.located line
  | .assign _ t v => t.located line ++ v.located line
  | .rel _ a _ b => a.located line ++ b.located line
  | .add _ a _ b => a.located line ++ b.located line
  | .mul _ a _ b => a.located line ++ b.located line
  | .cons e es => e.located line ++ es.located line
  | .comp _ x => x.located line
  | .sum _ x => x.located line
  | .term _ x => x.located line
  | .unary _ x => x.located line
  | .neg _ x => x.located line
  | .addrOf _ x => x.located line
  | .deref _ x => x.located line
  | .factor _ x => x.located line
  | .paren _ x => x.located line
  | .num .. | .str .. | .read .. | .nil => []

/-- The uses in a statement with their lines. A statement without a line of its own is on the
line of the one around it. -/
def Clause.located {f : Form} : Clause f → (line : Nat) → List (Site × Nat)
  | .eval own e, line | .ret own e, line | .write own e, line =>
      e.elim [] (Node.located (orLine own line))
  | .braces own b, line => b.located (orLine own line)
  | .ifElse own c t e, line =>
      Node.located (orLine own line) c ++ (t.located (orLine own line) ++
        (e.located (orLine own line)).map (Prod.map (Site.behind t.locals) id))
  | .loop own c s, line => Node.located (orLine own line) c ++ s.located (orLine own line)
  | .present s, line => s.located line
  | .cons s rest, line =>
      s.located line ++ (rest.located line).map (Prod.map (Site.behind s.locals) id)
  | .block own ids stmts _ _, line =>
      (stmts.located (orLine own line)).map (Prod.map (Site.inside ids) id)
  | .absent, _ | .nil, _ => []

theorem Node.located_sites {l : Layer} (x : Node l) (line : Nat) :
    (x.located line).map Prod.fst = x.sites := by
  unfold sites
  induction x with
  | setVar | setDeref | var | num | str | read | nil => rfl
  | setElem _ _ _ ih | elem _ _ _ ih | call _ _ _ ih => simp [located, names, ih]
  | assign _ _ _ iha ihb | rel _ _ _ _ iha ihb | add _ _ _ _ iha ihb | mul _ _ _ _ iha ihb
  | cons _ _ iha ihb => simp [located, names, iha, ihb]
  | comp _ _ ih | sum _ _ ih | term _ _ ih | unary _ _ ih | neg _ _ ih | addrOf _ _ ih
  | deref _ _ ih | factor _ _ ih | paren _ _ ih => exact ih

theorem Clause.located_sites {f : Form} (c : Clause f) (line : Nat) :
    (c.located line).map Prod.fst = c.sites := by
  have hmap (g : Site → Site) (uses : List (Site × Nat)) :
      (uses.map (Prod.map g id)).map Prod.fst = (uses.map Prod.fst).map g := by
    simp [Function.comp_def]
  induction c generalizing line with
  | eval _ e | ret _ e | write _ e =>
      cases e with
      | none => rfl
      | some e => exact e.located_sites _
  | braces _ _ ih => exact ih _
  | present _ ih => exact ih line
  | ifElse _ e _ _ ihs iht => simp [located, sites, hmap, ihs, iht, e.located_sites]
  | loop _ e _ ih => simp [located, sites, ih, e.located_sites]
  | cons _ _ ihs ihrest => simp [located, sites, hmap, ihs, ihrest]
  | block _ _ _ _ _ ih => simp [located, sites, hmap, ih]
  | absent | nil => rfl

/-! ## Resolutions that part

Two resolutions go the same way, or the first one stops at a name that it does not know. -/

/-- The first entry of a list that has a property. -/
def FirstOf {ι : Type} (P : ι → Prop) (xs : List ι) (x : ι) : Prop :=
  ∃ before after, xs = before ++ x :: after ∧ P x ∧ ∀ y ∈ before, ¬ P y

namespace FirstOf

variable {ι κ : Type} {P : ι → Prop} {Q : κ → Prop} {xs ys : List ι} {x : ι}

theorem mem (h : FirstOf P xs x) : x ∈ xs := by
  obtain ⟨before, after, rfl, -, -⟩ := h
  simp

theorem holds (h : FirstOf P xs x) : P x := by
  obtain ⟨_, _, -, hx, -⟩ := h
  exact hx

theorem append_right (h : FirstOf P xs x) (ys : List ι) : FirstOf P (xs ++ ys) x := by
  obtain ⟨before, after, rfl, hx, hbefore⟩ := h
  exact ⟨before, after ++ ys, by simp, hx, hbefore⟩

theorem append_left (hxs : ∀ y ∈ xs, ¬ P y) (h : FirstOf P ys x) : FirstOf P (xs ++ ys) x := by
  obtain ⟨before, after, rfl, hx, hbefore⟩ := h
  exact ⟨xs ++ before, after, by simp, hx, List.forall_mem_append.mpr ⟨hxs, hbefore⟩⟩

theorem map (h : FirstOf P xs x) {g : ι → κ} (hg : ∀ y ∈ xs, (Q (g y) ↔ P y)) :
    FirstOf Q (xs.map g) (g x) := by
  obtain ⟨before, after, rfl, hx, hbefore⟩ := h
  refine ⟨before.map g, after.map g, by simp, (hg x (by simp)).mpr hx,
    List.forall_mem_map.mpr fun y hy hQ => ?_⟩
  exact hbefore y hy ((hg y (List.mem_append_left _ hy)).mp hQ)

end FirstOf

/-- What is reported for a name that is not known. -/
def Site.refused (u : Site × Nat) : Error := .undeclared u.1.use.name u.2

/-- The first resolution ends like the second one, or refuses the first one of some uses that
is lost. Their results are related by `R`. -/
inductive Departs {ι α β γ : Type} (report : ι → Error) (lost : ι → Prop) (uses : List ι)
    (R : β → γ → Prop) : α × Except Error β → α × Except Error γ → Prop where
  | error (a : α) (e : Error) : Departs report lost uses R (a, .error e) (a, .error e)
  | ok (a : α) {b : β} {c : γ} : (∀ u ∈ uses, ¬ lost u) → R b c →
      Departs report lost uses R (a, .ok b) (a, .ok c)
  | lost (a : α) {u : ι} (r : α × Except Error γ) : FirstOf lost uses u →
      Departs report lost uses R (a, .error (report u)) r

namespace Departs

variable {ι α α' β γ δ : Type} {report : ι → Error} {lost : ι → Prop} {uses others : List ι}
  {R : β → γ → Prop}

theorem refl (h : ∀ u ∈ uses, ¬ lost u) (r : α × Except Error β) :
    Departs report lost uses Eq r r := by
  obtain ⟨a, e | b⟩ := r
  · exact .error a e
  · exact .ok a h rfl

/-- Before the first resolution parts from the second one there are other uses. -/
theorem behind {r : α × Except Error β} {r' : α × Except Error γ}
    (h : Departs report lost uses R r r') (hothers : ∀ u ∈ others, ¬ lost u) :
    Departs report lost (others ++ uses) R r r' := by
  cases h with
  | error a e => exact .error a e
  | ok a huses hR => exact .ok a (List.forall_mem_append.mpr ⟨hothers, huses⟩) hR
  | lost a r' hlost => exact .lost a r' (hlost.append_left hothers)

/-- The uses are seen from another place. -/
theorem seen {κ : Type} {report' : κ → Error} {lost' : κ → Prop} {r : α × Except Error β}
    {r' : α × Except Error γ} (h : Departs report lost uses R r r') {g : ι → κ}
    (hreport : ∀ u, report' (g u) = report u) (hlost : ∀ u ∈ uses, (lost' (g u) ↔ lost u)) :
    Departs report' lost' (uses.map g) R r r' := by
  cases h with
  | error a e => exact .error a e
  | ok a huses hR =>
      refine .ok a (List.forall_mem_map.mpr fun u hu h => ?_) hR
      exact huses u hu ((hlost u hu).mp h)
  | lost a r' hfirst =>
      rw [← hreport]
      exact .lost a r' (hfirst.map hlost)

theorem map {r : α × Except Error β} {r' : α × Except Error γ}
    (h : Departs report lost uses R r r') (build : α → α') {β' γ' : Type} {g : β → β'}
    {g' : γ → γ'} {S : β' → γ' → Prop} (hg : ∀ b c, R b c → S (g b) (g' c)) :
    Departs report lost uses S (build r.1, r.2.map g) (build r'.1, r'.2.map g') := by
  cases h with
  | error a e => exact .error _ e
  | ok a huses hR => exact .ok _ huses (hg _ _ hR)
  | lost a r' hlost => exact .lost _ _ hlost

/-- The tree is built further in the same way on both sides. -/
theorem build {r : α × Except Error β} {r' : α × Except Error γ}
    (h : Departs report lost uses R r r') (build : α → α') :
    Departs report lost uses R (build r.1, r.2) (build r'.1, r'.2) := by
  cases h with
  | error a e => exact .error _ e
  | ok a huses hR => exact .ok _ huses hR
  | lost a r' hlost => exact .lost _ _ hlost

/-- The result is looked at in the same way on both sides. -/
theorem look {r r' : α × Except Error β} (h : Departs report lost uses Eq r r') (build : α → α')
    (look : Except Error β → Except Error δ) (hlook : ∀ e, look (.error e) = .error e) :
    Departs report lost uses Eq (build r.1, look r.2) (build r'.1, look r'.2) := by
  cases h with
  | error a e =>
      rw [hlook]
      exact .error _ e
  | ok a huses hR =>
      cases hR
      exact .refl huses _
  | lost a r' hlost =>
      rw [hlook]
      exact .lost _ _ hlost

theorem close {r r' : α × Except Error β} (h : Departs report lost uses Eq r r') {l : Layer}
    (m : Mark) (build : Mark → α → Node l) (look : Except Error β → Except Error Ty)
    (hlook : ∀ e, look (.error e) = .error e) :
    Departs report lost uses Eq (m.close (build · r.1) (look r.2))
      (m.close (build · r'.1) (look r'.2)) := by
  cases h with
  | error a e =>
      rw [hlook]
      exact .error _ e
  | ok a huses hR =>
      cases hR
      exact .refl huses _
  | lost a r' hlost =>
      rw [hlook]
      exact .lost _ _ hlost

theorem integers {a b c : Layer} {left left' : Resolved a} {right right' : Resolved b}
    (hleft : Departs report lost uses Eq left left')
    (hright : Departs report lost others Eq right right') (m : Mark)
    (build : Mark → Node a → Node b → Node c) (line : Nat) (before : Node b) :
    Departs report lost (uses ++ others) Eq (m.integers build line left before right)
      (m.integers build line left' before right') := by
  cases hleft with
  | error a e => exact .error _ e
  | lost a r' hlost => exact .lost _ _ (hlost.append_right _)
  | ok a huses hR =>
      cases hR
      unfold Mark.integers
      dsimp only
      cases (Except.ok _ >>= Ty.expect [.int] line) with
      | error e => exact .error _ e
      | ok t =>
          exact (hright.close m (build · a ·) (· >>= Ty.expect [.int] line) fun _ => rfl).behind
            huses

end Departs

/-! ## Names that one of two scopes has lost -/

/-- The name of a use means the same with the locals of the environment and with other ones, or
it is not known, and the use is lost. -/
def Env.Keeps (env : Env) (outer : List DeclId) (lost : Prop) (name : String) : Prop :=
  ¬ lost ∧ { env with locals := outer }.find name = env.find name ∨
    lost ∧ env.find name = none

namespace Env.Keeps

variable {env : Env} {outer : List DeclId} {lost : Site × Nat → Prop} {x : Ident} {line : Nat}
  (h : env.Keeps outer (lost ({ use := x }, line)) x.name)
include h

theorem bind : Departs Site.refused lost [({ use := x }, line)] Eq (env.bind x line)
    ({ env with locals := outer }.bind x line) := by
  unfold Env.bind
  rcases h with ⟨hkept, h⟩ | ⟨hlost, h⟩
  · rw [h]
    exact .refl (List.forall_mem_singleton.mpr hkept) _
  · rw [h]
    exact .lost _ _ ⟨[], [], rfl, hlost, by simp⟩

theorem bindVariable : Departs Site.refused lost [({ use := x }, line)] Eq
    (env.bindVariable x line) ({ env with locals := outer }.bindVariable x line) := by
  have hbind := h.bind
  unfold Env.bindVariable
  generalize { env with locals := outer }.bind x line = r' at hbind
  generalize env.bind x line = r at hbind
  cases hbind with
  | error x' e => exact .error _ e
  | ok x' huses hR =>
      cases hR
      exact .refl huses _
  | lost x' r' hlost => exact .lost _ _ hlost

theorem element {l : Layer} (m : Mark) (build : Mark → Ident → Expr → Node l) (before : Expr)
    {uses : List (Site × Nat)} {index index' : Resolved .expr}
    (hindex : Departs Site.refused lost uses Eq index index') :
    Departs Site.refused lost (({ use := x }, line) :: uses) Eq
      (m.element build env line x before index)
      (m.element build { env with locals := outer } line x before index') := by
  have hbind := h.bindVariable
  unfold Mark.element
  generalize { env with locals := outer }.bindVariable x line = r' at hbind
  generalize env.bindVariable x line = r at hbind
  cases hbind with
  | error x' e => exact .error _ e
  | lost x' r' hlost => exact .lost _ _ (hlost.append_right uses)
  | ok x' huses hR =>
      cases hR
      dsimp only
      split
      next => exact .error _ _
      next element helement =>
        exact (hindex.close m (build · x' ·)
          (fun t => (t >>= Ty.expect [.int] (env.lineOf before.line)).map fun _ => element)
          fun _ => rfl).behind huses

end Env.Keeps

/-- A list of arguments is not longer than the list of parameters. -/
def Node.Meets {l : Layer} : Node l → List DeclId → Prop
  | .cons _ _, [] => False
  | .cons _ es, _ :: formals => es.Meets formals
  | _, _ => True

theorem Node.meets {l : Layer} (x : Node l) (formals : List DeclId) (hl : l ≠ .args := by decide) :
    x.Meets formals := by
  cases x with
  | cons => exact absurd rfl hl
  | _ => trivial

theorem Node.meets_of_count : ∀ {args : Node .args} {formals : List DeclId},
    formals.length = args.count → args.Meets formals
  | .nil, _, _ => trivial
  | .cons _ _, [], h => absurd h (Nat.zero_ne_add_one _)
  | .cons _ es, _ :: _, h => @meets_of_count es _ (Nat.succ.inj h)

/-- A node is resolved in the same way with two lists of locals that give its names the same
meanings, up to the first name that is lost. -/
theorem Node.resolve_departs {env : Env} {outer : List DeclId} {lost : Site × Nat → Prop}
    {l : Layer} (x : Node l)
    (hkeeps : ∀ u ∈ x.located env.line, env.Keeps outer (lost u) u.1.use.name)
    {formals : List DeclId} (hformals : x.Meets formals) :
    Departs Site.refused lost (x.located env.line) Eq (x.resolve env formals)
      (x.resolve { env with locals := outer } formals) := by
  induction x generalizing formals with
  | assign m t v iht ihv =>
      simp only [located, List.forall_mem_append] at hkeeps
      have ht := iht hkeeps.1 (t.meets [])
      simp only [resolve, located]
      generalize t.resolve env = r at ht
      generalize t.resolve { env with locals := outer } = r' at ht
      cases ht with
      | error => exact .error _ _
      | lost t' r' hlost => exact .lost _ _ (hlost.append_right _)
      | ok t' huses hR =>
          cases hR
          exact ((ihv hkeeps.2 (v.meets [])).close m (.assign · t' ·)
            (· >>= Ty.expect [_] (env.lineOf m.line)) fun _ => rfl).behind huses
  | comp m x ih | sum m x ih | term m x ih | unary m x ih | factor m x ih | paren m x ih =>
      exact (ih hkeeps (x.meets [])).close m _ (fun t => t) fun _ => rfl
  | neg m x ih =>
      exact (ih hkeeps (x.meets [])).close m .neg (· >>= Ty.expect [.int] (env.lineOf m.line))
        fun _ => rfl
  | deref m x ih =>
      exact (ih hkeeps (x.meets [])).close m .deref (· >>= Ty.follow (env.lineOf m.line))
        fun _ => rfl
  | addrOf m x ih =>
      exact (ih hkeeps (x.meets [])).close m .addrOf (fun t => do
        let t ← t >>= Ty.expect [.int, .string] (env.lineOf m.line)
        if x.place.isNone then throw (.notAddressable (env.lineOf m.line))
        return t.addressOf.getD .none) fun _ => rfl
  | rel m a op b iha ihb | add m a op b iha ihb | mul m a op b iha ihb =>
      simp only [located, List.forall_mem_append] at hkeeps
      exact (iha hkeeps.1 (a.meets [])).integers (ihb hkeeps.2 (b.meets [])) m _
        (env.lineOf m.line) b
  | setVar m x =>
      have hx := (hkeeps _ (List.mem_singleton_self _)).bindVariable
      simp only [resolve, located, Env.lineOf]
      generalize env.bindVariable x (orLine m.line env.line) = r at hx
      generalize { env with locals := outer }.bindVariable x (orLine m.line env.line) = r' at hx
      cases hx with
      | error => exact .error _ _
      | lost x' r' hlost => exact .lost _ _ hlost
      | ok x' huses hR =>
          cases hR
          exact .refl huses _
  | setDeref m x =>
      have hx := (hkeeps _ (List.mem_singleton_self _)).bindVariable
      exact hx.close m .setDeref (· >>= Ty.follow (env.lineOf m.line)) fun _ => rfl
  | var m x =>
      have hx := (hkeeps _ (List.mem_singleton_self _)).bindVariable
      exact hx.close m .var (fun t => t) fun _ => rfl
  | setElem m x i ih | elem m x i ih =>
      simp only [located, List.forall_mem_cons] at hkeeps
      exact hkeeps.1.element m _ i (ih hkeeps.2 (i.meets []))
  | call m f as ih =>
      simp only [located, List.forall_mem_cons] at hkeeps
      have hf := hkeeps.1.bind
      simp only [resolve, located, Env.lineOf]
      generalize env.bind f (orLine m.line env.line) = r at hf
      generalize { env with locals := outer }.bind f (orLine m.line env.line) = r' at hf
      cases hf with
      | error => exact .error _ _
      | lost f' r' hlost => exact .lost _ _ (hlost.append_right _)
      | @ok f' d _ huses hR =>
          cases hR
          dsimp only
          split
          · split
            next hcount =>
              exact ((ih hkeeps.2 (meets_of_count hcount)).close m (.call · f' ·)
                (·.map fun _ => d.ty) fun _ => rfl).behind huses
            next => exact .error _ _
          · exact .error _ _
  | num m n | str m text | read m | nil => exact .refl (by simp [located]) _
  | cons e es ihe ihes =>
      simp only [located, List.forall_mem_append] at hkeeps
      cases formals with
      | nil => exact hformals.elim
      | cons formal formals =>
          simp only [resolve, located]
          cases declared env.decls formal with
          | error err => exact .error _ err
          | ok d =>
              have he := ihe hkeeps.1 (e.meets [])
              simp only [Env.lineOf]
              generalize e.resolve env = r at he
              generalize e.resolve { env with locals := outer } = r' at he
              cases he with
              | error => exact .error _ _
              | lost e' r' hlost => exact .lost _ _ (hlost.append_right _)
              | ok e' huses hR =>
                  cases hR
                  split
                  · exact .error _ _
                  · exact ((ihes hkeeps.2 hformals).build (Node.cons e')).behind huses

/-! ## Locals that outlive their block -/

/-- The name of a use is declared by no local that is visible where each local ends with its
block, but by one whose block has ended: in the statement around the use, or before it. -/
structure Site.Lost (decls : List Decl) (inner gone : List DeclId) (s : Site) : Prop where
  visible : ∀ id ∈ inner, ¬ Named decls s.use.name id
  around : ∀ ids ∈ s.blocks, ∀ id ∈ ids, ¬ Named decls s.use.name id
  ended : ∃ id, (id ∈ gone ∨ id ∈ s.entered) ∧ Named decls s.use.name id

namespace Site

variable {decls : List Decl} {inner gone ids : List DeclId} (s : Site)

theorem lost_inside_iff :
    (s.inside ids).Lost decls inner gone ↔ s.Lost decls (ids.reverse ++ inner) gone := by
  constructor
  · intro h
    have hown : ∀ id ∈ ids, ¬ Named decls s.use.name id := h.around ids (by simp [inside])
    refine ⟨fun id hid => ?_, fun own hown => h.around own (List.mem_append_left _ hown), ?_⟩
    · rcases List.mem_append.mp hid with hid | hid
      · exact hown id (List.mem_reverse.mp hid)
      · exact h.visible id hid
    · obtain ⟨id, hgone | hentered, hnamed⟩ := h.ended
      · exact ⟨id, .inl hgone, hnamed⟩
      · rcases List.mem_append.mp hentered with hid | hid
        · exact absurd hnamed (hown id hid)
        · exact ⟨id, .inr hid, hnamed⟩
  · intro h
    refine ⟨fun id hid => h.visible id (List.mem_append_right _ hid), fun own hown id hid => ?_, ?_⟩
    · rcases List.mem_append.mp hown with hown | hown
      · exact h.around own hown id hid
      · cases List.mem_singleton.mp hown
        exact h.visible id (List.mem_append_left _ (List.mem_reverse.mpr hid))
    · obtain ⟨id, hgone | hentered, hnamed⟩ := h.ended
      · exact ⟨id, .inl hgone, hnamed⟩
      · exact ⟨id, .inr (List.mem_append_right _ hentered), hnamed⟩

theorem lost_behind_iff :
    (s.behind ids).Lost decls inner gone ↔ s.Lost decls inner (gone ++ ids) := by
  have hended (id : DeclId) :
      (id ∈ gone ∨ id ∈ (s.behind ids).entered) ↔ (id ∈ gone ++ ids ∨ id ∈ s.entered) := by
    simp [behind, or_assoc]
  constructor
  · rintro ⟨hvisible, haround, id, hid, hnamed⟩
    exact ⟨hvisible, haround, id, (hended id).mp hid, hnamed⟩
  · rintro ⟨hvisible, haround, id, hid, hnamed⟩
    exact ⟨hvisible, haround, id, (hended id).mpr hid, hnamed⟩

end Site

namespace Departs

variable {α β γ : Type} {decls : List Decl} {inner gone ids : List DeclId}
  {uses : List (Site × Nat)} {R : β → γ → Prop} {r : α × Except Error β} {r' : α × Except Error γ}

theorem seen_inside (h : Departs Site.refused
      (fun u => u.1.Lost decls (ids.reverse ++ inner) gone) uses R r r') :
    Departs Site.refused (fun u => u.1.Lost decls inner gone)
      (uses.map (Prod.map (Site.inside ids) id)) R r r' :=
  h.seen (fun _ => rfl) fun u _ => u.1.lost_inside_iff

theorem seen_behind
    (h : Departs Site.refused (fun u => u.1.Lost decls inner (gone ++ ids)) uses R r r') :
    Departs Site.refused (fun u => u.1.Lost decls inner gone)
      (uses.map (Prod.map (Site.behind ids) id)) R r r' :=
  h.seen (fun _ => rfl) fun u _ => u.1.lost_behind_iff

end Departs

/-- Different variables of a function have different names, and none has the name of an item. -/
structure FuncEnv.Unshadowed (cx : FuncEnv) (vars : List DeclId) : Prop where
  distinct : ∀ id ∈ vars, ∀ id' ∈ vars, ∀ name, Named cx.decls name id → Named cx.decls name id' →
    id = id'
  apart : ∀ id ∈ vars, ∀ name, Named cx.decls name id → cx.globals.lookup name = none

namespace FuncEnv

variable {cx : FuncEnv} {vars locals : List DeclId} {name : String} {id : DeclId}

theorem find_of_not_named (h : ∀ id ∈ locals, ¬ Named cx.decls name id) (line : Nat) :
    (cx.envAt line locals).find name = cx.globals.lookup name := by
  have hnone : locals.find? (fun id => cx.decls[id]?.any (·.name == name)) = none := by
    simpa only [List.find?_eq_none, any_name_iff] using h
  simp only [Env.find, envAt, hnone, Option.none_or]

/-- The order of the locals does not matter for a name that only one of them has. -/
theorem Unshadowed.find_eq (hvars : cx.Unshadowed vars) (hlocals : locals ⊆ vars)
    (hid : id ∈ locals) (hnamed : Named cx.decls name id) (line : Nat) :
    (cx.envAt line locals).find name = some id := by
  cases hfound : locals.find? (fun id => cx.decls[id]?.any (·.name == name)) with
  | none => exact absurd (any_name_iff.mpr hnamed) (List.find?_eq_none.mp hfound id hid)
  | some id' =>
      have hname := List.find?_some hfound
      have hmem := hlocals (List.mem_of_find?_eq_some hfound)
      obtain rfl := hvars.distinct id (hlocals hid) id' hmem name hnamed (any_name_iff.mp hname)
      simp only [Env.find, envAt, hfound, Option.some_or]

end FuncEnv

/-- The locals in scope in one place of a function: those still visible where each ends with
its block, and with them those that have ended. -/
structure Lags (vars inner outer gone : List DeclId) : Prop where
  subset : outer ⊆ vars
  mem_iff : ∀ id, id ∈ outer ↔ id ∈ inner ∨ id ∈ gone

namespace Lags

variable {vars inner outer gone ids : List DeclId} (h : Lags vars inner outer gone)
include h

theorem enter (hids : ids ⊆ vars) :
    Lags vars (ids.reverse ++ inner) (ids.reverse ++ outer) gone where
  subset := List.append_subset.mpr ⟨fun id hid => hids (List.mem_reverse.mp hid), h.subset⟩
  mem_iff := by
    intro id
    rw [List.mem_append, List.mem_append, h.mem_iff, or_assoc]

theorem leave (hids : ids ⊆ vars) : Lags vars inner (ids.reverse ++ outer) (gone ++ ids) where
  subset := List.append_subset.mpr ⟨fun id hid => hids (List.mem_reverse.mp hid), h.subset⟩
  mem_iff := by
    intro id
    rw [List.mem_append, List.mem_append, h.mem_iff, List.mem_reverse, or_comm, or_assoc]

/-- A name means the same with and without the locals that have ended, unless it is the name of
one of these only. -/
theorem keeps {cx : FuncEnv} (hvars : cx.Unshadowed vars) {lost : Prop} {name : String}
    (hlost : lost ↔ (∀ id ∈ inner, ¬ Named cx.decls name id) ∧
      ∃ id ∈ gone, Named cx.decls name id) (line : Nat) :
    (cx.envAt line inner).Keeps outer lost name := by
  have houter : inner ⊆ outer := fun id hid => (h.mem_iff id).mpr (.inl hid)
  by_cases hinner : ∃ id ∈ inner, Named cx.decls name id
  · obtain ⟨id, hid, hnamed⟩ := hinner
    have hnarrow := hvars.find_eq (List.Subset.trans houter h.subset) hid hnamed line
    have hwide := hvars.find_eq h.subset (houter hid) hnamed line
    exact .inl ⟨fun hl => (hlost.mp hl).1 id hid hnamed, hwide.trans hnarrow.symm⟩
  · have hinner : ∀ id ∈ inner, ¬ Named cx.decls name id := fun id hid hnamed =>
      hinner ⟨id, hid, hnamed⟩
    have hnarrow := FuncEnv.find_of_not_named hinner line
    by_cases hgone : ∃ id ∈ gone, Named cx.decls name id
    · obtain ⟨id, hid, hnamed⟩ := hgone
      rw [hvars.apart id (h.subset ((h.mem_iff id).mpr (.inr hid))) name hnamed] at hnarrow
      exact .inr ⟨hlost.mpr ⟨hinner, id, hid, hnamed⟩, hnarrow⟩
    · have hwide : ∀ id ∈ outer, ¬ Named cx.decls name id := by
        intro id hid hnamed
        rcases (h.mem_iff id).mp hid with hid | hid
        · exact hinner id hid hnamed
        · exact hgone ⟨id, hid, hnamed⟩
      exact .inl ⟨fun hl => hgone (hlost.mp hl).2,
        (FuncEnv.find_of_not_named hwide line).trans hnarrow.symm⟩

end Lags

theorem FuncEnv.enter_cases (cx : FuncEnv) (ids : List DeclId) :
    (∃ e, ∀ scope locals, { cx with scope }.enter ids locals = .error e) ∨
      ∀ scope locals, { cx with scope }.enter ids locals = .ok (ids.reverse ++ locals) := by
  induction ids with
  | nil => exact .inr fun _ _ => rfl
  | cons id rest ih =>
      simp only [enter]
      cases hd : declared cx.decls id with
      | error e => exact .inl ⟨e, fun _ _ => rfl⟩
      | ok d =>
          cases hcheck : d.checkVariable with
          | error e =>
              refine .inl ⟨e, fun _ _ => ?_⟩
              simp only [except_ok_bind, hcheck]
              rfl
          | ok u =>
              simp only [except_ok_bind, hcheck]
              rcases ih with ⟨e, he⟩ | hok
              · exact .inl ⟨e, fun scope locals => he scope _⟩
              · refine .inr fun scope locals => ?_
                rw [hok, List.reverse_cons, List.append_assoc]
                rfl

section Statements

variable {cx : FuncEnv} {vars : List DeclId} (hvars : cx.Unshadowed vars)
  {inner outer gone : List DeclId}
include hvars

theorem Node.resolve_lags (hlags : Lags vars inner outer gone) (e : Expr) (line : Nat) :
    Departs Site.refused (fun u => u.1.Lost cx.decls inner gone) (e.located line) Eq
      (e.resolve (cx.envAt line inner)) (e.resolve (cx.envAt line outer)) := by
  refine e.resolve_departs (fun u hu => hlags.keeps hvars ?_ line) (e.meets [])
  -- Within an expression no block is entered.
  have hsite : u.1 ∈ e.sites := by
    rw [← e.located_sites line]
    exact List.mem_map_of_mem hu
  obtain ⟨use, -, hsite⟩ := List.mem_map.mp hsite
  rw [← hsite]
  constructor
  · rintro ⟨hvisible, -, id, hid, hnamed⟩
    exact ⟨hvisible, id, hid.resolve_right List.not_mem_nil, hnamed⟩
  · rintro ⟨hvisible, id, hid, hnamed⟩
    exact ⟨hvisible, fun _ hids => absurd hids List.not_mem_nil, id, .inl hid, hnamed⟩

theorem FuncEnv.expect_lags (hlags : Lags vars inner outer gone) (e : Expr) (line : Nat)
    (expected : List Ty) :
    Departs Site.refused (fun u => u.1.Lost cx.decls inner gone) (e.located line) Eq
      ({ cx with scope := .block }.expect line inner expected e)
      ({ cx with scope := .function }.expect line outer expected e) :=
  (e.resolve_lags hvars hlags line).look (fun e => e)
    (fun t => (t >>= Ty.expect expected line).map fun _ => ()) fun _ => rfl

/-- A statement is resolved in the same way with the two scopes, up to the first use of a local
whose block has ended. Behind it the locals of its own blocks have ended, or are still there. -/
theorem Clause.resolve_departs {f : Form} (c : Clause f) (hlags : Lags vars inner outer gone)
    (hown : c.locals ⊆ vars) (line : Nat) :
    Departs Site.refused (fun u => u.1.Lost cx.decls inner gone) (c.located line)
      (fun inner' outer' => inner' = inner ∧ outer' = c.locals.reverse ++ outer)
      (c.resolve { cx with scope := .block } line inner)
      (c.resolve { cx with scope := .function } line outer) := by
  induction c generalizing inner outer gone line with
  | eval own e =>
      cases e with
      | none => exact .ok _ (by simp [located]) ⟨rfl, rfl⟩
      | some e =>
          exact (e.resolve_lags hvars hlags (orLine own line)).map (eval own ∘ some)
            fun _ _ _ => ⟨rfl, rfl⟩
  | ret own e =>
      cases e with
      | none =>
          simp only [resolve]
          cases Ty.expect [cx.ret] (orLine own line) .void with
          | error e => exact .error _ e
          | ok t => exact .ok _ (by simp [located]) ⟨rfl, rfl⟩
      | some e =>
          exact (FuncEnv.expect_lags hvars hlags e (orLine own line) [cx.ret]).map
            (ret own ∘ some) fun _ _ _ => ⟨rfl, rfl⟩
  | write own e =>
      cases e with
      | none => exact .ok _ (by simp [located]) ⟨rfl, rfl⟩
      | some e =>
          exact (FuncEnv.expect_lags hvars hlags e (orLine own line) [.int, .string]).map
            (write own ∘ some) fun _ _ _ => ⟨rfl, rfl⟩
  | absent | nil => exact .ok _ (by simp [located]) ⟨rfl, rfl⟩
  | braces own b ih => exact (ih hlags hown (orLine own line)).build (braces own)
  | present s ih => exact (ih hlags hown line).build present
  | loop own e s ih =>
      have he := FuncEnv.expect_lags hvars hlags e (orLine own line) [.int]
      simp only [resolve, located]
      generalize { cx with scope := .block }.expect (orLine own line) inner [.int] e = r at he
      generalize { cx with scope := .function }.expect (orLine own line) outer [.int] e = r' at he
      cases he with
      | error => exact .error _ _
      | lost e' r' hlost => exact .lost _ _ (hlost.append_right _)
      | ok e' huses =>
          exact ((ih hlags hown (orLine own line)).build (loop own e')).behind huses
  | ifElse own e s t ihs iht =>
      simp only [locals, List.append_subset] at hown
      have he := FuncEnv.expect_lags hvars hlags e (orLine own line) [.int]
      have hs := ihs hlags hown.1 (orLine own line)
      simp only [resolve, located]
      generalize { cx with scope := .block }.expect (orLine own line) inner [.int] e = r at he
      generalize { cx with scope := .function }.expect (orLine own line) outer [.int] e = r' at he
      cases he with
      | error => exact .error _ _
      | lost e' r' hlost => exact .lost _ _ (hlost.append_right _)
      | ok e' huses =>
          dsimp only
          generalize s.resolve { cx with scope := .block } (orLine own line) inner = r at hs
          generalize s.resolve { cx with scope := .function } (orLine own line) outer = r' at hs
          cases hs with
          | error => exact .error _ _
          | lost s' r' hlost => exact .lost _ _ ((hlost.append_right _).append_left huses)
          | ok s' hthen hlocals =>
              obtain ⟨rfl, rfl⟩ := hlocals
              have ht := (iht (hlags.leave hown.1) hown.2 (orLine own line)).seen_behind
              simp only [locals, List.reverse_append, List.append_assoc]
              exact ((ht.build (ifElse own e' s')).behind hthen).behind huses
  | cons s rest ihs ihrest =>
      simp only [locals, List.append_subset] at hown
      have hs := ihs hlags hown.1 line
      simp only [resolve, located]
      generalize s.resolve { cx with scope := .block } line inner = r at hs
      generalize s.resolve { cx with scope := .function } line outer = r' at hs
      cases hs with
      | error => exact .error _ _
      | lost s' r' hlost => exact .lost _ _ (hlost.append_right _)
      | ok s' huses hlocals =>
          obtain ⟨rfl, rfl⟩ := hlocals
          have hrest := (ihrest (hlags.leave hown.1) hown.2 line).seen_behind
          simp only [locals, List.reverse_append, List.append_assoc]
          exact (hrest.build (cons s')).behind huses
  | block own ids stmts size span ih =>
      simp only [locals, List.append_subset] at hown
      simp only [resolve, located]
      rcases cx.enter_cases ids with ⟨e, he⟩ | hok
      · rw [he, he]
        exact .error _ e
      · rw [hok, hok]
        have hstmts := (ih (hlags.enter hown.1) hown.2 (orLine own line)).seen_inside
        dsimp only
        generalize stmts.resolve { cx with scope := .block } _ _ = r at hstmts
        generalize stmts.resolve { cx with scope := .function } _ _ = r' at hstmts
        cases hstmts with
        | error => exact .error _ _
        | lost stmts' r' hlost => exact .lost _ _ hlost
        | ok stmts' huses hlocals =>
            obtain ⟨-, rfl⟩ := hlocals
            refine .ok _ huses ⟨rfl, ?_⟩
            rw [locals, List.reverse_append, List.append_assoc]

end Statements

/-! ## Programs -/

/-- The uses in the body of a function, with the function. -/
def Item.located (decls : List Decl) : Item → List (Func × Site × Nat)
  | .var _ => []
  | .func f => (f.body.located (decls[f.decl]?.elim 0 Decl.line)).map (f, ·)

/-- The locals of the blocks that a use stands in or behind are among the given ones. -/
structure Site.Within (ids : List DeclId) (s : Site) : Prop where
  entered : s.entered ⊆ ids
  blocks : ∀ own ∈ s.blocks, own ⊆ ids

namespace Site.Within

variable {ids ids' : List DeclId} {s : Site}

theorem mono (h : s.Within ids) (hsub : ids ⊆ ids') : s.Within ids' :=
  ⟨List.Subset.trans h.entered hsub, fun own hown => List.Subset.trans (h.blocks own hown) hsub⟩

theorem behind (h : s.Within ids) (ids' : List DeclId) : (s.behind ids').Within (ids' ++ ids) where
  entered := List.append_subset.mpr ⟨List.subset_append_left _ _,
    List.subset_append_of_subset_right _ h.entered⟩
  blocks own hown := List.subset_append_of_subset_right _ (h.blocks own hown)

theorem inside (h : s.Within ids) (ids' : List DeclId) : (s.inside ids').Within (ids' ++ ids) where
  entered := (h.behind ids').entered
  blocks own hown := by
    rcases List.mem_append.mp hown with hown | hown
    · exact (h.behind ids').blocks own hown
    · rw [List.mem_singleton.mp hown]
      exact List.subset_append_left _ _

end Site.Within

theorem Clause.sites_within {f : Form} (c : Clause f) : ∀ s ∈ c.sites, s.Within c.locals := by
  have hnode (e : Expr) (ids : List DeclId) : ∀ s ∈ e.sites, s.Within ids := by
    intro s hs
    obtain ⟨use, -, rfl⟩ := List.mem_map.mp hs
    exact ⟨List.nil_subset _, by simp⟩
  induction c with
  | eval _ e | ret _ e | write _ e =>
      cases e with
      | none => simp [sites]
      | some e => exact hnode e _
  | braces _ _ ih | present _ ih => exact ih
  | loop _ e s ih => exact List.forall_mem_append.mpr ⟨hnode e _, ih⟩
  | ifElse _ e s t ihs iht =>
      simp only [sites, locals, List.forall_mem_append, List.forall_mem_map]
      exact ⟨hnode e _, fun s hs => (ihs s hs).mono (List.subset_append_left _ _),
        fun s hs => (iht s hs).behind _⟩
  | cons s rest ihs ihrest =>
      simp only [sites, locals, List.forall_mem_append, List.forall_mem_map]
      exact ⟨fun s hs => (ihs s hs).mono (List.subset_append_left _ _),
        fun s hs => (ihrest s hs).behind _⟩
  | block _ ids stmts _ _ ih =>
      simp only [sites, locals, List.forall_mem_map]
      exact fun s hs => (ih s hs).inside ids
  | absent | nil => simp [sites]

namespace Program

/-- All uses of names in the functions of a program, with the lines that they are reported on. -/
def located (p : Program) : List (Func × Site × Nat) :=
  p.items.flatMap (Item.located p.decls)

/-- In every function different parameters and locals have different names, and none of them
has the name of an item. -/
structure Unshadowed (p : Program) : Prop where
  distinct : ∀ f, .func f ∈ p.items → ∀ id ∈ (Item.func f).vars p.decls,
    ∀ id' ∈ (Item.func f).vars p.decls, ∀ name, Named p.decls name id → Named p.decls name id' →
      id = id'
  apart : ∀ f, .func f ∈ p.items → ∀ id ∈ (Item.func f).vars p.decls, ∀ item ∈ p.items,
    ∀ name, Named p.decls name id → ¬ Named p.decls name item.id

/-- A use is of a local that is no parameter, and behind the block of the local. -/
def UsesEnded (p : Program) (u : Func × Site × Nat) : Prop :=
  ∃ id ∈ u.2.1.entered, (∀ ids ∈ u.2.1.blocks, id ∉ ids) ∧ id ∉ paramsAt p.decls u.1.decl ∧
    Named p.decls u.2.1.use.name id

theorem Unshadowed.usesEnded_iff {p : Program} (h : p.Unshadowed) {f : Func}
    (hf : .func f ∈ p.items) {s : Site} (hs : s ∈ f.body.sites) (line : Nat) :
    p.UsesEnded (f, s, line) ↔ s.Lost p.decls (paramsAt p.decls f.decl).reverse [] := by
  obtain ⟨hentered, hblocks⟩ := f.body.sites_within s hs
  have hlocals : f.body.locals ⊆ (Item.func f).vars p.decls := List.subset_append_right _ _
  constructor
  · rintro ⟨id, hid, hout, hparam, hnamed⟩
    have hsame {id' : DeclId} (hid' : id' ∈ (Item.func f).vars p.decls)
        (hnamed' : Named p.decls s.use.name id') : id' = id :=
      h.distinct f hf id' hid' id (hlocals (hentered hid)) _ hnamed' hnamed
    refine ⟨fun id' hid' hnamed' => ?_, fun ids hids id' hid' hnamed' => ?_, id, .inr hid, hnamed⟩
    · rw [List.mem_reverse] at hid'
      obtain rfl := hsame (List.mem_append_left _ hid') hnamed'
      exact hparam hid'
    · obtain rfl := hsame (hlocals (hblocks ids hids hid')) hnamed'
      exact hout ids hids hid'
  · rintro ⟨hvisible, haround, id, hid, hnamed⟩
    refine ⟨id, hid.resolve_left List.not_mem_nil, fun ids hids hmem => ?_, fun hparam => ?_,
      hnamed⟩
    · exact haround ids hids id hmem hnamed
    · exact hvisible id (List.mem_reverse.mpr hparam) hnamed

end Program

namespace Item

variable {p : Program} (h : p.Unshadowed) {before : List Item} {globals : Globals}
  (hknown : Known p.decls before globals)
include h hknown

/-- The variables of a function have other names than the items that its body knows. -/
theorem bodyEnv_unshadowed {f : Func} (hitems : before ++ [.func f] ⊆ p.items) {d : Decl}
    (hd : p.decls[f.decl]? = some d) (hfresh : some d.name ∉ before.map (Item.name? p.decls)) :
    (bodyEnv p.decls .block globals f d).Unshadowed ((Item.func f).vars p.decls) := by
  have hf : .func f ∈ p.items := hitems (by simp)
  have hbehind : Known p.decls (before ++ [.func f]) ((d.name, f.decl) :: globals) :=
    @Known.append _ _ _ hknown (.func f) _ hd hfresh
  refine ⟨h.distinct f hf, fun id hid name hnamed => ?_⟩
  rw [bodyEnv, hbehind name, itemNames_eq_none_iff]
  intro hmem
  obtain ⟨item, hitem, hname⟩ := List.mem_map.mp hmem
  exact h.apart f hf id hid item (hitems hitem) name hnamed (Option.map_eq_some_iff.mp hname)

theorem resolve_departs {item : Item} (hitems : before ++ [item] ⊆ p.items) :
    Departs (fun u => Site.refused u.2) p.UsesEnded (item.located p.decls) Eq
      (item.resolve p.decls .block globals) (item.resolve p.decls .function globals) := by
  cases item with
  | var id => exact .refl (by simp [located]) _
  | func f =>
      simp only [resolve]
      split
      next => exact .error _ _
      next d globals' hopen =>
        simp only [except_bind_eq_ok_iff, except_pure_eq_ok_iff, declared_eq_ok_iff,
          hknown.insert_eq_ok_iff, Prod.mk.injEq] at hopen
        obtain ⟨d, hd, _, ⟨hfresh, rfl⟩, -, -, rfl, rfl⟩ := hopen
        have hparams : paramsAt p.decls f.decl = d.params := by simp [paramsAt, hd]
        have hlags : Lags ((Item.func f).vars p.decls) d.params.reverse d.params.reverse [] := by
          refine ⟨fun id hid => ?_, by simp⟩
          rw [vars, hparams]
          exact List.mem_append_left _ (List.mem_reverse.mp hid)
        have hbody := f.body.resolve_departs (bodyEnv_unshadowed h hknown hitems hd hfresh) hlags
          (List.subset_append_right _ _) d.line
        rw [located, hd]
        refine (hbody.map (fun body => Item.func { f with body }) fun _ _ _ => rfl).seen
          (fun _ => rfl) fun u hu => ?_
        have hsite : u.1 ∈ f.body.sites := by
          rw [← f.body.located_sites d.line]
          exact List.mem_map_of_mem hu
        have hiff := h.usesEnded_iff (hitems (by simp)) hsite u.2
        rwa [hparams] at hiff

theorem resolveAll_departs {items : List Item} (hitems : before ++ items ⊆ p.items) :
    Departs (fun u => Site.refused u.2) p.UsesEnded (items.flatMap (Item.located p.decls)) Eq
      (resolveAll p.decls .block globals items) (resolveAll p.decls .function globals items) := by
  induction items generalizing before globals with
  | nil => exact .refl (by simp) _
  | cons item rest ih =>
      have hsplit : before ++ [item] ++ rest ⊆ p.items := by simpa using hitems
      have hitem := resolve_departs h hknown fun i hi => hsplit (List.mem_append_left _ hi)
      simp only [resolveAll, List.flatMap_cons]
      rcases hblock : item.resolve p.decls .block globals with ⟨item', r⟩
      rw [hblock] at hitem
      generalize item.resolve p.decls .function globals = r' at hitem
      cases hitem with
      | error => exact .error _ _
      | lost item' r' hlost => exact .lost _ _ (hlost.append_right _)
      | ok item' huses hglobals =>
          subst hglobals
          obtain ⟨hadmitted, d, hd, rfl⟩ := (resolve_eq_ok_iff hknown).mp hblock
          obtain ⟨d', hd', hfresh⟩ := hadmitted.decl
          cases hd.symm.trans hd'
          exact ((ih (hknown.append hd hfresh) hsplit).build (item' :: ·)).behind huses

end Item

namespace Program

/-- Without shadowing, resolution goes the same way with both scopes, up to the first use of a
local behind its block. -/
theorem resolve_departs {p : Program} (h : p.Unshadowed) :
    Departs (fun u => Site.refused u.2) p.UsesEnded p.located Eq (p.resolve .block)
      (p.resolve .function) := by
  have hempty : Item.Known p.decls [] [] := fun _ => rfl
  exact (Item.resolveAll_departs h hempty (List.Subset.refl p.items)).build fun items =>
    { p with items }

theorem mem_located {p : Program} {u : Func × Site × Nat} (h : u ∈ p.located) :
    .func u.1 ∈ p.items ∧ u.2.1 ∈ u.1.body.sites := by
  obtain ⟨item, hitem, h⟩ := List.mem_flatMap.mp h
  cases item with
  | var id => cases h
  | func f =>
      obtain ⟨u, hu, rfl⟩ := List.mem_map.mp h
      refine ⟨hitem, ?_⟩
      rw [← Clause.located_sites]
      exact List.mem_map_of_mem hu

/-- Without shadowing, a program that is accepted where locals end with their block is accepted
where they do not, and is resolved to the same tree. If it is accepted only where they do not,
then it is refused otherwise for an undeclared name. What is refused, with its name and on its
line, is the first use in the program of a local of the same function whose block has ended before
the use. -/
theorem scopes_differ_by_ended_locals {p : Program} (h : p.Unshadowed) :
    (∀ q, p.resolve .block = (q, .ok ()) → p.resolve .function = (q, .ok ())) ∧
    ∀ q q' e, p.resolve .function = (q, .ok ()) → p.resolve .block = (q', .error e) →
      ∃ f s id line, .func f ∈ p.items ∧ s ∈ f.body.sites ∧ e = .undeclared s.use.name line ∧
        id ∈ s.entered ∧ (∀ ids ∈ s.blocks, id ∉ ids) ∧ Named p.decls s.use.name id ∧
        FirstOf p.UsesEnded p.located (f, s, line) := by
  have hdeparts := resolve_departs h
  constructor
  · intro q hblock
    rw [hblock] at hdeparts
    generalize p.resolve .function = r at hdeparts
    cases hdeparts with
    | ok _ _ hR => rw [← hR]
  · intro q q' e hfunction hblock
    rw [hblock, hfunction] at hdeparts
    cases hdeparts with
    | @lost q' u r hfirst =>
        obtain ⟨hf, hs⟩ := mem_located hfirst.mem
        obtain ⟨id, hentered, hblocks, -, hnamed⟩ := hfirst.holds
        exact ⟨u.1, u.2.1, id, u.2.2, hf, hs, rfl, hentered, hblocks, hnamed, hfirst⟩

end Program

namespace Outliving

/-- A parameter, a local of the body, and a local of a block behind which a name is used. -/
def main (last : String) : Func where
  decl := 1
  body := .ofStmts [2] [
    .block (.ofStmts [3] [.expr (.setVar "k" (.var "n"))]),
    .write (.var last)]

def program (last : String) : Program where
  decls := [.param 1 .int "n", { line := 1, name := "main", base := .void, kind := .func [0] },
    .var 2 .int "m", .var 3 .int "k"]
  items := [.func (main last)]

theorem unshadowed (last : String) : (program last).Unshadowed := by
  have hvars : ∀ f, .func f ∈ (program last).items →
      (Item.func f).vars (program last).decls = [0, 2, 3] := by
    intro f hf
    obtain rfl : f = main last := by simpa [program] using hf
    rfl
  constructor
  · rintro f hf id hid id' hid' name ⟨d, hd, rfl⟩ ⟨d', hd', hname⟩
    simp only [hvars f hf, List.mem_cons, List.not_mem_nil, or_false] at hid hid'
    rcases hid with rfl | rfl | rfl <;> rcases hid' with rfl | rfl | rfl <;> cases hd <;>
      cases hd' <;> first | rfl | exact absurd hname (by decide)
  · rintro f hf id hid item hitem name ⟨d, hd, rfl⟩ ⟨d', hd', hname⟩
    simp only [hvars f hf, List.mem_cons, List.not_mem_nil, or_false] at hid
    obtain rfl : item = .func (main last) := by simpa [program] using hitem
    rcases hid with rfl | rfl | rfl <;> cases hd <;> cases hd' <;> exact absurd hname (by decide)

/-- Writing the parameter is accepted with both scopes. Writing the local of the block is refused
where locals end with their block, and the use refused stands behind that block. -/
theorem ended_local_refused :
    (∃ q, (program "n").resolve .function = (q, .ok ())) ∧
      ∃ s ∈ (main "k").body.sites,
        s.use.name = "k" ∧ 3 ∈ s.entered ∧ (∀ ids ∈ s.blocks, 3 ∉ ids) ∧
        FirstOf (program "k").UsesEnded (program "k").located (main "k", s, 1) := by
  obtain ⟨hboth, -⟩ := Program.scopes_differ_by_ended_locals (unshadowed "n")
  obtain ⟨-, hrefused⟩ := Program.scopes_differ_by_ended_locals (unshadowed "k")
  refine ⟨⟨_, hboth _ rfl⟩, ?_⟩
  obtain ⟨f, s, id, line, hf, hs, herror, hentered, hblocks, hnamed, hfirst⟩ :=
    hrefused _ _ _ rfl rfl
  obtain rfl : f = main "k" := by simpa [program] using hf
  injection herror with hname hline
  subst hline
  rw [← hname] at hnamed
  obtain rfl : id = 3 := by
    obtain ⟨d, hd, hk⟩ := hnamed
    rcases id with _ | _ | _ | _ | id
    all_goals cases hd <;> first | rfl | exact absurd hk (by decide)
  exact ⟨s, hs, hname.symm, hentered, hblocks, hfirst⟩

end Outliving

end Backend
