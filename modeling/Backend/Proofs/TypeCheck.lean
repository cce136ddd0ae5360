import Backend.Proofs.Outcome
import Backend.Proofs.Typing
import Backend.Resolve.Program

/-! # Resolution follows the typing rules

Resolving a tree succeeds exactly when the rules accept it, and what it fills in is
what the derivation says. Expressions come first, then statements, then programs.
-/

namespace Backend

/-- A name has one meaning. -/
theorem Means.unique {decls : List Decl} {Γ : Meaning} {x y z : Ident} {d d' : Decl}
    (hy : Means decls Γ x y d) (hz : Means decls Γ x z d') : y = z ∧ d = d' := by
  obtain ⟨id, hid, hd, rfl⟩ := hy
  obtain ⟨id', hid', hd', rfl⟩ := hz
  rw [hid] at hid'
  cases hid'
  rw [hd] at hd'
  cases hd'
  exact ⟨rfl, rfl⟩

namespace Ty

theorem expect_eq_ok_iff {expected : List Ty} {line : Nat} {got t : Ty} :
    expect expected line got = .ok t ↔ got ∈ expected ∧ t = got := by
  by_cases h : got ∈ expected <;> simp [expect, h, eq_comm]

theorem follow_eq_ok_iff {line : Nat} {pointer t : Ty} :
    follow line pointer = .ok t ↔ pointer.pointee = some t := by
  unfold follow
  split <;> simp_all

theorem accepts_iff {t u : Ty} : t.Accepts u ↔ u = t.stored := by
  constructor
  · rintro (⟨hs, hu⟩ | ht)
    · simp [stored, assignableAddress, hs, hu]
    · simp [stored, assignableAddress, ht]
  · rintro rfl
    cases t with
    | intPtr => exact .address rfl rfl
    | stringPtr => exact .address rfl rfl
    | _ => exact .same rfl

theorem addressOf_eq_some_iff {t u : Ty} :
    t.addressOf = some u ↔ t ∈ [Ty.int, Ty.string] ∧ u = t.addressOf.getD .none := by
  cases t <;> simp [addressOf, eq_comm]

end Ty

namespace Env

theorem bind_eq_ok_iff {env : Env} {x x' : Ident} {line : Nat} {d : Decl} :
    env.bind x line = (x', .ok d) ↔ Means env.decls env.find x x' d := by
  unfold bind Means declared
  cases hfind : env.find x.name with
  | none => simp
  | some id =>
      cases hd : env.decls[id]? with
      | none => simp [hd]
      | some d' => simp [hd, and_comm, eq_comm]

theorem bindVariable_eq_ok_iff {env : Env} {x x' : Ident} {line : Nat} {t : Ty} :
    env.bindVariable x line = (x', .ok t) ↔
      ∃ d, Means env.decls env.find x x' d ∧ d.isFunc = false ∧ t = d.ty := by
  unfold bindVariable
  rcases hbind : env.bind x line with ⟨y, e | d⟩
  · constructor
    · simp
    · rintro ⟨d, hmeans, -⟩
      rw [bind_eq_ok_iff.mpr hmeans] at hbind
      simp at hbind
  · constructor
    · intro h
      cases hfunc : d.isFunc with
      | true => simp [hfunc] at h
      | false =>
          simp only [hfunc, Bool.false_eq_true, ↓reduceIte, Prod.mk.injEq, Except.ok.injEq] at h
          obtain ⟨rfl, rfl⟩ := h
          exact ⟨d, bind_eq_ok_iff.mp hbind, hfunc, rfl⟩
    · rintro ⟨d', hmeans, hfunc, rfl⟩
      rw [bind_eq_ok_iff.mpr hmeans] at hbind
      cases hbind
      simp [hfunc]

end Env

namespace Mark

theorem close_eq_ok_iff {l : Layer} {m : Mark} {build : Mark → Node l} {type : Except Error Ty}
    {x' : Node l} {t : Ty} :
    m.close build type = (x', .ok t) ↔ type = .ok t ∧ x' = build { m with ty := t } := by
  cases type with
  | error e => simp [close]
  | ok u =>
      simp only [close, Prod.mk.injEq, Except.ok.injEq]
      constructor
      · rintro ⟨rfl, rfl⟩
        exact ⟨rfl, rfl⟩
      · rintro ⟨rfl, rfl⟩
        exact ⟨rfl, rfl⟩

theorem integers_eq_ok_iff {a b c : Layer} {m : Mark} {build : Mark → Node a → Node b → Node c}
    {line : Nat} {left : Resolved a} {before : Node b} {right : Resolved b} {x' : Node c} {t : Ty} :
    m.integers build line left before right = (x', .ok t) ↔
      left.2 = .ok .int ∧ right.2 = .ok .int ∧ t = .int ∧
        x' = build { m with ty := .int } left.1 right.1 := by
  have hint (r : Except Error Ty) (u : Ty) :
      r >>= Ty.expect [.int] line = .ok u ↔ r = .ok .int ∧ u = .int := by
    rw [except_bind_eq_ok_iff]
    constructor
    · rintro ⟨v, hr, hv⟩
      obtain ⟨hmem, rfl⟩ := Ty.expect_eq_ok_iff.mp hv
      rw [List.mem_singleton] at hmem
      subst hmem
      exact ⟨hr, rfl⟩
    · rintro ⟨hr, rfl⟩
      exact ⟨.int, hr, Ty.expect_eq_ok_iff.mpr ⟨by simp, rfl⟩⟩
  unfold integers
  cases hleft : left.2 >>= Ty.expect [.int] line with
  | error e =>
      constructor
      · simp
      · rintro ⟨hl, -⟩
        rw [(hint left.2 .int).mpr ⟨hl, rfl⟩] at hleft
        cases hleft
  | ok u =>
      obtain ⟨hl, rfl⟩ := (hint left.2 u).mp hleft
      simp only [close_eq_ok_iff, hint]
      constructor
      · rintro ⟨⟨hr, rfl⟩, rfl⟩
        exact ⟨hl, hr, rfl, rfl⟩
      · rintro ⟨-, hr, rfl, rfl⟩
        exact ⟨⟨hr, rfl⟩, rfl⟩

theorem element_eq_ok_iff {l : Layer} {m : Mark} {build : Mark → Ident → Expr → Node l} {env : Env}
    {line : Nat} {x : Ident} {before : Expr} {index : Resolved .expr} {x' : Node l} {t : Ty} :
    m.element build env line x before index = (x', .ok t) ↔
      ∃ y d, Means env.decls env.find x y d ∧ d.isFunc = false ∧ d.ty.element = some t ∧
        index.2 = .ok .int ∧ x' = build { m with ty := t } y index.1 := by
  unfold element
  rcases hbind : env.bindVariable x line with ⟨y, e | array⟩
  · constructor
    · simp
    · rintro ⟨z, d, hmeans, hfunc, -⟩
      rw [Env.bindVariable_eq_ok_iff.mpr ⟨d, hmeans, hfunc, rfl⟩] at hbind
      cases hbind
  · obtain ⟨d, hmeans, hfunc, rfl⟩ := Env.bindVariable_eq_ok_iff.mp hbind
    dsimp only
    cases helem : d.ty.element with
    | none =>
        constructor
        · simp
        · rintro ⟨z, d', hz, -, helem', -⟩
          obtain ⟨rfl, rfl⟩ := hmeans.unique hz
          rw [helem] at helem'
          cases helem'
    | some u =>
        simp only [close_eq_ok_iff, except_map_eq_ok_iff, except_bind_eq_ok_iff,
          Ty.expect_eq_ok_iff, List.mem_singleton]
        constructor
        · rintro ⟨⟨v, ⟨w, hw, rfl, rfl⟩, rfl⟩, rfl⟩
          exact ⟨y, d, hmeans, hfunc, helem, hw, rfl⟩
        · rintro ⟨z, d', hz, -, helem', hindex, rfl⟩
          obtain ⟨rfl, rfl⟩ := hmeans.unique hz
          rw [helem] at helem'
          cases helem'
          exact ⟨⟨.int, ⟨.int, hindex, rfl, rfl⟩, rfl⟩, rfl⟩

end Mark

namespace Node

/-- What is resolved has a derivation. The parameters that arguments are held against
are as many as the arguments, which the check of a call has made sure of. -/
theorem typed_of_resolve {l : Layer} {env : Env} (x : Node l) {formals : List DeclId} {x' : Node l}
    {t : Ty} (hcount : l = .args → formals.length = x.count)
    (h : x.resolve env formals = (x', .ok t)) :
    ∃ ts, Typed env.decls env.find x x' ts ∧ (l ≠ .args → ts = [t]) ∧
      (l = .args → Formals env.decls formals ts) := by
  induction x generalizing formals t with
  | assign m target value ihtarget ihvalue =>
      rw [resolve] at h
      rcases htarget : target.resolve env with ⟨target', e | u⟩
      · simp [htarget] at h
      · rcases hvalue : value.resolve env with ⟨value', r⟩
        simp only [htarget, hvalue, Mark.close_eq_ok_iff, except_bind_eq_ok_iff,
          Ty.expect_eq_ok_iff, List.mem_singleton] at h
        obtain ⟨⟨v, rfl, hstored, rfl⟩, rfl⟩ := h
        obtain ⟨_, hdtarget, hone, -⟩ := ihtarget (by simp) htarget
        obtain ⟨_, hdvalue, hone', -⟩ := ihvalue (by simp) hvalue
        obtain rfl := hone (by simp)
        obtain rfl := hone' (by simp)
        exact ⟨_, .assign hdtarget hdvalue (Ty.accepts_iff.mpr hstored), by simp, by simp⟩
  | comp m y ih | sum m y ih | term m y ih | unary m y ih | factor m y ih | paren m y ih =>
      rcases hy : y.resolve env with ⟨y', r⟩
      simp only [resolve, hy, Mark.close_eq_ok_iff] at h
      obtain ⟨rfl, rfl⟩ := h
      obtain ⟨_, hd, hone, -⟩ := ih (by simp) hy
      obtain rfl := hone (by simp)
      exact ⟨_, by constructor; exact hd, by simp, by simp⟩
  | setVar m y =>
      rw [resolve] at h
      rcases hbind : env.bindVariable y (env.lineOf m.line) with ⟨y', e | u⟩
      · simp [hbind] at h
      · obtain ⟨d, hmeans, hfunc, rfl⟩ := Env.bindVariable_eq_ok_iff.mp hbind
        cases harray : d.ty.isArray with
        | true => simp [hbind, harray, Mark.close] at h
        | false =>
            simp only [hbind, harray, Mark.close_eq_ok_iff, Bool.false_eq_true, ↓reduceIte,
              Except.ok.injEq] at h
            obtain ⟨rfl, rfl⟩ := h
            exact ⟨_, .setVar hmeans hfunc harray, by simp, by simp⟩
  | setElem m y index ih =>
      rw [resolve, Mark.element_eq_ok_iff] at h
      obtain ⟨y', d, hmeans, hfunc, helem, hindex, rfl⟩ := h
      obtain ⟨_, hd, hone, -⟩ := ih (by simp) (Prod.ext rfl hindex)
      obtain rfl := hone (by simp)
      exact ⟨_, .setElem hmeans hfunc helem hd, by simp, by simp⟩
  | elem m y index ih =>
      rw [resolve, Mark.element_eq_ok_iff] at h
      obtain ⟨y', d, hmeans, hfunc, helem, hindex, rfl⟩ := h
      obtain ⟨_, hd, hone, -⟩ := ih (by simp) (Prod.ext rfl hindex)
      obtain rfl := hone (by simp)
      exact ⟨_, .elem hmeans hfunc helem hd, by simp, by simp⟩
  | setDeref m y =>
      rcases hbind : env.bindVariable y (env.lineOf m.line) with ⟨y', r⟩
      simp only [resolve, hbind, Mark.close_eq_ok_iff, except_bind_eq_ok_iff,
        Ty.follow_eq_ok_iff] at h
      obtain ⟨⟨u, rfl, hpointee⟩, rfl⟩ := h
      obtain ⟨d, hmeans, hfunc, rfl⟩ := Env.bindVariable_eq_ok_iff.mp hbind
      exact ⟨_, .setDeref hmeans hfunc hpointee, by simp, by simp⟩
  | rel m a op b iha ihb | add m a op b iha ihb | mul m a op b iha ihb =>
      rw [resolve, Mark.integers_eq_ok_iff] at h
      obtain ⟨ha, hb, rfl, rfl⟩ := h
      obtain ⟨_, hda, hone, -⟩ := iha (by simp) (Prod.ext rfl ha)
      obtain ⟨_, hdb, hone', -⟩ := ihb (by simp) (Prod.ext rfl hb)
      obtain rfl := hone (by simp)
      obtain rfl := hone' (by simp)
      exact ⟨_, by constructor <;> assumption, by simp, by simp⟩
  | neg m y ih =>
      rcases hy : y.resolve env with ⟨y', r⟩
      simp only [resolve, hy, Mark.close_eq_ok_iff, except_bind_eq_ok_iff, Ty.expect_eq_ok_iff,
        List.mem_singleton] at h
      obtain ⟨⟨_, rfl, rfl, rfl⟩, rfl⟩ := h
      obtain ⟨_, hd, hone, -⟩ := ih (by simp) hy
      obtain rfl := hone (by simp)
      exact ⟨_, .neg hd, by simp, by simp⟩
  | addrOf m y ih =>
      rcases hy : y.resolve env with ⟨y', r⟩
      simp only [resolve, hy, Mark.close_eq_ok_iff, except_bind_eq_ok_iff, Ty.expect_eq_ok_iff] at h
      obtain ⟨⟨u, ⟨_, rfl, hmem, rfl⟩, hrest⟩, rfl⟩ := h
      cases hplace : y.place with
      | none =>
          rw [hplace] at hrest
          cases hrest
      | some f =>
          have hpure : (pure (u.addressOf.getD .none) : Except Error Ty) = .ok t := by
            simpa [hplace] using hrest
          have ht := (except_pure_eq_ok_iff.mp hpure).symm
          obtain ⟨_, hd, hone, -⟩ := ih (by simp) hy
          obtain rfl := hone (by simp)
          exact ⟨_, .addrOf hd (Ty.addressOf_eq_some_iff.mpr ⟨hmem, ht⟩) (by simp [hplace]),
            by simp, by simp⟩
  | deref m y ih =>
      rcases hy : y.resolve env with ⟨y', r⟩
      simp only [resolve, hy, Mark.close_eq_ok_iff, except_bind_eq_ok_iff,
        Ty.follow_eq_ok_iff] at h
      obtain ⟨⟨u, rfl, hpointee⟩, rfl⟩ := h
      obtain ⟨_, hd, hone, -⟩ := ih (by simp) hy
      obtain rfl := hone (by simp)
      exact ⟨_, .deref hd hpointee, by simp, by simp⟩
  | var m y =>
      rcases hbind : env.bindVariable y (env.lineOf m.line) with ⟨y', r⟩
      simp only [resolve, hbind, Mark.close_eq_ok_iff] at h
      obtain ⟨rfl, rfl⟩ := h
      obtain ⟨d, hmeans, hfunc, rfl⟩ := Env.bindVariable_eq_ok_iff.mp hbind
      exact ⟨_, .var hmeans hfunc, by simp, by simp⟩
  | call m y args ih =>
      rw [resolve] at h
      rcases hbind : env.bind y (env.lineOf m.line) with ⟨y', e | d⟩
      · simp [hbind] at h
      · have hmeans := Env.bind_eq_ok_iff.mp hbind
        cases hfunc : d.isFunc with
        | false => simp [hbind, hfunc] at h
        | true =>
            -- The arguments are as many as the parameters, which the induction needs for the list.
            by_cases hlength : d.params.length = args.count
            · rcases hargs : args.resolve env d.params with ⟨args', r⟩
              simp only [hbind, hfunc, if_pos hlength, hargs, ↓reduceIte, Mark.close_eq_ok_iff,
                except_map_eq_ok_iff] at h
              obtain ⟨⟨_, rfl, rfl⟩, rfl⟩ := h
              obtain ⟨ts, hd, -, hformals⟩ := ih (fun _ => hlength) hargs
              exact ⟨_, .call hmeans hfunc hd (hformals rfl), by simp, by simp⟩
            · simp [hbind, hfunc, hlength] at h
  | num m n =>
      simp only [resolve, Mark.close_eq_ok_iff, Except.ok.injEq] at h
      obtain ⟨rfl, rfl⟩ := h
      exact ⟨_, .num, by simp, by simp⟩
  | str m text =>
      simp only [resolve, Mark.close_eq_ok_iff, Except.ok.injEq] at h
      obtain ⟨rfl, rfl⟩ := h
      exact ⟨_, .str, by simp, by simp⟩
  | read m =>
      simp only [resolve, Mark.close_eq_ok_iff, Except.ok.injEq] at h
      obtain ⟨rfl, rfl⟩ := h
      exact ⟨_, .read, by simp, by simp⟩
  | nil =>
      cases formals with
      | nil =>
          simp only [resolve, Prod.mk.injEq, Except.ok.injEq] at h
          obtain ⟨rfl, rfl⟩ := h
          exact ⟨[], .nil, by simp, fun _ => .nil⟩
      | cons p formals => simp [count] at hcount
  | cons arg rest iharg ihrest =>
      cases formals with
      | nil => simp [count] at hcount
      | cons p formals =>
          rw [resolve] at h
          cases hd : env.decls[p]? with
          | none => simp [declared, hd] at h
          | some d =>
              rcases harg : arg.resolve env with ⟨arg', r⟩
              rcases hrest : rest.resolve env formals with ⟨rest', r'⟩
              simp only [declared, hd, harg, hrest] at h
              cases hexpect : r >>= Ty.expect [d.ty] (env.lineOf arg.line) with
              | error e => simp [hexpect] at h
              | ok u =>
                  simp only [hexpect, Prod.mk.injEq] at h
                  obtain ⟨rfl, rfl⟩ := h
                  rw [except_bind_eq_ok_iff] at hexpect
                  obtain ⟨v, rfl, hv⟩ := hexpect
                  obtain ⟨hmem, rfl⟩ := Ty.expect_eq_ok_iff.mp hv
                  obtain ⟨_, hdarg, hone, -⟩ := iharg (by simp) harg
                  obtain rfl := hone (by simp)
                  obtain ⟨ts, hdrest, -, hformals⟩ :=
                    ihrest (fun _ => by simpa [count] using hcount rfl) hrest
                  refine ⟨u :: ts, .cons hdarg hdrest, by simp, fun _ => ?_⟩
                  exact .cons ⟨d, hd, (List.mem_singleton.mp hmem).symm⟩ (hformals rfl)

end Node

namespace Typed

theorem count_eq {decls : List Decl} {Γ : Meaning} :
    ∀ {args args' : Node .args} {ts : List Ty}, Typed decls Γ args args' ts →
      args.count = ts.length
  | _, _, _, .nil => rfl
  | _, _, _, .cons _ hrest => by rw [Node.count, count_eq hrest, List.length_cons]

/-- What has a derivation is resolved, to the tree and the type of the derivation. -/
theorem resolve_eq {l : Layer} {env : Env} {x x' : Node l} {ts : List Ty}
    (h : Typed env.decls env.find x x' ts) {formals : List DeclId}
    (hformals : l = .args → Formals env.decls formals ts) :
    ∃ t, x.resolve env formals = (x', .ok t) ∧ (l ≠ .args → ts = [t]) := by
  induction h generalizing formals with
  | @assign m target target' value value' t u _ _ haccepts ihtarget ihvalue =>
      obtain ⟨_, htarget, hone⟩ := @ihtarget [] (by simp)
      obtain ⟨_, hvalue, hone'⟩ := @ihvalue [] (by simp)
      cases hone (by simp)
      cases hone' (by simp)
      refine ⟨u, ?_, by simp⟩
      simp only [Node.resolve, htarget, hvalue, Mark.close_eq_ok_iff, except_bind_eq_ok_iff,
        Ty.expect_eq_ok_iff, List.mem_singleton]
      exact ⟨⟨u, rfl, Ty.accepts_iff.mp haccepts, rfl⟩, trivial⟩
  | @comp _ _ _ t _ ih | @sum _ _ _ t _ ih | @term _ _ _ t _ ih | @unary _ _ _ t _ ih
  | @factor _ _ _ t _ ih | @paren _ _ _ t _ ih =>
      obtain ⟨_, hx, hone⟩ := @ih [] (by simp)
      cases hone (by simp)
      refine ⟨t, ?_, by simp⟩
      simp [Node.resolve, hx, Mark.close]
  | @setVar m x x' d hmeans hfunc harray =>
      refine ⟨d.ty, ?_, by simp⟩
      have hbind : env.bindVariable x (env.lineOf m.line) = (x', .ok d.ty) :=
        Env.bindVariable_eq_ok_iff.mpr ⟨d, hmeans, hfunc, rfl⟩
      simp [Node.resolve, hbind, harray, Mark.close]
  | @setElem _ _ _ d _ _ t hmeans hfunc helem _ ih =>
      obtain ⟨_, hindex, hone⟩ := @ih [] (by simp)
      cases hone (by simp)
      refine ⟨t, ?_, by simp⟩
      rw [Node.resolve, Mark.element_eq_ok_iff]
      exact ⟨_, d, hmeans, hfunc, helem, by rw [hindex], by rw [hindex]⟩
  | @elem _ _ _ d _ _ t hmeans hfunc helem _ ih =>
      obtain ⟨_, hindex, hone⟩ := @ih [] (by simp)
      cases hone (by simp)
      refine ⟨t, ?_, by simp⟩
      rw [Node.resolve, Mark.element_eq_ok_iff]
      exact ⟨_, d, hmeans, hfunc, helem, by rw [hindex], by rw [hindex]⟩
  | @setDeref m x x' d t hmeans hfunc hpointee =>
      refine ⟨t, ?_, by simp⟩
      have hbind : env.bindVariable x (env.lineOf m.line) = (x', .ok d.ty) :=
        Env.bindVariable_eq_ok_iff.mpr ⟨d, hmeans, hfunc, rfl⟩
      simp only [Node.resolve, hbind, Mark.close_eq_ok_iff, except_bind_eq_ok_iff,
        Ty.follow_eq_ok_iff]
      exact ⟨⟨d.ty, rfl, hpointee⟩, trivial⟩
  | rel _ _ iha ihb | add _ _ iha ihb | mul _ _ iha ihb =>
      obtain ⟨_, ha, hone⟩ := @iha [] (by simp)
      obtain ⟨_, hb, hone'⟩ := @ihb [] (by simp)
      cases hone (by simp)
      cases hone' (by simp)
      refine ⟨.int, ?_, by simp⟩
      rw [Node.resolve, Mark.integers_eq_ok_iff, ha, hb]
      exact ⟨rfl, rfl, rfl, rfl⟩
  | neg _ ih =>
      obtain ⟨_, hx, hone⟩ := @ih [] (by simp)
      cases hone (by simp)
      refine ⟨.int, ?_, by simp⟩
      simp only [Node.resolve, hx, Mark.close_eq_ok_iff, except_bind_eq_ok_iff,
        Ty.expect_eq_ok_iff, List.mem_singleton]
      exact ⟨⟨.int, rfl, rfl, rfl⟩, trivial⟩
  | @addrOf m x x' t u _ haddress hplace ih =>
      obtain ⟨_, hx, hone⟩ := @ih [] (by simp)
      cases hone (by simp)
      refine ⟨u, ?_, by simp⟩
      obtain ⟨hmem, rfl⟩ := Ty.addressOf_eq_some_iff.mp haddress
      have hnone : x.place.isNone = false := by simpa using hplace
      simp only [Node.resolve, hx, Mark.close_eq_ok_iff, except_bind_eq_ok_iff,
        Ty.expect_eq_ok_iff, hnone]
      exact ⟨⟨t, ⟨t, rfl, hmem, rfl⟩, rfl⟩, trivial⟩
  | @deref _ _ _ t u _ hpointee ih =>
      obtain ⟨_, hx, hone⟩ := @ih [] (by simp)
      cases hone (by simp)
      refine ⟨u, ?_, by simp⟩
      simp only [Node.resolve, hx, Mark.close_eq_ok_iff, except_bind_eq_ok_iff,
        Ty.follow_eq_ok_iff]
      exact ⟨⟨t, rfl, hpointee⟩, trivial⟩
  | @var m x x' d hmeans hfunc =>
      refine ⟨d.ty, ?_, by simp⟩
      have hbind : env.bindVariable x (env.lineOf m.line) = (x', .ok d.ty) :=
        Env.bindVariable_eq_ok_iff.mpr ⟨d, hmeans, hfunc, rfl⟩
      simp [Node.resolve, hbind, Mark.close]
  | @call m x x' d args args' ts hmeans hfunc hargs hformals' ih =>
      obtain ⟨u, hresolve, -⟩ := ih (fun _ => hformals')
      refine ⟨d.ty, ?_, by simp⟩
      have hbind : env.bind x (env.lineOf m.line) = (x', .ok d) := Env.bind_eq_ok_iff.mpr hmeans
      have hlength : d.params.length = args.count := by
        rw [hformals'.length_eq, hargs.count_eq]
      simp only [Node.resolve, hbind, hfunc, if_pos hlength, hresolve, ↓reduceIte,
        Mark.close_eq_ok_iff, except_map_eq_ok_iff]
      exact ⟨⟨u, rfl, trivial⟩, trivial⟩
  | num => exact ⟨.int, by simp [Node.resolve, Mark.close], by simp⟩
  | str => exact ⟨.string, by simp [Node.resolve, Mark.close], by simp⟩
  | read => exact ⟨.int, by simp [Node.resolve, Mark.close], by simp⟩
  | nil => exact ⟨.none, by simp [Node.resolve], by simp⟩
  | @cons arg arg' rest rest' t ts _ _ iharg ihrest =>
      cases hformals rfl with
      | @cons p _ formals _ hhead htail =>
          obtain ⟨d, hd, rfl⟩ := hhead
          obtain ⟨_, harg, hone⟩ := @iharg [] (by simp)
          cases hone (by simp)
          obtain ⟨u, hrest, -⟩ := ihrest (fun _ => htail)
          refine ⟨u, ?_, by simp⟩
          have hexpect : (Except.ok d.ty >>= Ty.expect [d.ty] (env.lineOf arg.line)) = .ok d.ty :=
            except_bind_eq_ok_iff.mpr ⟨d.ty, rfl, Ty.expect_eq_ok_iff.mpr ⟨by simp, rfl⟩⟩
          simp only [Node.resolve, declared, hd, harg, hexpect, hrest]

end Typed

theorem Node.resolve_eq_ok_iff {env : Env} {e e' : Expr} {t : Ty} :
    e.resolve env = (e', .ok t) ↔ Typed env.decls env.find e e' [t] := by
  constructor
  · intro h
    obtain ⟨ts, hd, hone, -⟩ := Node.typed_of_resolve e (by simp) h
    cases hone (by simp)
    exact hd
  · intro h
    obtain ⟨u, hresolve, hone⟩ := @Typed.resolve_eq _ env _ _ _ h [] (by simp)
    cases hone (by simp)
    exact hresolve

/-- A variable that may be brought into scope. -/
def Usable (decls : List Decl) (id : DeclId) : Prop :=
  ∃ d, decls[id]? = some d ∧ d.checkVariable = .ok ()

namespace FuncEnv

/-- What names mean where the given locals are in scope. -/
def meaning (cx : FuncEnv) (locals : List DeclId) : Meaning := (cx.envAt 0 locals).find

def rules (cx : FuncEnv) : Rules := { decls := cx.decls, scope := cx.scope, ret := cx.ret }

theorem meaning_append (cx : FuncEnv) (ids locals : List DeclId) :
    cx.meaning (ids.reverse ++ locals) = (cx.meaning locals).declare cx.decls ids := by
  funext name
  simp only [meaning, envAt, Env.find, Meaning.declare, List.find?_append, Option.or_assoc]

theorem enter_eq_ok_iff {cx : FuncEnv} {ids locals locals' : List DeclId} :
    cx.enter ids locals = .ok locals' ↔
      (∀ id ∈ ids, Usable cx.decls id) ∧ locals' = ids.reverse ++ locals := by
  induction ids generalizing locals with
  | nil => simp [enter, eq_comm]
  | cons id rest ih =>
      cases hd : cx.decls[id]? with
      | none =>
          have herror : declared cx.decls id = .error (.unresolved (.declaration id)) := by
            simp [declared, hd]
          simp only [enter, herror, except_bind_eq_ok_iff, Usable, List.forall_mem_cons, hd]
          simp
      | some d =>
          have hok : declared cx.decls id = .ok d := by simp [declared, hd]
          simp only [enter, hok, except_bind_eq_ok_iff, ih, List.forall_mem_cons,
            List.reverse_cons, List.append_assoc, List.singleton_append]
          constructor
          · rintro ⟨_, ⟨rfl⟩, ⟨⟩, hcheck, husable, rfl⟩
            exact ⟨⟨⟨d, hd, hcheck⟩, husable⟩, rfl⟩
          · rintro ⟨⟨⟨d', hd', hcheck⟩, husable⟩, rfl⟩
            rw [hd] at hd'
            cases hd'
            exact ⟨d, rfl, ⟨⟩, hcheck, husable, rfl⟩

theorem expect_eq_ok_iff {cx : FuncEnv} {line : Nat} {locals : List DeclId} {expected : List Ty}
    {e e' : Expr} :
    cx.expect line locals expected e = (e', .ok ()) ↔
      ∃ t ∈ expected, Typed cx.decls (cx.meaning locals) e e' [t] := by
  rcases hresolve : e.resolve (cx.envAt line locals) with ⟨x, r⟩
  simp only [expect, hresolve, Prod.mk.injEq, except_map_eq_ok_iff, except_bind_eq_ok_iff,
    Ty.expect_eq_ok_iff]
  constructor
  · rintro ⟨rfl, t, ⟨u, rfl, hmem, rfl⟩, -⟩
    exact ⟨t, hmem, Node.resolve_eq_ok_iff.mp hresolve⟩
  · rintro ⟨t, hmem, hd⟩
    have hok : e.resolve (cx.envAt line locals) = (e', .ok t) := Node.resolve_eq_ok_iff.mpr hd
    rw [hresolve] at hok
    cases hok
    exact ⟨rfl, t, ⟨t, rfl, hmem, rfl⟩, trivial⟩

end FuncEnv

namespace Clause

/-- What is resolved is accepted by the rules, and the declarations of its blocks are
all usable. -/
theorem accepted_of_resolve {f : Form} {cx : FuncEnv} (c : Clause f) {line : Nat}
    {locals locals' : List DeclId} {c' : Clause f}
    (h : c.resolve cx line locals = (c', .ok locals')) :
    Accepted cx.rules (cx.meaning locals) c c' (cx.meaning locals') ∧
      ∀ id ∈ c.locals, Usable cx.decls id := by
  induction c generalizing line locals locals' with
  | eval own e =>
      cases e with
      | none =>
          simp only [resolve, Prod.mk.injEq, Except.ok.injEq] at h
          obtain ⟨rfl, rfl⟩ := h
          exact ⟨.empty, by simp [Clause.locals]⟩
      | some e =>
          rcases hresolve : e.resolve (cx.envAt (orLine own line) locals) with ⟨e', r⟩
          simp only [resolve, hresolve, Prod.mk.injEq, except_map_eq_ok_iff] at h
          obtain ⟨rfl, t, rfl, rfl⟩ := h
          exact ⟨.eval (Node.resolve_eq_ok_iff.mp hresolve), by simp [Clause.locals]⟩
  | braces own b ih =>
      rcases hresolve : b.resolve cx (orLine own line) locals with ⟨b', r⟩
      simp only [resolve, hresolve, Prod.mk.injEq] at h
      obtain ⟨rfl, rfl⟩ := h
      obtain ⟨hd, husable⟩ := ih hresolve
      exact ⟨.braces hd, by simpa [Clause.locals] using husable⟩
  | ifElse own c t e iht ihe =>
      rw [resolve] at h
      rcases hcond : cx.expect (orLine own line) locals [.int] c with ⟨c', err | ⟨⟨⟩⟩⟩
      · simp [hcond] at h
      · rcases hthen : t.resolve cx (orLine own line) locals with ⟨t', err | locals₁⟩
        · simp [hcond, hthen] at h
        · rcases helse : e.resolve cx (orLine own line) locals₁ with ⟨e', r⟩
          simp only [hcond, hthen, helse, Prod.mk.injEq] at h
          obtain ⟨rfl, rfl⟩ := h
          obtain ⟨u, hmem, hdc⟩ := FuncEnv.expect_eq_ok_iff.mp hcond
          cases List.mem_singleton.mp hmem
          obtain ⟨hdt, husable⟩ := iht hthen
          obtain ⟨hde, husable'⟩ := ihe helse
          refine ⟨.ifElse hdc hdt hde, ?_⟩
          simp only [Clause.locals, List.mem_append]
          rintro id (hid | hid)
          · exact husable id hid
          · exact husable' id hid
  | loop own c s ih =>
      rw [resolve] at h
      rcases hcond : cx.expect (orLine own line) locals [.int] c with ⟨c', err | ⟨⟨⟩⟩⟩
      · simp [hcond] at h
      · rcases hbody : s.resolve cx (orLine own line) locals with ⟨s', r⟩
        simp only [hcond, hbody, Prod.mk.injEq] at h
        obtain ⟨rfl, rfl⟩ := h
        obtain ⟨u, hmem, hdc⟩ := FuncEnv.expect_eq_ok_iff.mp hcond
        cases List.mem_singleton.mp hmem
        obtain ⟨hd, husable⟩ := ih hbody
        exact ⟨.loop hdc hd, by simpa [Clause.locals] using husable⟩
  | ret own e =>
      cases e with
      | none =>
          simp only [resolve, Prod.mk.injEq, except_map_eq_ok_iff, Ty.expect_eq_ok_iff,
            List.mem_singleton] at h
          obtain ⟨rfl, t, ⟨hret, -⟩, rfl⟩ := h
          exact ⟨.leave hret.symm, by simp [Clause.locals]⟩
      | some e =>
          rcases hexpect : cx.expect (orLine own line) locals [cx.ret] e with ⟨e', r⟩
          simp only [resolve, hexpect, Prod.mk.injEq, except_map_eq_ok_iff] at h
          obtain ⟨rfl, ⟨⟩, rfl, rfl⟩ := h
          obtain ⟨u, hmem, hd⟩ := FuncEnv.expect_eq_ok_iff.mp hexpect
          cases List.mem_singleton.mp hmem
          exact ⟨.ret hd, by simp [Clause.locals]⟩
  | write own e =>
      cases e with
      | none =>
          simp only [resolve, Prod.mk.injEq, Except.ok.injEq] at h
          obtain ⟨rfl, rfl⟩ := h
          exact ⟨.newline, by simp [Clause.locals]⟩
      | some e =>
          rcases hexpect : cx.expect (orLine own line) locals [.int, .string] e with ⟨e', r⟩
          simp only [resolve, hexpect, Prod.mk.injEq, except_map_eq_ok_iff] at h
          obtain ⟨rfl, ⟨⟩, rfl, rfl⟩ := h
          obtain ⟨u, hmem, hd⟩ := FuncEnv.expect_eq_ok_iff.mp hexpect
          exact ⟨.write hd (by simpa using hmem), by simp [Clause.locals]⟩
  | absent =>
      simp only [resolve, Prod.mk.injEq, Except.ok.injEq] at h
      obtain ⟨rfl, rfl⟩ := h
      exact ⟨.absent, by simp [Clause.locals]⟩
  | present s ih =>
      rcases hresolve : s.resolve cx line locals with ⟨s', r⟩
      simp only [resolve, hresolve, Prod.mk.injEq] at h
      obtain ⟨rfl, rfl⟩ := h
      obtain ⟨hd, husable⟩ := ih hresolve
      exact ⟨.present hd, by simpa [Clause.locals] using husable⟩
  | nil =>
      simp only [resolve, Prod.mk.injEq, Except.ok.injEq] at h
      obtain ⟨rfl, rfl⟩ := h
      exact ⟨.nil, by simp [Clause.locals]⟩
  | cons s rest ihs ihrest =>
      rw [resolve] at h
      rcases hfirst : s.resolve cx line locals with ⟨s', err | locals₁⟩
      · simp [hfirst] at h
      · rcases hothers : rest.resolve cx line locals₁ with ⟨rest', r⟩
        simp only [hfirst, hothers, Prod.mk.injEq] at h
        obtain ⟨rfl, rfl⟩ := h
        obtain ⟨hds, husable⟩ := ihs hfirst
        obtain ⟨hdrest, husable'⟩ := ihrest hothers
        refine ⟨.cons hds hdrest, ?_⟩
        simp only [Clause.locals, List.mem_append]
        rintro id (hid | hid)
        · exact husable id hid
        · exact husable' id hid
  | block own ids stmts size span ih =>
      rw [resolve] at h
      cases henter : cx.enter ids locals with
      | error err => simp [henter] at h
      | ok inner =>
          rcases hstmts : stmts.resolve cx (orLine own line) inner with ⟨stmts', r⟩
          simp only [henter, hstmts, Prod.mk.injEq] at h
          obtain ⟨rfl, h⟩ := h
          obtain ⟨husable, rfl⟩ := FuncEnv.enter_eq_ok_iff.mp henter
          have hleave : ∃ behind, r = .ok behind ∧
              cx.meaning locals' = cx.rules.leave (cx.meaning locals) (cx.meaning behind) := by
            cases hscope : cx.scope with
            | function =>
                simp only [hscope] at h
                exact ⟨locals', h, by simp [Rules.leave, FuncEnv.rules, hscope]⟩
            | block =>
                simp only [hscope, except_map_eq_ok_iff] at h
                obtain ⟨behind, hr, rfl⟩ := h
                exact ⟨behind, hr, by simp [Rules.leave, FuncEnv.rules, hscope]⟩
          obtain ⟨behind, rfl, hmeaning⟩ := hleave
          obtain ⟨hd, husable'⟩ := ih hstmts
          rw [FuncEnv.meaning_append] at hd
          rw [hmeaning]
          refine ⟨.block hd, ?_⟩
          simp only [Clause.locals, List.mem_append]
          rintro id (hid | hid)
          · exact husable id hid
          · exact husable' id hid

end Clause

/-- What the rules accept is resolved, to the tree of the derivation. -/
theorem Accepted.resolve_eq {f : Form} {cx : FuncEnv} {Γ Γ' : Meaning} {c c' : Clause f}
    (h : Accepted cx.rules Γ c c' Γ') {line : Nat} {locals : List DeclId}
    (hΓ : Γ = cx.meaning locals) (husable : ∀ id ∈ c.locals, Usable cx.decls id) :
    ∃ locals', c.resolve cx line locals = (c', .ok locals') ∧ Γ' = cx.meaning locals' := by
  induction h generalizing line locals with
  | empty => exact ⟨locals, rfl, hΓ⟩
  | @eval _ own e e' t hd =>
      subst hΓ
      have hresolve : e.resolve (cx.envAt (orLine own line) locals) = (e', .ok t) :=
        Node.resolve_eq_ok_iff.mpr hd
      exact ⟨locals, by simp [Clause.resolve, hresolve, Except.map], rfl⟩
  | @braces _ _ own b b' _ ih =>
      obtain ⟨locals', hresolve, hΓ'⟩ := @ih (orLine own line) locals hΓ husable
      exact ⟨locals', by simp [Clause.resolve, hresolve], hΓ'⟩
  | @ifElse _ _ _ own c c' t t' e e' hdc _ _ iht ihe =>
      subst hΓ
      simp only [Clause.locals, List.mem_append] at husable
      have hcond : cx.expect (orLine own line) locals [.int] c = (c', .ok ()) :=
        FuncEnv.expect_eq_ok_iff.mpr ⟨.int, by simp, hdc⟩
      obtain ⟨locals₁, hthen, hΓ₁⟩ :=
        @iht (orLine own line) locals rfl (fun id hid => husable id (.inl hid))
      obtain ⟨locals₂, helse, hΓ₂⟩ :=
        @ihe (orLine own line) locals₁ hΓ₁ (fun id hid => husable id (.inr hid))
      exact ⟨locals₂, by simp [Clause.resolve, hcond, hthen, helse], hΓ₂⟩
  | @loop _ _ own c c' s s' hdc _ ih =>
      subst hΓ
      have hcond : cx.expect (orLine own line) locals [.int] c = (c', .ok ()) :=
        FuncEnv.expect_eq_ok_iff.mpr ⟨.int, by simp, hdc⟩
      obtain ⟨locals', hbody, hΓ'⟩ := @ih (orLine own line) locals rfl husable
      exact ⟨locals', by simp [Clause.resolve, hcond, hbody], hΓ'⟩
  | @leave _ own hret =>
      have hvoid : Ty.expect [cx.ret] (orLine own line) .void = .ok .void :=
        Ty.expect_eq_ok_iff.mpr ⟨List.mem_singleton.mpr hret.symm, rfl⟩
      exact ⟨locals, by simp [Clause.resolve, hvoid, Except.map], hΓ⟩
  | @ret _ own e e' hd =>
      subst hΓ
      have hexpect : cx.expect (orLine own line) locals [cx.ret] e = (e', .ok ()) :=
        FuncEnv.expect_eq_ok_iff.mpr ⟨cx.ret, by simp, hd⟩
      exact ⟨locals, by simp [Clause.resolve, hexpect, Except.map], rfl⟩
  | newline => exact ⟨locals, rfl, hΓ⟩
  | @write _ own e e' t hd ht =>
      subst hΓ
      have hexpect : cx.expect (orLine own line) locals [.int, .string] e = (e', .ok ()) :=
        FuncEnv.expect_eq_ok_iff.mpr ⟨t, by simpa using ht, hd⟩
      exact ⟨locals, by simp [Clause.resolve, hexpect, Except.map], rfl⟩
  | absent => exact ⟨locals, rfl, hΓ⟩
  | present _ ih =>
      obtain ⟨locals', hresolve, hΓ'⟩ := @ih line locals hΓ husable
      exact ⟨locals', by simp [Clause.resolve, hresolve], hΓ'⟩
  | nil => exact ⟨locals, rfl, hΓ⟩
  | cons _ _ ihs ihrest =>
      simp only [Clause.locals, List.mem_append] at husable
      obtain ⟨locals₁, hfirst, hΓ₁⟩ :=
        @ihs line locals hΓ (fun id hid => husable id (.inl hid))
      obtain ⟨locals₂, hothers, hΓ₂⟩ :=
        @ihrest line locals₁ hΓ₁ (fun id hid => husable id (.inr hid))
      exact ⟨locals₂, by simp [Clause.resolve, hfirst, hothers], hΓ₂⟩
  | @block _ Γ' own _ _ ids stmts stmts' _ ih =>
      subst hΓ
      simp only [Clause.locals, List.mem_append] at husable
      have henter : cx.enter ids locals = .ok (ids.reverse ++ locals) :=
        FuncEnv.enter_eq_ok_iff.mpr ⟨fun id hid => husable id (.inl hid), rfl⟩
      obtain ⟨behind, hstmts, hΓ'⟩ := @ih (orLine own line) (ids.reverse ++ locals)
        (cx.meaning_append ids locals).symm (fun id hid => husable id (.inr hid))
      cases hscope : cx.scope with
      | function =>
          refine ⟨behind, by simp [Clause.resolve, henter, hstmts, hscope], ?_⟩
          simpa [Rules.leave, FuncEnv.rules, hscope] using hΓ'
      | block =>
          refine ⟨locals, by simp [Clause.resolve, henter, hstmts, hscope, Except.map], ?_⟩
          simp [Rules.leave, FuncEnv.rules, hscope]

end Backend
