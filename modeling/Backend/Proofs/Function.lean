import Backend.Proofs.Labels
import Backend.Proofs.Statement

/-! # The code of functions

A function is entered at its label with the stack pointer for its frame base, and ends at a
return with the frame dropped. In the listing of a program every function's code stands
for itself: no label of it is defined by another function before it.
-/

namespace Backend

/-- The activation that begins when a machine enters a function. -/
def Machine.entered (m : Machine) (s : State) (cx : CodeEnv) (f : Func) : Activation where
  decls := cx.decls
  pool := cx.pool
  symbols := m.symbols
  base := s.rsp
  limit := m.limit
  top := s.rsp.toNat - f.frameSize

namespace Func

variable {cx : CodeEnv} {f : Func} {n n' : Nat} {code : Code}

/-- The lines that set up the frame of a function. -/
def prologue (f : Func) : Code :=
  [.inst (.movq .rsp (.reg .rbx))] ++
    if f.frameSize = 0 then [] else [.inst (.subq (.imm (Word.toSigned f.frameSize)) .rsp)]

theorem code_eq_ok (h : f.code cx n = .ok code n') :
    ∃ d body, cx.decls[f.decl]? = some d ∧ f.body.code cx n = .ok body n' ∧
      code = [.label d.name] ++ f.prologue ++ body ++ Snippet.epilogue := by
  simp only [Func.code, Emit.bind_eq_ok_iff, Emit.pure_eq_ok_iff, Emit.ofExcept_eq_ok_iff,
    declared_eq_ok_iff] at h
  obtain ⟨d, _, ⟨hd, rfl⟩, body, _, hbody, rfl, rfl⟩ := h
  exact ⟨d, body, hd, hbody, rfl⟩

variable {m : Machine} {s : State}

/-- Behind the prologue, the frame base is where the stack pointer was. -/
theorem prologue_steps (cx : CodeEnv) (hcode : m.Holds s.pc f.prologue) (hrsp : s.rsp.Aligned)
    (hsize : 8 ∣ f.frameSize) {room : Nat} (hroom : m.limit + f.frameSize + room ≤ s.rsp.toNat) :
    ∃ s', m.Steps s s' ∧ s'.pc = s.pc + f.prologue.length ∧ s'.out = s.out ∧
      (m.entered s cx f).Ready room s.mem s' := by
  have hbase : m.Steps s { s with pc := s.pc + 1, rbx := s.rsp } :=
    Machine.steps_inst hcode.left.head rfl
  unfold prologue at hcode ⊢
  by_cases hzero : f.frameSize = 0
  · rw [if_pos hzero] at hcode ⊢
    refine ⟨_, hbase, rfl, rfl, rfl, hrsp, ?_, ?_, fun _ _ => rfl⟩
    · simp [Machine.entered, hzero]
    · simp only [Machine.entered]
      omega
  rw [if_neg hzero] at hcode ⊢
  have hreserve : m.Steps { s with pc := s.pc + 1, rbx := s.rsp }
      { s with
        pc := s.pc + 2, rbx := s.rsp, flags := none
        rsp := s.rsp - BitVec.ofInt 64 (Word.toSigned f.frameSize) } :=
    Machine.steps_inst hcode.right.head rfl
  have htoNat : (s.rsp - BitVec.ofInt 64 (Word.toSigned f.frameSize)).toNat =
      s.rsp.toNat - f.frameSize := Quad.toNat_sub_signed (by omega)
  refine ⟨_, hbase.trans hreserve, rfl, rfl, rfl, ?_, Nat.le_of_eq htoNat, ?_, fun _ _ => rfl⟩
  · change 8 ∣ BitVec.toNat _
    rw [htoNat]
    exact Nat.dvd_sub hrsp hsize
  · change m.limit + room ≤ BitVec.toNat _
    rw [htoNat]
    omega

/-- The code of a function leads from its label to a return, where the memory, the output and
the value in `%rax` are those of an execution of its body. -/
theorem code_returns (hcode : f.code cx n = .ok code n') (hholds : m.Holds s.pc code)
    (hrsp : s.rsp.Aligned) (hsize : 8 ∣ f.frameSize)
    (hroom : m.limit + f.frameSize + f.body.room ≤ s.rsp.toNat) (htexts : m.Texts cx.pool)
    (hexprs : ∀ e ∈ f.body.exprs, e.Simulated (m.entered s cx f) m)
    (hspans : ∀ span ∈ f.body.spans, 8 ∣ span) {μ : Memory} {printed : List Output} {flow : Flow}
    (hexec : Exec (m.entered s cx f) f.body s.mem printed μ flow) :
    ∃ s', m.Steps s s' ∧ m.code[s'.pc]? = some (.inst .ret) ∧ s'.rbx = s.rsp ∧ s'.rsp = s.rsp ∧
      (∀ v ∈ flow.value, s'.rax = v) ∧ s'.out = s.out ++ printed ∧
      ∀ a, (m.entered s cx f).Reachable a → s'.mem a = μ a := by
  obtain ⟨d, body, hd, hbody, rfl⟩ := code_eq_ok hcode
  have hlabel : m.Steps s s.next := Machine.steps_label hholds.left.left.left.head
  obtain ⟨s₁, hsteps, hpc, hout, hready⟩ :=
    prologue_steps (s := s.next) cx hholds.left.left.right hrsp hsize hroom
  have hbodycode : m.Holds s₁.pc body := by
    have hline : s₁.pc = s.pc + ([Line.label d.name] ++ f.prologue).length := by
      rw [hpc, List.length_append, ← Nat.add_assoc]
      rfl
    rw [hline]
    exact hholds.left.right
  obtain ⟨s₂, h₂⟩ := hexec.runs ⟨rfl, rfl⟩ htexts hexprs hspans hbody hbodycode hready
  -- A body that does not return runs into the end of the function.
  obtain ⟨s₃, h₃⟩ : ∃ s₃, (m.entered s cx f).Ends m 0 μ printed (.leave flow.value) s₁ s₃ := by
    cases flow with
    | leave value => exact ⟨s₂, h₂.of_leave⟩
    | next =>
        have hline : s₂.pc = s.pc + ([Line.label d.name] ++ f.prologue ++ body).length := by
          rw [h₂.place.1, hpc]
          simp [State.next]
          omega
        have hepilogue : m.Holds s₂.pc Snippet.epilogue := by
          rw [hline]
          exact hholds.right
        have hnone : ∀ v ∈ (none : Option Quad), s₂.rax = v := nofun
        obtain ⟨s₃, h₃⟩ := (h₂.ready hready).ends_leave hepilogue hnone
        have hends := h₂.trans h₃
        rw [List.append_nil] at hends
        exact ⟨s₃, hends⟩
  obtain ⟨hreturn, hrsp₃, hvalue⟩ := h₃.place
  exact ⟨s₃, hlabel.trans (hsteps.trans h₃.steps), hreturn, h₃.rbx.trans hready.rbx, hrsp₃, hvalue,
    h₃.out.trans (by rw [hout]; rfl), h₃.agree⟩

section Listing

theorem labels_code (h : f.code cx n = .ok code n') {d : Decl} (hd : cx.decls[f.decl]? = some d) :
    ∃ body, Code.Numbered n n' body ∧ Code.labels code = d.name :: Code.labels body := by
  obtain ⟨d', body, hd', hbody, rfl⟩ := code_eq_ok h
  obtain rfl : d = d' := Option.some.inj (hd.symm.trans hd')
  refine ⟨body, Clause.numbered_code hbody, ?_⟩
  have hprologue : Code.labels f.prologue = [] := by
    unfold prologue
    split <;> rfl
  simp [hprologue, Snippet.epilogue]

/-- The labels of some functions are their names and the jump targets taken meanwhile. -/
theorem mem_labels_codeAll {fs : List Func} (h : codeAll cx fs n = .ok code n') :
    n ≤ n' ∧ ∀ name ∈ Code.labels code, (∃ i, n ≤ i ∧ i < n' ∧ name = Label.jump i) ∨
      ∃ f ∈ fs, ∃ d, cx.decls[f.decl]? = some d ∧ name = d.name := by
  induction fs generalizing n code with
  | nil =>
      obtain ⟨rfl, rfl⟩ := Emit.pure_eq_ok_iff.mp h
      exact ⟨Nat.le_refl _, nofun⟩
  | cons f rest ih =>
      simp only [codeAll, Emit.bind_eq_ok_iff, Emit.pure_eq_ok_iff] at h
      obtain ⟨first, k, hfirst, others, _, hothers, rfl, rfl⟩ := h
      obtain ⟨d, -, hd, -, -⟩ := code_eq_ok hfirst
      obtain ⟨body, hnumbered, hlabels⟩ := labels_code hfirst hd
      obtain ⟨hle, hnames⟩ := ih hothers
      have hbody := hnumbered.le
      refine ⟨by omega, ?_⟩
      intro name hname
      rw [Code.labels_append, hlabels, List.cons_append, List.mem_cons, List.mem_append] at hname
      rcases hname with rfl | hname | hname
      · exact .inr ⟨f, List.mem_cons_self, d, hd, rfl⟩
      · obtain ⟨i, hlow, hhigh, rfl⟩ := hnumbered.named name hname
        exact .inl ⟨i, hlow, by omega, rfl⟩
      · rcases hnames name hname with ⟨i, hlow, hhigh, rfl⟩ | ⟨g, hg, hname⟩
        · exact .inl ⟨i, by omega, hhigh, rfl⟩
        · exact .inr ⟨g, List.mem_cons_of_mem _ hg, hname⟩

/-- The labels of functions of different names are all different, given that no name is a jump
target. -/
theorem nodup_labels_codeAll {fs : List Func} (h : codeAll cx fs n = .ok code n')
    (hnames : (fs.map fun f => cx.decls[f.decl]?.map Decl.name).Nodup)
    (hjumps : ∀ i, ∀ e ∈ cx.decls, Label.jump i ≠ e.name) : (Code.labels code).Nodup := by
  induction fs generalizing n code with
  | nil =>
      obtain ⟨rfl, -⟩ := Emit.pure_eq_ok_iff.mp h
      exact List.nodup_nil
  | cons f rest ih =>
      simp only [codeAll, Emit.bind_eq_ok_iff, Emit.pure_eq_ok_iff] at h
      obtain ⟨first, k, hfirst, others, _, hothers, rfl, rfl⟩ := h
      obtain ⟨d, -, hd, -, -⟩ := code_eq_ok hfirst
      obtain ⟨body, hnumbered, hlabels⟩ := labels_code hfirst hd
      have hown := fun i => hjumps i d (List.mem_of_getElem? hd)
      rw [List.map_cons, List.nodup_cons, hd] at hnames
      rw [Code.labels_append, hlabels, List.nodup_append, List.nodup_cons]
      refine ⟨⟨?_, hnumbered.nodup⟩, ih hothers hnames.2, ?_⟩
      · intro hmem
        obtain ⟨i, -, -, hname⟩ := hnumbered.named _ hmem
        exact hown i hname.symm
      · rintro name hname _ hlater rfl
        rcases (mem_labels_codeAll hothers).2 name hlater with
          ⟨i, hi, -, rfl⟩ | ⟨g, hg, e, he, rfl⟩
        · rcases List.mem_cons.mp hname with hname | hname
          · exact hown i hname
          · obtain ⟨j, -, hj, hname⟩ := hnumbered.named _ hname
            have heq := Label.jump_injective hname
            omega
        · rcases List.mem_cons.mp hname with hname | hname
          · refine hnames.1 (List.mem_map.mpr ⟨g, hg, ?_⟩)
            rw [he, Option.map_some, hname, Option.map_some]
          · obtain ⟨j, -, -, hname⟩ := hnumbered.named _ hname
            exact hjumps j e (List.mem_of_getElem? he) hname.symm

theorem codeAll_append {before after : List Func}
    (h : codeAll cx (before ++ f :: after) n = .ok code n') :
    ∃ earlier own later k k', f.code cx k = .ok own k' ∧ code = earlier ++ own ++ later := by
  induction before generalizing n n' code with
  | nil =>
      simp only [List.nil_append, codeAll, Emit.bind_eq_ok_iff, Emit.pure_eq_ok_iff] at h
      obtain ⟨own, k, hown, later, _, -, rfl, -⟩ := h
      exact ⟨[], own, later, n, k, hown, rfl⟩
  | cons g rest ih =>
      simp only [List.cons_append, codeAll, Emit.bind_eq_ok_iff, Emit.pure_eq_ok_iff] at h
      obtain ⟨first, k, hfirst, others, _, hothers, rfl, -⟩ := h
      obtain ⟨earlier, own, later, k₁, k₂, hown, rfl⟩ := ih hothers
      exact ⟨first ++ earlier, own, later, k₁, k₂, hown, by simp⟩

end Listing

end Func

end Backend
