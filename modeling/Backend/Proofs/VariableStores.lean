import Backend.Proofs.CallingConvention

/-! # Stores to variables

In a program whose calls fit the functions that they call, no variable is in a word in which a
call keeps the line to return to or the frame base of the caller. So these words are spared by
every run in which the source program stores to variables only.
-/

namespace Backend

section Standing

variable {m : Machine} {cx : CodeEnv} {r : Program} {bottom roof : Nat} {origin level : Level m cx}
  {rest : List Invocation} {mem₀ : Memory} {c c' : Tracked} {σ : Picture}

/-- The words that the calls in progress have pushed are safe. -/
theorem Beneath.links {mem : Memory} {safe : Nat → Prop}
    (h : Beneath r bottom origin [] mem safe level rest) :
    ∀ base ∈ ((level.call :: rest).map Invocation.base).dropLast,
      level.foot ≤ base.toNat ∧ safe base.toNat ∧ safe (base.toNat + 8) := by
  induction h with
  | first => simp
  | called _ hfoot hwaits _ ih =>
      rw [List.map_cons, List.map_cons, List.dropLast_cons_cons, List.forall_mem_cons]
      constructor
      · obtain ⟨-, line, σ, hsafe, -, -, -, -, hsafe', -⟩ := hwaits
        rw [← hfoot]
        exact ⟨Nat.le_refl _, hsafe, hsafe'⟩
      · intro base hbase
        obtain ⟨hle, hsafe⟩ := ih base hbase
        exact ⟨Nat.le_trans (Nat.le_of_lt hwaits.lt_foot) hle, hsafe⟩

namespace Standing

theorem spares (h : Standing r bottom roof origin [] mem₀ c level rest σ)
    (hconfined : m.Confined r bottom c) : m.Spares c := by
  intro a ha base hbase
  rw [Tracked.bases, h.calls] at hbase
  obtain ⟨hfoot, hreturn, hsaved⟩ := h.beneath.links base hbase
  have hrsp : _ ≤ level.foot := h.poised.fits.le
  have hfirst := h.stores hconfined ha (by omega) hreturn
  have hsecond := h.stores hconfined ha (by omega) hsaved
  rw [Quad.ofNat_toNat] at hfirst
  rw [← Quad.add_ofNat] at hsecond
  exact ⟨hfirst, hsecond⟩

/-- Code that is left by a return only is not run beyond its end. -/
theorem inside (h : Standing r bottom roof origin [] mem₀ c level rest σ)
    (hroom : origin.sheet.stop = [.room Word.bound]) (hdepth : c.calls.length = 1) :
    c.state.pc < origin.sheet.first + origin.sheet.marks.length := by
  obtain rfl : rest = [] := by
    rw [h.calls] at hdepth
    exact List.length_eq_zero_iff.mp (Nat.succ.inj hdepth)
  have hline := h.line
  cases h.beneath with
  | first =>
      rcases hline.cases with ⟨-, hstop⟩ | ⟨line, σ', -, -, hnext⟩
      · exact (h.not_at_stop hroom hstop).elim
      · exact hnext.le

end Standing

/-- The first function has been called, and has not set its frame base yet. -/
structure Entering (r : Program) (bottom : Nat) (origin : Level m cx) (call : Invocation)
    (c : Tracked) : Prop where
  calls : c.calls = [call]
  base : call.base = origin.call.base
  sound : Level.Sound { origin with call } r bottom []
  line : origin.sheet.At c.state.pc [.unset]
  rsp : c.state.rsp.toNat = origin.foot

theorem Draws.of_unset {o : Outline} {marks : Marked} {k : Nat} {line : Line}
    (h : Draws o marks k line [.unset] σ) :
    (∃ name, line = .label name ∧ σ = [.unset]) ∨
      o.returns ∧ line = .inst (.movq .rsp (.reg .rbx)) ∧ σ = [] := by
  cases h with
  | label => exact .inl ⟨_, rfl, rfl⟩
  | enter hreturns => exact .inr ⟨hreturns, rfl, rfl⟩
  | quiet _ _ hunset | push _ hunset | take _ _ hunset | link _ hunset => exact absurd rfl hunset
  | drop _ _ hunset => exact absurd rfl hunset
  | store _ hσ | keep _ hσ | leave _ hσ | jump _ hσ | branch _ hσ => exact absurd rfl hσ.based

namespace Entering

variable {call : Invocation} (h : Entering r bottom origin call c)
include h

theorem spares : m.Spares c := by
  intro a _
  rw [Tracked.bases, h.calls]
  simp

theorem step (hgoes : m.Goes c c') (hroom : origin.sheet.stop = [.room Word.bound]) :
    Entering r bottom origin (call.noted c.state) c' ∨
      Standing r bottom 0 origin [] mem₀ c' { origin with call := call.noted c.state } [] [] := by
  have hsound := h.sound.noted c.state
  rcases h.line.cases with ⟨-, hstop⟩ | ⟨line, σ, hline, hdraws, hnext⟩
  · rw [hroom] at hstop
    cases hstop
  change m.code[c.state.pc]? = some line at hline
  have hcalls (hcall : ∀ symbol, line ≠ .inst (.call symbol)) (hret : line ≠ .inst .ret) :
      c'.calls = [call.noted c.state] := by
    rw [hgoes.calls, Machine.track_eq_note hline (fun symbol h => absurd h (hcall symbol)) hret,
      h.calls]
    rfl
  rcases hdraws.of_unset with ⟨name, rfl, rfl⟩ | ⟨hreturns, rfl, rfl⟩
  · have hstep := hgoes.step_of_line hline (by simp)
    rw [Machine.step, hline] at hstep
    have hstate : c.state.next = c'.state := Option.some.inj hstep
    refine .inl ⟨hcalls (by simp) (by simp), h.base, hsound, ?_, ?_⟩
    · rw [← hstate]
      exact hnext
    · rw [← hstate]
      exact h.rsp
  · obtain ⟨s₁, hexec, hstate⟩ := Machine.exec_of_step hline rfl
      (hgoes.step_of_line hline (by simp))
    cases hexec
    refine .inr ⟨hcalls (by simp) (by simp), hsound, .first h.base, ?_, ⟨?_, fun _ => ?_⟩, by simp,
      by simp⟩
    · rw [hstate]
      exact hnext
    · rw [hstate]
      exact h.rsp
    · rw [hstate]
      apply BitVec.eq_of_toNat_eq
      exact h.rsp.trans (h.sound.returns hreturns)

/-- From the entry of a function on, a run that stores to variables spares what the calls have
pushed, as long as the function has not returned. -/
theorem run (hlinked : Linked m r cx) (hroom : origin.sheet.stop = [.room Word.bound])
    {states : List Tracked} (hran : m.Ran (m.Confined r bottom) c states) :
    m.Ran m.Spares c states ∧ ∀ last ∈ states.head?,
      last.calls = [] ∨ (∃ call, Entering r bottom origin call last) ∨
        ∃ level rest σ, Standing r bottom 0 origin [] c.state.mem last level rest σ := by
  induction hran with
  | start =>
      refine ⟨.start, ?_⟩
      rintro last ⟨⟩
      exact .inr (.inl ⟨call, h⟩)
  | @goes c₀ c₁ past _ hconfined hgoes ih =>
      obtain ⟨hran, hlast⟩ := ih
      rcases hlast c₀ rfl with hcalls | ⟨call, hentering⟩ | ⟨level, rest, σ, hstanding⟩
      · exact absurd hcalls hgoes.busy
      · refine ⟨hran.goes hentering.spares hgoes, ?_⟩
        rintro last ⟨⟩
        exact .inr ((hentering.step hgoes hroom).imp (fun h => ⟨_, h⟩) fun h => ⟨_, _, _, h⟩)
      · refine ⟨hran.goes (hstanding.spares hconfined) hgoes, ?_⟩
        rintro last ⟨⟩
        exact (hstanding.step hgoes hconfined hlinked (hstanding.inside hroom)).imp And.right .inr

end Entering

end Standing

/-- Let a run enter a function of a program that is resolved and laid out, and let the source
program store to no cell of the stack but those of variables of the invocations in progress. Then
the run spares the words that the calls have pushed. -/
theorem Program.ran_spares {p q r : Program} {scope : Scope} (hwf : p.WellFormed)
    (hresolve : p.resolve scope = (q, .ok ())) (hlayout : q.layout = .ok r) {pool : Pool}
    {k k' : Nat} {code before after : Code}
    (hcode : Func.codeAll { decls := r.decls, pool } r.functions k = .ok code k')
    (hdots : ∀ d ∈ r.decls, d.name.toList.head? ≠ some '.') {m : Machine}
    (hm : m.code = before ++ code ++ after) (hbefore : before.labels = [])
    (hafter : after.labels = []) (hlines : m.code.length < Word.bound) {f : Func}
    (hf : f ∈ r.functions) {d : Decl} (hd : r.decls[f.decl]? = some d) {start : Tracked}
    (hentry : m.code[start.state.pc]? = some (.label d.name)) {call : Invocation}
    (hcalls : start.calls = [call]) (hsymbol : call.symbol = d.name)
    (hbase : call.base = start.state.rsp) {bottom : Nat} (hbottom : start.state.rsp.toNat ≤ bottom)
    (hfew : (paramsAt r.decls f.decl).length < 0x2000_0000_0000_0000) {run : List Tracked}
    (h : m.Ran (m.Confined r bottom) start run) : m.Ran m.Spares start run := by
  have hlinked := linked hwf hresolve hlayout hcode hdots hm hbefore hlines
  have hnames : r.Names f call.symbol := ⟨mem_functions_iff.mp hf, d, hd, hsymbol.symm⟩
  obtain ⟨sheet, htarget, hstart, hstop⟩ := hlinked.entry f call.symbol hnames
  -- The names are different, so the label is the one that a call of the function leads to.
  have hpc : m.target d.name = some start.state.pc := by
    obtain ⟨i, hpc, hi⟩ := Machine.label_inside hm hbefore hafter hentry
    rw [hpc]
    exact (holds_functions hcode (namesDistinct_of_layout hresolve hlayout) hdots hm
      hbefore).labels i d.name hi
  have hentering : Entering r bottom
      (⟨f, f.frameSize, True, sheet, call, call.base.toNat⟩ : Level m { decls := r.decls, pool })
      call start := by
    refine ⟨hcalls, rfl, ⟨hnames, ?_, ?_, call.base.isLt, fun _ => rfl⟩, ?_, by rw [hbase]⟩
    · rw [List.forall_mem_singleton]
      intro a ha
      have hbound := hlinked.slots f call hnames hfew a ha
      change (call.base.toNat : Int) ≤ a + f.frameSize
      omega
    · rw [← hbase] at hbottom
      exact hbottom
    · have hat := sheet.at_start
      rw [hsymbol, hpc] at htarget
      rwa [hstart, ← Option.some.inj htarget] at hat
  exact (hentering.run hlinked hstop h).1

end Backend
