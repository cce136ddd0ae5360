import Mathlib
import Backend.Command.Run
import Backend.Proofs.Overflow

/-! # What a run delivers

A run takes its actions one after the other: it notes its steps, saves the frame map, and hands
over the assembly. What it hands over and how it ends is what the generator writes and how the
generator ends; a program that is refused leaves nothing behind. Notes and the frame map are
made on the way and change neither.
-/

namespace Backend

/-! ## Scripts -/

namespace Script

variable {α β : Type}

/-- A script takes certain actions and ends in a certain way, whatever was done before. -/
def Ends (m : Script α) : Except Stop α → List Action → Prop
  | .ok a, new => ∀ actions, m actions = .ok a (actions ++ new)
  | .error stop, new => ∀ actions, m actions = .error stop (actions ++ new)

theorem ends_pure (a : α) : Ends (pure a) (.ok a) [] := by
  intro actions
  rw [List.append_nil]
  rfl

theorem ends_throw (stop : Stop) : Ends (throw stop : Script α) (.error stop) [] := by
  intro actions
  rw [List.append_nil]
  rfl

theorem ends_act (a : Action) : Ends (act a) (.ok ()) [a] := fun _ => rfl

namespace Ends

variable {m : Script α} {f : α → Script β} {new new' : List Action}

theorem bind {a : α} {result : Except Stop β} (hm : Ends m (.ok a) new)
    (hf : Ends (f a) result new') : Ends (m >>= f) result (new ++ new') := by
  cases result with
  | ok b =>
      intro actions
      rw [← List.append_assoc, ← hf (actions ++ new)]
      simp only [Bind.bind, EStateM.bind, hm actions]
  | error stop =>
      intro actions
      rw [← List.append_assoc, ← hf (actions ++ new)]
      simp only [Bind.bind, EStateM.bind, hm actions]

theorem stop {stop : Stop} (hm : Ends m (.error stop) new) :
    Ends (m >>= f) (.error stop) new := by
  intro actions
  simp only [Bind.bind, EStateM.bind, hm actions]

end Ends

end Script

open Script (Ends ends_pure ends_throw ends_act)

def Action.IsNote (a : Action) : Prop := ∃ text, a = .note text

namespace Options

/-- The action that saves the frame map, if it is wanted. -/
def mapSaved (o : Options) (map : FrameMap) : List Action :=
  (o.map.map (.save · map.toBlock)).toList

/-- The action that hands over the assembly. -/
def target (o : Options) (text : String) : Action :=
  o.output.elim (.print text) (.save · text)

variable (o : Options)

theorem step_ends (n : Nat) (text : String) :
    ∃ notes, Ends (o.step n text) (.ok ()) notes ∧ ∀ a ∈ notes, a.IsNote := by
  unfold step
  split
  · exact ⟨_, ends_act _, by simp [Action.IsNote]⟩
  · exact ⟨_, ends_pure _, by simp⟩

theorem emit_ends (code : Code) : Ends (o.emit code) (.ok ()) [o.target code.render] := by
  unfold emit target
  cases o.output <;> exact ends_act _

theorem reportFrames_ends {p : Program} {map : FrameMap} (h : p.frameMap = .ok map) :
    ∃ notes, Ends (o.reportFrames p) (.ok ()) (o.mapSaved map ++ notes) ∧
      ∀ a ∈ notes, a.IsNote := by
  have hchecked : Ends (Script.checked p.frameMap) (.ok map) [] := by
    rw [h]
    exact ends_pure map
  unfold reportFrames mapSaved
  cases o.map with
  | none =>
      cases o.verbose with
      | false => exact ⟨[], ends_pure _, by simp⟩
      | true =>
          exact ⟨_, hchecked.bind ((ends_pure _).bind (ends_act _)), by simp [Action.IsNote]⟩
  | some path =>
      cases o.verbose with
      | false => exact ⟨[], hchecked.bind ((ends_act _).bind (ends_pure _)), by simp⟩
      | true =>
          exact ⟨_, hchecked.bind ((ends_act _).bind (ends_act _)), by simp [Action.IsNote]⟩

/-- If there is a data section and nothing overflows, then assembling hands over what the
generator writes, and ends as the generator does. -/
theorem assemble_ends {p : Program} {data : Code} {pool : Pool} {n : Nat}
    (hdata : p.data 0 = .ok (data, pool) n)
    (hfits : ∀ x, (p.generate 0).result ≠ .error (.overflow x)) :
    ∃ before after,
      Ends (o.assemble p) (p.generate 0).result
        (before ++ o.target (p.generate 0).written.render :: after) ∧
      (∀ a ∈ before, a.IsNote) ∧ ∀ a ∈ after, a.IsNote := by
  obtain ⟨notes₄, hstep₄, hnotes₄⟩ := o.step_ends 4 "Generate"
  obtain ⟨notes₅, hstep₅, hnotes₅⟩ := o.step_ends 5 "Write output"
  have hbefore : ∀ a ∈ notes₄ ++ notes₅, a.IsNote := by
    simpa [or_imp, forall_and] using And.intro hnotes₄ hnotes₅
  simp only [assemble, Program.generate, hdata] at hfits ⊢
  cases htext : p.text pool n with
  | error stop labels =>
      rw [htext] at hfits
      cases stop with
      | overflow x => exact absurd rfl (hfits x)
      | error e =>
          have hfail : Ends (Script.fail e : Script Unit) (.error (.error e)) [] := ends_throw _
          have hemit := (o.emit_ends data).bind (f := fun _ => Script.fail e) hfail
          exact ⟨notes₄ ++ notes₅, [], by simpa using hstep₄.bind (hstep₅.bind hemit), hbefore,
            by simp⟩
  | ok text labels =>
      obtain ⟨listing, hlisting, hlisted⟩ : ∃ listing,
          Ends (if o.verbose then Script.act (.note (data.numbered ++ text.numbered)) else pure ())
            (.ok ()) listing ∧ ∀ a ∈ listing, a.IsNote := by
        split
        · exact ⟨_, ends_act _, by simp [Action.IsNote]⟩
        · exact ⟨_, ends_pure _, by simp⟩
      have hemit := (o.emit_ends (data ++ text)).bind (f := fun _ => _) hlisting
      exact ⟨notes₄ ++ notes₅, listing, by simpa using hstep₄.bind (hstep₅.bind hemit), hbefore,
        hlisted⟩

variable {o} {inputs : Inputs} {scope : Scope} {p q r : Program}

theorem run_refused (hscope : o.scope inputs = .ok scope) (hprogram : o.program inputs = .ok p)
    {e : Error} (hresolve : p.resolve scope = (q, .error e)) :
    ∃ notes, Ends (o.run inputs) (.error (.error e)) notes ∧ ∀ a ∈ notes, a.IsNote := by
  obtain ⟨notes₁, hstep₁, hnotes₁⟩ := o.step_ends 1 "Load AST"
  obtain ⟨notes₂, hstep₂, hnotes₂⟩ := o.step_ends 2 "Resolve"
  have hresult : Ends (Script.ofExcept (p.resolve scope).2) (.error (.error e)) [] := by
    rw [hresolve]
    exact ends_throw _
  simp only [run, hscope, hprogram]
  refine ⟨_, hstep₁.bind ((ends_pure scope).bind ((ends_pure p).bind
    (hstep₂.bind hresult.stop))), ?_⟩
  simpa [or_imp, forall_and] using And.intro hnotes₁ hnotes₂

theorem run_delivers (hscope : o.scope inputs = .ok scope) (hprogram : o.program inputs = .ok p)
    (hresolve : p.resolve scope = (q, .ok ())) (hlayout : q.layout = .ok r) {map : FrameMap}
    (hmap : r.frameMap = .ok map) {data : Code} {pool : Pool} {n : Nat}
    (hdata : r.data 0 = .ok (data, pool) n)
    (hfits : ∀ x, (r.generate 0).result ≠ .error (.overflow x)) :
    ∃ before between after,
      Ends (o.run inputs) (r.generate 0).result
        (before ++ o.mapSaved map ++ between ++
          o.target (r.generate 0).written.render :: after) ∧
      (∀ a ∈ before, a.IsNote) ∧ (∀ a ∈ between, a.IsNote) ∧ ∀ a ∈ after, a.IsNote := by
  obtain ⟨notes₁, hstep₁, hnotes₁⟩ := o.step_ends 1 "Load AST"
  obtain ⟨notes₂, hstep₂, hnotes₂⟩ := o.step_ends 2 "Resolve"
  obtain ⟨notes₃, hstep₃, hnotes₃⟩ := o.step_ends 3 "Lay out frames"
  obtain ⟨table, hframes, htable⟩ := o.reportFrames_ends hmap
  obtain ⟨before, after, hassemble, hbefore, hafter⟩ := o.assemble_ends hdata hfits
  have hresult : Ends (Script.ofExcept (p.resolve scope).2) (.ok ()) [] := by
    rw [hresolve]
    exact ends_pure _
  have hlaid : Ends (Script.checked (p.resolve scope).1.layout) (.ok r) [] := by
    rw [hresolve, hlayout]
    exact ends_pure r
  obtain ⟨_, hrun, rfl⟩ : ∃ actions, Ends (o.run inputs) (r.generate 0).result actions ∧
      actions = notes₁ ++ notes₂ ++ notes₃ ++ o.mapSaved map ++ (table ++ before) ++
        o.target (r.generate 0).written.render :: after := by
    simp only [run, hscope, hprogram]
    exact ⟨_, hstep₁.bind ((ends_pure scope).bind ((ends_pure p).bind (hstep₂.bind
      (hresult.bind (hstep₃.bind (hlaid.bind (hframes.bind hassemble))))))), by simp⟩
  refine ⟨_, _, after, hrun, ?_, ?_, hafter⟩
  · simpa [or_imp, forall_and, and_assoc] using And.intro hnotes₁ (And.intro hnotes₂ hnotes₃)
  · simpa [or_imp, forall_and] using And.intro htable hbefore

theorem transcript_eq {result : Except Stop Unit} {actions : List Action}
    (h : Ends (o.run inputs) result actions) : o.transcript inputs = (actions, result) := by
  unfold transcript
  cases result with
  | ok u => rw [h [], List.nil_append]
  | error stop => rw [h [], List.nil_append]

/-- The files that the options ask for can be created. -/
structure Creatable (o : Options) (creatable : String → Bool) : Prop where
  output : ∀ path, o.output = some path → creatable path = true
  map : ∀ path, o.map = some path → creatable path = true

end Options

/-! ## Reports -/

namespace Report

variable {o : Options} {inputs : Inputs} {creatable : String → Bool}

/-- How a report ends once all actions have been carried out. -/
def ending (r : Report) (file : String) : Except Stop Unit → Except Overflow Report
  | .ok _ => .ok r
  | .error (.error e) => .ok (r.fail e file)
  | .error (.overflow x) => .error x

theorem report_eq {actions : List Action} {result : Except Stop Unit} {s : Report}
    (hrun : Ends (o.run inputs) result actions)
    (hperform : perform creatable actions {} = (s, none)) :
    o.report inputs creatable = s.ending o.input result := by
  rw [Options.report, Options.transcript_eq hrun]
  simp only [hperform]
  rfl

theorem perform_append {actions rest : List Action} {r r' : Report}
    (h : perform creatable actions r = (r', none)) :
    perform creatable (actions ++ rest) r = perform creatable rest r' := by
  induction actions generalizing r with
  | nil =>
      cases h
      rfl
  | cons a actions ih =>
      cases a with
      | note text | print text => exact ih h
      | save path text =>
          simp only [List.cons_append, perform] at h ⊢
          cases hpath : creatable path with
          | false => simp [hpath] at h
          | true =>
              rw [hpath] at h
              exact ih h

theorem perform_notes (creatable : String → Bool) {actions : List Action}
    (h : ∀ a ∈ actions, a.IsNote) (r : Report) :
    ∃ stderr, perform creatable actions r = ({ r with stderr }, none) := by
  induction actions generalizing r with
  | nil => exact ⟨r.stderr, rfl⟩
  | cons a actions ih =>
      rw [List.forall_mem_cons] at h
      obtain ⟨⟨text, rfl⟩, h⟩ := h
      exact ih h _

theorem perform_mapSaved (ho : o.Creatable creatable) (map : FrameMap) (r : Report) :
    perform creatable (o.mapSaved map) r =
      ({ r with files := r.files ++ (o.map.map (·, map.toBlock)).toList }, none) := by
  unfold Options.mapSaved
  cases hmap : o.map with
  | none => simp [perform]
  | some path => simp [perform, ho.map path hmap]

theorem perform_target (ho : o.Creatable creatable) (text : String) (r : Report) :
    perform creatable [o.target text] r =
      ({ r with
          stdout := r.stdout ++ o.output.elim text fun _ => ""
          files := r.files ++ (o.output.map (·, text)).toList }, none) := by
  unfold Options.target
  cases houtput : o.output with
  | none => simp [perform]
  | some path => simp [perform, ho.output path houtput]

/-- A report shows the same as another one, up to the standard error and the frame map. -/
structure Agrees (o : Options) (r r' : Report) : Prop where
  status : r'.status = r.status
  stdout : r'.stdout = r.stdout
  files : ∃ maps, r'.files = maps ++ r.files ∧ ∀ file ∈ maps, o.map = some file.1

end Report

namespace Options

variable {o : Options} {inputs : Inputs} {creatable : String → Bool} {config : Config}
  {p q r : Program}

/-- The configuration that the options choose: that of the file they name, if they name one. -/
def Configured (o : Options) (inputs : Inputs) (config : Config) : Prop :=
  o.config.elim (config = {}) fun _ => inputs.config = some (.ok config)

/-- The scope of a run, where the options override the configuration. -/
def scopeWith (o : Options) (config : Config) : Scope :=
  if o.blockScope then .block else config.scope

theorem Configured.scope_eq (h : o.Configured inputs config) :
    o.scope inputs = .ok (o.scopeWith config) := by
  unfold Configured at h
  cases hconfig : o.config with
  | none =>
      rw [hconfig] at h
      subst h
      simp only [scope, hconfig]
      rfl
  | some path =>
      rw [hconfig] at h
      change inputs.config = _ at h
      simp only [scope, hconfig, h]
      rfl

theorem program_eq (h : inputs.tree = some (.ok p)) : o.program inputs = .ok p := by
  rw [program, h]
  rfl

/-- The same run without notes and without a frame map. -/
def quiet (o : Options) : Options := { o with verbose := false, map := none }

/-- A text is what the run writes where the options want the assembly. The frame map, where it
is wanted, is written before, and no other file is. -/
structure Delivers (o : Options) (map : FrameMap) (text : String) (s : Report) : Prop where
  status : s.status = 0
  stdout : s.stdout = o.output.elim text fun _ => ""
  files : s.files = (o.map.map (·, map.toBlock)).toList ++ (o.output.map (·, text)).toList

theorem delivers_of_perform (ho : o.Creatable creatable) {before between after : List Action}
    (map : FrameMap) (text : String) (hbefore : ∀ a ∈ before, a.IsNote)
    (hbetween : ∀ a ∈ between, a.IsNote) (hafter : ∀ a ∈ after, a.IsNote) :
    ∃ s, Report.perform creatable
        (before ++ o.mapSaved map ++ between ++ o.target text :: after) {} = (s, none) ∧
      o.Delivers map text s := by
  let maps := (o.map.map (·, map.toBlock)).toList
  obtain ⟨stderr₁, h₁⟩ := Report.perform_notes creatable hbefore {}
  have h₂ := Report.perform_mapSaved ho map { stderr := stderr₁ }
  obtain ⟨stderr₃, h₃⟩ :=
    Report.perform_notes creatable hbetween { stderr := stderr₁, files := maps }
  have h₄ := Report.perform_target ho text { stderr := stderr₃, files := maps }
  obtain ⟨stderr₅, h₅⟩ := Report.perform_notes creatable hafter
    { stdout := "" ++ o.output.elim text fun _ => ""
      stderr := stderr₃
      files := maps ++ (o.output.map (·, text)).toList }
  have hactions : before ++ o.mapSaved map ++ between ++ o.target text :: after =
      before ++ (o.mapSaved map ++ (between ++ ([o.target text] ++ after))) := by simp
  rw [hactions]
  exact ⟨_, (Report.perform_append h₁).trans ((Report.perform_append h₂).trans
    ((Report.perform_append h₃).trans ((Report.perform_append h₄).trans h₅))), rfl,
    String.empty_append, rfl⟩

/-- A program that is refused is reported with its error, and nothing is written. -/
theorem report_refused (hconfig : o.Configured inputs config) (hload : inputs.tree = some (.ok p))
    {e : Error} (hresolve : p.resolve (o.scopeWith config) = (q, .error e)) :
    ∃ stderr, o.report inputs creatable =
      Report.ending { stderr } o.input (.error (.error e)) := by
  obtain ⟨notes, hrun, hnotes⟩ := run_refused hconfig.scope_eq (program_eq hload) hresolve
  obtain ⟨stderr, hperform⟩ := Report.perform_notes creatable hnotes {}
  exact ⟨stderr, Report.report_eq hrun hperform⟩

theorem report_delivers (ho : o.Creatable creatable) (hconfig : o.Configured inputs config)
    (hload : inputs.tree = some (.ok p)) (hresolve : p.resolve (o.scopeWith config) = (q, .ok ()))
    (hlayout : q.layout = .ok r) {map : FrameMap} (hmap : r.frameMap = .ok map) {data : Code}
    {pool : Pool} {n : Nat} (hdata : r.data 0 = .ok (data, pool) n)
    (hfits : ∀ x, (r.generate 0).result ≠ .error (.overflow x)) :
    ∃ s, o.report inputs creatable = s.ending o.input (r.generate 0).result ∧
      o.Delivers map (r.generate 0).written.render s := by
  obtain ⟨before, between, after, hrun, hbefore, hbetween, hafter⟩ :=
    run_delivers hconfig.scope_eq (program_eq hload) hresolve hlayout hmap hdata hfits
  obtain ⟨s, hperform, hdelivers⟩ :=
    delivers_of_perform ho map (r.generate 0).written.render hbefore hbetween hafter
  exact ⟨s, Report.report_eq hrun hperform, hdelivers⟩

theorem Creatable.quiet (ho : o.Creatable creatable) : o.quiet.Creatable creatable :=
  ⟨ho.output, fun _ h => absurd h (by simp [Options.quiet])⟩

theorem Delivers.agrees {map : FrameMap} {text : String} {s s' : Report}
    (h : o.Delivers map text s) (h' : o.quiet.Delivers map text s') : Report.Agrees o s' s := by
  refine ⟨h.status.trans h'.status.symm, h.stdout.trans h'.stdout.symm,
    (o.map.map (·, map.toBlock)).toList, ?_, ?_⟩
  · rw [h.files, h'.files]
    rfl
  · intro file hfile
    obtain ⟨path, hpath, rfl⟩ := Option.map_eq_some_iff.mp (Option.mem_toList.mp hfile)
    exact hpath

end Options

/-- Nothing overflows in an accepted program of ordinary size without empty local arrays. -/
theorem Program.fits_of_noEmptyLocals {p q : Program} {scope : Scope}
    (hresolve : p.resolve scope = (q, .ok ()))
    (hpositions : positions p.decls p.listed < 0x1000_0000_0000_0000)
    (hnodes : p.nodes < 0x1000_0000_0000_0000) (harrays : p.NoEmptyLocals) :
    ∃ r map data pool n, q.layout = .ok r ∧ r.frameMap = .ok map ∧
      r.data 0 = .ok (data, pool) n ∧ ∀ x, (r.generate 0).result ≠ .error (.overflow x) := by
  obtain ⟨r, hlayout⟩ := layout_of_small hresolve hpositions hnodes
  obtain ⟨-, map, hmap⟩ | ⟨hlost, -⟩ := frameMap_of_layout hresolve hpositions hnodes hlayout
  · obtain ⟨-, ⟨data, pool⟩, n, hdata, -⟩ | ⟨hlost, -⟩ :=
      data_of_layout hresolve hpositions hnodes hlayout 0 (by unfold Word.bound; omega)
    · refine ⟨r, map, data, pool, n, hlayout, hmap, hdata, ?_⟩
      intro x hx
      rw [generate_overflow_iff hresolve hpositions hnodes hlayout] at hx
      exact harrays.not_usesLost hresolve hlayout hx.2.2
    · exact absurd hlost not_false
  · exact absurd hlost (harrays.not_listsLost hresolve hlayout)

theorem Program.written_of_error {r : Program} {data : Code} {pool : Pool} {n : Nat}
    (hdata : r.data 0 = .ok (data, pool) n) {stop : Stop}
    (h : (r.generate 0).result = .error stop) : (r.generate 0).written = data := by
  simp only [generate, hdata] at h ⊢
  cases htext : r.text pool n with
  | error stop labels => rfl
  | ok text labels =>
      rw [htext] at h
      cases h

namespace Options

/-- A run that can read its input files and create its output files, on a program with fewer than
2⁶⁰ positions and without empty local arrays. If the program is refused, its error is reported and
nothing is written. Otherwise the run hands over exactly what the generator writes for the program
laid out, which is the data section alone if the generator fails, and succeeds or fails as the
generator does. Notes and a frame map change neither how the run ends nor the standard output
nor any other file. (A tree with 2⁶⁰ nodes does not fit into memory.) -/
theorem report_hands_over_generated {o : Options} {inputs : Inputs} {creatable : String → Bool}
    {config : Config} {p : Program} (ho : o.Creatable creatable)
    (hconfig : o.Configured inputs config) (hload : inputs.tree = some (.ok p))
    (hpositions : positions p.decls p.listed < 0x1000_0000_0000_0000)
    (hnodes : p.nodes < 0x1000_0000_0000_0000) (harrays : p.NoEmptyLocals) :
    (∀ q e, p.resolve (o.scopeWith config) = (q, .error e) →
      ∃ stderr, o.report inputs creatable = .ok (Report.fail { stderr } e o.input)) ∧
    (∀ q, p.resolve (o.scopeWith config) = (q, .ok ()) →
      ∃ r map data pool n s, q.layout = .ok r ∧ r.frameMap = .ok map ∧
        r.data 0 = .ok (data, pool) n ∧ o.Delivers map (r.generate 0).written.render s ∧
        ((r.generate 0).result = .ok () ∧ o.report inputs creatable = .ok s ∨
          ∃ e, (r.generate 0).result = .error (.error e) ∧ (r.generate 0).written = data ∧
            o.report inputs creatable = .ok (s.fail e o.input))) ∧
    ∃ s s' result, o.report inputs creatable = s.ending o.input result ∧
      o.quiet.report inputs creatable = s'.ending o.input result ∧ Report.Agrees o s' s := by
  refine ⟨?_, ?_, ?_⟩
  · intro q e hresolve
    exact report_refused hconfig hload hresolve
  · intro q hresolve
    obtain ⟨r, map, data, pool, n, hlayout, hmap, hdata, hfits⟩ :=
      Program.fits_of_noEmptyLocals hresolve hpositions hnodes harrays
    obtain ⟨s, hreport, hdelivers⟩ :=
      report_delivers ho hconfig hload hresolve hlayout hmap hdata hfits
    refine ⟨r, map, data, pool, n, s, hlayout, hmap, hdata, hdelivers, ?_⟩
    rcases hresult : (r.generate 0).result with ((e | x) | ⟨⟩)
    · rw [hresult] at hreport
      exact .inr ⟨e, rfl, Program.written_of_error hdata hresult, hreport⟩
    · exact absurd hresult (hfits x)
    · rw [hresult] at hreport
      exact .inl ⟨rfl, hreport⟩
  · rcases hresolve : p.resolve (o.scopeWith config) with ⟨q, e | ⟨⟩⟩
    · obtain ⟨stderr, hreport⟩ := report_refused hconfig hload hresolve
      obtain ⟨stderr', hreport'⟩ :=
        @report_refused o.quiet _ creatable _ _ _ hconfig hload _ hresolve
      exact ⟨_, _, _, hreport, hreport', rfl, rfl, [], rfl, by simp⟩
    · obtain ⟨r, map, data, pool, n, hlayout, hmap, hdata, hfits⟩ :=
        Program.fits_of_noEmptyLocals hresolve hpositions hnodes harrays
      obtain ⟨s, hreport, hdelivers⟩ :=
        report_delivers ho hconfig hload hresolve hlayout hmap hdata hfits
      obtain ⟨s', hreport', hdelivers'⟩ :=
        @report_delivers o.quiet _ _ _ _ _ _ ho.quiet hconfig hload hresolve hlayout _ hmap _ _ _
          hdata hfits
      exact ⟨s, s', _, hreport, hreport', hdelivers.agrees hdelivers'⟩

end Options

namespace Greeting

/-- Everything that can be asked for, with a scope that overrides the configuration. -/
def options : Options where
  input := "trees/greeting.yaml"
  output := some "/tmp/build/greeting.s"
  config := some "bplc.yaml"
  blockScope := true
  map := some "/tmp/build/greeting.map"
  verbose := true

def main : Func where
  decl := 1
  body := .ofStmts [0] [.expr (.setVar "n" (.num 3)), .write (.str "hello"), .writeln]

def program : Program where
  decls := [{ line := 2, name := "n", base := .int, kind := .var },
    { line := 1, name := "main", base := .int, kind := .func [] }]
  items := [.func main]

def inputs : Inputs where
  config := some (.ok {})
  tree := some (.ok program)

/-- No other file can be created. -/
def creatable (path : String) : Bool :=
  path == "/tmp/build/greeting.s" || path == "/tmp/build/greeting.map"

def laidOut : Program := ((program.resolve .block).1.layout).toOption.getD {}

/-- The frame map is written first, then the data and the text. -/
theorem text_handed_over :
    ∃ s map, options.report inputs creatable = .ok s ∧ s.stdout = "" ∧
      laidOut.frameMap = .ok map ∧
      s.files = [("/tmp/build/greeting.map", map.toBlock),
        ("/tmp/build/greeting.s", (laidOut.generate 0).written.render)] ∧
      .string ".S0" "hello" ∈ (laidOut.generate 0).written ∧
      .label "main" ∈ (laidOut.generate 0).written := by
  have hcreatable : options.Creatable creatable := by
    refine ⟨fun path hpath => ?_, fun path hpath => ?_⟩
    · cases hpath
      rfl
    · cases hpath
      rfl
  have hnone : program.NoEmptyLocals := by
    rintro f hf id hid d hd
    cases List.mem_singleton.mp hf
    cases List.mem_singleton.mp hid
    cases hd
    decide
  obtain ⟨-, haccepted, -⟩ := Options.report_hands_over_generated hcreatable
    (show options.Configured inputs {} from rfl) (show inputs.tree = some (.ok program) from rfl)
    (by decide) (by decide) hnone
  obtain ⟨r, map, data, pool, n, s, hlayout, hmap, -, hdelivers, hends⟩ := haccepted _ rfl
  obtain rfl : laidOut = r := Except.ok.inj hlayout
  obtain ⟨-, hreport⟩ | ⟨e, herror, -⟩ := hends
  · exact ⟨s, map, hreport, hdelivers.stdout, hmap, hdelivers.files, by decide, by decide⟩
  · cases herror

end Greeting

end Backend
