import Backend.Proofs.Balance
import Backend.Proofs.Preservation

/-! # The stack discipline of functions

At every line of a function the height of the stack is the same whatever path leads there. It
is never below the frame of the function, so no push of the function's code reaches the cells
of its locals.
-/

namespace Backend

/-! ## Where the code of an expression stands -/

namespace Node

/-- Code of an expression stands in a piece of code. -/
def CodeIn (cx : CodeEnv) (e : Expr) (c : Code) : Prop :=
  ∃ access n part n', e.code cx access n = .ok part n' ∧ part <:+: c

namespace CodeIn

variable {cx : CodeEnv} {e : Expr}

theorem self {access : Access} {n n' : Nat} {c : Code} (h : e.code cx access n = .ok c n') :
    e.CodeIn cx c :=
  ⟨access, n, c, n', h, List.infix_rfl⟩

theorem left {a : Code} (h : e.CodeIn cx a) (b : Code) : e.CodeIn cx (a ++ b) := by
  obtain ⟨access, n, part, n', hpart, hinfix⟩ := h
  exact ⟨access, n, part, n', hpart, hinfix.trans (List.prefix_append a b).isInfix⟩

theorem right {b : Code} (h : e.CodeIn cx b) (a : Code) : e.CodeIn cx (a ++ b) := by
  obtain ⟨access, n, part, n', hpart, hinfix⟩ := h
  exact ⟨access, n, part, n', hpart, hinfix.trans (List.suffix_append a b).isInfix⟩

end CodeIn

/-- The code of a node has that of its parts in it. -/
theorem codeIn_of_mem_parts {l : Layer} {cx : CodeEnv} {x : Node l} {access : Access} {n n' : Nat}
    {c : Code} (h : x.code cx access n = .ok c n') {e : Expr} (he : e ∈ x.parts) :
    e.CodeIn cx c := by
  induction x generalizing access n n' c with
  | sum _ x ih | term _ x ih | unary _ x ih | factor _ x ih | paren _ x ih => exact ih h he
  | comp m x ih =>
      rcases List.mem_cons.mp he with rfl | he
      · exact .self h
      · exact ih h he
  | assign m target value iht ihv =>
      simp only [parts, List.mem_cons, List.mem_append] at he
      rcases he with rfl | he
      · exact .self h
      simp only [code, Emit.bind_eq_ok_iff, Emit.pure_eq_ok_iff] at h
      obtain ⟨cv, k, hcv, ct, k', hct, rfl, rfl⟩ := h
      rcases he with he | he
      · exact (iht hct he).right _
      · exact (ihv hcv he).left _
  | setElem _ x index ih =>
      simp only [code, CodeEnv.element, Emit.bind_eq_ok_iff, Emit.pure_eq_ok_iff] at h
      obtain ⟨ce, _, ⟨d, _, -, base, _, -, ci, _, hci, rfl, -⟩, rfl, -⟩ := h
      have helement := ((ih hci he).right [.inst base, .inst Snippet.pushValue]).left Snippet.index
      exact (helement.right _).left _
  | elem _ x index ih =>
      simp only [code, CodeEnv.element, Emit.bind_eq_ok_iff, Emit.pure_eq_ok_iff] at h
      obtain ⟨ce, _, ⟨d, _, -, base, _, -, ci, _, hci, rfl, -⟩, rfl, -⟩ := h
      have helement := ((ih hci he).right [.inst base, .inst Snippet.pushValue]).left Snippet.index
      exact helement.left _
  | rel _ a op b iha ihb =>
      simp only [code, Emit.bind_eq_ok_iff, Emit.pure_eq_ok_iff] at h
      obtain ⟨other, _, -, stop, _, -, cb, k, hcb, ca, k', hca, rfl, rfl⟩ := h
      rcases List.mem_append.mp he with he | he
      · exact ((iha hca he).right _).left _
      · exact (((ihb hcb he).left _).left _).left _
  | add _ a op b iha ihb | mul _ a op b iha ihb =>
      simp only [code, Emit.bind_eq_ok_iff, Emit.pure_eq_ok_iff] at h
      obtain ⟨cb, k, hcb, ca, k', hca, rfl, rfl⟩ := h
      rcases List.mem_append.mp he with he | he
      · exact ((iha hca he).right _).left _
      · exact (((ihb hcb he).left _).left _).left _
  | neg _ x ih | deref _ x ih =>
      simp only [code, Emit.bind_eq_ok_iff, Emit.pure_eq_ok_iff] at h
      obtain ⟨operand, k, hoperand, rfl, rfl⟩ := h
      exact (ih hoperand he).left _
  | addrOf _ x ih =>
      simp only [code] at h
      split at h
      · exact absurd h Emit.missing_ne_ok
      · exact ih h he
  | call _ x args ih =>
      simp only [code, Emit.bind_eq_ok_iff, Emit.pure_eq_ok_iff] at h
      obtain ⟨d, _, -, pushes, _, hpushes, size, _, -, rfl, rfl⟩ := h
      exact ((ih hpushes he).left _).left _
  | cons arg rest iharg ihrest =>
      simp only [code, Emit.bind_eq_ok_iff, Emit.pure_eq_ok_iff] at h
      obtain ⟨others, k, hothers, first, k', hfirst, rfl, rfl⟩ := h
      rcases List.mem_append.mp he with he | he
      · exact ((iharg hfirst he).right _).left _
      · exact ((ihrest hothers he).left _).left _
  | setVar _ x | setDeref _ x | var _ x | num _ value | str _ text | read _ | nil =>
      simp [parts] at he

end Node

/-- The code of a statement has that of its expressions in it. -/
theorem Clause.codeIn_of_mem_exprs {f : Form} {cx : CodeEnv} {x : Clause f} {n n' : Nat} {c : Code}
    (h : x.code cx n = .ok c n') {whole e : Expr} (hwhole : whole ∈ x.exprs)
    (he : e ∈ whole.parts) : e.CodeIn cx c := by
  induction x generalizing n n' c with
  | eval _ value =>
      cases value with
      | none => simp [exprs] at hwhole
      | some value =>
          cases List.mem_singleton.mp hwhole
          exact Node.codeIn_of_mem_parts h he
  | braces _ b ih | present s ih => exact ih h hwhole
  | ifElse _ cond t e iht ihe =>
      simp only [code, Emit.bind_eq_ok_iff, Emit.pure_eq_ok_iff] at h
      obtain ⟨start, _, -, other, _, -, stop, _, -, cc, k, hcc, ct, k', hct, ce, k'', hce, rfl,
        -⟩ := h
      simp only [exprs, List.mem_cons, List.mem_append] at hwhole
      rcases hwhole with rfl | hwhole | hwhole
      · have hin := (Node.codeIn_of_mem_parts hcc he).right [.label start]
        exact ((((hin.left _).left _).left _).left _).left _
      · exact ((((iht hct hwhole).right _).left _).left _).left _
      · exact ((ihe hce hwhole).right _).left _
  | loop _ cond s ih =>
      simp only [code, Emit.bind_eq_ok_iff, Emit.pure_eq_ok_iff] at h
      obtain ⟨start, _, -, stop, _, -, cc, k, hcc, cs, k', hcs, rfl, -⟩ := h
      rcases List.mem_cons.mp hwhole with rfl | hwhole
      · have hin := (Node.codeIn_of_mem_parts hcc he).right [.label start]
        exact ((hin.left _).left _).left _
      · exact ((ih hcs hwhole).right _).left _
  | ret _ value =>
      cases value with
      | none => simp [exprs] at hwhole
      | some value =>
          simp only [code, Emit.bind_eq_ok_iff, Emit.pure_eq_ok_iff] at h
          obtain ⟨cv, k, hcv, rfl, rfl⟩ := h
          cases List.mem_singleton.mp hwhole
          exact (Node.codeIn_of_mem_parts hcv he).left _
  | write _ value =>
      cases value with
      | none => simp [exprs] at hwhole
      | some value =>
          simp only [code, Emit.bind_eq_ok_iff, Emit.pure_eq_ok_iff] at h
          obtain ⟨print, _, -, cv, k, hcv, rfl, rfl⟩ := h
          cases List.mem_singleton.mp hwhole
          exact (Node.codeIn_of_mem_parts hcv he).left _
  | absent | nil => simp [exprs] at hwhole
  | cons s rest ihs ihrest =>
      simp only [code, Emit.bind_eq_ok_iff, Emit.pure_eq_ok_iff] at h
      obtain ⟨first, k, hfirst, others, k', hothers, rfl, rfl⟩ := h
      rcases List.mem_append.mp hwhole with hwhole | hwhole
      · exact (ihs hfirst hwhole).left _
      · exact (ihrest hothers hwhole).right _
  | block _ own stmts _ span ih =>
      simp only [code, Emit.bind_eq_ok_iff, Emit.pure_eq_ok_iff] at h
      obtain ⟨body, k, hbody, rfl, rfl⟩ := h
      have hin := ih hbody hwhole
      unfold Snippet.reserving
      split
      · exact hin
      · exact (hin.right _).left _

/-! ## Functions -/

namespace Code

theorem lift_take_append (a b : Code) (i : Nat) :
    lift ((a ++ b).take (a.length + i)) = lift a + lift (b.take i) := by
  rw [List.take_append, List.take_of_length_le (Nat.le_add_right _ _), Nat.add_sub_cancel_left,
    lift_append]

/-- No return stands in, or right behind, code that may not return. -/
theorem Regular.ne_ret_of_part {code before part after : Code} (hc : Regular True code)
    (hsplit : code = before ++ part ++ after) (hpart : Regular False part) (hne : part ≠ [])
    {i : Nat} (hi : i ≤ part.length) : code[before.length + i]? ≠ some (.inst .ret) := by
  have hline {k : Nat} (hk : k < part.length) : code[before.length + k]? = part[k]? := by
    rw [hsplit, List.append_assoc, List.getElem?_append_right (Nat.le_add_right _ _),
      Nat.add_sub_cancel_left, List.getElem?_append_left hk]
  intro hret
  rcases Nat.lt_or_eq_of_le hi with hlt | rfl
  · rw [hline hlt] at hret
    obtain ⟨k, -, hleave⟩ := hpart.leave_of_ret hret
    exact hpart.ne_leave (List.mem_of_getElem? hleave) rfl
  · obtain ⟨k, hk, hleave⟩ := hc.leave_of_ret hret
    have hpos := List.length_pos_iff.mpr hne
    obtain rfl : k = before.length + (part.length - 1) := by omega
    rw [hline (by omega)] at hleave
    exact hpart.ne_leave (List.mem_of_getElem? hleave) rfl

/-- How a function treats the stack if it is entered at a height: what the height is at each
line, for code with a body between two lines and a frame of some bytes. -/
structure Disciplined (code : Code) (frameSize start stop : Nat) (entry : Int)
    (height : Nat → Int) : Prop where
  /-- Every path comes to a line with the height of the line. -/
  paths : ∀ i h, code.Path (0, entry) (i, h) → h = height i
  /-- Once the frame base is set, which takes two lines, heights are counted in words. -/
  whole : ∀ i, (i < 2 → 8 ∣ entry) → 8 ∣ height i
  /-- From the end of the prologue on, the frame stays reserved. -/
  reserved : ∀ i : Nat, start ≤ i → i < code.length → code[i]? ≠ some (.inst .ret) →
    frameSize ≤ height i
  /-- A jump leads to a line of the same height. -/
  jumps : ∀ i line label, code[i]? = some line → line.target? = some label →
    (∃ j : Nat, code[j]? = some (.label label)) ∧
    ∀ j : Nat, code[j]? = some (.label label) → height j = height i
  body : height stop = frameSize
  returns : ∀ i : Nat, code[i]? = some (.inst .ret) → height i = 0
  /-- The cell that a push writes ends below the frame. -/
  pushes : ∀ i src, start ≤ i → code[i]? = some (.inst (.pushq src)) →
    -(height i + 8) + 8 ≤ -frameSize

end Code

open Code

namespace Func

variable {f : Func}

/-- The line that reserves the frame, if there is one to reserve. -/
def reserve (f : Func) : Code :=
  if f.frameSize = 0 then [] else [.inst (.subq (.imm (Word.toSigned f.frameSize)) .rsp)]

theorem moves_reserve (hwhole : 8 ∣ f.frameSize) (hsmall : f.frameSize < 0x4000_0000_0000_0000) :
    Moves 0 f.frameSize f.reserve := by
  unfold reserve
  split
  next hzero =>
    rw [hzero]
    exact .nil
  next =>
    rw [Word.toSigned_of_lt (by unfold Word.bound; omega)]
    apply Moves.of_plain <;> simp [Operand.rsp]
    omega

/-- The code of a function behind its first two lines. -/
def behind (f : Func) (body : Code) : Code := f.reserve ++ (body ++ Snippet.epilogue)

section Discipline

variable {name : String} {body : Code} {entry : Int}
  (hreserve : Moves 0 f.frameSize f.reserve)
include hreserve

/-- Behind the prologue the height is the frame and what the body adds to it. -/
theorem heightIn_behind {i : Nat}
    (hret : (f.behind body)[f.reserve.length + i]? ≠ some (.inst .ret)) :
    heightIn entry (f.behind body) (2 + f.reserve.length + i) =
      f.frameSize + lift ((body ++ Snippet.epilogue).take i) := by
  have hindex : 2 + f.reserve.length + i - 2 = f.reserve.length + i := by omega
  rw [heightIn, if_neg (by omega), hindex, heightAt_of_ne_ret hret, behind, lift_take_append,
    hreserve.lift]

theorem dvd_frameSize : (8 : Int) ∣ f.frameSize := by
  have hframe := ((hreserve.above 0 0 (by omega) (by omega)).take f.reserve.length).2
  rwa [List.take_length, hreserve.lift, Int.zero_add] at hframe

variable (hbody : Balanced True body)
include hbody

theorem regular_behind : Regular True (f.behind body) :=
  (hreserve.regular.mono False.elim).append (hbody.append .epilogue).regular

theorem closed_behind : Closed 0 (f.behind body) :=
  (hreserve.closed 0).append ((hbody.append .epilogue).closed _)

theorem staysAbove_behind : StaysAbove 0 0 (f.behind body) := by
  refine (hreserve.above 0 0 (by omega) (by omega)).append ?_
  rw [hreserve.lift, Int.zero_add]
  exact (hbody.append .epilogue).above trivial 0 _ (by omega) (dvd_frameSize hreserve)

theorem dvd_heightIn {i : Nat} (hi : i < 2 → 8 ∣ entry) :
    8 ∣ heightIn entry (f.behind body) i := by
  unfold heightIn heightAt
  split
  next hlt => exact hi hlt
  next =>
    split
    · exact Int.dvd_zero 8
    · have hheight := ((staysAbove_behind hreserve hbody).take (i - 2)).2
      rwa [Int.zero_add] at hheight

theorem le_heightIn {i : Nat} (hi : 2 + f.reserve.length ≤ i)
    (hret : (Code.entry name ++ f.behind body)[i]? ≠ some (.inst .ret)) :
    f.frameSize ≤ heightIn entry (f.behind body) i := by
  obtain ⟨k, rfl⟩ := Nat.exists_eq_add_of_le hi
  rw [Nat.add_assoc, Nat.add_comm 2] at hret
  rw [heightIn_behind hreserve hret]
  have habove := (hbody.append .epilogue).above trivial f.frameSize f.frameSize (Int.le_refl _)
    (dvd_frameSize hreserve)
  exact (habove.take k).1

theorem heightIn_end :
    heightIn entry (f.behind body) (2 + f.reserve.length + body.length) = f.frameSize := by
  have hline : (f.behind body)[f.reserve.length + body.length]? = some leave := by
    simp [behind, Snippet.epilogue, Operand.rsp, leave]
  rw [heightIn_behind hreserve (by simp [hline]), List.take_left, hbody.lift, Int.add_zero]

/-- The code of an expression in the body ends at the height at which it starts, and stays above
it. -/
theorem heightIn_part {before part after : Code} (hsplit : body = before ++ part ++ after)
    (hpart : Moves 0 0 part) {start : Nat}
    (hstart : start = 2 + f.reserve.length + before.length) :
    heightIn entry (f.behind body) (start + part.length) = heightIn entry (f.behind body) start ∧
    ∀ i ≤ part.length,
      heightIn entry (f.behind body) start ≤ heightIn entry (f.behind body) (start + i) := by
  subst hstart
  by_cases hne : part = []
  · subst hne
    simp
  have hbehind : f.behind body =
      (f.reserve ++ before) ++ part ++ (after ++ Snippet.epilogue) := by
    simp [behind, hsplit]
  have hheight {i : Nat} (hi : i ≤ part.length) :
      heightIn entry (f.behind body) (2 + f.reserve.length + before.length + i) =
        f.frameSize + lift before + lift (part.take i) := by
    have hret := (regular_behind hreserve hbody).ne_ret_of_part hbehind hpart.regular hne hi
    rw [List.length_append, Nat.add_assoc] at hret
    rw [Nat.add_assoc _ before.length, heightIn_behind hreserve hret, hsplit, List.append_assoc,
      List.append_assoc, lift_take_append, List.take_append_of_le_length hi, Int.add_assoc]
  have hfirst := @hheight 0 (Nat.zero_le _)
  rw [Nat.add_zero, List.take_zero, lift_nil] at hfirst
  refine ⟨?_, fun i hi => ?_⟩
  · rw [hheight (Nat.le_refl _), List.take_length, hpart.lift, hfirst]
  · have habove := (hpart.above 0 0 (by omega) (by omega)).take i
    rw [hheight hi, hfirst]
    omega

theorem disciplined (hlabels : (labels (Code.entry name ++ f.behind body)).Nodup) :
    Disciplined (Code.entry name ++ f.behind body) f.frameSize (2 + f.reserve.length)
      (2 + f.reserve.length + body.length) entry (heightIn entry (f.behind body)) where
  paths _ _ hpath := (regular_behind hreserve hbody).path_heightIn (closed_behind hreserve hbody)
    hlabels hpath
  whole _ := dvd_heightIn hreserve hbody
  reserved _ hstart _ hret := le_heightIn hreserve hbody hstart hret
  jumps i line label hi htarget := by
    match i with
    | 0 | 1 =>
        cases hi
        cases htarget
    | i + 2 =>
        have hclosed := closed_behind hreserve hbody
        refine ⟨?_, fun j hj => hclosed.heightIn_jump hlabels hi htarget hj⟩
        obtain ⟨j, hj, -⟩ := hclosed.exists_label hi htarget
        exact ⟨j + 2, hj⟩
  body := heightIn_end hreserve hbody
  returns i hret := by
    match i with
    | 0 | 1 => cases hret
    | i + 2 => exact heightAt_ret hret
  pushes i src hstart hi := by
    have hle := @le_heightIn f name body entry hreserve hbody i hstart (by simp [hi])
    omega

end Discipline

theorem length_prologue : 1 + f.prologue.length = 2 + f.reserve.length := by
  simp [prologue, reserve]
  omega

theorem code_eq_entry {name : String} {body : Code} :
    [.label name] ++ f.prologue ++ body ++ Snippet.epilogue = Code.entry name ++ f.behind body := by
  simp [prologue, behind, reserve, Code.entry, Operand.rsp]

/-- A name without a leading dot is not one of the jump targets of its function. -/
theorem nodup_labels_code {cx : CodeEnv} {n n' : Nat} {code : Code}
    (h : f.code cx n = .ok code n') {d : Decl} (hd : cx.decls[f.decl]? = some d)
    (hdot : d.name.toList.head? ≠ some '.') : (labels code).Nodup := by
  obtain ⟨body, hnumbered, hlabels⟩ := labels_code h hd
  rw [hlabels, List.nodup_cons]
  refine ⟨fun hname => ?_, hnumbered.nodup⟩
  obtain ⟨i, -, -, heq⟩ := hnumbered.named _ hname
  exact Label.jump_ne_of_head hdot i heq.symm

/-- A function is laid out in whole words. -/
def Whole (f : Func) : Prop := 8 ∣ f.frameSize ∧ ∀ span ∈ f.body.spans, 8 ∣ span

end Func

namespace Item

theorem whole_of_layoutAll {items items' : List Item} {decls decls' : List Decl}
    (h : layoutAll decls items = .ok (items', decls')) {f : Func} (hf : .func f ∈ items') :
    f.Whole := by
  induction items generalizing decls items' with
  | nil =>
      cases h
      cases hf
  | cons item rest ih =>
      simp only [layoutAll, except_bind_eq_ok_iff, Prod.exists, except_pure_eq_ok_iff,
        Prod.mk.injEq] at h
      obtain ⟨item', decls₁, hitem, rest', decls₂, hrest, rfl, rfl⟩ := h
      rcases List.mem_cons.mp hf with rfl | hf
      · cases item with
        | var id => cases (layout_var hitem).1
        | func g =>
            obtain ⟨body, frame, hbody, heq, -⟩ := layout_func hitem
            cases heq
            exact ⟨Nat.dvd_mul_right _ _, (Clause.layout_spec (Nat.le_refl _) hbody).2.2⟩
      · exact ih hrest hf

end Item

/-- The stack discipline of generated code. In the code of a function that is laid out with a
frame and spans below 2⁶², all paths to a line arrive at the same height, which has the
properties of `Code.Disciplined`. The body has the code of every expression in it, and wherever
code of an expression stands in the body, it starts and ends at the same height and never goes
below. -/
theorem Program.layout_disciplines_stack {p r : Program} (hlayout : p.layout = .ok r) {f : Func}
    (hf : .func f ∈ r.items) (hframe : f.frameSize < 0x4000_0000_0000_0000)
    (hspans : ∀ span ∈ f.body.spans, span < 0x4000_0000_0000_0000) {d : Decl}
    (hd : r.decls[f.decl]? = some d) (hdot : d.name.toList.head? ≠ some '.') {pool : Pool}
    {n n' : Nat} {code : Code} (hcode : f.code { decls := r.decls, pool } n = .ok code n')
    (entry : Int) :
    ∃ body height start, code = [.label d.name] ++ f.prologue ++ body ++ Snippet.epilogue ∧
      start = 1 + f.prologue.length ∧
      code.Disciplined f.frameSize start (start + body.length) entry height ∧
      (∀ whole ∈ f.body.exprs, ∀ e ∈ whole.parts, e.CodeIn { decls := r.decls, pool } body) ∧
      ∀ (e : Expr) access k part k' before after,
        e.code { decls := r.decls, pool } access k = .ok part k' →
        body = before ++ part ++ after →
        height (start + before.length + part.length) = height (start + before.length) ∧
        ∀ i ≤ part.length, height (start + before.length) ≤ height (start + before.length + i) := by
  obtain ⟨hsize, hdvd⟩ := Item.whole_of_layoutAll (layout_eq_ok_iff.mp hlayout) hf
  have hlabels := Func.nodup_labels_code hcode hd hdot
  obtain ⟨d', body, hd', hbodycode, rfl⟩ := Func.code_eq_ok hcode
  obtain rfl : d = d' := Option.some.inj (hd.symm.trans hd')
  have hreserve := Func.moves_reserve hsize hframe
  have hbody : Balanced True body :=
    (Clause.balanced_code hbodycode).mono fun _ span hspan => ⟨hdvd span hspan, hspans span hspan⟩
  rw [Func.code_eq_entry] at hlabels ⊢
  refine ⟨body, heightIn entry (f.behind body), _, Func.code_eq_entry.symm, rfl, ?_, ?_, ?_⟩
  · rw [Func.length_prologue]
    exact Func.disciplined hreserve hbody hlabels
  · intro whole hwhole e he
    exact Clause.codeIn_of_mem_exprs hbodycode hwhole he
  · intro e access k part k' before after hpart hsplit
    exact Func.heightIn_part hreserve hbody hsplit ((Node.moves_code hpart).level (by decide))
      (by rw [Func.length_prologue])

namespace Countdown

/-- The code of the function, with the label that its literal has in the data section. -/
def mainCode : Code :=
  match laidOutMain.code { decls := laidOut.decls, pool := [("off", ".S0")] } 1 with
  | .ok code _ => code
  | .error .. => []

theorem main_stack_height :
    ∃ body height, mainCode = [.label "main"] ++ laidOutMain.prologue ++ body ++ Snippet.epilogue ∧
      mainCode.Disciplined 32 3 (3 + body.length) 0 height ∧ height 3 = 32 := by
  have hmain : .func laidOutMain ∈ laidOut.items := by decide
  have hspans : ∀ span ∈ laidOutMain.body.spans, span < 0x4000_0000_0000_0000 := by decide
  have hcode : ∃ n', laidOutMain.code { decls := laidOut.decls, pool := [("off", ".S0")] } 1 =
      .ok mainCode n' := ⟨_, rfl⟩
  obtain ⟨n', hcode⟩ := hcode
  obtain ⟨body, height, start, hbody, rfl, hdisciplined, -⟩ :=
    Program.layout_disciplines_stack layout_resolved hmain (by decide) hspans rfl (by decide) hcode
      0
  refine ⟨body, height, hbody, hdisciplined, ?_⟩
  have hplain : ∀ i < 3, ¬ mainCode.InCall i := by
    rintro i hi ⟨k, symbol, ⟨hlines, hk, -⟩ | ⟨hlines, rfl⟩⟩
    · obtain rfl : k = 0 := by omega
      cases @getElem?_of_prefix_drop _ _ 0 0 _ hlines rfl
    · obtain rfl : k = 0 := by omega
      cases @getElem?_of_prefix_drop _ _ 0 0 _ hlines rfl
  -- The prologue sets the frame base and reserves the frame.
  have hlabel : mainCode.Flows (0, 0) (1, 0) := .label rfl
  have hbase : mainCode.Flows (1, 0) (2, 0) :=
    .inst (x := .movq .rsp (.reg .rbx)) rfl rfl (hplain 1 (by omega)) (by simp [Operand.rsp])
  have hreserve : mainCode.Flows (2, 0) (3, 32) :=
    .inst (x := .subq (.imm 32) .rsp) (by decide) rfl (hplain 2 (by omega)) (by simp [Operand.rsp])
  have hpath : mainCode.Path (0, 0) (3, 32) :=
    ((Relation.ReflTransGen.single hlabel).tail hbase).tail hreserve
  exact (hdisciplined.paths 3 32 hpath).symm

end Countdown

end Backend
