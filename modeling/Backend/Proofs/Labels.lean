import Backend.Codegen.Program
import Backend.Proofs.Outcome
import Backend.Proofs.Run

/-! # The labels of generated code

Jump targets are numbered by the counter, so no two lines define the same one. Wherever
generated code stands in a listing, its jumps then stay in it.
-/

namespace Backend

namespace Label

theorem numbered_injective (tag : String) :
    Function.Injective fun n : Nat => tag ++ toString n := by
  intro i j h
  have hdigits : i.repr = j.repr := by simpa using h
  rw [Nat.repr_eq_ofList_toDigits, Nat.repr_eq_ofList_toDigits, String.ofList_inj] at hdigits
  rw [← @Nat.ofDigitChars_ten_toDigits i, hdigits, Nat.ofDigitChars_ten_toDigits]

theorem jump_injective : Function.Injective jump := numbered_injective ".L"

theorem jump_ne_of_head {name : String} (h : name.toList.head? ≠ some '.') (i : Nat) :
    jump i ≠ name := by
  rintro rfl
  simp [jump] at h

end Label

namespace Code

/-- The labels that code defines, in order. -/
def labels (code : Code) : List String :=
  code.filterMap fun
    | .label name => some name
    | _ => none

@[simp]
theorem labels_nil : labels [] = [] := rfl

@[simp]
theorem labels_append (a b : Code) : labels (a ++ b) = labels a ++ labels b :=
  List.filterMap_append

@[simp]
theorem labels_inst (i : Inst) (rest : Code) : labels (.inst i :: rest) = labels rest := rfl

@[simp]
theorem labels_label (name : String) (rest : Code) :
    labels (.label name :: rest) = name :: labels rest := rfl

theorem mem_labels_iff {code : Code} {name : String} : name ∈ labels code ↔ .label name ∈ code := by
  induction code with
  | nil => simp
  | cons line rest ih => cases line <;> simp_all [labels]

/-- Code whose labels are the jump targets with numbers in a range, each defined once. -/
structure Numbered (first stop : Nat) (code : Code) : Prop where
  le : first ≤ stop
  named : ∀ name ∈ labels code, ∃ i, first ≤ i ∧ i < stop ∧ name = Label.jump i
  all : ∀ i, first ≤ i → i < stop → Label.jump i ∈ labels code
  nodup : (labels code).Nodup

namespace Numbered

variable {i j k : Nat} {a b : Code}

theorem of_labels_eq_nil (h : labels a = []) : Numbered i i a := by
  refine ⟨Nat.le_refl _, ?_, fun _ hlow hhigh => absurd hlow (Nat.not_le_of_gt hhigh), ?_⟩ <;>
    simp [h]

theorem jump (n : Nat) : Numbered n (n + 1) [.label (Label.jump n)] := by
  refine ⟨Nat.le_succ _, ?_, ?_, by simp⟩
  · intro name hname
    exact ⟨n, Nat.le_refl _, Nat.lt_succ_self _, List.mem_singleton.mp hname⟩
  · intro i hlow hhigh
    obtain rfl : i = n := by omega
    exact List.mem_cons_self

theorem append (ha : Numbered i j a) (hb : Numbered j k b) : Numbered i k (a ++ b) where
  le := Nat.le_trans ha.le hb.le
  named := by
    have hij := ha.le
    have hjk := hb.le
    rw [labels_append]
    intro name hname
    rcases List.mem_append.mp hname with hname | hname
    · obtain ⟨number, hlow, hhigh, hname⟩ := ha.named name hname
      exact ⟨number, hlow, by omega, hname⟩
    · obtain ⟨number, hlow, hhigh, hname⟩ := hb.named name hname
      exact ⟨number, by omega, hhigh, hname⟩
  all number hlow hhigh := by
    rw [labels_append, List.mem_append]
    rcases Nat.lt_or_ge number j with hmid | hmid
    · exact .inl (ha.all number hlow hmid)
    · exact .inr (hb.all number hmid hhigh)
  nodup := by
    rw [labels_append, List.nodup_append]
    refine ⟨ha.nodup, hb.nodup, ?_⟩
    rintro name hname _ hname' rfl
    obtain ⟨number, -, hhigh, rfl⟩ := ha.named name hname
    obtain ⟨number', hlow, -, heq⟩ := hb.named _ hname'
    have hsame := Label.jump_injective heq
    omega

/-- The order in which labels stand does not matter. -/
theorem of_perm (h : Numbered i j a) (hperm : (labels b).Perm (labels a)) : Numbered i j b where
  le := h.le
  named name hname := h.named name (hperm.mem_iff.mp hname)
  all number hlow hhigh := hperm.mem_iff.mpr (h.all number hlow hhigh)
  nodup := hperm.nodup_iff.mpr h.nodup

end Numbered

end Code

namespace Machine

variable {m : Machine} {before code after : Code}

theorem target_eq {name : String} (hm : m.code = before ++ .label name :: after)
    (hbefore : name ∉ Code.labels before) : m.target name = some before.length := by
  have hnone : before.findIdx? (· == .label name) = none := by
    rw [List.findIdx?_eq_none_iff]
    intro line hline
    rw [beq_eq_false_iff_ne]
    rintro rfl
    exact hbefore (Code.mem_labels_iff.mpr hline)
  simp [target, hm, List.findIdx?_append, hnone, List.findIdx?_cons]

/-- Where nothing before and behind code defines a label, a label is in the code. -/
theorem label_inside (hm : m.code = before ++ code ++ after) (hbefore : Code.labels before = [])
    (hafter : Code.labels after = []) {k : Nat} {name : String}
    (h : m.code[k]? = some (.label name)) :
    ∃ i, k = before.length + i ∧ code[i]? = some (.label name) := by
  have hnone {part : Code} (hpart : Code.labels part = []) {i : Nat} :
      part[i]? ≠ some (.label name) := by
    intro hi
    have hmem := Code.mem_labels_iff.mpr (List.mem_of_getElem? hi)
    rw [hpart] at hmem
    cases hmem
  rw [hm, List.append_assoc] at h
  by_cases hlow : k < before.length
  · rw [List.getElem?_append_left hlow] at h
    exact absurd h (hnone hbefore)
  obtain ⟨i, rfl⟩ := Nat.exists_eq_add_of_le (Nat.le_of_not_lt hlow)
  rw [List.getElem?_append_right (Nat.le_add_right _ _), Nat.add_sub_cancel_left] at h
  by_cases hhigh : i < code.length
  · rw [List.getElem?_append_left hhigh] at h
    exact ⟨i, rfl, h⟩
  · rw [List.getElem?_append_right (Nat.le_of_not_lt hhigh)] at h
    exact absurd h (hnone hafter)

/-- Code that stands somewhere in a listing, the labels of which are not defined before, is
held by the machine. -/
theorem holds_of_code_eq (hm : m.code = before ++ code ++ after) (hnodup : (Code.labels code).Nodup)
    (hbefore : ∀ name ∈ Code.labels code, name ∉ Code.labels before) :
    m.Holds before.length code where
  lines i line hline := by
    have hlt := (List.getElem?_eq_some_iff.mp hline).1
    rw [hm, List.append_assoc, List.getElem?_append_right (Nat.le_add_right _ _),
      Nat.add_sub_cancel_left, List.getElem?_append_left hlt, hline]
  labels i name hline := by
    -- The label splits the code into what stands before it, which has it not, and a rest.
    obtain ⟨hlt, hget⟩ := List.getElem?_eq_some_iff.mp hline
    have hsplit : code = code.take i ++ .label name :: code.drop (i + 1) := by
      rw [← hget, List.getElem_cons_drop, List.take_append_drop]
    have hfresh : name ∉ Code.labels (before ++ code.take i) := by
      rw [hsplit, Code.labels_append, Code.labels_label, List.nodup_append] at hnodup
      have hname := hbefore name (Code.mem_labels_iff.mpr (List.mem_of_getElem? hline))
      simp only [Code.labels_append, List.mem_append, not_or]
      exact ⟨hname, fun h => hnodup.2.2 name h name List.mem_cons_self rfl⟩
    have hcode : m.code =
        (before ++ code.take i) ++ .label name :: (code.drop (i + 1) ++ after) := by
      rw [List.append_assoc before, ← List.cons_append, ← List.append_assoc (code.take i), ← hsplit,
        hm, List.append_assoc]
    rw [target_eq hcode hfresh, List.length_append, List.length_take,
      Nat.min_eq_left (Nat.le_of_lt hlt)]

end Machine

namespace Emit

variable {α β : Type}

/-- A computation that takes no number. -/
def Still (x : Emit α) : Prop := ∀ n a n', x n = .ok a n' → n = n'

theorem Still.pure (a : α) : Still (Pure.pure a) := fun _ _ _ h => (pure_eq_ok_iff.mp h).2

theorem Still.missing (what : Missing) : Still (missing what : Emit α) :=
  fun _ _ _ h => absurd h missing_ne_ok

theorem Still.checked (x : Except Overflow α) : Still (checked x) :=
  fun _ _ _ h => (checked_eq_ok_iff.mp h).2

theorem Still.bind {x : Emit α} {f : α → Emit β} (hx : Still x) (hf : ∀ a, Still (f a)) :
    Still (x >>= f) := by
  intro n b n' h
  obtain ⟨a, k, ha, hb⟩ := bind_eq_ok_iff.mp h
  exact (hx n a k ha).trans (hf a k b n' hb)

end Emit

theorem CodeEnv.still_decl (cx : CodeEnv) (x : Ident) : Emit.Still (cx.decl x) := by
  unfold decl
  split
  · exact .missing _
  · exact fun _ _ _ h => (Emit.ofExcept_eq_ok_iff.mp h).2

theorem Pool.still_label (pool : Pool) (text : String) : Emit.Still (pool.label text) := by
  unfold label
  split
  · exact .pure _
  · exact .missing _

theorem Ty.labels_print {t : Ty} {n n' : Nat} {c : Code} (h : t.print n = .ok c n') :
    n = n' ∧ c.labels = [] := by
  unfold print at h
  split at h
  · obtain ⟨rfl, rfl⟩ := Emit.pure_eq_ok_iff.mp h
    exact ⟨rfl, rfl⟩
  · obtain ⟨rfl, rfl⟩ := Emit.pure_eq_ok_iff.mp h
    exact ⟨rfl, rfl⟩
  · exact absurd h Emit.missing_ne_ok

namespace Decl

variable (d : Decl)

theorem still_cell : Emit.Still d.cell := by
  unfold cell
  split
  · exact .missing _
  · refine (Emit.Still.checked _).bind fun offset => ?_
    cases offset <;> exact .pure _

theorem still_arrayBase : Emit.Still d.arrayBase := by
  refine d.still_cell.bind fun cell => ?_
  split <;> exact .pure _

theorem still_load (access : Access) : Emit.Still (d.load access) := by
  cases access with
  | address => exact d.still_cell.bind fun _ => .pure _
  | value =>
      unfold load
      cases d.kind with
      | array _ | arrayParam => exact d.still_arrayBase
      | var | pointer | param | pointerParam | func _ => exact d.still_cell.bind fun _ => .pure _

end Decl

open Code (Numbered)

theorem CodeEnv.numbered_element {cx : CodeEnv} {x : Ident} {index : Emit Code} {n n' : Nat}
    {c : Code} (hindex : ∀ {n c n'}, index n = .ok c n' → Numbered n n' c)
    (h : cx.element x index n = .ok c n') : Numbered n n' c := by
  simp only [element, Emit.bind_eq_ok_iff, Emit.pure_eq_ok_iff] at h
  obtain ⟨d, _, hd, base, _, hbase, ci, _, hci, rfl, rfl⟩ := h
  obtain rfl := cx.still_decl x _ _ _ hd
  obtain rfl := d.still_arrayBase _ _ _ hbase
  exact (hindex hci).of_perm (by simp [Snippet.index])

/-- The labels in the code of a node are those taken meanwhile. -/
theorem Node.numbered_code {l : Layer} {cx : CodeEnv} {x : Node l} {access : Access} {n n' : Nat}
    {c : Code} (h : x.code cx access n = .ok c n') : Numbered n n' c := by
  induction x generalizing access n n' c with
  | comp _ x ih | sum _ x ih | term _ x ih | unary _ x ih | factor _ x ih | paren _ x ih =>
      exact ih h
  | assign _ target value iht ihv =>
      simp only [code, Emit.bind_eq_ok_iff, Emit.pure_eq_ok_iff] at h
      obtain ⟨cv, k, hcv, ct, k', hct, rfl, rfl⟩ := h
      exact (ihv hcv).append (iht hct)
  | setVar _ x | setDeref _ x =>
      simp only [code, Emit.bind_eq_ok_iff, Emit.pure_eq_ok_iff] at h
      obtain ⟨d, _, hd, cell, _, hcell, rfl, rfl⟩ := h
      obtain rfl := cx.still_decl x _ _ _ hd
      obtain rfl := d.still_cell _ _ _ hcell
      exact .of_labels_eq_nil rfl
  | setElem _ x index ih | elem _ x index ih =>
      simp only [code, Emit.bind_eq_ok_iff, Emit.pure_eq_ok_iff] at h
      obtain ⟨ce, k, hce, rfl, rfl⟩ := h
      exact (CodeEnv.numbered_element ih hce).of_perm (by simp)
  | rel _ a op b iha ihb =>
      simp only [code, Emit.bind_eq_ok_iff, Emit.pure_eq_ok_iff, Emit.jumpLabel_eq_ok_iff] at h
      obtain ⟨_, _, ⟨-, rfl, rfl⟩, _, _, ⟨-, rfl, rfl⟩, cb, k, hcb, ca, k', hca, rfl, rfl⟩ := h
      -- Both labels are taken before those of the operands and stand behind them.
      have hlabels := (Numbered.jump n).append (Numbered.jump (n + 1))
      refine ((hlabels.append (ihb hcb)).append (iha hca)).of_perm ?_
      have hperm := @List.perm_append_comm _ (Code.labels (cb ++ ca))
        [Label.jump n, Label.jump (n + 1)]
      simpa [Snippet.compare] using hperm
  | add _ a op b iha ihb =>
      simp only [code, Emit.bind_eq_ok_iff, Emit.pure_eq_ok_iff] at h
      obtain ⟨cb, k, hcb, ca, k', hca, rfl, rfl⟩ := h
      exact ((ihb hcb).append (iha hca)).of_perm (by cases op <;> simp [Snippet.combine])
  | mul _ a op b iha ihb =>
      simp only [code, Emit.bind_eq_ok_iff, Emit.pure_eq_ok_iff] at h
      obtain ⟨cb, k, hcb, ca, k', hca, rfl, rfl⟩ := h
      exact ((ihb hcb).append (iha hca)).of_perm
        (by cases op <;> simp [Snippet.scale, Snippet.scale.divide])
  | neg _ x ih | deref _ x ih =>
      simp only [code, Emit.bind_eq_ok_iff, Emit.pure_eq_ok_iff] at h
      obtain ⟨cx, k, hcx, rfl, rfl⟩ := h
      exact (ih hcx).of_perm (by simp)
  | addrOf _ x ih =>
      simp only [code] at h
      split at h
      · exact absurd h Emit.missing_ne_ok
      · exact ih h
  | var _ x =>
      simp only [code, Emit.bind_eq_ok_iff, Emit.pure_eq_ok_iff] at h
      obtain ⟨d, _, hd, load, _, hload, rfl, rfl⟩ := h
      obtain rfl := cx.still_decl x _ _ _ hd
      obtain rfl := d.still_load access _ _ _ hload
      exact .of_labels_eq_nil rfl
  | call _ x args ih =>
      simp only [code, Emit.bind_eq_ok_iff, Emit.pure_eq_ok_iff, Emit.checked_eq_ok_iff] at h
      obtain ⟨d, _, hd, pushes, _, hpushes, size, _, ⟨-, rfl⟩, rfl, rfl⟩ := h
      obtain rfl := cx.still_decl x _ _ _ hd
      refine (ih hpushes).of_perm ?_
      split <;> simp [Snippet.call]
  | num _ value | read _ | nil =>
      obtain ⟨rfl, rfl⟩ := Emit.pure_eq_ok_iff.mp h
      exact .of_labels_eq_nil rfl
  | str _ text =>
      simp only [code, Emit.bind_eq_ok_iff, Emit.pure_eq_ok_iff] at h
      obtain ⟨label, _, hlabel, rfl, rfl⟩ := h
      obtain rfl := cx.pool.still_label text _ _ _ hlabel
      exact .of_labels_eq_nil rfl
  | cons arg rest iharg ihrest =>
      simp only [code, Emit.bind_eq_ok_iff, Emit.pure_eq_ok_iff] at h
      obtain ⟨others, k, hothers, first, k', hfirst, rfl, rfl⟩ := h
      exact ((ihrest hothers).append (iharg hfirst)).of_perm (by simp)

/-- So are those in the code of a statement. -/
theorem Clause.numbered_code {f : Form} {cx : CodeEnv} {x : Clause f} {n n' : Nat} {c : Code}
    (h : x.code cx n = .ok c n') : Numbered n n' c := by
  induction x generalizing n n' c with
  | eval _ e =>
      cases e with
      | none =>
          obtain ⟨rfl, rfl⟩ := Emit.pure_eq_ok_iff.mp h
          exact .of_labels_eq_nil rfl
      | some e => exact Node.numbered_code h
  | braces _ b ih | present s ih => exact ih h
  | ifElse _ cond t e iht ihe =>
      simp only [code, Emit.bind_eq_ok_iff, Emit.pure_eq_ok_iff, Emit.jumpLabel_eq_ok_iff] at h
      obtain ⟨_, _, ⟨-, rfl, rfl⟩, _, _, ⟨-, rfl, rfl⟩, _, _, ⟨-, rfl, rfl⟩, cc, k, hcc, ct, k',
        hct, ce, k'', hce, rfl, rfl⟩ := h
      -- The labels taken first stand between the parts, so the two orders are compared by counting.
      have hlabels := ((Numbered.jump n).append (Numbered.jump (n + 1))).append
        (Numbered.jump (n + 1 + 1))
      refine (((hlabels.append (Node.numbered_code hcc)).append (iht hct)).append
        (ihe hce)).of_perm ?_
      rw [List.perm_iff_count]
      intro name
      simp only [Snippet.jumpIfZero, Code.labels_append, Code.labels_label, Code.labels_inst,
        Code.labels_nil, List.count_append, List.count_cons, List.count_nil]
      omega
  | loop _ cond s ih =>
      simp only [code, Emit.bind_eq_ok_iff, Emit.pure_eq_ok_iff, Emit.jumpLabel_eq_ok_iff] at h
      obtain ⟨_, _, ⟨-, rfl, rfl⟩, _, _, ⟨-, rfl, rfl⟩, cc, k, hcc, cs, k', hcs, rfl, rfl⟩ := h
      have hlabels := (Numbered.jump n).append (Numbered.jump (n + 1))
      refine ((hlabels.append (Node.numbered_code hcc)).append (ih hcs)).of_perm ?_
      rw [List.perm_iff_count]
      intro name
      simp only [Snippet.jumpIfZero, Code.labels_append, Code.labels_label, Code.labels_inst,
        Code.labels_nil, List.count_append, List.count_cons, List.count_nil]
      omega
  | ret _ e =>
      cases e with
      | none =>
          obtain ⟨rfl, rfl⟩ := Emit.pure_eq_ok_iff.mp h
          exact .of_labels_eq_nil rfl
      | some e =>
          simp only [code, Emit.bind_eq_ok_iff, Emit.pure_eq_ok_iff] at h
          obtain ⟨value, k, hvalue, rfl, rfl⟩ := h
          exact (Node.numbered_code hvalue).of_perm (by simp [Snippet.epilogue])
  | write _ e =>
      cases e with
      | none =>
          obtain ⟨rfl, rfl⟩ := Emit.pure_eq_ok_iff.mp h
          exact .of_labels_eq_nil rfl
      | some e =>
          simp only [code, Emit.bind_eq_ok_iff, Emit.pure_eq_ok_iff] at h
          obtain ⟨print, _, hprint, value, k, hvalue, rfl, rfl⟩ := h
          obtain ⟨rfl, hlabels⟩ := Ty.labels_print hprint
          exact (Node.numbered_code hvalue).of_perm (by simp [hlabels])
  | absent | nil =>
      obtain ⟨rfl, rfl⟩ := Emit.pure_eq_ok_iff.mp h
      exact .of_labels_eq_nil rfl
  | cons s rest ihs ihrest =>
      simp only [code, Emit.bind_eq_ok_iff, Emit.pure_eq_ok_iff] at h
      obtain ⟨first, k, hfirst, others, k', hothers, rfl, rfl⟩ := h
      exact (ihs hfirst).append (ihrest hothers)
  | block _ own stmts _ span ih =>
      simp only [code, Emit.bind_eq_ok_iff, Emit.pure_eq_ok_iff] at h
      obtain ⟨body, k, hbody, rfl, rfl⟩ := h
      refine (ih hbody).of_perm ?_
      unfold Snippet.reserving
      split <;> simp

end Backend
