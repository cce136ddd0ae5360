import Backend.Proofs.References
import Backend.Proofs.StackDiscipline
import Backend.Proofs.StackPicture

/-! # Routines of a listing

What a run through the code of a function relies on, wherever the function stands in a listing:
each line has a height, jumps stay in the function, and the lines whose effect is not seen from
themselves stand in whole calls.
-/

namespace Backend

/-! ## Whole sequences -/

namespace Code

/-- The line that gives the stack back behind a call into the C library. -/
abbrev unalign : Line := .inst (.movq (.mem 8 .rsp) (.reg .rsp))

/-- The line that takes the frame base back behind a call. -/
abbrev restore : Line := .inst (.popq (.reg .rbx))

/-- A line of code is the line at some place in a copy of another piece of code. -/
def InCopy (part : Code) (place : Nat) (code : Code) (i : Nat) : Prop :=
  ∃ k, i = k + place ∧ part <+: code.drop k

namespace InCopy

variable {part a b : Code} {place i : Nat}

theorem append_left (h : InCopy part place b i) (a : Code) :
    InCopy part place (a ++ b) (i + a.length) := by
  obtain ⟨k, rfl, h⟩ := h
  refine ⟨a.length + k, by omega, ?_⟩
  rwa [List.drop_append, List.drop_of_length_le (Nat.le_add_right _ _), List.nil_append,
    Nat.add_sub_cancel_left]

theorem append_right (h : InCopy part place a i) (b : Code) : InCopy part place (a ++ b) i := by
  obtain ⟨k, rfl, h⟩ := h
  refine ⟨k, rfl, ?_⟩
  rw [List.drop_append]
  exact h.trans (List.prefix_append _ _)

end InCopy

end Code

/-- Whether an instruction writes cells only as a move or a push, and moves the stack pointer up
if it adds to it, and down by less than half of all addresses if it subtracts. -/
def Inst.tidy : Inst → Bool
  | .leaq _ dst | .imulq _ dst | .andq _ dst | .popq dst => !dst.isCell
  | .addq src dst => !dst.isCell && match src with
      | .imm n => 0 ≤ n
      | _ => true
  | .subq src dst => !dst.isCell && match src with
      | .imm n => n < 0x8000_0000_0000_0000
      | _ => true
  | _ => true

def Line.tidy : Line → Bool
  | .inst x => x.tidy
  | _ => true

/-- Whether a line is tidy and is not part of a call. -/
def Line.isolated : Line → Bool
  | .inst (.call _) => false
  | line => line.tidy && line != Code.unalign

namespace Code

/-- Code of tidy lines with whole calls: into the C library by a sequence that gives the stack
back, which for reading has a cell of its own, and to functions that are declared. -/
structure Tidy (decls : List Decl) (code : Code) : Prop where
  lines : ∀ line ∈ code, line.tidy = true
  closes : ∀ i, code[i]? = some unalign →
    InCopy (Snippet.library "printf@PLT") 4 code i ∨ InCopy Snippet.readInt 8 code i
  calls : ∀ i symbol, code[i]? = some (.inst (.call symbol)) →
    code[i + 1]? = some unalign ∨ ∃ d ∈ decls, d.name = symbol

namespace Tidy

variable {decls : List Decl} {a b code : Code}

theorem of_isolated (h : ∀ line ∈ code, line.isolated = true) : Tidy decls code where
  lines line hline := by
    have hisolated := h line hline
    unfold Line.isolated at hisolated
    split at hisolated
    · cases hisolated
    · exact (Bool.and_eq_true_iff.mp hisolated).1
  closes _ hi := absurd (h unalign (List.mem_of_getElem? hi)) (by decide)
  calls _ symbol hi := absurd (h (.inst (.call symbol)) (List.mem_of_getElem? hi)) (by
    simp [Line.isolated])

theorem append (ha : Tidy decls a) (hb : Tidy decls b) : Tidy decls (a ++ b) where
  lines line hline := (List.mem_append.mp hline).elim (ha.lines line) (hb.lines line)
  closes i hi := by
    by_cases hlt : i < a.length
    · rw [List.getElem?_append_left hlt] at hi
      exact (ha.closes i hi).imp (·.append_right b) (·.append_right b)
    · obtain ⟨k, rfl⟩ := Nat.exists_eq_add_of_le' (Nat.le_of_not_lt hlt)
      rw [List.getElem?_append_right (Nat.le_add_left _ _), Nat.add_sub_cancel] at hi
      exact (hb.closes k hi).imp (·.append_left a) (·.append_left a)
  calls i symbol hi := by
    by_cases hlt : i < a.length
    · rw [List.getElem?_append_left hlt] at hi
      refine (ha.calls i symbol hi).imp_left fun hnext => ?_
      rw [List.getElem?_append_left (List.getElem?_eq_some_iff.mp hnext).1, hnext]
    · obtain ⟨k, rfl⟩ := Nat.exists_eq_add_of_le' (Nat.le_of_not_lt hlt)
      rw [List.getElem?_append_right (Nat.le_add_left _ _), Nat.add_sub_cancel] at hi
      refine (hb.calls k symbol hi).imp_left fun hnext => ?_
      rw [Nat.add_right_comm, List.getElem?_append_right (Nat.le_add_left _ _),
        Nat.add_sub_cancel, hnext]

end Tidy

end Code

open Code (Tidy InCopy)

attribute [local simp] Line.isolated Line.tidy Inst.tidy Operand.isCell Operand.rax Operand.eax
  Operand.rsi Operand.rsp Operand.top Snippet.pushValue Snippet.dropOperand Snippet.storeAtRsi

variable {decls : List Decl}

namespace Snippet

theorem tidy_library : Tidy decls (library "printf@PLT") where
  lines := by decide
  closes i hi := by
    match i with
    | 0 | 1 | 2 | 3 => cases hi
    | 4 => exact .inl ⟨0, rfl, List.prefix_rfl⟩
    | _ + 5 => cases hi
  calls i symbol hi := by
    match i with
    | 0 | 1 | 2 | 4 => cases hi
    | 3 => exact .inl rfl
    | _ + 5 => cases hi

theorem tidy_readInt : Tidy decls readInt where
  lines := by decide
  closes i hi := by
    match i with
    | 0 | 1 | 2 | 3 | 4 | 5 | 6 | 7 | 9 | 10 => cases hi
    | 8 => exact .inr ⟨0, rfl, List.prefix_rfl⟩
    | _ + 11 => cases hi
  calls i symbol hi := by
    match i with
    | 0 | 1 | 2 | 3 | 4 | 5 | 6 | 8 | 9 | 10 => cases hi
    | 7 => exact .inl rfl
    | _ + 11 => cases hi

theorem tidy_call {d : Decl} (hd : d ∈ decls) : Tidy decls (call d.name) where
  lines := by simp [call]
  closes i hi := by
    rcases i with _ | _ | _ | i <;> cases hi
  calls i symbol hi := by
    rcases i with _ | _ | _ | i <;> cases hi
    exact .inr ⟨d, hd, rfl⟩

theorem tidy_compare (cond : Cond) (other stop : String) :
    Tidy decls (compare cond other stop) :=
  .of_isolated (by simp [compare])

theorem tidy_combine (op : AddOp) : Tidy decls (combine op) :=
  .of_isolated (by cases op <;> decide)

theorem tidy_scale (op : MulOp) : Tidy decls (scale op) :=
  .of_isolated (by cases op <;> decide)

theorem tidy_print (format : String) : Tidy decls (print format) :=
  Tidy.append (.of_isolated (by simp)) tidy_library

theorem tidy_reserving {bytes : Nat} (hsmall : bytes < 0x4000_0000_0000_0000) {body : Code}
    (h : Tidy decls body) : Tidy decls (reserving bytes body) := by
  have hsigned : Word.toSigned bytes = bytes :=
    Word.toSigned_of_lt (by unfold Word.bound; omega)
  unfold reserving
  split
  · exact h
  · rw [hsigned]
    refine (Tidy.append (.of_isolated ?_) h).append (.of_isolated ?_)
    · simp
      omega
    · simp

end Snippet

theorem Inst.tidy_rax {x : Inst} {src : Operand} (h : x = .movq src .rax ∨ x = .leaq src .rax) :
    Tidy decls [.inst x] := by
  apply Tidy.of_isolated
  rcases h with rfl | rfl <;> simp

theorem CodeEnv.tidy_element {cx : CodeEnv} {x : Ident} {index : Emit Code} {n n' : Nat} {c : Code}
    (hindex : ∀ {n c n'}, index n = .ok c n' → Tidy cx.decls c)
    (h : cx.element x index n = .ok c n') : Tidy cx.decls c := by
  simp only [element, Emit.bind_eq_ok_iff, Emit.pure_eq_ok_iff] at h
  obtain ⟨d, _, -, base, _, hbase, ci, _, hci, rfl, -⟩ := h
  obtain ⟨src, _, -, hsrc⟩ := Decl.arrayBase_eq_ok hbase
  have hbefore : Tidy cx.decls [.inst base, .inst Snippet.pushValue] :=
    (Inst.tidy_rax hsrc).append (.of_isolated (by simp))
  exact (hbefore.append (hindex hci)).append (.of_isolated (by decide))

theorem Node.tidy_code {l : Layer} {cx : CodeEnv} {x : Node l} {access : Access} {n n' : Nat}
    {c : Code} (h : x.code cx access n = .ok c n') : Tidy cx.decls c := by
  have hpush : Tidy cx.decls [.inst Snippet.pushValue] := .of_isolated (by simp)
  induction x generalizing access n n' c with
  | comp _ x ih | sum _ x ih | term _ x ih | unary _ x ih | factor _ x ih | paren _ x ih =>
      exact ih h
  | assign _ target value iht ihv =>
      simp only [code, Emit.bind_eq_ok_iff, Emit.pure_eq_ok_iff] at h
      obtain ⟨cv, _, hcv, ct, _, hct, rfl, rfl⟩ := h
      exact (ihv hcv).append (iht hct)
  | setVar _ y | setDeref _ y =>
      simp only [code, Emit.bind_eq_ok_iff, Emit.pure_eq_ok_iff] at h
      obtain ⟨d, _, -, cell, _, -, rfl, rfl⟩ := h
      exact .of_isolated (by simp)
  | setElem _ y index ih =>
      simp only [code, Emit.bind_eq_ok_iff, Emit.pure_eq_ok_iff] at h
      obtain ⟨ce, _, hce, rfl, rfl⟩ := h
      exact (hpush.append (CodeEnv.tidy_element ih hce)).append (.of_isolated (by simp))
  | elem _ y index ih =>
      simp only [code, Emit.bind_eq_ok_iff, Emit.pure_eq_ok_iff] at h
      obtain ⟨ce, _, hce, rfl, rfl⟩ := h
      exact (CodeEnv.tidy_element ih hce).append (.of_isolated (by cases access <;> simp))
  | rel _ a op b iha ihb =>
      simp only [code, Emit.bind_eq_ok_iff, Emit.pure_eq_ok_iff] at h
      obtain ⟨other, _, -, stop, _, -, cb, _, hcb, ca, _, hca, rfl, rfl⟩ := h
      exact (((ihb hcb).append hpush).append (iha hca)).append (Snippet.tidy_compare _ _ _)
  | add _ a op b iha ihb =>
      simp only [code, Emit.bind_eq_ok_iff, Emit.pure_eq_ok_iff] at h
      obtain ⟨cb, _, hcb, ca, _, hca, rfl, rfl⟩ := h
      exact (((ihb hcb).append hpush).append (iha hca)).append (Snippet.tidy_combine op)
  | mul _ a op b iha ihb =>
      simp only [code, Emit.bind_eq_ok_iff, Emit.pure_eq_ok_iff] at h
      obtain ⟨cb, _, hcb, ca, _, hca, rfl, rfl⟩ := h
      exact (((ihb hcb).append hpush).append (iha hca)).append (Snippet.tidy_scale op)
  | neg _ x ih | deref _ x ih =>
      simp only [code, Emit.bind_eq_ok_iff, Emit.pure_eq_ok_iff] at h
      obtain ⟨operand, _, hoperand, rfl, rfl⟩ := h
      exact (ih hoperand).append (.of_isolated (by simp))
  | addrOf _ x ih =>
      simp only [code] at h
      split at h
      · exact absurd h Emit.missing_ne_ok
      · exact ih h
  | var _ y =>
      simp only [code, Emit.bind_eq_ok_iff, Emit.pure_eq_ok_iff] at h
      obtain ⟨d, _, -, load, _, hload, rfl, rfl⟩ := h
      obtain ⟨src, _, -, hsrc⟩ := Decl.load_eq_ok hload
      exact Inst.tidy_rax hsrc
  | call _ y args ih =>
      simp only [code, Emit.bind_eq_ok_iff, Emit.pure_eq_ok_iff] at h
      obtain ⟨d, _, hd, pushes, _, hpushes, size, _, hsize, rfl, rfl⟩ := h
      have hcount : 0 ≤ size := by
        rw [Signed.mul_eq_ok (Emit.checked_eq_ok_iff.mp hsize).1]
        omega
      obtain ⟨id, -, hdecl⟩ := CodeEnv.decl_eq_ok hd
      exact ((ih hpushes).append (Snippet.tidy_call (List.mem_of_getElem? hdecl))).append
        (.of_isolated (by split <;> simp [hcount]))
  | num _ value | nil =>
      obtain ⟨rfl, rfl⟩ := Emit.pure_eq_ok_iff.mp h
      exact .of_isolated (by simp)
  | read _ =>
      obtain ⟨rfl, rfl⟩ := Emit.pure_eq_ok_iff.mp h
      exact Snippet.tidy_readInt
  | str _ text =>
      simp only [code, Emit.bind_eq_ok_iff, Emit.pure_eq_ok_iff] at h
      obtain ⟨label, _, -, rfl, rfl⟩ := h
      exact .of_isolated (by simp)
  | cons arg rest iharg ihrest =>
      simp only [code, Emit.bind_eq_ok_iff, Emit.pure_eq_ok_iff] at h
      obtain ⟨others, _, hothers, first, _, hfirst, rfl, rfl⟩ := h
      exact ((ihrest hothers).append (iharg hfirst)).append hpush

theorem Ty.tidy_print {t : Ty} {n n' : Nat} {c : Code} (h : t.print n = .ok c n') :
    Tidy decls c := by
  unfold print at h
  split at h
  · obtain ⟨rfl, -⟩ := Emit.pure_eq_ok_iff.mp h
    exact Tidy.append (.of_isolated (by simp)) (Snippet.tidy_print _)
  · obtain ⟨rfl, -⟩ := Emit.pure_eq_ok_iff.mp h
    exact Tidy.append (.of_isolated (by simp)) (Snippet.tidy_print _)
  · exact absurd h Emit.missing_ne_ok

theorem Clause.tidy_code {f : Form} {cx : CodeEnv} {x : Clause f} {n n' : Nat} {c : Code}
    (h : x.code cx n = .ok c n') (hspans : x.WholeSpans) : Tidy cx.decls c := by
  have hnil : Tidy cx.decls [] := .of_isolated (by simp)
  have hepilogue : Tidy cx.decls Snippet.epilogue := .of_isolated (by decide)
  induction x generalizing n n' c with
  | eval _ e =>
      cases e with
      | none =>
          obtain ⟨rfl, -⟩ := Emit.pure_eq_ok_iff.mp h
          exact hnil
      | some e => exact Node.tidy_code h
  | braces _ b ih | present s ih => exact ih h hspans
  | ifElse _ cond t e iht ihe =>
      simp only [code, Emit.bind_eq_ok_iff, Emit.pure_eq_ok_iff] at h
      obtain ⟨start, _, -, other, _, -, stop, _, -, cc, _, hcc, ct, _, hct, ce, _, hce, rfl,
        -⟩ := h
      have htest : Tidy cx.decls ([.label start] ++ cc ++ Snippet.jumpIfZero other) :=
        (Tidy.append (.of_isolated (by simp)) (Node.tidy_code hcc)).append
          (.of_isolated (by simp [Snippet.jumpIfZero]))
      have hthen := iht hct (hspans.mono (List.subset_append_left _ _))
      have helse := ihe hce (hspans.mono (List.subset_append_right _ _))
      exact (((htest.append hthen).append (.of_isolated (by simp))).append helse).append
        (.of_isolated (by simp))
  | loop _ cond s ih =>
      simp only [code, Emit.bind_eq_ok_iff, Emit.pure_eq_ok_iff] at h
      obtain ⟨start, _, -, stop, _, -, cc, _, hcc, cs, _, hcs, rfl, -⟩ := h
      have htest : Tidy cx.decls ([.label start] ++ cc ++ Snippet.jumpIfZero stop) :=
        (Tidy.append (.of_isolated (by simp)) (Node.tidy_code hcc)).append
          (.of_isolated (by simp [Snippet.jumpIfZero]))
      exact (htest.append (ih hcs hspans)).append (.of_isolated (by simp))
  | ret _ e =>
      cases e with
      | none =>
          obtain ⟨rfl, -⟩ := Emit.pure_eq_ok_iff.mp h
          exact hepilogue
      | some e =>
          simp only [code, Emit.bind_eq_ok_iff, Emit.pure_eq_ok_iff] at h
          obtain ⟨value, _, hvalue, rfl, -⟩ := h
          exact (Node.tidy_code hvalue).append hepilogue
  | write _ e =>
      cases e with
      | none =>
          obtain ⟨rfl, -⟩ := Emit.pure_eq_ok_iff.mp h
          exact Snippet.tidy_print _
      | some e =>
          simp only [code, Emit.bind_eq_ok_iff, Emit.pure_eq_ok_iff] at h
          obtain ⟨print, _, hprint, value, _, hvalue, rfl, -⟩ := h
          exact (Node.tidy_code hvalue).append (Ty.tidy_print hprint)
  | absent | nil =>
      obtain ⟨rfl, -⟩ := Emit.pure_eq_ok_iff.mp h
      exact hnil
  | cons s rest ihs ihrest =>
      simp only [code, Emit.bind_eq_ok_iff, Emit.pure_eq_ok_iff] at h
      obtain ⟨first, _, hfirst, others, _, hothers, rfl, -⟩ := h
      exact (ihs hfirst (hspans.mono (List.subset_append_left _ _))).append
        (ihrest hothers (hspans.mono (List.subset_append_right _ _)))
  | block _ own stmts _ span ih =>
      simp only [code, Emit.bind_eq_ok_iff, Emit.pure_eq_ok_iff] at h
      obtain ⟨body, _, hbody, rfl, -⟩ := h
      exact Snippet.tidy_reserving (hspans span List.mem_cons_self).2
        (ih hbody (hspans.mono (List.subset_cons_self _ _)))

/-! ## Whole calls in regular code -/

namespace Code

section Regular

variable {returns : Prop} {code : Code} {i : Nat}

/-- A call stands in a whole call of a function or of the C library. -/
theorem Regular.copy_of_call (hc : Regular returns code) {symbol : String}
    (hi : code[i]? = some (.inst (.call symbol))) :
    InCopy (Snippet.call symbol) 1 code i ∨ InCopy (Snippet.library symbol) 3 code i := by
  induction hc generalizing i with
  | nil => simp at hi
  | @line line rest hline _ ih =>
      cases i with
      | zero =>
          simp only [List.getElem?_cons_zero, Option.some.injEq] at hi
          subst hi
          cases hline 0
      | succ i => exact (ih hi).imp (·.append_left [line]) (·.append_left [line])
  | library symbol _ ih =>
      match i with
      | 0 | 1 | 2 | 4 => cases hi
      | 3 =>
          cases hi
          exact .inr ⟨0, rfl, List.prefix_append _ _⟩
      | i + 5 => exact (ih hi).imp (·.append_left _) (·.append_left _)
  | call symbol _ ih =>
      match i with
      | 0 | 2 => cases hi
      | 1 =>
          cases hi
          exact .inl ⟨0, rfl, List.prefix_append _ _⟩
      | i + 3 => exact (ih hi).imp (·.append_left _) (·.append_left _)
  | epilogue h _ ih =>
      match i with
      | 0 | 1 => cases hi
      | i + 2 => exact (ih hi).imp (·.append_left _) (·.append_left _)

/-- So does the line that takes the frame base back. -/
theorem Regular.copy_of_restore (hc : Regular returns code) (hi : code[i]? = some restore) :
    ∃ symbol, InCopy (Snippet.call symbol) 2 code i := by
  cases hc.accounted hi rfl with
  | plain hplain => cases hplain 0
  | leave hleave => cases hleave
  | call hcall =>
      obtain ⟨k, symbol, ⟨hlines, hlow, hhigh⟩ | ⟨hlines, rfl⟩⟩ := hcall
      · have hline {d : Nat} {line : Line} := @getElem?_of_prefix_drop _ _ k d line hlines
        obtain rfl | rfl | rfl : i = k + 2 ∨ i = k + 3 ∨ i = k + 4 := by omega
        · cases hi.symm.trans (@hline 2 _ rfl)
        · cases hi.symm.trans (@hline 3 _ rfl)
        · cases hi.symm.trans (@hline 4 _ rfl)
      · exact ⟨symbol, k, rfl, hlines⟩

end Regular

end Code

/-! ## Routines -/

/-- The code of a function at some line of a listing. Its lines have heights, which are those of
the stack below the frame base. -/
structure Routine (m : Machine) (decls : List Decl) where
  first : Nat
  name : String
  /-- The code behind the first two lines. -/
  code : Code
  held : m.Holds (first + 2) code
  label : m.code[first]? = some (.label name)
  base : m.code[first + 1]? = some (.inst (.movq (.reg .rsp) (.reg .rbx)))
  regular : code.Regular True
  closed : code.Closed 0
  above : code.StaysAbove 0 0
  tidy : code.Tidy decls
  ends : code.getLast? = some (.inst .ret)

namespace Routine

variable {m : Machine} (R : Routine m decls) {i : Nat} {line : Line}

def lines : Code := Code.entry R.name ++ R.code

def height (i : Nat) : Int := Code.heightIn 0 R.code i

theorem holds_line (h : R.lines[i]? = some line) : m.code[R.first + i]? = some line := by
  match i with
  | 0 =>
      cases h
      exact R.label
  | 1 =>
      cases h
      exact R.base
  | i + 2 =>
      have hline := R.held.lines i line h
      rwa [Nat.add_assoc, Nat.add_comm 2] at hline

theorem dvd_height (i : Nat) : 8 ∣ R.height i ∧ 0 ≤ R.height i := by
  unfold height Code.heightIn Code.heightAt
  split
  · simp
  · split
    · simp
    · have habove := R.above.take (i - 2)
      rw [Int.zero_add] at habove
      exact habove.symm

/-- Only a return ends a routine. -/
theorem next_line (h : R.lines[i]? = some line) (hret : line ≠ .inst .ret) :
    ∃ next, R.lines[i + 1]? = some next := by
  match i with
  | 0 => exact ⟨_, rfl⟩
  | 1 =>
      have hends := R.ends
      have hpos : 0 < R.code.length := by
        cases hcode : R.code with
        | nil => simp [hcode] at hends
        | cons => simp
      exact ⟨_, List.getElem?_eq_getElem hpos⟩
  | i + 2 =>
      have hends := R.ends
      have hlt := (List.getElem?_eq_some_iff.mp h).1
      rw [List.getLast?_eq_getElem?] at hends
      by_cases hlast : i = R.code.length - 1
      · subst hlast
        exact absurd (Option.some.inj (h.symm.trans hends)) hret
      · have hnext : i + 1 < R.code.length := by
          change i + 2 < R.code.length + 2 at hlt
          omega
        exact ⟨_, List.getElem?_eq_getElem hnext⟩

theorem height_succ (h : R.lines[i]? = some line) (hret : line ≠ .inst .ret)
    (hleave : line ≠ Code.leave) : R.height (i + 1) = R.height i + line.lift := by
  match i with
  | 0 =>
      cases h
      rfl
  | 1 =>
      cases h
      simp [height, Code.heightIn, Code.heightAt]
  | i + 2 => exact R.regular.heightIn_succ h hret hleave

theorem height_ret (h : R.lines[i]? = some (.inst .ret)) : R.height i = 0 := by
  match i with
  | 0 | 1 => cases h
  | i + 2 => exact Code.heightAt_ret h

theorem height_library {symbol : String} (h : Snippet.library symbol <+: R.lines.drop i) :
    R.height (i + 5) = R.height i := by
  match i with
  | 0 | 1 => cases @Code.getElem?_of_prefix_drop _ _ _ 0 _ h rfl
  | i + 2 => exact R.regular.heightAt_library h

/-- A jump leads to a line of the routine with the same height. -/
theorem jump (h : R.lines[i]? = some line) {label : String} (htarget : line.target? = some label) :
    ∃ j, R.lines[j + 2]? = some (.label label) ∧ m.target label = some (R.first + (j + 2)) ∧
      R.height (j + 2) = R.height i := by
  match i with
  | 0 | 1 =>
      cases h
      cases htarget
  | i + 2 =>
      obtain ⟨j, hj, hheight⟩ := R.closed.exists_label h htarget
      refine ⟨j, hj, ?_, ?_⟩
      · rw [R.held.labels j label hj, Nat.add_assoc, Nat.add_comm 2]
      · have hret : R.code[i]? ≠ some (.inst .ret) := by
          intro hret
          cases h.symm.trans hret
          cases htarget
        change R.code.heightAt j = R.code.heightAt i
        rw [Code.heightAt_of_ne_ret hret, Code.heightAt_of_ne_ret (by simp [hj]), hheight]

/-- The lines of a call stand where a line of it stands. -/
theorem copy_of_call {symbol : String} (h : R.lines[i]? = some (.inst (.call symbol))) :
    InCopy (Snippet.call symbol) 1 R.lines i ∨ InCopy (Snippet.library symbol) 3 R.lines i := by
  match i with
  | 0 | 1 => cases h
  | i + 2 =>
      exact (R.regular.copy_of_call h).imp (·.append_left (Code.entry _))
        (·.append_left (Code.entry _))

theorem copy_of_unalign (h : R.lines[i]? = some Code.unalign) :
    InCopy (Snippet.library "printf@PLT") 4 R.lines i ∨ InCopy Snippet.readInt 8 R.lines i := by
  match i with
  | 0 | 1 => cases h
  | i + 2 =>
      exact (R.tidy.closes i h).imp (·.append_left (Code.entry _)) (·.append_left (Code.entry _))

theorem copy_of_restore (h : R.lines[i]? = some Code.restore) :
    ∃ symbol, InCopy (Snippet.call symbol) 2 R.lines i := by
  match i with
  | 0 | 1 => cases h
  | i + 2 =>
      obtain ⟨symbol, hcall⟩ := R.regular.copy_of_restore h
      exact ⟨symbol, hcall.append_left (Code.entry _)⟩

theorem declared_of_call {symbol : String} (h : R.lines[i]? = some (.inst (.call symbol))) :
    R.lines[i + 1]? = some Code.unalign ∨ ∃ d ∈ decls, d.name = symbol := by
  match i with
  | 0 | 1 => cases h
  | i + 2 => exact R.tidy.calls i symbol h

/-- Before the lines that a call ends with stands the call. -/
theorem call_before
    (h : R.lines[i + 1]? = some Code.unalign ∨ R.lines[i + 1]? = some Code.restore) :
    ∃ symbol, R.lines[i]? = some (.inst (.call symbol)) := by
  rcases h with h | h
  · rcases R.copy_of_unalign h with ⟨k, hk, hlines⟩ | ⟨k, hk, hlines⟩
    · cases hk
      exact ⟨_, @Code.getElem?_of_prefix_drop _ _ k 3 _ hlines rfl⟩
    · cases hk
      exact ⟨_, @Code.getElem?_of_prefix_drop _ _ k 7 _ hlines rfl⟩
  · obtain ⟨symbol, k, hk, hlines⟩ := R.copy_of_restore h
    cases hk
    exact ⟨_, @Code.getElem?_of_prefix_drop _ _ k 1 _ hlines rfl⟩

/-- What an instruction that goes on with the next line is there for. -/
inductive Role (i : Nat) (x : Inst) : Prop where
  | enter (hi : i = 1) (hx : x = .movq (.reg .rsp) (.reg .rbx))
  | plain (hi : 2 ≤ i) (h : ∀ h, x.height h = some (h + x.lift))
  | leave (hx : .inst x = Code.leave) (hnext : R.lines[i + 1]? = some (.inst .ret))
  | align (symbol : String) (h : InCopy (Snippet.library symbol) 2 R.lines i)
  | unalign (hx : .inst x = Code.unalign)
  | restore (hx : .inst x = Code.restore)

theorem role {x : Inst} (h : R.lines[i]? = some (.inst x)) (hx : x.isTransfer = false) :
    R.Role i x := by
  match i with
  | 0 => cases h
  | 1 =>
      cases h
      exact .enter rfl rfl
  | i + 2 =>
      cases R.regular.accounted h hx with
      | plain hplain => exact .plain (by omega) hplain
      | leave hleave hnext => exact .leave hleave hnext
      | call hcall =>
          obtain ⟨k, symbol, ⟨hlines, hlow, hhigh⟩ | ⟨hlines, rfl⟩⟩ := hcall
          · have hline {d : Nat} {line : Line} := @Code.getElem?_of_prefix_drop _ _ k d line hlines
            obtain rfl | rfl | rfl : i = k + 2 ∨ i = k + 3 ∨ i = k + 4 := by omega
            · exact .align symbol ⟨k + 2, rfl, hlines⟩
            · cases h.symm.trans (@hline 3 _ rfl)
              cases hx
            · exact .unalign (Option.some.inj (h.symm.trans (@hline 4 _ rfl)))
          · exact .restore (Option.some.inj
              (h.symm.trans (@Code.getElem?_of_prefix_drop _ _ k 2 _ hlines rfl)))

/-- The line that sets the frame base is the second one only. -/
theorem eq_one_of_enter (h : R.lines[i]? = some (.inst (.movq (.reg .rsp) (.reg .rbx)))) :
    i = 1 := by
  cases R.role h rfl with
  | enter hi => exact hi
  | plain _ hplain => cases hplain 1
  | leave hx => cases hx
  | align symbol hcopy =>
      obtain ⟨k, rfl, hlines⟩ := hcopy
      cases h.symm.trans (@Code.getElem?_of_prefix_drop _ _ k 2 _ hlines rfl)
  | unalign hx => cases hx
  | restore hx => cases hx

/-- The lines of a routine are those of the listing. -/
theorem lines_eq (hi : i < R.lines.length) : R.lines[i]? = m.code[R.first + i]? := by
  rw [R.holds_line (List.getElem?_eq_getElem hi), List.getElem?_eq_getElem hi]

theorem drop_lines_prefix (k : Nat) : R.lines.drop k <+: m.code.drop (R.first + k) := by
  rw [List.prefix_iff_getElem?]
  intro i hi
  rw [List.getElem?_drop, Nat.add_assoc, List.getElem_drop]
  exact R.holds_line (List.getElem?_eq_getElem _)

/-- No routine starts within another. -/
theorem first_le {R R' : Routine m decls} {i i' : Nat} (hsame : R.first + i = R'.first + i')
    (hi : i < R.lines.length) : R'.first ≤ R.first := by
  by_contra hlt
  obtain ⟨d, hd⟩ := Nat.exists_eq_add_of_lt (Nat.lt_of_not_le hlt)
  have hlabel : R.lines[d + 1]? = some (.label R'.name) := by
    rw [R.lines_eq (by omega), ← R'.label, hd]
    rfl
  obtain ⟨next, hnext⟩ := R.next_line hlabel (by simp)
  have henter : m.code[R.first + (d + 1 + 1)]? = some (.inst (.movq (.reg .rsp) (.reg .rbx))) := by
    rw [← R'.base, hd]
    rfl
  cases (R.holds_line hnext).symm.trans henter
  cases R.eq_one_of_enter hnext

/-- Routines with a common line start at the same line and have the same heights. -/
theorem height_eq {R R' : Routine m decls} {i i' : Nat} {line line' : Line}
    (hsame : R.first + i = R'.first + i') (hi : R.lines[i]? = some line)
    (hi' : R'.lines[i']? = some line') : i = i' ∧ R.height i = R'.height i' := by
  have hlt := (List.getElem?_eq_some_iff.mp hi).1
  have hlt' := (List.getElem?_eq_some_iff.mp hi').1
  have hfirst : R.first = R'.first :=
    Nat.le_antisymm (first_le hsame.symm hlt') (first_le hsame hlt)
  obtain rfl : i = i' := by omega
  refine ⟨rfl, ?_⟩
  match i with
  | 0 | 1 => rfl
  | i + 2 =>
      have hcode : ∀ k ≤ i, R.code[k]? = R'.code[k]? := by
        intro k hk
        have hline := R.lines_eq (i := k + 2) (by omega)
        have hline' := R'.lines_eq (i := k + 2) (by omega)
        rw [← hfirst] at hline'
        exact hline.trans hline'.symm
      have htake : R.code.take i = R'.code.take i := by
        apply List.ext_getElem?
        intro k
        rw [List.getElem?_take, List.getElem?_take]
        split
        next hk => exact hcode k (Nat.le_of_lt hk)
        next => rfl
      change R.code.heightAt i = R'.code.heightAt i
      rw [Code.heightAt, Code.heightAt, hcode i (Nat.le_refl i), htake]

end Routine

/-! ## The functions of a listing -/

/-- Every function of a listing is a routine. -/
structure Machine.Listed (m : Machine) (decls : List Decl) : Prop where
  lines : m.code.length < Word.bound
  dots : ∀ d ∈ decls, d.name.toList.head? ≠ some '.'
  entries : ∀ k name, m.code[k]? = some (.label name) → name.toList.head? ≠ some '.' →
    ∃ R : Routine m decls, R.first = k

namespace Func

/-- A function is laid out in whole words, in its frame and in each block not too many. -/
structure Compact (f : Func) : Prop where
  whole : 8 ∣ f.frameSize
  frame : f.frameSize < 0x4000_0000_0000_0000
  spans : f.body.WholeSpans

theorem Whole.compact {f : Func} (h : f.Whole) (hframe : f.frameSize < 0x4000_0000_0000_0000)
    (hspans : ∀ span ∈ f.body.spans, span < 0x4000_0000_0000_0000) : f.Compact :=
  ⟨h.1, hframe, fun span hspan => ⟨h.2 span hspan, hspans span hspan⟩⟩

section Listing

variable {m : Machine} {cx : CodeEnv} {f : Func} {n n' : Nat} {before code after : Code}

theorem tidy_behind (hf : f.Compact) {body : Code} (hbody : f.body.code cx n = .ok body n') :
    Tidy cx.decls (f.behind body) := by
  have hreserve : Tidy cx.decls f.reserve := by
    have hframe := hf.frame
    unfold reserve
    split
    · exact .of_isolated (by simp)
    · rw [Word.toSigned_of_lt (by unfold Word.bound; omega)]
      refine .of_isolated ?_
      simp
      omega
  exact hreserve.append ((Clause.tidy_code hbody hf.spans).append (.of_isolated (by decide)))

/-- The code of a function is a routine where its jump targets are not defined before. -/
theorem exists_routine (hf : f.Compact) (hcode : f.code cx n = .ok code n')
    (hm : m.code = before ++ code ++ after)
    (hbefore : ∀ i, n ≤ i → Label.jump i ∉ Code.labels before)
    (hdots : ∀ d ∈ cx.decls, d.name.toList.head? ≠ some '.') :
    ∃ R : Routine m cx.decls, R.first = before.length := by
  obtain ⟨d, body, hd, hbody, rfl⟩ := code_eq_ok hcode
  obtain ⟨numbered, hnumbered, hlabels⟩ := labels_code hcode hd
  rw [code_eq_entry] at hm hlabels
  replace hlabels : Code.labels (f.behind body) = Code.labels numbered := (List.cons.inj hlabels).2
  have hreserve := moves_reserve hf.whole hf.frame
  have hbalanced : Code.Balanced True body := (Clause.balanced_code hbody).mono fun _ => hf.spans
  have hheld : m.Holds (before ++ Code.entry d.name).length (f.behind body) := by
    have hsplit : m.code = (before ++ Code.entry d.name) ++ f.behind body ++ after := by
      rw [hm]
      simp
    refine Machine.holds_of_code_eq hsplit (hlabels ▸ hnumbered.nodup) fun name hname hdefined => ?_
    rw [hlabels] at hname
    obtain ⟨i, hi, -, rfl⟩ := hnumbered.named name hname
    rw [Code.labels_append, List.mem_append] at hdefined
    rcases hdefined with hdefined | hdefined
    · exact hbefore i hi hdefined
    · exact Label.jump_ne_of_head (hdots d (List.mem_of_getElem? hd)) i
        (List.mem_singleton.mp hdefined)
  rw [List.length_append] at hheld
  exact ⟨{
    first := before.length
    name := d.name
    code := f.behind body
    held := hheld
    label := by simp [hm, Code.entry]
    base := by simp [hm, Code.entry]
    regular := regular_behind hreserve hbalanced
    closed := closed_behind hreserve hbalanced
    above := staysAbove_behind hreserve hbalanced
    tidy := tidy_behind hf hbody
    ends := by simp [behind, Snippet.epilogue] }, rfl⟩

/-- Each label in the code of some functions that is not a jump target is the first line of a
routine. -/
theorem exists_routine_of_label {fs : List Func} (hfs : ∀ f ∈ fs, f.Compact)
    (hcode : codeAll cx fs n = .ok code n') (hm : m.code = before ++ code ++ after)
    (hbefore : ∀ i, n ≤ i → Label.jump i ∉ Code.labels before)
    (hdots : ∀ d ∈ cx.decls, d.name.toList.head? ≠ some '.') {k : Nat} {name : String}
    (hk : code[k]? = some (.label name)) (hname : name.toList.head? ≠ some '.') :
    ∃ R : Routine m cx.decls, R.first = before.length + k := by
  induction fs generalizing n before code k with
  | nil =>
      obtain ⟨rfl, -⟩ := Emit.pure_eq_ok_iff.mp hcode
      simp at hk
  | cons f rest ih =>
      simp only [codeAll, Emit.bind_eq_ok_iff, Emit.pure_eq_ok_iff] at hcode
      obtain ⟨own, n₁, hown, others, _, hothers, rfl, rfl⟩ := hcode
      obtain ⟨d, body, hd, -, hlines⟩ := code_eq_ok hown
      obtain ⟨numbered, hnumbered, hlabels⟩ := labels_code hown hd
      by_cases hlt : k < own.length
      · rw [List.getElem?_append_left hlt] at hk
        cases k with
        | zero =>
            have hsplit : m.code = before ++ own ++ (others ++ after) := by
              rw [hm]
              simp
            exact exists_routine (hfs f List.mem_cons_self) hown hsplit hbefore hdots
        | succ k =>
            -- The labels behind the first line are jump targets.
            have hmem : name ∈ Code.labels numbered := by
              rw [hlines] at hk hlabels
              rw [← (List.cons.inj hlabels).2]
              exact Code.mem_labels_iff.mpr (List.mem_of_getElem? hk)
            obtain ⟨i, -, -, rfl⟩ := hnumbered.named name hmem
            exact absurd rfl (Label.jump_ne_of_head hname i)
      · obtain ⟨j, rfl⟩ := Nat.exists_eq_add_of_le (Nat.le_of_not_lt hlt)
        rw [List.getElem?_append_right (Nat.le_add_right _ _), Nat.add_sub_cancel_left] at hk
        have hsplit : m.code = (before ++ own) ++ others ++ after := by
          rw [hm]
          simp
        have hfresh : ∀ i, n₁ ≤ i → Label.jump i ∉ Code.labels (before ++ own) := by
          intro i hi hdefined
          rw [Code.labels_append, hlabels, List.mem_append, List.mem_cons] at hdefined
          have hle := hnumbered.le
          rcases hdefined with hdefined | hdefined | hdefined
          · exact hbefore i (by omega) hdefined
          · exact Label.jump_ne_of_head (hdots d (List.mem_of_getElem? hd)) i hdefined
          · obtain ⟨i', -, hi', heq⟩ := hnumbered.named _ hdefined
            have hsame := Label.jump_injective heq
            omega
        obtain ⟨R, hR⟩ :=
          ih (fun g hg => hfs g (List.mem_cons_of_mem _ hg)) hothers hsplit hfresh hk
        exact ⟨R, by rw [hR, List.length_append, Nat.add_assoc]⟩

/-- In a listing that has labels in the code of functions only, these are routines. -/
theorem listed {fs : List Func} (hfs : ∀ f ∈ fs, f.Compact) (hcode : codeAll cx fs n = .ok code n')
    (hm : m.code = before ++ code ++ after) (hbefore : before.labels = [])
    (hafter : after.labels = []) (hdots : ∀ d ∈ cx.decls, d.name.toList.head? ≠ some '.')
    (hlines : m.code.length < Word.bound) : m.Listed cx.decls where
  lines := hlines
  dots := hdots
  entries k name hk hname := by
    obtain ⟨i, rfl, hi⟩ := Machine.label_inside hm hbefore hafter hk
    exact exists_routine_of_label hfs hcode hm (by simp [hbefore]) hdots hi hname

end Listing

end Func

end Backend
