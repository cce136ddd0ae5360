import Backend.Codegen.Clause
import Backend.Proofs.Labels
import Mathlib.Algebra.Ring.Int.Defs
import Mathlib.Algebra.Ring.Nat
import Mathlib.Logic.Relation

/-! # The height of the stack

The height is how far the stack pointer lies below the frame base. Each instruction changes it
by a number that can be read off the instruction, so along the paths through a piece of code
the height can be followed without running the code.
-/

namespace Backend

/-- Whether writing an operand moves the frame base or the stack pointer. -/
@[simp]
def Operand.movesFrame : Operand → Bool
  | .reg .rbx | .reg .rsp => true
  | _ => false

/-- The height behind an instruction that goes on with the next line, given the height before
it. None where the instruction alone does not tell. -/
@[simp]
def Inst.height (h : Int) : Inst → Option Int
  | .movq src dst =>
      if src = .reg .rsp ∧ dst = .reg .rbx ∨ src = .reg .rbx ∧ dst = .reg .rsp then some 0
      else if dst.movesFrame then none else some h
  | .addq (.imm n) (.reg .rsp) => some (h - n)
  | .subq (.imm n) (.reg .rsp) => some (h + n)
  | .leaq _ dst | .addq _ dst | .subq _ dst | .imulq _ dst | .andq _ dst =>
      if dst.movesFrame then none else some h
  | .pushq _ => some (h + 8)
  | .popq dst => if dst.movesFrame then none else some (h - 8)
  | .movl .. | .addl .. | .subl .. | .imull .. | .negl _ | .cmpl .. | .cltq | .cqto | .idivl _ =>
      some h
  | .jmp _ | .j .. | .call _ | .ret => none

theorem Inst.height_addq {h h' : Int} {src dst : Operand}
    (hi : (Inst.addq src dst).height h = some h') :
    (∃ n, src = .imm n ∧ dst = .reg .rsp ∧ h' = h - n) ∨ dst.movesFrame = false ∧ h' = h := by
  unfold height at hi
  grind

theorem Inst.height_subq {h h' : Int} {src dst : Operand}
    (hi : (Inst.subq src dst).height h = some h') :
    (∃ n, src = .imm n ∧ dst = .reg .rsp ∧ h' = h + n) ∨ dst.movesFrame = false ∧ h' = h := by
  unfold height at hi
  grind

/-! ## Heights on the machine -/

theorem Quad.sub_sub_ofInt {a b : Quad} {h : Int} (hab : a - b = BitVec.ofInt 64 h) (n : Int) :
    a - (b - BitVec.ofInt 64 n) = BitVec.ofInt 64 (h + n) := by
  rw [BitVec.ofInt_add, ← hab]
  grind

theorem Quad.sub_add_ofInt {a b : Quad} {h : Int} (hab : a - b = BitVec.ofInt 64 h) (n : Int) :
    a - (b + BitVec.ofInt 64 n) = BitVec.ofInt 64 (h - n) := by
  rw [Int.sub_eq_add_neg, BitVec.ofInt_add, BitVec.ofInt_neg, ← hab]
  grind

namespace State

variable {s s' : State}

/-- The height as a machine word. -/
def height (s : State) : Quad := s.rbx - s.rsp

theorem height_store {a v : Quad} (h : s.store a v = some s') : s'.height = s.height := by
  unfold store at h
  split at h <;> cases h
  rfl

theorem height_writeLong {x : Operand} {v : Long} (h : s.writeLong x v = some s') :
    s'.height = s.height := by
  cases x with
  | reg r => cases r <;> cases h <;> rfl
  | imm _ | mem _ _ | rip _ => cases h

end State

namespace Machine

variable {m : Machine} {s s' : State}

theorem height_writeQuad {x : Operand} (hx : x.movesFrame = false) {v : Quad}
    (h : m.writeQuad s x v = some s') : s'.height = s.height := by
  cases x with
  | reg r =>
      cases r with
      | rbx | rsp => cases hx
      | eax | ecx | edx | esi => cases h
      | rax | rcx | rsi | rdi =>
          cases h
          rfl
  | imm _ => cases h
  | mem disp base | rip symbol =>
      rw [writeQuad, Option.bind_eq_some_iff] at h
      obtain ⟨a, -, ha⟩ := h
      exact State.height_store ha

theorem height_combineQuad {op : Quad → Quad → Quad} {src dst : Operand}
    (hdst : dst.movesFrame = false) (h : m.combineQuad s op src dst = some s') :
    s'.height = s.height := by
  simp only [combineQuad, Option.bind_eq_bind, Option.bind_eq_some_iff] at h
  obtain ⟨a, -, b, -, hwrite⟩ := h
  exact height_writeQuad (s := { s with flags := none }) hdst hwrite

theorem height_combineLong {op : Long → Long → Long} {src dst : Operand}
    (h : m.combineLong s op src dst = some s') : s'.height = s.height := by
  simp only [combineLong, Option.bind_eq_bind, Option.bind_eq_some_iff] at h
  obtain ⟨a, -, b, -, hwrite⟩ := h
  exact State.height_writeLong (s := { s with flags := none }) hwrite

/-- The height that is read off an instruction is the one that the machine has behind it. -/
theorem exec_height {i : Inst} {h h' : Int} (hi : i.height h = some h')
    (hexec : m.exec s i = some s') (hs : s.height = BitVec.ofInt 64 h) :
    s'.height = BitVec.ofInt 64 h' := by
  -- Most instructions leave both registers alone.
  have hkept {t : State} (ht : t.height = s.height) (hh : some h = some h') :
      t.height = BitVec.ofInt 64 h' := by
    rw [ht, hs, Option.some.inj hh]
  cases i with
  | movq src dst =>
      simp only [Inst.height] at hi
      simp only [exec, Option.bind_eq_some_iff] at hexec
      obtain ⟨v, hv, hwrite⟩ := hexec
      split at hi
      next hframe =>
        cases hi
        rcases hframe with ⟨rfl, rfl⟩ | ⟨rfl, rfl⟩
        · cases hv
          cases hwrite
          simp [State.height]
        · cases hv
          cases hwrite
          simp [State.height]
      next =>
        split at hi
        · cases hi
        next hdst => exact hkept (height_writeQuad (by simpa using hdst) hwrite) hi
  | leaq src dst =>
      simp only [Inst.height] at hi
      simp only [exec, Option.bind_eq_some_iff] at hexec
      obtain ⟨a, -, hwrite⟩ := hexec
      split at hi
      · cases hi
      next hdst => exact hkept (height_writeQuad (by simpa using hdst) hwrite) hi
  | addq src dst =>
      rcases Inst.height_addq hi with ⟨n, rfl, rfl, rfl⟩ | ⟨hdst, rfl⟩
      · cases hexec
        exact Quad.sub_add_ofInt hs n
      · exact hkept (height_combineQuad hdst hexec) rfl
  | subq src dst =>
      rcases Inst.height_subq hi with ⟨n, rfl, rfl, rfl⟩ | ⟨hdst, rfl⟩
      · cases hexec
        exact Quad.sub_sub_ofInt hs n
      · exact hkept (height_combineQuad hdst hexec) rfl
  | imulq src dst | andq src dst =>
      simp only [Inst.height] at hi
      split at hi
      · cases hi
      next hdst => exact hkept (height_combineQuad (by simpa using hdst) hexec) hi
  | movl src dst =>
      simp only [exec, Option.bind_eq_some_iff] at hexec
      obtain ⟨v, -, hwrite⟩ := hexec
      exact hkept (State.height_writeLong hwrite) hi
  | addl src dst | subl src dst | imull src dst => exact hkept (height_combineLong hexec) hi
  | negl dst =>
      simp only [exec, Option.bind_eq_bind, Option.bind_eq_some_iff] at hexec
      obtain ⟨v, -, hwrite⟩ := hexec
      exact hkept (State.height_writeLong (s := { s with flags := none }) hwrite) hi
  | cmpl src dst =>
      simp only [exec, Option.bind_eq_bind, Option.bind_eq_some_iff] at hexec
      obtain ⟨a, -, b, -, hs'⟩ := hexec
      cases hs'
      exact hkept rfl hi
  | cltq | cqto =>
      cases hexec
      exact hkept rfl hi
  | idivl src =>
      simp only [exec, Option.bind_eq_some_iff] at hexec
      obtain ⟨v, -, hdivide⟩ := hexec
      unfold divide at hdivide
      dsimp only at hdivide
      split at hdivide <;> cases hdivide
      exact hkept rfl hi
  | pushq src =>
      simp only [exec, Option.bind_eq_bind, Option.bind_eq_some_iff] at hexec
      obtain ⟨v, -, hstore⟩ := hexec
      cases hi
      rw [State.height_store hstore]
      exact Quad.sub_sub_ofInt hs 8
  | popq dst =>
      simp only [exec, Option.bind_eq_bind, Option.bind_eq_some_iff] at hexec
      obtain ⟨v, -, hwrite⟩ := hexec
      simp only [Inst.height] at hi
      split at hi <;> cases hi
      next hdst =>
        rw [height_writeQuad (by simpa using hdst) hwrite]
        exact Quad.sub_add_ofInt hs 8
  | jmp _ | j _ _ | call _ | ret => cases hexec

end Machine

namespace Code

/-- The lines of a call whose height the single instruction does not tell: those of a library
call behind its pushes, and the one that takes the frame base back from the stack. -/
def InCall (code : Code) (i : Nat) : Prop :=
  ∃ k symbol, Snippet.library symbol <+: code.drop k ∧ k + 2 ≤ i ∧ i < k + 5 ∨
    Snippet.call symbol <+: code.drop k ∧ i = k + 2

/-- One step of control through code, from a line and a height to a line and a height. A call
leaves the height as it is, and so does a whole call of a library function. An instruction
that does not tell the height behind it leads to every height. -/
inductive Flows (code : Code) : Nat × Int → Nat × Int → Prop where
  | label {i : Nat} {h : Int} {name : String} :
      code[i]? = some (.label name) → Flows code (i, h) (i + 1, h)
  | inst {i : Nat} {h h' : Int} {x : Inst} :
      code[i]? = some (.inst x) → x.isTransfer = false → ¬ code.InCall i →
      (∀ known ∈ x.height h, h' = known) → Flows code (i, h) (i + 1, h')
  | jump {i j : Nat} {h : Int} {label : String} :
      code[i]? = some (.inst (.jmp label)) → code[j]? = some (.label label) →
      Flows code (i, h) (j, h)
  | branch {i j : Nat} {h : Int} {cond : Cond} {label : String} :
      code[i]? = some (.inst (.j cond label)) → code[j]? = some (.label label) →
      Flows code (i, h) (j, h)
  | skip {i : Nat} {h : Int} {cond : Cond} {label : String} :
      code[i]? = some (.inst (.j cond label)) → Flows code (i, h) (i + 1, h)
  | call {i : Nat} {h : Int} {symbol : String} :
      code[i]? = some (.inst (.call symbol)) → Flows code (i, h) (i + 1, h)
  | restore {i : Nat} {h : Int} {symbol : String} :
      Snippet.call symbol <+: code.drop i → Flows code (i + 2, h) (i + 3, h - 8)
  | library {i : Nat} {h : Int} {symbol : String} :
      Snippet.library symbol <+: code.drop i → Flows code (i, h) (i + 5, h)

/-- Control can come from one line and height to another. -/
abbrev Path (code : Code) : Nat × Int → Nat × Int → Prop := Relation.ReflTransGen code.Flows

end Code

/-! ## Heights line by line -/

/-- How much higher the stack is behind a line than before it. The frame base does not count,
and the end of a library call drops the two words that its start pushed. -/
@[simp]
def Inst.lift : Inst → Int
  | .pushq _ => 8
  | .popq _ => -8
  | .subq (.imm n) dst => if dst = .reg .rsp then n else 0
  | .addq (.imm n) dst => if dst = .reg .rsp then -n else 0
  | .movq src dst => if src = .mem 8 .rsp ∧ dst = .reg .rsp then -16 else 0
  | _ => 0

@[simp]
def Line.lift : Line → Int
  | .inst x => x.lift
  | _ => 0

@[simp]
def Line.label? : Line → Option String
  | .label name => some name
  | _ => none

/-- The target of a jump. -/
@[simp]
def Line.target? : Line → Option String
  | .inst (.jmp name) | .inst (.j _ name) => some name
  | _ => none

/-- A line that stands for itself: its effect on the height can be told, and is its lift. -/
@[simp]
def Line.Plain : Line → Prop
  | .label _ | .inst (.jmp _) | .inst (.j ..) => True
  | .inst x => ∀ h, x.height h = some (h + x.lift)
  | _ => False

namespace Code

def lift (code : Code) : Int := (code.map Line.lift).sum

@[simp]
theorem lift_nil : lift [] = 0 := rfl

@[simp]
theorem lift_cons (line : Line) (rest : Code) : lift (line :: rest) = line.lift + lift rest :=
  List.sum_cons

@[simp]
theorem lift_append (a b : Code) : lift (a ++ b) = lift a + lift b := by
  rw [lift, List.map_append, List.sum_append, lift, lift]

/-- The names that the lines of code have for something, with the heights of these lines, in
code that starts at a given height. -/
def named (name? : Line → Option String) (h : Int) : Code → List (String × Int)
  | [] => []
  | line :: rest => ((name? line).map (·, h)).toList ++ named name? (h + line.lift) rest

@[simp]
theorem named_nil (name? : Line → Option String) (h : Int) : named name? h [] = [] := rfl

@[simp]
theorem named_cons (name? : Line → Option String) (h : Int) (line : Line) (rest : Code) :
    named name? h (line :: rest) =
      ((name? line).map (·, h)).toList ++ named name? (h + line.lift) rest := rfl

@[simp]
theorem named_append (name? : Line → Option String) (h : Int) (a b : Code) :
    named name? h (a ++ b) = named name? h a ++ named name? (h + lift a) b := by
  induction a generalizing h with
  | nil => simp
  | cons line rest ih => simp [ih, Int.add_assoc]

/-- Every jump leads to a label at the height from which it starts. -/
def Closed (h : Int) (code : Code) : Prop :=
  code.named Line.target? h ⊆ code.named Line.label? h

theorem Closed.append {h : Int} {a b : Code} (ha : Closed h a) (hb : Closed (h + lift a) b) :
    Closed h (a ++ b) := by
  unfold Closed
  rw [named_append, named_append]
  apply List.append_subset.mpr
  exact ⟨fun _ hmem => List.mem_append_left _ (ha hmem),
    fun _ hmem => List.mem_append_right _ (hb hmem)⟩

/-- The height is a multiple of 8 and not below a floor, before each line and at the end of code
that starts at a given height. -/
def StaysAbove (floor h : Int) : Code → Prop
  | [] => floor ≤ h ∧ 8 ∣ h
  | line :: rest => (floor ≤ h ∧ 8 ∣ h) ∧ StaysAbove floor (h + line.lift) rest

@[simp]
theorem staysAbove_nil {floor h : Int} : StaysAbove floor h [] ↔ floor ≤ h ∧ 8 ∣ h := .rfl

@[simp]
theorem staysAbove_cons {floor h : Int} {line : Line} {rest : Code} :
    StaysAbove floor h (line :: rest) ↔
      (floor ≤ h ∧ 8 ∣ h) ∧ StaysAbove floor (h + line.lift) rest := .rfl

theorem StaysAbove.append {floor h : Int} {a b : Code} (ha : StaysAbove floor h a)
    (hb : StaysAbove floor (h + lift a) b) : StaysAbove floor h (a ++ b) := by
  induction a generalizing h with
  | nil => simpa using hb
  | cons line rest ih => exact ⟨ha.1, ih ha.2 (by simpa [Int.add_assoc] using hb)⟩

theorem StaysAbove.take {floor h : Int} {code : Code} (hc : StaysAbove floor h code) (i : Nat) :
    floor ≤ h + lift (code.take i) ∧ 8 ∣ h + lift (code.take i) := by
  induction code generalizing h i with
  | nil => simpa using hc
  | cons line rest ih =>
      cases i with
      | zero => simpa using hc.1
      | succ i => simpa [Int.add_assoc] using ih hc.2 i

/-- Code made of lines that stand for themselves, of whole calls and, where it may return, of
whole epilogues. -/
inductive Regular (returns : Prop) : Code → Prop where
  | nil : Regular returns []
  | line {line : Line} {rest : Code} :
      line.Plain → Regular returns rest → Regular returns (line :: rest)
  | library (symbol : String) {rest : Code} :
      Regular returns rest → Regular returns (Snippet.library symbol ++ rest)
  | call (symbol : String) {rest : Code} :
      Regular returns rest → Regular returns (Snippet.call symbol ++ rest)
  | epilogue {rest : Code} :
      returns → Regular returns rest → Regular returns (Snippet.epilogue ++ rest)

namespace Regular

variable {returns returns' : Prop} {a b code : Code} {i : Nat}

theorem append (ha : Regular returns a) (hb : Regular returns b) : Regular returns (a ++ b) := by
  induction ha with
  | nil => exact hb
  | line hline _ ih => exact .line hline ih
  | library symbol _ ih =>
      rw [List.append_assoc]
      exact .library symbol ih
  | call symbol _ ih =>
      rw [List.append_assoc]
      exact .call symbol ih
  | epilogue h _ ih =>
      rw [List.append_assoc]
      exact .epilogue h ih

theorem mono (h : Regular returns code) (himp : returns → returns') : Regular returns' code := by
  induction h with
  | nil => exact .nil
  | line hline _ ih => exact .line hline ih
  | library symbol _ ih => exact .library symbol ih
  | call symbol _ ih => exact .call symbol ih
  | epilogue h _ ih => exact .epilogue (himp h) ih

theorem of_plain (h : ∀ line ∈ code, line.Plain) : Regular returns code := by
  induction code with
  | nil => exact .nil
  | cons line rest ih =>
      rw [List.forall_mem_cons] at h
      exact .line h.1 (ih h.2)

end Regular

theorem InCall.append_left {b : Code} {i : Nat} (h : b.InCall i) (a : Code) :
    InCall (a ++ b) (a.length + i) := by
  obtain ⟨k, symbol, h⟩ := h
  refine ⟨a.length + k, symbol, ?_⟩
  rw [List.drop_append, List.drop_of_length_le (Nat.le_add_right _ _), Nat.add_sub_cancel_left,
    List.nil_append]
  rcases h with ⟨hlines, hlow, hhigh⟩ | ⟨hlines, rfl⟩
  · exact .inl ⟨hlines, by omega, by omega⟩
  · exact .inr ⟨hlines, by omega⟩

/-- The instruction that drops a whole frame. -/
abbrev leave : Line := .inst (.movq (.reg .rbx) (.reg .rsp))

/-- What is known of an instruction in regular code: it tells its effect, or it drops the frame
before a return, or it is part of a call. -/
inductive Accounted (code : Code) (i : Nat) (x : Inst) : Prop where
  | plain (h : ∀ h, x.height h = some (h + x.lift))
  | leave (hx : .inst x = leave) (hnext : code[i + 1]? = some (.inst .ret))
  | call (h : code.InCall i)

theorem Accounted.append_left {b : Code} {i : Nat} {x : Inst} (h : Accounted b i x) (a : Code) :
    Accounted (a ++ b) (a.length + i) x := by
  cases h with
  | plain h => exact .plain h
  | call h => exact .call (h.append_left a)
  | leave hx hnext =>
      refine .leave hx ?_
      rw [List.getElem?_append_right (by omega), ← hnext]
      congr 1
      omega

namespace Regular

variable {returns : Prop} {code : Code} {i : Nat}

theorem accounted (hc : Regular returns code) {x : Inst} (hi : code[i]? = some (.inst x))
    (hx : x.isTransfer = false) : Accounted code i x := by
  induction hc generalizing i with
  | nil => simp at hi
  | @line line rest hline _ ih =>
      cases i with
      | zero =>
          simp only [List.getElem?_cons_zero, Option.some.injEq] at hi
          subst hi
          apply Accounted.plain
          cases x with
          | jmp _ | j _ _ | call _ | ret => cases hx
          | _ => exact hline
      | succ i =>
          have hrest := (ih hi).append_left [line]
          rwa [List.length_singleton, Nat.add_comm] at hrest
  | @library symbol rest _ ih =>
      have hcall : Snippet.library symbol <+: (Snippet.library symbol ++ rest).drop 0 :=
        List.prefix_append _ _
      match i with
      | 0 | 1 =>
          cases hi
          exact .plain fun h => rfl
      | 2 | 3 | 4 => exact .call ⟨0, symbol, .inl ⟨hcall, by omega, by omega⟩⟩
      | i + 5 =>
          have hrest := (ih hi).append_left (Snippet.library symbol)
          rwa [Nat.add_comm] at hrest
  | @call symbol rest _ ih =>
      have hcall : Snippet.call symbol <+: (Snippet.call symbol ++ rest).drop 0 :=
        List.prefix_append _ _
      match i with
      | 0 =>
          cases hi
          exact .plain fun h => rfl
      | 1 =>
          cases hi
          cases hx
      | 2 => exact .call ⟨0, symbol, .inr ⟨hcall, rfl⟩⟩
      | i + 3 =>
          have hrest := (ih hi).append_left (Snippet.call symbol)
          rwa [Nat.add_comm] at hrest
  | @epilogue rest h _ ih =>
      match i with
      | 0 =>
          cases hi
          exact .leave rfl rfl
      | 1 =>
          cases hi
          cases hx
      | i + 2 =>
          have hrest := (ih hi).append_left Snippet.epilogue
          rwa [Nat.add_comm] at hrest

/-- Returns stand behind the instruction that drops the frame. -/
theorem leave_of_ret (hc : Regular returns code) (hi : code[i]? = some (.inst .ret)) :
    ∃ k, i = k + 1 ∧ code[k]? = some leave := by
  induction hc generalizing i with
  | nil => simp at hi
  | @line line rest hline _ ih =>
      cases i with
      | zero =>
          simp only [List.getElem?_cons_zero, Option.some.injEq] at hi
          subst hi
          cases hline 0
      | succ i =>
          obtain ⟨k, rfl, hk⟩ := ih hi
          exact ⟨k + 1, rfl, hk⟩
  | library symbol _ ih =>
      match i with
      | 0 | 1 | 2 | 3 | 4 => cases hi
      | i + 5 =>
          obtain ⟨k, rfl, hk⟩ := ih hi
          exact ⟨k + 5, rfl, hk⟩
  | call symbol _ ih =>
      match i with
      | 0 | 1 | 2 => cases hi
      | i + 3 =>
          obtain ⟨k, rfl, hk⟩ := ih hi
          exact ⟨k + 3, rfl, hk⟩
  | epilogue h _ ih =>
      match i with
      | 0 => cases hi
      | 1 => exact ⟨0, rfl, rfl⟩
      | i + 2 =>
          obtain ⟨k, rfl, hk⟩ := ih hi
          exact ⟨k + 2, rfl, hk⟩

/-- Code that may not return does not drop its frame. -/
theorem ne_leave (hc : Regular False code) {line : Line} (hline : line ∈ code) : line ≠ leave := by
  rintro rfl
  induction hc with
  | nil => simp at hline
  | line hplain _ ih =>
      rcases List.mem_cons.mp hline with rfl | hline
      · cases hplain 1
      · exact ih hline
  | library symbol _ ih | call symbol _ ih =>
      rcases List.mem_append.mp hline with hline | hline
      · simp [Snippet.library, Snippet.call, leave, Operand.rsp] at hline
      · exact ih hline
  | epilogue h => exact h

end Regular

theorem lift_take_succ {code : Code} {i : Nat} {line : Line} (h : code[i]? = some line) :
    lift (code.take (i + 1)) = lift (code.take i) + line.lift := by
  rw [List.take_add_one, h, Option.toList_some, lift_append, lift_cons, lift_nil, Int.add_zero]

/-- The height at a line of code that starts at height 0. -/
def heightAt (code : Code) (i : Nat) : Int :=
  if code[i]? = some (.inst .ret) then 0 else lift (code.take i)

theorem heightAt_of_ne_ret {code : Code} {i : Nat} (h : code[i]? ≠ some (.inst .ret)) :
    code.heightAt i = lift (code.take i) :=
  if_neg h

theorem heightAt_ret {code : Code} {i : Nat} (h : code[i]? = some (.inst .ret)) :
    code.heightAt i = 0 :=
  if_pos h

theorem Regular.heightAt_succ {returns : Prop} {code : Code} (hc : Regular returns code) {i : Nat}
    {line : Line} (hi : code[i]? = some line) (hret : line ≠ .inst .ret) (hleave : line ≠ leave) :
    code.heightAt (i + 1) = code.heightAt i + line.lift := by
  have hnext : code[i + 1]? ≠ some (.inst .ret) := by
    intro hnext
    obtain ⟨k, hk, hline⟩ := hc.leave_of_ret hnext
    cases hk
    exact hleave (Option.some.inj (hi.symm.trans hline))
  rw [heightAt_of_ne_ret hnext, heightAt_of_ne_ret (by simpa [hi] using hret), lift_take_succ hi]

theorem mem_named_iff {name? : Line → Option String} {code : Code} {h k : Int} {name : String} :
    (name, k) ∈ named name? h code ↔
      ∃ i line, code[i]? = some line ∧ name? line = some name ∧ k = h + lift (code.take i) := by
  induction code generalizing h with
  | nil => simp
  | cons line rest ih =>
      rw [named_cons, List.mem_append, ih]
      constructor
      · rintro (hmem | ⟨i, line', hi, hname, rfl⟩)
        · rw [Option.mem_toList, Option.map_eq_some_iff] at hmem
          obtain ⟨_, hname, heq⟩ := hmem
          cases heq
          exact ⟨0, line, rfl, hname, by simp⟩
        · exact ⟨i + 1, line', hi, hname, by simp [Int.add_assoc]⟩
      · rintro ⟨i, line', hi, hname, rfl⟩
        cases i with
        | zero =>
            cases hi
            simp [hname]
        | succ i => exact .inr ⟨i, line', hi, hname, by simp [Int.add_assoc]⟩

theorem Closed.exists_label {h : Int} {code : Code} (hclosed : Closed h code) {i : Nat}
    {line : Line} (hi : code[i]? = some line) {label : String}
    (htarget : line.target? = some label) :
    ∃ j, code[j]? = some (.label label) ∧ lift (code.take j) = lift (code.take i) := by
  obtain ⟨j, line', hj, hlabel, hheight⟩ :=
    mem_named_iff.mp (hclosed (mem_named_iff.mpr ⟨i, line, hi, htarget, rfl⟩))
  obtain rfl : line' = .label label := by
    cases line' <;> cases hlabel
    rfl
  exact ⟨j, hj, by omega⟩

/-- A label that is defined once stands at one line. -/
theorem label_unique {code : Code} (h : (labels code).Nodup) {i j : Nat} {name : String}
    (hi : code[i]? = some (.label name)) (hj : code[j]? = some (.label name)) : i = j := by
  induction code generalizing i j with
  | nil => simp at hi
  | cons line rest ih =>
      have hrest : (labels rest).Nodup := by
        cases line with
        | label other =>
            rw [labels_label, List.nodup_cons] at h
            exact h.2
        | _ => exact h
      have hfirst {k : Nat} (hline : line = .label name) (hk : rest[k]? = some (.label name)) :
          False := by
        rw [hline, labels_label, List.nodup_cons, mem_labels_iff] at h
        exact h.1 (List.mem_of_getElem? hk)
      cases i with
      | zero =>
          cases j with
          | zero => rfl
          | succ j => exact (hfirst (Option.some.inj hi) hj).elim
      | succ i =>
          cases j with
          | zero => exact (hfirst (Option.some.inj hj) hi).elim
          | succ j => rw [ih hrest hi hj]

/-! ## Heights in a function -/

/-- The lines that a function starts with. -/
def entry (name : String) : Code :=
  [.label name, .inst (.movq (.reg .rsp) (.reg .rbx))]

/-- The height at a line of a function with the given code behind its first two lines, if the
function is entered at a height. -/
def heightIn (start : Int) (code : Code) (i : Nat) : Int :=
  if i < 2 then start else code.heightAt (i - 2)

theorem getElem?_of_prefix_drop {a code : Code} {k i : Nat} {line : Line} (h : a <+: code.drop k)
    (hi : a[i]? = some line) : code[k + i]? = some line := by
  obtain ⟨rest, hrest⟩ := h
  have hlt := (List.getElem?_eq_some_iff.mp hi).1
  rw [← List.getElem?_drop, ← hrest, List.getElem?_append_left hlt, hi]

/-- What the two pushes of a library call add is dropped by its last line. -/
theorem Regular.heightAt_library {returns : Prop} {code : Code} (hc : Regular returns code)
    {i : Nat} {symbol : String} (h : Snippet.library symbol <+: code.drop i) :
    code.heightAt (i + 5) = code.heightAt i := by
  have hline {d : Nat} {line : Line} := @getElem?_of_prefix_drop _ _ i d line h
  have h₁ := hc.heightAt_succ (@hline 0 _ rfl) nofun nofun
  have h₂ := hc.heightAt_succ (@hline 1 _ rfl) nofun nofun
  have h₃ := hc.heightAt_succ (@hline 2 _ rfl) nofun nofun
  have h₄ := hc.heightAt_succ (@hline 3 _ rfl) nofun nofun
  have h₅ := hc.heightAt_succ (@hline 4 _ rfl) nofun nofun
  change code.heightAt (i + 5) = code.heightAt (i + 4) - 16 at h₅
  rw [h₅, h₄, h₃, h₂, h₁]
  change code.heightAt i + 8 + 8 + 0 + 0 - 16 = code.heightAt i
  omega

section Flow

variable {returns : Prop} {name : String} {code : Code} {start : Int}

theorem Regular.heightIn_succ (hc : Regular returns code) {i : Nat} {line : Line}
    (hi : code[i]? = some line) (hret : line ≠ .inst .ret) (hleave : line ≠ leave) :
    heightIn start code (i + 2 + 1) = heightIn start code (i + 2) + line.lift :=
  hc.heightAt_succ hi hret hleave

/-- A jump finds the height from which it starts at its target. -/
theorem Closed.heightIn_jump (hclosed : Closed 0 code)
    (hlabels : (labels (entry name ++ code)).Nodup) {i j : Nat} {line : Line}
    (hi : code[i]? = some line) {label : String}
    (htarget : line.target? = some label) (hj : (entry name ++ code)[j]? = some (.label label)) :
    heightIn start code j = heightIn start code (i + 2) := by
  have hret : code[i]? ≠ some (.inst .ret) := by
    rintro hret
    cases hi.symm.trans hret
    cases htarget
  obtain ⟨k, hk, hheight⟩ := hclosed.exists_label hi htarget
  obtain rfl : k + 2 = j := label_unique hlabels hk hj
  change code.heightAt k = code.heightAt i
  rw [heightAt_of_ne_ret hret, heightAt_of_ne_ret (by simp [hk]), hheight]

/-- One step of control keeps to the heights of the lines. -/
theorem Regular.flows_heightIn (hc : Regular returns code) (hclosed : Closed 0 code)
    (hlabels : (labels (entry name ++ code)).Nodup) {i j : Nat} {h h' : Int}
    (hflows : Flows (entry name ++ code) (i, h) (j, h')) (hh : h = heightIn start code i) :
    h' = heightIn start code j := by
  subst hh
  cases hflows with
  | @label _ _ label hi =>
      match i with
      | 0 => rfl
      | 1 => cases hi
      | i + 2 =>
          rw [hc.heightIn_succ hi nofun nofun]
          simp [Line.lift]
  | @inst _ _ _ x hi hx hcall hknown =>
      match i with
      | 0 => cases hi
      | 1 =>
          cases hi
          rw [hknown 0 rfl]
          simp [heightIn, heightAt]
      | i + 2 =>
          cases hc.accounted hi hx with
          | call h =>
              have hshift := h.append_left (entry name)
              rw [Nat.add_comm] at hshift
              exact absurd hshift hcall
          | leave hleave hnext =>
              cases hleave
              rw [hknown 0 rfl]
              exact (heightAt_ret hnext).symm
          | plain hplain =>
              rw [hknown _ (hplain _), hc.heightIn_succ hi ?_ ?_]
              · rfl
              · rintro ⟨⟩
                cases hx
              · rintro ⟨⟩
                cases hplain 1
  | jump hi hj | branch hi hj =>
      match i with
      | 0 | 1 => cases hi
      | i + 2 => exact (hclosed.heightIn_jump hlabels hi rfl hj).symm
  | skip hi | call hi =>
      match i with
      | 0 | 1 => cases hi
      | i + 2 =>
          rw [hc.heightIn_succ hi nofun nofun]
          simp [Line.lift, Inst.lift]
  | @restore i _ symbol hlines =>
      have hline {d : Nat} {line : Line} := @getElem?_of_prefix_drop _ _ i d line hlines
      match i with
      | 0 | 1 => cases @hline 0 _ rfl
      | i + 2 =>
          have hpop : code[i + 2]? = some (.inst (.popq (.reg .rbx))) := @hline 2 _ rfl
          rw [hc.heightIn_succ hpop nofun nofun]
          rfl
  | @library i _ symbol hlines =>
      match i with
      | 0 | 1 => cases @getElem?_of_prefix_drop _ _ _ 0 _ hlines rfl
      | i + 2 => exact (hc.heightAt_library hlines).symm

/-- So all paths from the first line come to a line with the same height. -/
theorem Regular.path_heightIn (hc : Regular returns code) (hclosed : Closed 0 code)
    (hlabels : (labels (entry name ++ code)).Nodup) {i : Nat} {h : Int}
    (hpath : Path (entry name ++ code) (0, start) (i, h)) : h = heightIn start code i := by
  generalize hplace : (i, h) = place at hpath
  induction hpath generalizing i h with
  | refl =>
      cases hplace
      rfl
  | @tail mid _ _ hflows ih =>
      cases hplace
      exact hc.flows_heightIn hclosed hlabels hflows (ih rfl)

end Flow

end Code

end Backend
