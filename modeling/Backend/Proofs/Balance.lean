import Backend.Proofs.Cells
import Backend.Proofs.StackHeight

/-! # Balanced code

The code of an expression leaves the stack as high as it found it and never lowers it in
between. So does the code of a statement, whose jumps moreover stay in it and start and end at
the same height.
-/

namespace Backend

namespace Code

/-- Code of an expression, which raises the stack by `n` bytes if at least `need` bytes lie
above the floor. -/
structure Moves (need n : Int) (c : Code) : Prop where
  regular : Regular False c
  lift : c.lift = n
  closed : ∀ h, Closed h c
  above : ∀ floor h, floor + need ≤ h → 8 ∣ h → StaysAbove floor h c

namespace Moves

variable {need need' n n' : Int} {a b c : Code}

theorem nil : Moves 0 0 [] where
  regular := .nil
  lift := rfl
  closed _ := List.nil_subset _
  above floor h hfloor hdvd := ⟨by omega, hdvd⟩

theorem append (ha : Moves need n a) (hb : Moves need' n' b) (hneed : need' ≤ need + n) :
    Moves need (n + n') (a ++ b) where
  regular := ha.regular.append hb.regular
  lift := by rw [lift_append, ha.lift, hb.lift]
  closed h := (ha.closed h).append (hb.closed _)
  above floor h hfloor hdvd := by
    have habove := ha.above floor h hfloor hdvd
    refine habove.append (hb.above floor _ ?_ ?_)
    · rw [ha.lift]
      omega
    · have hend := (habove.take a.length).2
      rwa [List.take_length] at hend

/-- Lines that stand for themselves and do not jump. -/
theorem of_plain (hplain : ∀ line ∈ c, line.Plain) (hjumps : ∀ line ∈ c, line.target? = none)
    (hlift : c.lift = n) (habove : ∀ floor h, floor + need ≤ h → 8 ∣ h → StaysAbove floor h c) :
    Moves need n c where
  regular := .of_plain hplain
  lift := hlift
  closed h := by
    rintro ⟨label, k⟩ hmem
    obtain ⟨i, line, hi, htarget, -⟩ := mem_named_iff.mp hmem
    rw [hjumps line (List.mem_of_getElem? hi)] at htarget
    cases htarget
  above := habove

theorem pushValue : Moves 0 8 [.inst Snippet.pushValue] := by
  apply of_plain <;> simp [Snippet.pushValue]
  omega

theorem drop {words : Nat} : Moves (8 * words) (-(8 * words))
    [.inst (.addq (.imm (8 * words)) (.reg .rsp))] := by
  apply of_plain <;> simp [Int.sub_eq_add_neg]
  omega

/-- A right operand that is kept on the stack while the left one is computed. -/
theorem operate (ha : Moves 0 0 a) (hb : Moves 0 0 b) (hc : Moves 8 (-8) c) :
    Moves 0 0 (b ++ [.inst Snippet.pushValue] ++ a ++ c) := by
  have hkept := hb.append pushValue (by omega)
  exact (hkept.append ha (by omega)).append hc (by omega)

/-- An instruction that leaves the stack alone. -/
theorem still {x : Inst} (hx : ∀ h, x.height h = some h) (hlift : x.lift = 0) :
    Moves 0 0 [.inst x] := by
  have hplain : (Line.inst x).Plain ∧ (Line.inst x).target? = none := by
    cases x with
    | jmp _ | j _ _ | call _ | ret => cases hx 0
    | _ => exact ⟨fun h => by rw [hx, hlift, Int.add_zero], rfl⟩
  refine .of_plain ?_ ?_ ?_ ?_
  · simpa only [List.mem_singleton, forall_eq] using hplain.1
  · simpa only [List.mem_singleton, forall_eq] using hplain.2
  · simpa using hlift
  · intro floor h hfloor hdvd
    simp only [staysAbove_cons, staysAbove_nil, Line.lift, hlift]
    omega

end Moves

end Code

namespace Snippet

open Code Operand

theorem moves_combine (op : AddOp) : Moves 8 (-8) (combine op) := by
  cases op <;> apply Moves.of_plain <;> simp [combine, dropOperand, rsp, eax] <;> omega

theorem moves_scale (op : MulOp) : Moves 8 (-8) (scale op) := by
  cases op <;> apply Moves.of_plain <;>
    simp [scale, scale.divide, dropOperand, rsp, eax] <;> omega

/-- Take a value from the stack and store it. -/
theorem moves_storePopped : Moves 8 (-8) [.inst (.popq rax), .inst storeAtRsi] := by
  apply Moves.of_plain <;> simp [storeAtRsi, rax] <;> omega

theorem moves_index : Moves 8 (-8) index := by
  apply Moves.of_plain <;> simp [index, rax, rsi] <;> omega

theorem moves_call (symbol : String) : Moves 0 0 (call symbol) where
  regular := @Regular.call False symbol [] .nil
  lift := by simp [call]
  closed h := by simp [Closed, call]
  above := by
    simp only [call, staysAbove_cons, staysAbove_nil, Line.lift, Inst.lift]
    omega

theorem moves_library (symbol : String) : Moves 0 0 (library symbol) where
  regular := @Regular.library False symbol [] .nil
  lift := by simp [library, rsp]
  closed h := by simp [Closed, library]
  above := by
    simp [library, rsp]
    omega

theorem moves_readInt : Moves 0 0 readInt := by
  have hbefore : Moves 0 8 [.inst (.subq (.imm 8) rsp), .inst (.movq rsp rsi),
      .inst (.leaq (.rip FormatString.readInt) (.reg .rdi)), .inst (.movl (.imm 0) eax)] := by
    apply Moves.of_plain <;> simp [rsp, rsi]
    omega
  have hbehind : Moves 8 (-8) [.inst (.movl top eax), .inst (.addq (.imm 8) rsp)] := by
    apply Moves.of_plain <;> simp [rsp] <;> omega
  exact (hbefore.append (moves_library _) (by omega)).append hbehind (by omega)

theorem moves_compare (cond : Cond) (other stop : String) :
    Moves 8 (-8) (compare cond other stop) where
  regular := .of_plain (by simp [compare, dropOperand, rsp, Int.sub_eq_add_neg])
  lift := by simp [compare, dropOperand, rsp]
  closed h := by simp [Closed, compare, dropOperand]
  above := by
    simp [compare, dropOperand, rsp]
    omega

end Snippet

open Code (Moves)

theorem Inst.moves_rax {x : Inst} {src : Operand} (h : x = .movq src .rax ∨ x = .leaq src .rax) :
    Moves 0 0 [.inst x] := by
  rcases h with rfl | rfl <;> apply Moves.still <;> simp [Operand.rax]

theorem Inst.moves_movq {src dst : Operand} (h : dst.movesFrame = false) :
    Moves 0 0 [.inst (.movq src dst)] := by
  have hdst : dst ≠ .reg .rbx ∧ dst ≠ .reg .rsp := by
    constructor
    · rintro rfl
      cases h
    · rintro rfl
      cases h
  apply Moves.still <;> simp [hdst]

namespace Decl

variable {d : Decl} {n n' : Nat}

theorem cell_eq_ok {x : Operand} (h : d.cell n = .ok x n') :
    (∃ offset, x = .mem offset .rbx) ∨ d.offset = .ok none ∧ x = .rip d.name := by
  unfold cell at h
  cases hslot : d.slot with
  | none =>
      simp only [hslot] at h
      exact absurd h Emit.missing_ne_ok
  | some slot =>
      simp only [hslot, Emit.bind_eq_ok_iff, Emit.checked_eq_ok_iff] at h
      obtain ⟨offset, _, ⟨hoffset, -⟩, h⟩ := h
      cases offset with
      | some offset => exact .inl ⟨offset, (Emit.pure_eq_ok_iff.mp h).1.symm⟩
      | none => exact .inr ⟨hoffset, (Emit.pure_eq_ok_iff.mp h).1.symm⟩

theorem movesFrame_cell {x : Operand} (h : d.cell n = .ok x n') : x.movesFrame = false := by
  rcases cell_eq_ok h with ⟨_, rfl⟩ | ⟨-, rfl⟩ <;> rfl

theorem arrayBase_eq_ok {i : Inst} (h : d.arrayBase n = .ok i n') :
    ∃ src k, d.cell n = .ok src k ∧ (i = .movq src .rax ∨ i = .leaq src .rax) := by
  simp only [arrayBase, Emit.bind_eq_ok_iff] at h
  obtain ⟨cell, k, hcell, h⟩ := h
  refine ⟨cell, k, hcell, ?_⟩
  cases hkind : d.kind <;> simp only [hkind] at h
  case arrayParam => exact .inl (Emit.pure_eq_ok_iff.mp h).1.symm
  all_goals exact .inr (Emit.pure_eq_ok_iff.mp h).1.symm

theorem load_eq_ok {access : Access} {i : Inst} (h : d.load access n = .ok i n') :
    ∃ src k, d.cell n = .ok src k ∧ (i = .movq src .rax ∨ i = .leaq src .rax) := by
  cases access with
  | address =>
      simp only [load, Emit.bind_eq_ok_iff] at h
      obtain ⟨cell, k, hcell, h⟩ := h
      exact ⟨cell, k, hcell, .inr (Emit.pure_eq_ok_iff.mp h).1.symm⟩
  | value =>
      cases hkind : d.kind <;> simp only [load, hkind] at h
      case array | arrayParam => exact arrayBase_eq_ok h
      all_goals
        rw [Emit.bind_eq_ok_iff] at h
        obtain ⟨cell, k, hcell, h⟩ := h
        exact ⟨cell, k, hcell, .inl (Emit.pure_eq_ok_iff.mp h).1.symm⟩

end Decl

theorem CodeEnv.moves_element {cx : CodeEnv} {x : Ident} {index : Emit Code} {n n' : Nat} {c : Code}
    (hindex : ∀ {n c n'}, index n = .ok c n' → Moves 0 0 c)
    (h : cx.element x index n = .ok c n') : Moves 0 0 c := by
  simp only [element, Emit.bind_eq_ok_iff, Emit.pure_eq_ok_iff] at h
  obtain ⟨d, _, -, base, _, hbase, ci, _, hci, rfl, -⟩ := h
  obtain ⟨src, _, -, hsrc⟩ := Decl.arrayBase_eq_ok hbase
  have hbefore := (Inst.moves_rax hsrc).append Moves.pushValue (by omega)
  exact (hbefore.append (hindex hci) (by omega)).append Snippet.moves_index (by omega)

/-- Only an argument list leaves something on the stack. -/
theorem Code.Moves.level {l : Layer} {x : Node l} {c : Code} (h : Moves 0 (8 * x.count) c)
    (hl : l ≠ .args) : Moves 0 0 c := by
  have hcount : x.count = 0 := by
    cases x with
    | nil | cons _ _ => exact absurd rfl hl
    | _ => rfl
  rwa [hcount] at h

/-- The code of a node ends where it starts, that of an argument list with one more word on the
stack for each argument. -/
theorem Node.moves_code {l : Layer} {cx : CodeEnv} {x : Node l} {access : Access} {n n' : Nat}
    {c : Code} (h : x.code cx access n = .ok c n') : Moves 0 (8 * x.count) c := by
  induction x generalizing access n n' c with
  | comp _ x ih | sum _ x ih | term _ x ih | unary _ x ih | factor _ x ih | paren _ x ih =>
      exact (ih h).level (by decide)
  | assign _ target value iht ihv =>
      simp only [code, Emit.bind_eq_ok_iff, Emit.pure_eq_ok_iff] at h
      obtain ⟨cv, k, hcv, ct, k', hct, rfl, rfl⟩ := h
      exact ((ihv hcv).level (by decide)).append ((iht hct).level (by decide)) (by omega)
  | setVar _ x =>
      simp only [code, Emit.bind_eq_ok_iff, Emit.pure_eq_ok_iff] at h
      obtain ⟨d, _, -, cell, _, hcell, rfl, rfl⟩ := h
      exact Inst.moves_movq (Decl.movesFrame_cell hcell)
  | setDeref _ x =>
      simp only [code, Emit.bind_eq_ok_iff, Emit.pure_eq_ok_iff] at h
      obtain ⟨d, _, -, cell, _, -, rfl, rfl⟩ := h
      have hload : Moves 0 0 [.inst (.movq cell .rsi)] := Inst.moves_movq rfl
      exact (Moves.pushValue.append hload (by omega)).append Snippet.moves_storePopped
        (by omega)
  | setElem _ x index ih =>
      simp only [code, Emit.bind_eq_ok_iff, Emit.pure_eq_ok_iff] at h
      obtain ⟨ce, k, hce, rfl, rfl⟩ := h
      have helement := CodeEnv.moves_element (fun hci => (ih hci).level (by decide)) hce
      exact (Moves.pushValue.append helement (by omega)).append Snippet.moves_storePopped
        (by omega)
  | elem _ x index ih =>
      simp only [code, Emit.bind_eq_ok_iff, Emit.pure_eq_ok_iff] at h
      obtain ⟨ce, k, hce, rfl, rfl⟩ := h
      have helement := CodeEnv.moves_element (fun hci => (ih hci).level (by decide)) hce
      have hload {src : Operand} : Moves 0 0 [.inst (.movq src .rax)] := Inst.moves_movq rfl
      cases access with
      | value => exact helement.append hload (by omega)
      | address => exact helement.append hload (by omega)
  | rel _ a op b iha ihb =>
      simp only [code, Emit.bind_eq_ok_iff, Emit.pure_eq_ok_iff] at h
      obtain ⟨other, _, -, stop, _, -, cb, k, hcb, ca, k', hca, rfl, rfl⟩ := h
      exact ((iha hca).level (by decide)).operate ((ihb hcb).level (by decide))
        (Snippet.moves_compare _ _ _)
  | add _ a op b iha ihb =>
      simp only [code, Emit.bind_eq_ok_iff, Emit.pure_eq_ok_iff] at h
      obtain ⟨cb, k, hcb, ca, k', hca, rfl, rfl⟩ := h
      exact ((iha hca).level (by decide)).operate ((ihb hcb).level (by decide))
        (Snippet.moves_combine op)
  | mul _ a op b iha ihb =>
      simp only [code, Emit.bind_eq_ok_iff, Emit.pure_eq_ok_iff] at h
      obtain ⟨cb, k, hcb, ca, k', hca, rfl, rfl⟩ := h
      exact ((iha hca).level (by decide)).operate ((ihb hcb).level (by decide))
        (Snippet.moves_scale op)
  | neg _ x ih =>
      simp only [code, Emit.bind_eq_ok_iff, Emit.pure_eq_ok_iff] at h
      obtain ⟨cx, k, hcx, rfl, rfl⟩ := h
      exact ((ih hcx).level (by decide)).append (.still (fun _ => rfl) rfl) (by omega)
  | deref _ x ih =>
      simp only [code, Emit.bind_eq_ok_iff, Emit.pure_eq_ok_iff] at h
      obtain ⟨cx, k, hcx, rfl, rfl⟩ := h
      exact ((ih hcx).level (by decide)).append (Inst.moves_movq rfl) (by omega)
  | addrOf _ x ih =>
      simp only [code] at h
      split at h
      · exact absurd h Emit.missing_ne_ok
      · exact (ih h).level (by decide)
  | var _ x =>
      simp only [code, Emit.bind_eq_ok_iff, Emit.pure_eq_ok_iff] at h
      obtain ⟨d, _, -, load, _, hload, rfl, rfl⟩ := h
      obtain ⟨src, _, -, hsrc⟩ := Decl.load_eq_ok hload
      exact Inst.moves_rax hsrc
  | call _ x args ih =>
      simp only [code, Emit.bind_eq_ok_iff, Emit.pure_eq_ok_iff, Emit.checked_eq_ok_iff] at h
      obtain ⟨d, _, -, pushes, _, hpushes, size, _, ⟨hsize, rfl⟩, rfl, rfl⟩ := h
      have hcall := (ih hpushes).append (Snippet.moves_call d.name) (by omega)
      have hdrop : Moves (8 * args.count) (-(8 * args.count))
          (if args.count = 0 then [] else [.inst (.addq (.imm size) .rsp)]) := by
        rw [Signed.mul_eq_ok hsize]
        split
        next hcount =>
          rw [hcount]
          exact .nil
        next => exact .drop
      have hmoves := hcall.append hdrop (by omega)
      rwa [Int.add_zero, Int.add_right_neg] at hmoves
  | num _ value =>
      obtain ⟨rfl, rfl⟩ := Emit.pure_eq_ok_iff.mp h
      exact Inst.moves_movq rfl
  | read _ =>
      obtain ⟨rfl, rfl⟩ := Emit.pure_eq_ok_iff.mp h
      exact Snippet.moves_readInt
  | nil =>
      obtain ⟨rfl, rfl⟩ := Emit.pure_eq_ok_iff.mp h
      exact .nil
  | str _ text =>
      simp only [code, Emit.bind_eq_ok_iff, Emit.pure_eq_ok_iff] at h
      obtain ⟨label, _, -, rfl, rfl⟩ := h
      exact Inst.moves_rax (.inr rfl)
  | cons arg rest iharg ihrest =>
      simp only [code, Emit.bind_eq_ok_iff, Emit.pure_eq_ok_iff] at h
      obtain ⟨others, k, hothers, first, k', hfirst, rfl, rfl⟩ := h
      have hfirst := (iharg hfirst).level (by decide)
      have hmoves := ((ihrest hothers).append hfirst (by omega)).append Moves.pushValue
        (by omega)
      have hcount : (8 * rest.count + 0 + 8 : Int) = 8 * (cons arg rest).count := by
        rw [count]
        omega
      rwa [hcount] at hmoves

theorem Snippet.moves_print (format : String) : Moves 0 0 (Snippet.print format) := by
  have hformat :
      Moves 0 0 [.inst (.leaq (.rip format) (.reg .rdi)), .inst (.movl (.imm 0) .eax)] := by
    apply Moves.of_plain <;> simp
    omega
  exact hformat.append (moves_library _) (by omega)

theorem Ty.moves_print {t : Ty} {n n' : Nat} {c : Code} (h : t.print n = .ok c n') :
    Moves 0 0 c := by
  unfold print at h
  split at h
  · obtain ⟨rfl, -⟩ := Emit.pure_eq_ok_iff.mp h
    exact (Moves.still (fun _ => rfl) rfl).append (Snippet.moves_print _) (by omega)
  · obtain ⟨rfl, -⟩ := Emit.pure_eq_ok_iff.mp h
    exact (Inst.moves_movq rfl).append (Snippet.moves_print _) (by omega)
  · exact absurd h Emit.missing_ne_ok

namespace Code

variable {whole whole' : Prop} {a b c : Code}

/-- Code that ends at the height at which it starts or leaves the function. It keeps to its
floor under a condition, which is that blocks reserve whole words. -/
structure Level (whole : Prop) (c : Code) : Prop where
  regular : Regular True c
  lift : c.lift = 0
  above : whole → ∀ floor h, floor ≤ h → 8 ∣ h → StaysAbove floor h c

namespace Level

theorem append (ha : Level whole a) (hb : Level whole b) : Level whole (a ++ b) where
  regular := ha.regular.append hb.regular
  lift := by rw [lift_append, ha.lift, hb.lift, Int.add_zero]
  above hwhole floor h hfloor hdvd := by
    refine (ha.above hwhole floor h hfloor hdvd).append ?_
    rw [ha.lift, Int.add_zero]
    exact hb.above hwhole floor h hfloor hdvd

theorem of_plain (h : ∀ line ∈ c, line.Plain ∧ line.lift = 0) : Level whole c := by
  induction c with
  | nil => exact ⟨.nil, rfl, fun _ _ _ hfloor hdvd => ⟨hfloor, hdvd⟩⟩
  | cons line rest ih =>
      rw [List.forall_mem_cons] at h
      obtain ⟨⟨hplain, hlift⟩, hrest⟩ := h
      have hrest := ih hrest
      refine ⟨.line hplain hrest.regular, by rw [lift_cons, hlift, hrest.lift, Int.add_zero], ?_⟩
      intro hwhole floor h hfloor hdvd
      rw [staysAbove_cons, hlift, Int.add_zero]
      exact ⟨⟨hfloor, hdvd⟩, hrest.above hwhole floor h hfloor hdvd⟩

end Level

/-- Code of a statement: its jumps stay in it, too. -/
structure Balanced (whole : Prop) (c : Code) : Prop extends Level whole c where
  closed : ∀ h, Closed h c

theorem Moves.balanced (h : Moves 0 0 c) : Balanced whole c where
  regular := h.regular.mono False.elim
  lift := h.lift
  closed := h.closed
  above _ floor k hfloor hdvd := h.above floor k (by omega) hdvd

namespace Balanced

theorem mono (h : Balanced whole c) (himp : whole' → whole) : Balanced whole' c :=
  { h with above := fun hwhole => h.above (himp hwhole) }

theorem nil : Balanced whole [] := Moves.nil.balanced

theorem append (ha : Balanced whole a) (hb : Balanced whole b) : Balanced whole (a ++ b) where
  toLevel := ha.toLevel.append hb.toLevel
  closed h := (ha.closed h).append (hb.closed _)

theorem epilogue : Balanced whole Snippet.epilogue where
  regular := .epilogue trivial .nil
  lift := by simp [Snippet.epilogue, Operand.rsp]
  closed h := by simp [Closed, Snippet.epilogue]
  above _ floor h hfloor hdvd := by simp [Snippet.epilogue, Operand.rsp, hfloor, hdvd]

theorem reserving {bytes : Nat} (hbytes : whole → 8 ∣ bytes ∧ bytes < 0x4000_0000_0000_0000)
    (h : Balanced whole c) : Balanced whole (Snippet.reserving bytes c) := by
  unfold Snippet.reserving
  split
  · exact h
  have hreserve : Regular True [.inst (.subq (.imm (Word.toSigned bytes)) .rsp)] :=
    .of_plain (by simp [Operand.rsp])
  have hrelease : Regular True [.inst (.addq (.imm (Word.toSigned bytes)) .rsp)] :=
    .of_plain (by simp [Operand.rsp, Int.sub_eq_add_neg])
  refine ⟨⟨(hreserve.append h.regular).append hrelease, ?_, ?_⟩, fun k => ?_⟩
  · simp only [lift_append, lift_cons, lift_nil, h.lift, Line.lift, Inst.lift, Operand.rsp, if_true,
      Int.add_zero]
    exact Int.add_right_neg _
  · intro hwhole floor k hfloor hdvd
    obtain ⟨hdvd', hsmall⟩ := hbytes hwhole
    rw [Word.toSigned_of_lt (by unfold Word.bound; omega)]
    have hinner := h.above hwhole floor (k + bytes) (by omega) (by omega)
    have houter : StaysAbove floor k [.inst (.subq (.imm bytes) .rsp)] := by
      simp only [staysAbove_cons, staysAbove_nil, Line.lift, Inst.lift, Operand.rsp, if_true]
      omega
    refine (houter.append (by simpa [Operand.rsp] using hinner)).append ?_
    simp only [lift_append, lift_cons, lift_nil, h.lift, staysAbove_cons, staysAbove_nil, Line.lift,
      Inst.lift, Operand.rsp, if_true]
    omega
  · simpa [Closed, Operand.rsp] using h.closed (k + Word.toSigned bytes)

/-- A test that jumps to one of two branches. -/
theorem choice (hc : Balanced whole c) (ha : Balanced whole a) (hb : Balanced whole b)
    (start other stop : String) :
    Balanced whole ([.label start] ++ c ++ Snippet.jumpIfZero other ++ a ++
      [.inst (.jmp stop), .label other] ++ b ++ [.label stop]) where
  toLevel := by
    have hlabel (name : String) : Level whole [.label name] := .of_plain (by simp)
    have htest : Level whole (Snippet.jumpIfZero other) := .of_plain (by simp [Snippet.jumpIfZero])
    have hover : Level whole [.inst (.jmp stop), .label other] := .of_plain (by simp)
    have hthen := (((hlabel start).append hc.toLevel).append htest).append ha.toLevel
    exact ((hthen.append hover).append hb.toLevel).append (hlabel stop)
  closed h := by
    intro place hplace
    have hcond := @hc.closed h place
    have hthen := @ha.closed h place
    have helse := @hb.closed h place
    simp only [named_append, named_cons, named_nil, lift_append, lift_cons, lift_nil, hc.lift,
      ha.lift, hb.lift, Snippet.jumpIfZero, Line.lift, Inst.lift, Line.label?, Line.target?,
      Int.add_zero, List.mem_append, Option.map_some, Option.map_none] at hplace ⊢
    grind

/-- A test that jumps out of a loop. -/
theorem loop (hc : Balanced whole c) (ha : Balanced whole a) (start stop : String) :
    Balanced whole ([.label start] ++ c ++ Snippet.jumpIfZero stop ++ a ++
      [.inst (.jmp start), .label stop]) where
  toLevel := by
    have hlabel : Level whole [.label start] := .of_plain (by simp)
    have htest : Level whole (Snippet.jumpIfZero stop) := .of_plain (by simp [Snippet.jumpIfZero])
    have hback : Level whole [.inst (.jmp start), .label stop] := .of_plain (by simp)
    exact (((hlabel.append hc.toLevel).append htest).append ha.toLevel).append hback
  closed h := by
    intro place hplace
    have hcond := @hc.closed h place
    have hbody := @ha.closed h place
    simp only [named_append, named_cons, named_nil, lift_append, lift_cons, lift_nil, hc.lift,
      ha.lift, Snippet.jumpIfZero, Line.lift, Inst.lift, Line.label?, Line.target?,
      Int.add_zero, List.mem_append, Option.map_some, Option.map_none] at hplace ⊢
    grind

end Balanced

end Code

open Code (Balanced)

/-- Whether the blocks of a statement reserve whole words, and not too many. -/
def Clause.WholeSpans {f : Form} (x : Clause f) : Prop :=
  ∀ span ∈ x.spans, 8 ∣ span ∧ span < 0x4000_0000_0000_0000

theorem Clause.WholeSpans.mono {f g : Form} {x : Clause f} {y : Clause g} (h : x.WholeSpans)
    (hsub : y.spans ⊆ x.spans) : y.WholeSpans :=
  fun span hspan => h span (hsub hspan)

/-- The code of a statement ends where it starts, and its jumps stay in it. -/
theorem Clause.balanced_code {f : Form} {cx : CodeEnv} {x : Clause f} {n n' : Nat} {c : Code}
    (h : x.code cx n = .ok c n') : Balanced x.WholeSpans c := by
  induction x generalizing n n' c with
  | eval _ e =>
      cases e with
      | none =>
          obtain ⟨rfl, rfl⟩ := Emit.pure_eq_ok_iff.mp h
          exact .nil
      | some e => exact ((Node.moves_code h).level (by decide)).balanced
  | braces _ b ih | present s ih => exact ih h
  | ifElse _ cond t e iht ihe =>
      simp only [code, Emit.bind_eq_ok_iff, Emit.pure_eq_ok_iff] at h
      obtain ⟨start, _, -, other, _, -, stop, _, -, cc, k, hcc, ct, k', hct, ce, k'', hce, rfl,
        -⟩ := h
      have hcond := (Node.moves_code hcc).level (by decide)
      apply hcond.balanced.choice
      · exact (iht hct).mono fun h => h.mono (List.subset_append_left _ _)
      · exact (ihe hce).mono fun h => h.mono (List.subset_append_right _ _)
  | loop _ cond s ih =>
      simp only [code, Emit.bind_eq_ok_iff, Emit.pure_eq_ok_iff] at h
      obtain ⟨start, _, -, stop, _, -, cc, k, hcc, cs, k', hcs, rfl, -⟩ := h
      have hcond := (Node.moves_code hcc).level (by decide)
      exact hcond.balanced.loop (ih hcs) start stop
  | ret _ e =>
      cases e with
      | none =>
          obtain ⟨rfl, rfl⟩ := Emit.pure_eq_ok_iff.mp h
          exact .epilogue
      | some e =>
          simp only [code, Emit.bind_eq_ok_iff, Emit.pure_eq_ok_iff] at h
          obtain ⟨value, k, hvalue, rfl, rfl⟩ := h
          exact ((Node.moves_code hvalue).level (by decide)).balanced.append .epilogue
  | write _ e =>
      cases e with
      | none =>
          obtain ⟨rfl, rfl⟩ := Emit.pure_eq_ok_iff.mp h
          exact (Snippet.moves_print _).balanced
      | some e =>
          simp only [code, Emit.bind_eq_ok_iff, Emit.pure_eq_ok_iff] at h
          obtain ⟨print, _, hprint, value, k, hvalue, rfl, rfl⟩ := h
          exact ((Node.moves_code hvalue).level (by decide)).balanced.append
            (Ty.moves_print hprint).balanced
  | absent | nil =>
      obtain ⟨rfl, rfl⟩ := Emit.pure_eq_ok_iff.mp h
      exact .nil
  | cons s rest ihs ihrest =>
      simp only [code, Emit.bind_eq_ok_iff, Emit.pure_eq_ok_iff] at h
      obtain ⟨first, k, hfirst, others, k', hothers, rfl, rfl⟩ := h
      apply Balanced.append
      · exact (ihs hfirst).mono fun h => h.mono (List.subset_append_left _ _)
      · exact (ihrest hothers).mono fun h => h.mono (List.subset_append_right _ _)
  | block _ own stmts _ span ih =>
      simp only [code, Emit.bind_eq_ok_iff, Emit.pure_eq_ok_iff] at h
      obtain ⟨body, k, hbody, rfl, rfl⟩ := h
      apply Balanced.reserving
      · exact fun h => h span List.mem_cons_self
      · exact (ih hbody).mono fun h => h.mono (List.subset_cons_self _ _)

end Backend
