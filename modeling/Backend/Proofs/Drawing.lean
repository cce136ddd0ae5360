import Backend.Proofs.References
import Backend.Proofs.StackPicture

/-! # The pictures of generated code

The code of an expression ends with the picture it starts with, and that of an argument list
with one more word for each argument. Statements keep the picture too, and a function starts
with an empty stack and returns with an empty stack.
-/

namespace Backend

open Picture

/-! ## Snippets -/

namespace Draws

variable {o : Outline} {marks : Marked} {k line : Nat} {σ : Picture}

theorem still {x : Inst} (hx : x.quiet = true) (hσ : σ.Calm) : Draws o marks k (.inst x) σ σ :=
  .quiet hx (fun _ => hσ.still) hσ.based

theorem dropOperand (hσ : σ.Calm) :
    Draws o marks k (.inst Snippet.dropOperand) (.value line :: σ) σ :=
  .drop rfl (by simp) (by simp) hσ

end Draws

namespace Snippet

variable {o : Outline} {k line : Nat} {σ : Picture}

theorem drawn_combine (op : AddOp) (hσ : σ.Calm) :
    Drawn o k (.value line :: σ) (combine op) σ := by
  cases op with
  | add => exact .cons (fun _ => .still rfl (hσ.value _)) (.line fun _ => .dropOperand hσ)
  | sub => exact .cons (fun _ => .still rfl (hσ.value _)) (.line fun _ => .dropOperand hσ)

theorem drawn_divide (hσ : σ.Calm) : Drawn o k (.value line :: σ) scale.divide σ :=
  .cons (fun _ => .pop rfl hσ) <| .cons (fun _ => .still rfl hσ) <|
    .cons (fun _ => .still rfl hσ) <| .line fun _ => .still rfl hσ

theorem drawn_scale (op : MulOp) (hσ : σ.Calm) : Drawn o k (.value line :: σ) (scale op) σ := by
  cases op with
  | mul => exact .cons (fun _ => .still rfl (hσ.value _)) (.line fun _ => .dropOperand hσ)
  | div => exact drawn_divide hσ
  | mod => exact (drawn_divide hσ).append (.line fun _ => .still rfl hσ)

theorem drawn_index (hσ : σ.Calm) : Drawn o k (.value line :: σ) index σ :=
  .cons (fun _ => .still rfl (hσ.value _)) <| .cons (fun _ => .still rfl (hσ.value _)) <|
    .cons (fun _ => .pop rfl hσ) <| .line fun _ => .still rfl hσ

/-- Take a value from the stack and store it. -/
theorem drawn_storePopped (hσ : σ.Calm) :
    Drawn o k (.value line :: σ) [.inst (.popq .rax), .inst storeAtRsi] σ :=
  .cons (fun _ => .pop rfl hσ) (.line fun _ => .store rfl hσ)

/-- Both labels stand where the operand is still on the stack. -/
theorem drawn_compare (cond : Cond) (other stop : String) (hσ : σ.Calm) :
    Drawn o k (.value line :: σ) (compare cond other stop) σ := by
  refine ⟨(compare cond other stop).map ((.value line :: σ), ·), rfl, fun marks hmarks => ?_⟩
  have hlabel {name : String} (h : .label name ∈ compare cond other stop) :
      (.value line :: σ, .label name) ∈ marks := hmarks (List.mem_map_of_mem h)
  exact .cons (.still rfl (hσ.value _)) <|
    .cons (.branch (hlabel (by simp [compare])) (hσ.value _)) <|
    .cons (.still rfl (hσ.value _)) <|
    .cons (.jump (hlabel (by simp [compare])) (hσ.value _)) <|
    .cons .label <| .cons (.still rfl (hσ.value _)) <| .cons .label <|
    .cons (.dropOperand hσ) .nil

theorem drawn_print (format : String) (hframe : o.frame ≤ σ.bytes) (hσ : σ.Calm) :
    Drawn o k σ (print format) σ :=
  .cons (fun _ => .still rfl hσ) <| .cons (fun _ => .still rfl hσ) <|
    .cons (fun _ => .link hframe hσ.based) <| .cons (fun _ => .copy hframe) <|
    .cons (fun _ => .align) <| .cons (fun _ => .print hσ) <| .line fun _ => .unalign hσ

theorem drawn_readInt (hframe : o.frame ≤ σ.bytes) (hσ : σ.Calm) : Drawn o k σ readInt σ := by
  have htarget : o.frame ≤ Picture.bytes (.target :: σ) := Nat.le_add_left_of_le hframe
  have htake {marks : Marked} :
      Draws o marks k (.inst (.subq (.imm 8) .rsp)) σ (.room 8 :: σ) :=
    .take rfl (by decide) hσ.based
  exact .cons (fun _ => htake) <| .cons (fun _ => .aim hσ.still) <|
    .cons (fun _ => .quiet rfl (fun h => absurd h (by decide)) (by simp)) <|
    .cons (fun _ => .quiet rfl (fun h => absurd h (by decide)) (by simp)) <|
    .cons (fun _ => .link htarget (by simp)) <| .cons (fun _ => .copy htarget) <|
    .cons (fun _ => .align) <| .cons (fun _ => .scan hσ.still) <|
    .cons (fun _ => .unalign (hσ.room _)) <| .cons (fun _ => .still rfl (hσ.room _)) <|
    .line fun _ => .drop rfl (by simp) (by simp) hσ

end Snippet

/-! ## Expressions -/

theorem Signed.inRange_of_mul {a b c : Int} (h : mul a b = .ok c) : InRange (a * b) := by
  unfold mul at h
  split at h
  · assumption
  · cases h

section Expressions

variable {o : Outline}

/-- A right operand that is kept on the stack while the left one is computed. -/
theorem Drawn.operate {a b c : Code} {σ : Picture} {k : Nat} (hframe : o.frame ≤ σ.bytes)
    (hσ : σ.Calm)
    (hb : Drawn o k σ b σ)
    (ha : Drawn o (k + (b ++ [Line.inst Snippet.pushValue]).length) (.value (k + b.length) :: σ) a
      (.value (k + b.length) :: σ))
    (hc : Drawn o (k + (b ++ [Line.inst Snippet.pushValue] ++ a).length)
      (.value (k + b.length) :: σ) c σ) :
    Drawn o k σ (b ++ [.inst Snippet.pushValue] ++ a ++ c) σ :=
  ((hb.append (.line fun _ => .push hframe hσ.based)).append ha).append hc

theorem Inst.drawn_rax {x : Inst} {src : Operand} (h : x = .movq src .rax ∨ x = .leaq src .rax)
    {k : Nat} {σ : Picture} (hσ : σ.Calm) : Drawn o k σ [.inst x] σ := by
  rcases h with rfl | rfl <;> exact .line fun _ => .still rfl hσ

/-- An index is computed while the address of the array is on the stack. -/
theorem CodeEnv.drawn_element {x : Ident} {index : Emit Code} {n n' : Nat} {c : Code} {k : Nat}
    {σ : Picture} (h : o.cx.element x index n = .ok c n') (hheld : o.machine.Holds k c)
    (hframe : o.frame ≤ σ.bytes) (hσ : σ.Calm)
    (hindex : ∀ {n c n' k σ}, index n = .ok c n' → o.machine.Holds k c → o.frame ≤ bytes σ →
      Calm σ → Drawn o k σ c σ) : Drawn o k σ c σ := by
  simp only [element, Emit.bind_eq_ok_iff, Emit.pure_eq_ok_iff] at h
  obtain ⟨d, _, -, base, _, hbase, ci, _, hci, rfl, -⟩ := h
  obtain ⟨src, _, -, hsrc⟩ := Decl.arrayBase_eq_ok hbase
  have hbefore : Drawn o k σ [.inst base, .inst Snippet.pushValue] (.value (k + 1) :: σ) :=
    (Inst.drawn_rax hsrc hσ).append (.line fun _ => .push hframe hσ.based)
  refine (hbefore.append (hindex hci ?_ ?_ (hσ.value _))).append (Snippet.drawn_index hσ)
  · exact hheld.left.right
  · exact Nat.le_add_left_of_le hframe

/-- The words that a call leaves behind are dropped, if there are any. -/
theorem Drawn.release {k words : Nat} {σ : Picture} (hσ : σ.Calm) :
    Drawn o k (reserve (8 * words) σ)
      (if words = 0 then [] else [.inst (.addq (.imm (8 * words)) .rsp)]) σ := by
  by_cases hwords : words = 0
  · rw [hwords]
    exact .nil
  · rw [if_neg hwords, reserve, if_neg (by omega)]
    refine .line fun _ => .drop ?_ (by simp) (by simp) hσ
    rw [Chunk.bytes, ← BitVec.ofInt_natCast, Int.natCast_mul]
    rfl

theorem CallSite.drawn {x : Ident} {args : Node .args} {k : Nat} {pushes : Code} {ends : List Nat}
    {symbol : String} (h : CallSite o.machine o.cx x args k pushes ends symbol)
    (hcall : (x, args) ∈ o.calls) {σ : Picture} (hframe : o.frame ≤ σ.bytes) (hσ : σ.Calm) :
    Drawn o (k + pushes.length) (pushed (ends.map (k + ·)) σ) (Snippet.call symbol)
      (reserve (8 * ends.length) σ) := by
  refine .cons (fun _ => .keep ?_ (hσ.pushed _)) <|
    .cons (fun _ => .call hcall h rfl hframe hσ) <| .line fun _ => .restore (hσ.reserve _)
  rw [bytes_pushed]
  omega

/-- Code of a node from a line on, which leaves on the stack what the node pushes. -/
def Node.Pushes {l : Layer} (o : Outline) (x : Node l) (k : Nat) (σ : Picture) (c : Code) : Prop :=
  ∃ ends, x.EndsAt o.cx c ends ∧ Drawn o k σ c (pushed (ends.map (k + ·)) σ)

theorem Node.Pushes.level {l : Layer} {x : Node l} {k : Nat} {σ : Picture} {c : Code}
    (h : x.Pushes o k σ c) (hl : l ≠ .args) : Drawn o k σ c σ := by
  obtain ⟨ends, hends, hdrawn⟩ := h
  rw [hends.eq_nil hl] at hdrawn
  exact hdrawn

/-- Only an argument list leaves something on the stack. -/
theorem Node.drawn_code {l : Layer} {x : Node l} {access : Access} {n n' : Nat} {c : Code}
    (h : x.code o.cx access n = .ok c n') {k : Nat} (hheld : o.machine.Holds k c)
    (hcalls : x.calls ⊆ o.calls) {σ : Picture} (hframe : o.frame ≤ σ.bytes) (hσ : σ.Calm) :
    x.Pushes o k σ c := by
  induction x generalizing access n n' c k σ with
  | comp m x ih | sum m x ih | term m x ih | unary m x ih | factor m x ih | paren m x ih =>
      exact ⟨[], rfl, (ih h hheld hcalls hframe hσ).level (by decide)⟩
  | assign m target value iht ihv =>
      simp only [calls, List.append_subset] at hcalls
      simp only [code, Emit.bind_eq_ok_iff, Emit.pure_eq_ok_iff] at h
      obtain ⟨cv, _, hcv, ct, _, hct, rfl, rfl⟩ := h
      have hvalue := ihv hcv hheld.left hcalls.2 hframe hσ
      have htarget := iht hct hheld.right hcalls.1 hframe hσ
      exact ⟨[], rfl, (hvalue.level (by decide)).append (htarget.level (by decide))⟩
  | setVar m x =>
      simp only [code, Emit.bind_eq_ok_iff, Emit.pure_eq_ok_iff] at h
      obtain ⟨d, _, -, cell, _, hcell, rfl, rfl⟩ := h
      have hdst : cell.isCell = true := by
        rcases Decl.cell_eq_ok hcell with ⟨_, rfl⟩ | ⟨-, rfl⟩ <;> rfl
      exact ⟨[], rfl, .line fun _ => .store hdst hσ⟩
  | setDeref m x =>
      simp only [code, Emit.bind_eq_ok_iff, Emit.pure_eq_ok_iff] at h
      obtain ⟨d, _, -, cell, _, -, rfl, rfl⟩ := h
      exact ⟨[], rfl, .cons (fun _ => .push hframe hσ.based) <|
        .cons (fun _ => .still rfl (hσ.value _)) (Snippet.drawn_storePopped hσ)⟩
  | setElem m x index ih =>
      simp only [code, Emit.bind_eq_ok_iff, Emit.pure_eq_ok_iff] at h
      obtain ⟨ce, _, hce, rfl, rfl⟩ := h
      have helement := CodeEnv.drawn_element hce hheld.left.right
        (Nat.le_add_left_of_le hframe) (hσ.value k)
        fun hci hheld hframe hσ => (ih hci hheld hcalls hframe hσ).level (by decide)
      have hpush : Drawn o k σ [.inst Snippet.pushValue] (.value k :: σ) :=
        .line fun _ => .push hframe hσ.based
      exact ⟨[], rfl, (hpush.append helement).append (Snippet.drawn_storePopped hσ)⟩
  | elem m x index ih =>
      simp only [code, Emit.bind_eq_ok_iff, Emit.pure_eq_ok_iff] at h
      obtain ⟨ce, _, hce, rfl, rfl⟩ := h
      have helement := CodeEnv.drawn_element hce hheld.left hframe hσ
        fun hci hheld hframe hσ => (ih hci hheld hcalls hframe hσ).level (by decide)
      refine ⟨[], rfl, helement.append (.line fun _ => .still ?_ hσ)⟩
      cases access <;> rfl
  | rel m a op b iha ihb =>
      simp only [calls, List.append_subset] at hcalls
      simp only [code, Emit.bind_eq_ok_iff, Emit.pure_eq_ok_iff] at h
      obtain ⟨other, _, -, stop, _, -, cb, _, hcb, ca, _, hca, rfl, rfl⟩ := h
      have hb := ihb hcb hheld.left.left.left hcalls.2 hframe hσ
      have ha := iha hca hheld.left.right hcalls.1 (Nat.le_add_left_of_le hframe)
        (hσ.value (k + cb.length))
      exact ⟨[], rfl, .operate hframe hσ (hb.level (by decide)) (ha.level (by decide))
        (Snippet.drawn_compare _ _ _ hσ)⟩
  | add m a op b iha ihb =>
      simp only [calls, List.append_subset] at hcalls
      simp only [code, Emit.bind_eq_ok_iff, Emit.pure_eq_ok_iff] at h
      obtain ⟨cb, _, hcb, ca, _, hca, rfl, rfl⟩ := h
      have hb := ihb hcb hheld.left.left.left hcalls.2 hframe hσ
      have ha := iha hca hheld.left.right hcalls.1 (Nat.le_add_left_of_le hframe)
        (hσ.value (k + cb.length))
      exact ⟨[], rfl, .operate hframe hσ (hb.level (by decide)) (ha.level (by decide))
        (Snippet.drawn_combine op hσ)⟩
  | mul m a op b iha ihb =>
      simp only [calls, List.append_subset] at hcalls
      simp only [code, Emit.bind_eq_ok_iff, Emit.pure_eq_ok_iff] at h
      obtain ⟨cb, _, hcb, ca, _, hca, rfl, rfl⟩ := h
      have hb := ihb hcb hheld.left.left.left hcalls.2 hframe hσ
      have ha := iha hca hheld.left.right hcalls.1 (Nat.le_add_left_of_le hframe)
        (hσ.value (k + cb.length))
      exact ⟨[], rfl, .operate hframe hσ (hb.level (by decide)) (ha.level (by decide))
        (Snippet.drawn_scale op hσ)⟩
  | neg m x ih | deref m x ih =>
      simp only [code, Emit.bind_eq_ok_iff, Emit.pure_eq_ok_iff] at h
      obtain ⟨operand, _, hoperand, rfl, rfl⟩ := h
      have hdrawn := ih hoperand hheld.left hcalls hframe hσ
      exact ⟨[], rfl, (hdrawn.level (by decide)).append (.line fun _ => .still rfl hσ)⟩
  | addrOf m x ih =>
      simp only [code] at h
      split at h
      · exact absurd h Emit.missing_ne_ok
      · exact ⟨[], rfl, (ih h hheld hcalls hframe hσ).level (by decide)⟩
  | var m x =>
      simp only [code, Emit.bind_eq_ok_iff, Emit.pure_eq_ok_iff] at h
      obtain ⟨d, _, -, load, _, hload, rfl, rfl⟩ := h
      obtain ⟨src, _, -, hsrc⟩ := Decl.load_eq_ok hload
      exact ⟨[], rfl, Inst.drawn_rax hsrc hσ⟩
  | call m x args ih =>
      simp only [calls, List.cons_subset] at hcalls
      simp only [code, Emit.bind_eq_ok_iff, Emit.pure_eq_ok_iff, Emit.checked_eq_ok_iff] at h
      obtain ⟨d, _, hd, pushes, _, hpushes, size, _, ⟨hsize, rfl⟩, rfl, rfl⟩ := h
      obtain ⟨ends, hends, hdrawn⟩ := ih hpushes hheld.left.left hcalls.2 hframe hσ
      obtain ⟨id, hid, hdecl⟩ := CodeEnv.decl_eq_ok hd
      have hfew : args.count < 0x1000_0000_0000_0000 := by
        have hrange := Signed.inRange_of_mul hsize
        unfold Signed.InRange at hrange
        omega
      have hsite : CallSite o.machine o.cx x args k pushes ends d.name :=
        ⟨⟨id, d, hid, hdecl, rfl⟩, hends, hfew, hheld.left⟩
      have hcall := hdrawn.append (hsite.drawn hcalls.1 hframe hσ)
      refine ⟨[], rfl, hcall.append ?_⟩
      rw [Signed.mul_eq_ok hsize, ← hends.length_eq]
      exact .release hσ
  | num m value =>
      obtain ⟨rfl, rfl⟩ := Emit.pure_eq_ok_iff.mp h
      exact ⟨[], rfl, .line fun _ => .still rfl hσ⟩
  | str m text =>
      simp only [code, Emit.bind_eq_ok_iff, Emit.pure_eq_ok_iff] at h
      obtain ⟨label, _, -, rfl, rfl⟩ := h
      exact ⟨[], rfl, .line fun _ => .still rfl hσ⟩
  | read m =>
      obtain ⟨rfl, rfl⟩ := Emit.pure_eq_ok_iff.mp h
      exact ⟨[], rfl, Snippet.drawn_readInt hframe hσ⟩
  | nil =>
      obtain ⟨rfl, rfl⟩ := Emit.pure_eq_ok_iff.mp h
      exact ⟨[], ⟨rfl, rfl⟩, .nil⟩
  | cons arg rest iharg ihrest =>
      simp only [calls, List.append_subset] at hcalls
      simp only [code, Emit.bind_eq_ok_iff, Emit.pure_eq_ok_iff] at h
      obtain ⟨others, _, hothers, first, _, hfirst, rfl, rfl⟩ := h
      obtain ⟨later, hlater, hdrawn⟩ := ihrest hothers hheld.left.left hcalls.2 hframe hσ
      have hle : o.frame ≤ bytes (pushed (later.map (k + ·)) σ) := by
        rw [bytes_pushed]
        omega
      have harg := iharg hfirst hheld.left.right hcalls.1 hle (hσ.pushed _)
      refine ⟨(others.length + first.length) :: later,
        ⟨others, first, _, _, later, hlater, hfirst, rfl, rfl⟩, ?_⟩
      have hpush := (hdrawn.append (harg.level (by decide))).append
        (.line fun _ => .push hle (hσ.pushed _).based)
      rwa [List.length_append] at hpush

theorem Node.drawn_expr {e : Expr} {access : Access} {n n' : Nat} {c : Code}
    (h : e.code o.cx access n = .ok c n') {k : Nat} (hheld : o.machine.Holds k c)
    (hcalls : e.calls ⊆ o.calls) {σ : Picture} (hframe : o.frame ≤ σ.bytes) (hσ : σ.Calm) :
    Drawn o k σ c σ :=
  (drawn_code h hheld hcalls hframe hσ).level (by decide)

end Expressions

/-! ## Statements -/

section Statements

variable {o : Outline}

namespace Drawn

variable {k : Nat} {σ : Picture} {a b c : Code}

/-- A test that jumps to one of two branches. -/
theorem choice (hσ : σ.Calm) (start other stop : String) (hc : Drawn o (k + 1) σ c σ)
    (ha : Drawn o (k + 1 + c.length + 2) σ a σ)
    (hb : Drawn o (k + 1 + c.length + 2 + a.length + 2) σ b σ) :
    Drawn o k σ ([.label start] ++ c ++ Snippet.jumpIfZero other ++ a ++
      [.inst (.jmp stop), .label other] ++ b ++ [.label stop]) σ := by
  obtain ⟨oc, rfl, hoc⟩ := hc
  obtain ⟨oa, rfl, hoa⟩ := ha
  obtain ⟨ob, rfl, hob⟩ := hb
  rw [List.length_map] at hoa hob
  rw [List.length_map] at hob
  refine ⟨(σ, .label start) :: (oc ++ (σ, .inst (.cmpl (.imm 0) .eax)) ::
    (σ, .inst (.j .e other)) :: (oa ++ (σ, .inst (.jmp stop)) :: (σ, .label other) ::
      (ob ++ [(σ, .label stop)]))), by simp [Snippet.jumpIfZero], fun marks hmarks => ?_⟩
  simp only [List.append_subset, List.cons_subset] at hmarks
  obtain ⟨-, hmc, -, -, hma, -, hother, hmb, hstop, -⟩ := hmarks
  exact .cons .label <| (hoc marks hmc).append <| .cons (.still rfl hσ) <|
    .cons (.branch hother hσ) <| (hoa marks hma).append <| .cons (.jump hstop hσ) <|
    .cons .label <| (hob marks hmb).append <| .cons .label .nil

/-- A test that jumps out of a loop. -/
theorem loop (hσ : σ.Calm) (start stop : String) (hc : Drawn o (k + 1) σ c σ)
    (ha : Drawn o (k + 1 + c.length + 2) σ a σ) :
    Drawn o k σ ([.label start] ++ c ++ Snippet.jumpIfZero stop ++ a ++
      [.inst (.jmp start), .label stop]) σ := by
  obtain ⟨oc, rfl, hoc⟩ := hc
  obtain ⟨oa, rfl, hoa⟩ := ha
  rw [List.length_map] at hoa
  refine ⟨(σ, .label start) :: (oc ++ (σ, .inst (.cmpl (.imm 0) .eax)) ::
    (σ, .inst (.j .e stop)) :: (oa ++ [(σ, .inst (.jmp start)), (σ, .label stop)])),
    by simp [Snippet.jumpIfZero], fun marks hmarks => ?_⟩
  simp only [List.append_subset, List.cons_subset] at hmarks
  obtain ⟨hstart, hmc, -, -, hma, -, hstop, -⟩ := hmarks
  exact .cons .label <| (hoc marks hmc).append <| .cons (.still rfl hσ) <|
    .cons (.branch hstop hσ) <| (hoa marks hma).append <| .cons (.jump hstart hσ) <|
    .cons .label .nil

theorem epilogue {σ' : Picture} (hreturns : o.returns) (hσ : σ.Calm)
    (hbare : ∀ line, .value line ∉ σ') : Drawn o k σ Snippet.epilogue σ' :=
  .cons (fun _ => .leave hreturns hσ) (.line fun _ => .ret hreturns hbare)

end Drawn

theorem Quad.ofInt_toSigned (n : Nat) :
    BitVec.ofInt 64 (Word.toSigned n) = BitVec.ofNat 64 (n % Word.bound) := by
  have hword : BitVec.ofInt 64 (Word.toSigned n) = BitVec.ofNat 64 n := by
    rw [← BitVec.ofInt_natCast]
    apply BitVec.eq_of_toInt_eq
    rw [BitVec.toInt_ofInt, BitVec.toInt_ofInt, Word.toSigned, Word.bound, Int.bmod_bmod]
  rw [hword, Word.bound]
  apply BitVec.eq_of_toNat_eq
  rw [BitVec.toNat_ofNat, BitVec.toNat_ofNat, Nat.mod_mod]

/-- A block reserves as many bytes as its span has in a machine word. -/
theorem Drawn.reserving {k bytes : Nat} {σ : Picture} {body : Code} (hσ : σ.Calm)
    (hbody : bytes = 0 → Drawn o k σ body σ)
    (hroom : bytes ≠ 0 → Drawn o (k + 1) (.room (bytes % Word.bound) :: σ) body
      (.room (bytes % Word.bound) :: σ)) : Drawn o k σ (Snippet.reserving bytes body) σ := by
  unfold Snippet.reserving
  split
  next hzero => exact hbody hzero
  next hne =>
    have hlt : bytes % Word.bound < Word.bound := Nat.mod_lt _ (by decide)
    have hsigned := Quad.ofInt_toSigned bytes
    have hafter : Drawn o (k + 1 + body.length) (.room (bytes % Word.bound) :: σ)
        [.inst (.addq (.imm (Word.toSigned bytes)) .rsp)] σ :=
      .line fun _ => .drop hsigned (by simp) (by simp) hσ
    exact .cons (fun _ => .take hsigned hlt hσ.based) ((hroom hne).append hafter)

theorem Ty.drawn_print {t : Ty} {n n' : Nat} {c : Code} (h : t.print n = .ok c n') {k : Nat}
    {σ : Picture} (hframe : o.frame ≤ σ.bytes) (hσ : σ.Calm) : Drawn o k σ c σ := by
  unfold print at h
  split at h
  · obtain ⟨rfl, -⟩ := Emit.pure_eq_ok_iff.mp h
    exact .cons (fun _ => .still rfl hσ) (Snippet.drawn_print _ hframe hσ)
  · obtain ⟨rfl, -⟩ := Emit.pure_eq_ok_iff.mp h
    exact .cons (fun _ => .still rfl hσ) (Snippet.drawn_print _ hframe hσ)
  · exact absurd h Emit.missing_ne_ok

theorem Clause.drawn_code {f : Form} {x : Clause f} {n n' : Nat} {c : Code}
    (h : x.code o.cx n = .ok c n') {k : Nat} (hheld : o.machine.Holds k c)
    (hcalls : x.calls ⊆ o.calls) (hreturns : o.returns) {σ : Picture} (hframe : o.frame ≤ σ.bytes)
    (hσ : σ.Calm) (hbare : ∀ line, .value line ∉ σ) : Drawn o k σ c σ := by
  induction x generalizing n n' c k σ with
  | eval line e =>
      cases e with
      | none =>
          obtain ⟨rfl, rfl⟩ := Emit.pure_eq_ok_iff.mp h
          exact .nil
      | some e =>
          exact Node.drawn_expr h hheld (by simpa [calls, exprs] using hcalls) hframe hσ
  | braces line b ih | present s ih => exact ih h hheld hcalls hframe hσ hbare
  | ifElse line cond t e iht ihe =>
      simp only [calls, exprs, List.flatMap_cons, List.flatMap_append, List.append_subset] at hcalls
      simp only [code, Emit.bind_eq_ok_iff, Emit.pure_eq_ok_iff] at h
      obtain ⟨start, _, -, other, _, -, stop, _, -, cc, _, hcc, ct, _, hct, ce, _, hce, rfl,
        -⟩ := h
      have hheldt := hheld.left.left.left.right
      have hhelde := hheld.left.right
      simp only [List.length_append, ← Nat.add_assoc] at hheldt hhelde
      have hcond := Node.drawn_expr hcc hheld.left.left.left.left.left.right hcalls.1 hframe hσ
      have hthen := iht hct hheldt hcalls.2.1 hframe hσ hbare
      exact .choice hσ start other stop hcond hthen (ihe hce hhelde hcalls.2.2 hframe hσ hbare)
  | loop line cond s ih =>
      simp only [calls, exprs, List.flatMap_cons, List.append_subset] at hcalls
      simp only [code, Emit.bind_eq_ok_iff, Emit.pure_eq_ok_iff] at h
      obtain ⟨start, _, -, stop, _, -, cc, _, hcc, cs, _, hcs, rfl, -⟩ := h
      have hhelds := hheld.left.right
      simp only [List.length_append, ← Nat.add_assoc] at hhelds
      have hcond := Node.drawn_expr hcc hheld.left.left.left.right hcalls.1 hframe hσ
      exact .loop hσ start stop hcond (ih hcs hhelds hcalls.2 hframe hσ hbare)
  | ret line e =>
      cases e with
      | none =>
          obtain ⟨rfl, rfl⟩ := Emit.pure_eq_ok_iff.mp h
          exact .epilogue hreturns hσ hbare
      | some e =>
          simp only [code, Emit.bind_eq_ok_iff, Emit.pure_eq_ok_iff] at h
          obtain ⟨value, _, hvalue, rfl, rfl⟩ := h
          have hdrawn := Node.drawn_expr hvalue hheld.left (by simpa [calls, exprs] using hcalls)
            hframe hσ
          exact hdrawn.append (.epilogue hreturns hσ hbare)
  | write line e =>
      cases e with
      | none =>
          obtain ⟨rfl, rfl⟩ := Emit.pure_eq_ok_iff.mp h
          exact Snippet.drawn_print _ hframe hσ
      | some e =>
          simp only [code, Emit.bind_eq_ok_iff, Emit.pure_eq_ok_iff] at h
          obtain ⟨print, _, hprint, value, _, hvalue, rfl, rfl⟩ := h
          have hdrawn := Node.drawn_expr hvalue hheld.left (by simpa [calls, exprs] using hcalls)
            hframe hσ
          exact hdrawn.append (Ty.drawn_print hprint hframe hσ)
  | absent | nil =>
      obtain ⟨rfl, rfl⟩ := Emit.pure_eq_ok_iff.mp h
      exact .nil
  | cons s rest ihs ihrest =>
      simp only [calls, exprs, List.flatMap_append, List.append_subset] at hcalls
      simp only [code, Emit.bind_eq_ok_iff, Emit.pure_eq_ok_iff] at h
      obtain ⟨first, _, hfirst, others, _, hothers, rfl, rfl⟩ := h
      have hs := ihs hfirst hheld.left hcalls.1 hframe hσ hbare
      exact hs.append (ihrest hothers hheld.right hcalls.2 hframe hσ hbare)
  | block line own stmts size span ih =>
      simp only [code, Emit.bind_eq_ok_iff, Emit.pure_eq_ok_iff] at h
      obtain ⟨body, _, hbody, rfl, rfl⟩ := h
      unfold Snippet.reserving at hheld
      apply Drawn.reserving hσ
      · intro hzero
        rw [if_pos hzero] at hheld
        exact ih hbody hheld hcalls hframe hσ hbare
      · intro hne
        rw [if_neg hne] at hheld
        exact ih hbody hheld.left.right hcalls (Nat.le_add_left_of_le hframe) (hσ.room _)
          (by simpa using hbare)

/-- A function starts where no frame base is set and the stack has nothing of it. Behind its
last return is a picture that no stack fits. -/
theorem Func.drawn_code {f : Func} {n n' : Nat} {c : Code} (h : f.code o.cx n = .ok c n') {k : Nat}
    (hheld : o.machine.Holds k c) (hcalls : f.body.calls ⊆ o.calls) (hreturns : o.returns)
    (hframe : o.frame = f.frameSize) (hsize : f.frameSize < Word.bound) :
    Drawn o k [.unset] c [.room Word.bound] := by
  obtain ⟨d, body, -, hbody, rfl⟩ := code_eq_ok h
  have hcalm : Calm (Picture.reserve f.frameSize []) := Calm.reserve ⟨by simp, by simp⟩ _
  have hbare : ∀ line, .value line ∉ Picture.reserve f.frameSize [] := by
    intro line
    unfold Picture.reserve
    split <;> simp
  have hentry : Drawn o k [.unset] ([.label d.name] ++ f.prologue)
      (Picture.reserve f.frameSize []) := by
    refine .cons (fun _ => .label) <| .cons (fun _ => .enter hreturns) ?_
    unfold Picture.reserve
    split
    · exact .nil
    · refine .line fun _ => .take ?_ hsize (by simp)
      rw [Quad.ofInt_toSigned, Nat.mod_eq_of_lt hsize]
  refine (hentry.append ?_).append (.epilogue hreturns hcalm (by simp))
  apply Clause.drawn_code hbody hheld.left.right hcalls hreturns _ hcalm hbare
  rw [bytes_reserve, hframe]
  exact Nat.le_add_right _ _

end Statements

end Backend
