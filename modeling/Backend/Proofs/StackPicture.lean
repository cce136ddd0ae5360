import Backend.Proofs.Balance

/-! # Pictures of the stack

A picture tells what lies on the stack of a function when control comes to a line: operands
and arguments that earlier lines pushed, reserved bytes, what is kept over a call. The pictures
of generated code can be drawn without running it, one line after the other, and a jump finds
at its target the picture it comes from.
-/

namespace Backend

/-! ## Pictures -/

/-- A piece of the stack. -/
inductive Chunk where
  /-- The word that a line pushed from `%rax`. -/
  | value (line : Nat)
  /-- The frame base, kept over a call. -/
  | base
  /-- The address so many bytes above the word itself. -/
  | link (bytes : Nat)
  /-- Bytes of which nothing is known. -/
  | room (bytes : Nat)
  /-- A word of which it is only known that `%rsi` points to it. -/
  | target
  /-- What aligning the stack took, which is nothing or a word. -/
  | pad
  /-- No bytes, but `%rbx` does not have the frame base. -/
  | unset
deriving DecidableEq, Repr

/-- The least number of bytes. -/
def Chunk.bytes : Chunk → Nat
  | .value _ | .base | .link _ | .target => 8
  | .room bytes => bytes
  | .pad | .unset => 0

/-- What lies on the stack, the top first. -/
abbrev Picture := List Chunk

namespace Picture

def bytes (σ : Picture) : Nat := (σ.map Chunk.bytes).sum

@[simp]
theorem bytes_nil : bytes [] = 0 := rfl

@[simp]
theorem bytes_cons (chunk : Chunk) (σ : Picture) : bytes (chunk :: σ) = chunk.bytes + bytes σ :=
  List.sum_cons

/-- The frame base is in `%rbx`, and it does not matter where `%rsi` points. -/
structure Calm (σ : Picture) : Prop where
  still : .target ∉ σ
  based : σ.head? ≠ some .unset

/-- A picture with bytes reserved on top. -/
def reserve (bytes : Nat) (σ : Picture) : Picture :=
  if bytes = 0 then σ else .room bytes :: σ

/-- Words that some lines pushed, the last one on top. -/
def pushed (lines : List Nat) (σ : Picture) : Picture := lines.map .value ++ σ

variable {σ : Picture}

theorem Calm.value (h : σ.Calm) (line : Nat) : Calm (.value line :: σ) :=
  ⟨by simp [h.still], by simp⟩

theorem Calm.room (h : σ.Calm) (bytes : Nat) : Calm (.room bytes :: σ) :=
  ⟨by simp [h.still], by simp⟩

theorem Calm.reserve (h : σ.Calm) (bytes : Nat) : Calm (reserve bytes σ) := by
  unfold Picture.reserve
  split
  · exact h
  · exact h.room bytes

theorem Calm.pushed (h : σ.Calm) (lines : List Nat) : Calm (pushed lines σ) := by
  induction lines with
  | nil => exact h
  | cons line rest ih => exact ih.value line

theorem bytes_reserve (bytes : Nat) (σ : Picture) :
    (reserve bytes σ).bytes = bytes + σ.bytes := by
  unfold reserve
  split
  next hzero => rw [hzero, Nat.zero_add]
  next => rfl

theorem bytes_pushed (lines : List Nat) (σ : Picture) :
    (pushed lines σ).bytes = 8 * lines.length + σ.bytes := by
  have hwords : lines.map (fun _ => 8) = List.replicate lines.length 8 := List.map_const ..
  rw [pushed, bytes, List.map_append, List.sum_append, List.map_map]
  change (lines.map fun _ => 8).sum + σ.bytes = _
  rw [hwords, List.sum_replicate_nat, Nat.mul_comm]

end Picture

/-! ## Calls in a tree -/

namespace Node

/-- The calls in a node, by the name that is called and the arguments. -/
def calls {l : Layer} : Node l → List (Ident × Node .args)
  | .assign _ t v => t.calls ++ v.calls
  | .comp _ x => x.calls
  | .setElem _ _ i => i.calls
  | .sum _ x => x.calls
  | .rel _ a _ b => a.calls ++ b.calls
  | .term _ x => x.calls
  | .add _ a _ b => a.calls ++ b.calls
  | .unary _ x => x.calls
  | .mul _ a _ b => a.calls ++ b.calls
  | .neg _ x => x.calls
  | .addrOf _ x => x.calls
  | .deref _ x => x.calls
  | .factor _ x => x.calls
  | .paren _ x => x.calls
  | .elem _ _ i => i.calls
  | .call _ x args => (x, args) :: args.calls
  | .cons e es => e.calls ++ es.calls
  | .setVar .. | .setDeref .. | .var .. | .num .. | .str .. | .read .. | .nil => []

/-- Where the codes of arguments end in the code that pushes them: behind the code of an
argument stands the line that pushes its value. Other nodes push nothing. -/
def EndsAt {l : Layer} (cx : CodeEnv) : Node l → Code → List Nat → Prop
  | .cons arg rest, code, ends => ∃ others first n n' later,
      rest.EndsAt cx others later ∧ arg.code cx .value n = .ok first n' ∧
      code = others ++ first ++ [.inst Snippet.pushValue] ∧
      ends = (others.length + first.length) :: later
  | .nil, code, ends => code = [] ∧ ends = []
  | _, _, ends => ends = []

theorem EndsAt.eq_nil {l : Layer} {cx : CodeEnv} {x : Node l} {code : Code} {ends : List Nat}
    (h : x.EndsAt cx code ends) (hl : l ≠ .args) : ends = [] := by
  cases x with
  | nil | cons _ _ => exact absurd rfl hl
  | _ => exact h

theorem EndsAt.length_eq {cx : CodeEnv} :
    ∀ {args : Node .args} {code : Code} {ends : List Nat}, args.EndsAt cx code ends →
      ends.length = args.count
  | .nil, _, _, h => by
      rw [h.2]
      rfl
  | .cons _ _, _, _, h => by
      obtain ⟨_, _, _, _, later, hrest, -, -, rfl⟩ := h
      rw [List.length_cons, hrest.length_eq, count]

end Node

/-- The calls in a statement. -/
def Clause.calls {f : Form} (c : Clause f) : List (Ident × Node .args) :=
  c.exprs.flatMap Node.calls

/-- A call stands in the listing of a machine: from a line on there is the code that pushes the
arguments, and the call of the symbol behind it. Their bytes can be counted in a word. -/
structure CallSite (m : Machine) (cx : CodeEnv) (x : Ident) (args : Node .args) (line : Nat)
    (pushes : Code) (ends : List Nat) (symbol : String) : Prop where
  callee : ∃ id d, x.decl = some id ∧ cx.decls[id]? = some d ∧ d.name = symbol
  arguments : args.EndsAt cx pushes ends
  few : args.count < 0x1000_0000_0000_0000
  held : m.Holds line (pushes ++ Snippet.call symbol)

/-! ## How a line changes the picture -/

/-- Whether writing an operand leaves alone the memory, the stack pointer and the frame base. -/
def Operand.quiet : Operand → Bool
  | .reg .rbx | .reg .rsp | .imm _ | .mem .. | .rip _ => false
  | .reg _ => true

/-- Whether an operand is a cell. -/
def Operand.isCell : Operand → Bool
  | .mem .. | .rip _ => true
  | .reg _ | .imm _ => false

namespace Inst

/-- Whether an instruction goes on with the next line, and leaves alone the memory, the stack
pointer and the frame base. -/
def quiet : Inst → Bool
  | .movq _ dst | .leaq _ dst | .addq _ dst | .subq _ dst | .imulq _ dst | .andq _ dst => dst.quiet
  | .movl .. | .addl .. | .subl .. | .imull .. | .negl _ | .cmpl .. | .cltq | .cqto | .idivl _ =>
      true
  | .pushq _ | .popq _ | .jmp _ | .j .. | .call _ | .ret => false

/-- Whether an instruction writes `%rsi`. -/
def aims : Inst → Bool
  | .movq _ dst | .leaq _ dst | .addq _ dst | .subq _ dst | .imulq _ dst | .andq _ dst | .popq dst
  | .movl _ dst | .addl _ dst | .subl _ dst | .imull _ dst | .negl dst =>
      dst = .reg .rsi ∨ dst = .reg .esi
  | .cmpl .. | .cltq | .cqto | .idivl _ | .pushq _ | .jmp _ | .j .. | .call _ | .ret => false

end Inst

/-- Where code stands: the machine that runs it, what it can refer to, the calls of its
function, the bytes of stack that it may not give back, and whether it may return. -/
structure Outline where
  machine : Machine
  cx : CodeEnv
  calls : List (Ident × Node .args)
  frame : Nat
  returns : Prop

/-- Lines with the picture before each of them. -/
abbrev Marked := List (Picture × Line)

open Picture in
/-- What a line makes of a picture. Jumps need a label with the same picture in the code. -/
inductive Draws (o : Outline) (marks : Marked) (k : Nat) : Line → Picture → Picture → Prop where
  | label {name : String} {σ : Picture} : Draws o marks k (.label name) σ σ
  | quiet {x : Inst} {σ : Picture} : x.quiet = true → (x.aims = true → .target ∉ σ) →
      σ.head? ≠ some .unset → Draws o marks k (.inst x) σ σ
  | store {dst : Operand} {σ : Picture} : dst.isCell = true → σ.Calm →
      Draws o marks k (.inst (.movq .rax dst)) σ σ
  | push {σ : Picture} : o.frame ≤ σ.bytes → σ.head? ≠ some .unset →
      Draws o marks k (.inst Snippet.pushValue) σ (.value k :: σ)
  | pop {dst : Operand} {line : Nat} {σ : Picture} : dst.quiet = true → σ.Calm →
      Draws o marks k (.inst (.popq dst)) (.value line :: σ) σ
  | take {n : Int} {bytes : Nat} {σ : Picture} : BitVec.ofInt 64 n = BitVec.ofNat 64 bytes →
      bytes < Word.bound → σ.head? ≠ some .unset →
      Draws o marks k (.inst (.subq (.imm n) .rsp)) σ (.room bytes :: σ)
  | drop {n : Int} {chunk : Chunk} {σ : Picture} :
      BitVec.ofInt 64 n = BitVec.ofNat 64 chunk.bytes → chunk ≠ .pad → chunk ≠ .unset → σ.Calm →
      Draws o marks k (.inst (.addq (.imm n) .rsp)) (chunk :: σ) σ
  | keep {σ : Picture} : o.frame ≤ σ.bytes → σ.Calm →
      Draws o marks k (.inst (.pushq (.reg .rbx))) σ (.base :: σ)
  | call {x : Ident} {args : Node .args} {line : Nat} {pushes : Code} {ends : List Nat}
      {symbol : String} {σ : Picture} : (x, args) ∈ o.calls →
      CallSite o.machine o.cx x args line pushes ends symbol → k = line + pushes.length + 1 →
      o.frame ≤ σ.bytes → σ.Calm →
      Draws o marks k (.inst (.call symbol)) (.base :: pushed (ends.map (line + ·)) σ)
        (.unset :: .base :: reserve (8 * ends.length) σ)
  | restore {σ : Picture} : σ.Calm →
      Draws o marks k (.inst (.popq (.reg .rbx))) (.unset :: .base :: σ) σ
  | link {σ : Picture} : o.frame ≤ σ.bytes → σ.head? ≠ some .unset →
      Draws o marks k (.inst (.pushq .rsp)) σ (.link 8 :: σ)
  | copy {σ : Picture} : o.frame ≤ σ.bytes →
      Draws o marks k (.inst (.pushq .top)) (.link 8 :: σ) (.link 16 :: .link 8 :: σ)
  | align {σ : Picture} :
      Draws o marks k (.inst (.andq (.imm (-16)) .rsp)) (.link 16 :: .link 8 :: σ)
        (.pad :: .link 16 :: .link 8 :: σ)
  | print {σ : Picture} : σ.Calm →
      Draws o marks k (.inst (.call "printf@PLT")) (.pad :: .link 16 :: .link 8 :: σ)
        (.pad :: .link 16 :: .link 8 :: σ)
  | scan {σ : Picture} : .target ∉ σ →
      Draws o marks k (.inst (.call "scanf@PLT")) (.pad :: .link 16 :: .link 8 :: .target :: σ)
        (.pad :: .link 16 :: .link 8 :: .room 8 :: σ)
  | unalign {σ : Picture} : σ.Calm →
      Draws o marks k (.inst (.movq (.mem 8 .rsp) .rsp)) (.pad :: .link 16 :: .link 8 :: σ) σ
  | aim {σ : Picture} : .target ∉ σ →
      Draws o marks k (.inst (.movq .rsp .rsi)) (.room 8 :: σ) (.target :: σ)
  | enter : o.returns → Draws o marks k (.inst (.movq .rsp (.reg .rbx))) [.unset] []
  | leave {σ : Picture} : o.returns → σ.Calm →
      Draws o marks k (.inst (.movq (.reg .rbx) .rsp)) σ []
  /-- Control does not come to the line behind a return, so any picture will do there. -/
  | ret {σ : Picture} : o.returns → (∀ line, .value line ∉ σ) → Draws o marks k (.inst .ret) [] σ
  | jump {name : String} {σ : Picture} : (σ, .label name) ∈ marks → σ.Calm →
      Draws o marks k (.inst (.jmp name)) σ σ
  | branch {cond : Cond} {name : String} {σ : Picture} : (σ, .label name) ∈ marks → σ.Calm →
      Draws o marks k (.inst (.j cond name)) σ σ

/-- Pictures that follow each other from line to line. -/
inductive Walk (o : Outline) (marks : Marked) : Nat → Picture → Marked → Picture → Prop where
  | nil {k : Nat} {σ : Picture} : Walk o marks k σ [] σ
  | cons {k : Nat} {line : Line} {rest : Marked} {σ σ₁ σ' : Picture} :
      Draws o marks k line σ σ₁ → Walk o marks (k + 1) σ₁ rest σ' →
      Walk o marks k σ ((σ, line) :: rest) σ'

namespace Walk

variable {o : Outline} {marks : Marked} {k : Nat} {σ σ₁ σ' : Picture} {a b : Marked}

theorem append (ha : Walk o marks k σ a σ₁) (hb : Walk o marks (k + a.length) σ₁ b σ') :
    Walk o marks k σ (a ++ b) σ' := by
  induction ha with
  | nil => exact hb
  | @cons k line rest σ σ₁ σ₂ hline _ ih =>
      refine .cons hline (ih ?_)
      rwa [List.length_cons, Nat.add_comm rest.length, ← Nat.add_assoc] at hb

theorem split (h : Walk o marks k σ (a ++ b) σ') :
    ∃ σ₁, Walk o marks k σ a σ₁ ∧ Walk o marks (k + a.length) σ₁ b σ' := by
  induction a generalizing k σ with
  | nil => exact ⟨σ, .nil, h⟩
  | cons mark rest ih =>
      cases h with
      | cons hline hrest =>
          obtain ⟨σ₂, ha, hb⟩ := ih hrest
          refine ⟨σ₂, .cons hline ha, ?_⟩
          rwa [List.length_cons, Nat.add_comm rest.length, ← Nat.add_assoc]

/-- The words in the picture of a line were pushed by lines before it. -/
theorem pushed_before (h : Walk o marks k σ a σ') (hσ : ∀ line, .value line ∈ σ → line < k) :
    ∀ line, .value line ∈ σ' → line < k + a.length := by
  induction h with
  | nil => exact hσ
  | @cons k first rest σ σ₁ σ' hline _ ih =>
      have hnext : ∀ line, .value line ∈ σ₁ → line < k + 1 := by
        intro line hmem
        have hold : ∀ line, .value line ∈ σ → line < k + 1 :=
          fun line h => Nat.lt_succ_of_lt (hσ line h)
        cases hline with
        | push =>
            rcases List.mem_cons.mp hmem with heq | hmem
            · cases heq
              exact Nat.lt_succ_self k
            · exact hold line hmem
        | ret _ hnone => exact absurd hmem (hnone line)
        | enter | leave => cases hmem
        | call =>
            apply hold
            simp only [Picture.pushed, Picture.reserve] at hmem ⊢
            split at hmem <;> simp_all
        | _ =>
            apply hold
            simp_all
      intro line hmem
      have hlt := ih hnext line hmem
      rw [List.length_cons]
      omega

end Walk

/-! ## Drawing code -/

/-- Code that leads from one picture to another, its jumps included. -/
def Drawn (o : Outline) (k : Nat) (σ : Picture) (code : Code) (σ' : Picture) : Prop :=
  ∃ own : Marked, own.map Prod.snd = code ∧ ∀ marks, own ⊆ marks → Walk o marks k σ own σ'

namespace Drawn

variable {o : Outline} {k : Nat} {σ σ₁ σ' : Picture} {a b : Code}

theorem nil : Drawn o k σ [] σ := ⟨[], rfl, fun _ _ => .nil⟩

theorem append (ha : Drawn o k σ a σ₁) (hb : Drawn o (k + a.length) σ₁ b σ') :
    Drawn o k σ (a ++ b) σ' := by
  obtain ⟨own, rfl, hown⟩ := ha
  obtain ⟨own', rfl, hown'⟩ := hb
  refine ⟨own ++ own', List.map_append, fun marks hmarks => ?_⟩
  rw [List.append_subset] at hmarks
  refine (hown marks hmarks.1).append ?_
  rw [List.length_map] at hown'
  exact hown' marks hmarks.2

theorem cons {line : Line} (hline : ∀ marks, Draws o marks k line σ σ₁)
    (hrest : Drawn o (k + 1) σ₁ b σ') : Drawn o k σ (line :: b) σ' := by
  obtain ⟨own, rfl, hown⟩ := hrest
  refine ⟨(σ, line) :: own, rfl, fun marks hmarks => .cons (hline marks) (hown marks ?_)⟩
  exact List.subset_of_cons_subset hmarks

theorem line {line : Line} (hline : ∀ marks, Draws o marks k line σ σ') :
    Drawn o k σ [line] σ' :=
  .cons hline .nil

end Drawn

end Backend
