import Backend.Codegen.Emit
import Backend.Resolve.Env

/-! # Opening computations that may fail

A sequence of steps succeeds exactly when every step does. These lemmas take such a
sequence apart, for checked arithmetic and resolution (`Except`) and for the emission
of code under a label counter (`Emit`).
-/

namespace Backend

section Except

variable {ε α β : Type}

theorem except_ok_bind (a : α) (f : α → Except ε β) : (.ok a >>= f) = f a := rfl

theorem except_bind_eq_ok_iff {x : Except ε α} {f : α → Except ε β} {b : β} :
    x >>= f = .ok b ↔ ∃ a, x = .ok a ∧ f a = .ok b := by
  cases x with
  | error e =>
      constructor
      · intro h
        cases h
      · rintro ⟨a, h, -⟩
        cases h
  | ok a =>
      constructor
      · intro h
        exact ⟨a, rfl, h⟩
      · rintro ⟨a', h, hf⟩
        cases h
        exact hf

theorem except_map_eq_ok_iff {x : Except ε α} {f : α → β} {b : β} :
    x.map f = .ok b ↔ ∃ a, x = .ok a ∧ f a = b := by
  cases x <;> simp [Except.map]

theorem except_pure_eq_ok_iff {a b : α} : (pure a : Except ε α) = .ok b ↔ a = b := by
  constructor
  · intro h
    cases h
    rfl
  · rintro rfl
    rfl

end Except

theorem declared_eq_ok_iff {decls : List Decl} {id : DeclId} {d : Decl} :
    declared decls id = .ok d ↔ decls[id]? = some d := by
  unfold declared
  split <;> simp_all

namespace Emit

variable {α β : Type}

theorem bind_eq_ok_iff {x : Emit α} {f : α → Emit β} {n n' : Nat} {b : β} :
    (x >>= f) n = .ok b n' ↔ ∃ a k, x n = .ok a k ∧ f a k = .ok b n' := by
  change EStateM.bind x f n = _ ↔ _
  unfold EStateM.bind
  cases hx : x n with
  | ok a k =>
      constructor
      · intro h
        exact ⟨a, k, rfl, h⟩
      · rintro ⟨a', k', h, hf⟩
        cases h
        exact hf
  | error e k => simp

theorem pure_eq_ok_iff {a b : α} {n n' : Nat} :
    (pure a : Emit α) n = .ok b n' ↔ a = b ∧ n = n' := by
  change EStateM.Result.ok a n = _ ↔ _
  simp

theorem checked_eq_ok_iff {x : Except Overflow α} {a : α} {n n' : Nat} :
    checked x n = .ok a n' ↔ x = .ok a ∧ n = n' := by
  cases x with
  | ok b => simpa [checked] using pure_eq_ok_iff
  | error o =>
      constructor
      · intro h
        cases h
      · rintro ⟨h, -⟩
        cases h

theorem ofExcept_eq_ok_iff {x : Except Error α} {a : α} {n n' : Nat} :
    ofExcept x n = .ok a n' ↔ x = .ok a ∧ n = n' := by
  cases x with
  | ok b => simpa [ofExcept] using pure_eq_ok_iff
  | error e =>
      constructor
      · intro h
        cases h
      · rintro ⟨h, -⟩
        cases h

theorem missing_ne_ok {what : Missing} {a : α} {n n' : Nat} :
    (missing what : Emit α) n ≠ .ok a n' := by
  intro h
  cases h

theorem get_eq_ok_iff {a n n' : Nat} : (get : Emit Nat) n = .ok a n' ↔ a = n ∧ n' = n := by
  change EStateM.Result.ok n n = _ ↔ _
  simp [eq_comm]

theorem set_eq_ok_iff {a n n' : Nat} {u : PUnit} : (set a : Emit PUnit) n = .ok u n' ↔ n' = a := by
  change EStateM.Result.ok PUnit.unit a = _ ↔ _
  simp [eq_comm]

theorem fresh_eq_ok_iff {number n n' : Nat} :
    fresh n = .ok number n' ↔ n + 1 < Word.bound ∧ number = n ∧ n' = n + 1 := by
  simp only [fresh, bind_eq_ok_iff, pure_eq_ok_iff, get_eq_ok_iff, set_eq_ok_iff, checked_eq_ok_iff,
    Word.add_eq_ok_iff]
  constructor
  · rintro ⟨_, _, ⟨rfl, rfl⟩, _, _, ⟨⟨hlt, rfl⟩, rfl⟩, _, _, rfl, rfl, rfl⟩
    exact ⟨hlt, rfl, rfl⟩
  · rintro ⟨hlt, rfl, rfl⟩
    exact ⟨_, _, ⟨rfl, rfl⟩, _, _, ⟨⟨hlt, rfl⟩, rfl⟩, ⟨⟩, _, rfl, rfl, rfl⟩

theorem jumpLabel_eq_ok_iff {label : String} {n n' : Nat} :
    jumpLabel n = .ok label n' ↔ n + 1 < Word.bound ∧ label = Label.jump n ∧ n' = n + 1 := by
  simp only [jumpLabel, bind_eq_ok_iff, pure_eq_ok_iff, fresh_eq_ok_iff]
  grind

theorem literalLabel_eq_ok_iff {label : String} {n n' : Nat} :
    literalLabel n = .ok label n' ↔ n + 1 < Word.bound ∧ label = Label.literal n ∧ n' = n + 1 := by
  simp only [literalLabel, bind_eq_ok_iff, pure_eq_ok_iff, fresh_eq_ok_iff]
  grind

end Emit

end Backend
