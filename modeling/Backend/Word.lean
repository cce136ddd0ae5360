/-! # Machine words

Sizes, positions, lines and counters are unsigned 64-bit words; displacements and
integer literals are signed ones. Values are kept as numbers, and arithmetic on
them is checked: an operation whose result leaves the range of its words reports
which operation it was instead of wrapping.
-/

namespace Backend

/-- The operation whose result left the range of its words. -/
inductive Overflow where
  | add
  | sub
  | mul
deriving DecidableEq, Repr

def Overflow.message : Overflow → String
  | .add => "attempt to add with overflow"
  | .sub => "attempt to subtract with overflow"
  | .mul => "attempt to multiply with overflow"

namespace Word

/-- One more than the largest unsigned word. -/
def bound : Nat := 0x1_0000_0000_0000_0000

def add (a b : Nat) : Except Overflow Nat :=
  if a + b < bound then .ok (a + b) else .error .add

def sub (a b : Nat) : Except Overflow Nat :=
  if b ≤ a then .ok (a - b) else .error .sub

def mul (a b : Nat) : Except Overflow Nat :=
  if a * b < bound then .ok (a * b) else .error .mul

/-- The signed word with the same bits. -/
def toSigned (n : Nat) : Int := Int.bmod n bound

theorem toSigned_of_lt {n : Nat} (h : 2 * n < bound) : toSigned n = n :=
  Int.bmod_eq_of_le (by omega) (by omega)

theorem add_eq_ok_iff {a b c : Nat} : add a b = .ok c ↔ a + b < bound ∧ c = a + b := by
  by_cases h : a + b < bound <;> simp [add, h, eq_comm]

theorem sub_eq_ok_iff {a b c : Nat} : sub a b = .ok c ↔ b ≤ a ∧ c = a - b := by
  by_cases h : b ≤ a <;> simp [sub, h, eq_comm]

theorem mul_eq_ok_iff {a b c : Nat} : mul a b = .ok c ↔ a * b < bound ∧ c = a * b := by
  by_cases h : a * b < bound <;> simp [mul, h, eq_comm]

end Word

namespace Signed

/-- The numbers a signed word can hold. -/
def InRange (i : Int) : Prop := -0x8000_0000_0000_0000 ≤ i ∧ i < 0x8000_0000_0000_0000

instance (i : Int) : Decidable (InRange i) := inferInstanceAs (Decidable (_ ∧ _))

def add (a b : Int) : Except Overflow Int :=
  if InRange (a + b) then .ok (a + b) else .error .add

def sub (a b : Int) : Except Overflow Int :=
  if InRange (a - b) then .ok (a - b) else .error .sub

def mul (a b : Int) : Except Overflow Int :=
  if InRange (a * b) then .ok (a * b) else .error .mul

end Signed

end Backend
