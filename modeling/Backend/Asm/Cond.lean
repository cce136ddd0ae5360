/-! # Conditions of conditional jumps -/

namespace Backend

/-- What a jump asks of the preceding signed comparison. -/
inductive Cond where
  | e
  | ne
  | l
  | le
  | g
  | ge
deriving DecidableEq, Repr

namespace Cond

def name : Cond → String
  | .e => "e"
  | .ne => "ne"
  | .l => "l"
  | .le => "le"
  | .g => "g"
  | .ge => "ge"

/-- The condition that holds exactly when this one does not. -/
def inverse : Cond → Cond
  | .e => .ne
  | .ne => .e
  | .l => .ge
  | .le => .g
  | .g => .le
  | .ge => .l

@[simp]
theorem inverse_inverse (c : Cond) : c.inverse.inverse = c := by
  cases c <;> rfl

end Cond

end Backend
