import LosslessSyntax.Fault

/-!
# Sizes

Offsets and widths are numbers below `2 ^ 32`. `Size.add` and `Size.sub` are exact: a result that
does not fit is a fault, never a wrapped number.
-/

set_option autoImplicit false

namespace LosslessSyntax

namespace Size

/-- Sizes are below this: they fit into 32 bits. -/
def limit : Nat := 4294967296

def add (a b : Nat) : Except Fault Nat := if a + b < limit then .ok (a + b) else .error .sumTooLarge

def sub (a b : Nat) : Except Fault Nat := if b ≤ a then .ok (a - b) else .error .differenceNegative

def sum (start : Nat) : List Nat → Except Fault Nat
  | [] => .ok start
  | n :: rest => do sum (← add start n) rest

theorem add_eq_ok_iff {a b c : Nat} : add a b = .ok c ↔ c = a + b ∧ a + b < limit := by
  unfold add
  split <;> grind

theorem sub_eq_ok_iff {a b c : Nat} : sub a b = .ok c ↔ b ≤ a ∧ c = a - b := by
  unfold sub
  split <;> grind

end Size

def Range.ofWidth (start width : Nat) : Except Fault Range := do
  return ⟨start, ← Size.add start width⟩

end LosslessSyntax
