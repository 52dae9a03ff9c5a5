/-!
# Ranges of text

`Range` is a half-open range of absolute offsets, from `start` up to `stop`.
-/

set_option autoImplicit false

namespace LosslessSyntax

/-- The offsets from `start` up to, and without, `stop`. -/
structure Range where
  start : Nat
  stop : Nat
deriving DecidableEq, Repr, Inhabited

namespace Range

def isEmpty (r : Range) : Bool := r.start == r.stop

def contains (r : Range) (offset : Nat) : Bool := decide (r.start ≤ offset) && decide (offset < r.stop)

/-- The offset lies in the range or at its end. -/
def containsInclusive (r : Range) (offset : Nat) : Bool :=
  decide (r.start ≤ offset) && decide (offset ≤ r.stop)

def containsRange (r inner : Range) : Bool :=
  decide (r.start ≤ inner.start) && decide (inner.stop ≤ r.stop)

def text (r : Range) : String := toString r.start ++ ".." ++ toString r.stop

end Range

end LosslessSyntax
