import LosslessSyntax.Text.Layout

/-!
# Parse contexts

The context says in which surroundings the parser is, and how many contexts deep. Depth stops at its
largest value.
-/

set_option autoImplicit false

namespace LosslessSyntax

/-- The surroundings a production may depend on. -/
structure ContextFlags where
  inFunction : Bool := false
  inLoop : Bool := false
  inCondition : Bool := false
  /-- Inside a production that may still be rolled back. -/
  speculating : Bool := false
deriving DecidableEq, Repr, Inhabited

namespace ContextFlags

def union (a b : ContextFlags) : ContextFlags where
  inFunction := a.inFunction || b.inFunction
  inLoop := a.inLoop || b.inLoop
  inCondition := a.inCondition || b.inCondition
  speculating := a.speculating || b.speculating

def contains (a b : ContextFlags) : Bool := a.union b == a

/-- The flags as a number, the first flag in the lowest bit. -/
def bits (f : ContextFlags) : Nat :=
  f.inFunction.toNat + 2 * f.inLoop.toNat + 4 * f.inCondition.toNat + 8 * f.speculating.toNat

/-- The flags of a number; bits without a meaning are dropped. -/
def ofBits (n : Nat) : ContextFlags := ⟨n.testBit 0, n.testBit 1, n.testBit 2, n.testBit 3⟩

def text (f : ContextFlags) : String :=
  Text.flags "ContextFlags" [("IN_FUNCTION", f.inFunction), ("IN_LOOP", f.inLoop),
    ("IN_CONDITION", f.inCondition), ("SPECULATING", f.speculating)]

end ContextFlags

/-- Context flags, and how many contexts deep the parser is. -/
structure ParseContext where
  flags : ContextFlags := {}
  depth : Nat := 0
deriving DecidableEq, Repr, Inhabited

namespace ParseContext

def maxDepth : Nat := 65535

def enter (c : ParseContext) (flags : ContextFlags) : ParseContext :=
  ⟨c.flags.union flags, min (c.depth + 1) maxDepth⟩

def enterTimes (flags : ContextFlags) : Nat → ParseContext → ParseContext
  | 0, c => c
  | n + 1, c => enterTimes flags n (c.enter flags)

def contains (c : ParseContext) (flags : ContextFlags) : Bool := c.flags.contains flags

def text (c : ParseContext) : String :=
  Text.record "ParseContext" [("flags", c.flags.text), ("depth", toString c.depth)]

end ParseContext

end LosslessSyntax
