import LosslessSyntax.Text.Layout

/-!
# Summary flags

`Flags` says about a fact, and about the subtree under it, what a reader would otherwise have to walk
the subtree for. A node takes over the flags of its children (`Flags.inheritable`); a token takes over
those of its leading trivia but for `present` (`Flags.fromTrivia`), because trivia never makes a
missing token present.
-/

set_option autoImplicit false

namespace LosslessSyntax

/-- Summary of a subtree. -/
structure Flags where
  /-- Some part of the subtree owns a diagnostic. -/
  diagnostics : Bool := false
  /-- Some token of the subtree is skipped text. -/
  skippedText : Bool := false
  /-- Some token of the subtree is missing. -/
  missing : Bool := false
  /-- Some token of the subtree is present. -/
  present : Bool := false
deriving DecidableEq, Repr, Inhabited

namespace Flags

def none : Flags := {}

def union (a b : Flags) : Flags where
  diagnostics := a.diagnostics || b.diagnostics
  skippedText := a.skippedText || b.skippedText
  missing := a.missing || b.missing
  present := a.present || b.present

def inter (a b : Flags) : Flags where
  diagnostics := a.diagnostics && b.diagnostics
  skippedText := a.skippedText && b.skippedText
  missing := a.missing && b.missing
  present := a.present && b.present

/-- What a node takes over from its children. -/
def inheritable : Flags := ⟨true, true, true, true⟩

/-- What a token takes over from its leading trivia. -/
def fromTrivia : Flags := { inheritable with present := false }

/-- A subtree without a present token is missing. -/
def isMissing (f : Flags) : Bool := !f.present

/-- The flags as a number, the first flag in the lowest bit. -/
def bits (f : Flags) : Nat :=
  f.diagnostics.toNat + 2 * f.skippedText.toNat + 4 * f.missing.toNat + 8 * f.present.toNat

/-- The flags of a number; bits without a meaning are dropped. -/
def ofBits (n : Nat) : Flags := ⟨n.testBit 0, n.testBit 1, n.testBit 2, n.testBit 3⟩

/-- Every bit of the number has a meaning. -/
def isKnown (n : Nat) : Bool := (ofBits n).bits == n

def text (f : Flags) : String :=
  Text.flags "NodeFlags" [("CONTAINS_DIAGNOSTICS", f.diagnostics), ("CONTAINS_SKIPPED_TEXT", f.skippedText),
    ("CONTAINS_MISSING", f.missing), ("IS_NOT_MISSING", f.present)]

end Flags

end LosslessSyntax
