import LosslessSyntax.Size

/-!
# Diagnostics with absolute ranges

`Diagnostic.resolve` anchors a diagnostic at the start of its owner's span.
-/

set_option autoImplicit false

namespace LosslessSyntax

/-- A diagnostic together with its absolute range. -/
structure Resolved where
  diagnostic : Diagnostic
  range : Range
deriving DecidableEq, Repr, Inhabited

/-- Anchors the diagnostic at the absolute start of its owner's span. -/
def Diagnostic.resolve (d : Diagnostic) (spanStart : Nat) : Except Fault Resolved := do
  return ⟨d, ← Range.ofWidth (← Size.add spanStart d.offset) d.width⟩

namespace Resolved

def codeText (r : Resolved) : String := Diagnostic.codeText r.diagnostic.code

def text (r : Resolved) : String :=
  Text.record "ResolvedDiagnostic" [("diagnostic", r.diagnostic.text), ("range", r.range.text)]

/-- The code with its place, as it follows an element in a dump. -/
def placeText (r : Resolved) : String := r.codeText ++ "@" ++ r.range.text

end Resolved

end LosslessSyntax
