import LosslessSyntax.Text.Layout

/-!
# Diagnostics

A `Diagnostic` is owned by a fact and placed relative to the start of its owner's span, so it stays
right wherever the fact is attached. Codes are numbers; the message text belongs to whoever shows it.
-/

set_option autoImplicit false

namespace LosslessSyntax

/-- How bad a diagnostic is, from harmless to fatal. -/
inductive Severity where
  | info | warning | error
deriving DecidableEq, Repr, Inhabited

namespace Severity

def rank (s : Severity) : Nat := s.ctorIdx

def word : Severity → String
  | info => "info"
  | warning => "warning"
  | error => "error"

def text : Severity → String
  | info => "Info"
  | warning => "Warning"
  | error => "Error"

end Severity

/-- A finding at `offset` from the start of its owner's span, `width` long. -/
structure Diagnostic where
  code : Nat
  severity : Severity
  offset : Nat
  width : Nat
deriving DecidableEq, Repr, Inhabited

namespace Diagnostic

/-- The code of a required token that could not be consumed. -/
def expectedToken : Nat := 1

/-- The code of a token that stands where none is allowed. -/
def unexpectedToken : Nat := 2

/-- The code of input that was skipped during recovery. -/
def skippedText : Nat := 3

def error (code offset width : Nat) : Diagnostic := ⟨code, .error, offset, width⟩

def withOffset (d : Diagnostic) (offset : Nat) : Diagnostic := { d with offset := offset }

/-- A code is shown with at least four digits. -/
def codeText (code : Nat) : String := "E" ++ Text.padded 4 code

def text (d : Diagnostic) : String :=
  Text.record "Diagnostic" [("code", Text.call "DiagnosticCode" [toString d.code]), ("severity", d.severity.text),
    ("offset", toString d.offset), ("width", toString d.width)]

def listText (ds : List Diagnostic) : String := Text.list (ds.map text)

end Diagnostic

end LosslessSyntax
