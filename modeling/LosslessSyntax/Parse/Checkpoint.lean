import LosslessSyntax.Fact.Content
import LosslessSyntax.Parse.Context

/-!
# Checkpoints

A checkpoint holds what the parser needs to resume where it was taken: the context, the place in the
token buffer, and the output not yet wrapped into a node. It never changes, so it may be returned to
any number of times.
-/

set_option autoImplicit false

namespace LosslessSyntax

/-- A snapshot of the parser and its token buffer. -/
structure Checkpoint where
  context : ParseContext
  /-- The place in the token buffer. -/
  snapshot : Nat
  /-- The number of tokens consumed. -/
  offset : Nat
  /-- The height of the output stack. -/
  height : Nat := 0
  /-- The stamp of the latest write to that stack. -/
  stamp : Nat := 0
  /-- Skipped text that waits to become trivia of the next token. -/
  skipped : List Slot := []
deriving Repr, Inhabited

namespace Checkpoint

def capture (context : ParseContext) (snapshot offset : Nat) : Checkpoint := ⟨context, snapshot, offset, 0, 0, []⟩

/-- The checkpoints agree, with skipped text compared by content. -/
def equal (memo : HashMemo) (a b : Checkpoint) : Bool :=
  a.context == b.context && a.snapshot == b.snapshot && a.offset == b.offset && a.height == b.height
    && a.stamp == b.stamp && a.skipped.length == b.skipped.length && memo.equalAll a.skipped b.skipped

def text (c : Checkpoint) : String :=
  Text.record "Checkpoint" [("context", c.context.text), ("lexer", toString c.snapshot),
    ("offset", toString c.offset),
    ("pending", Text.record "Pending" [("children", toString c.height), ("stamp", toString c.stamp),
      ("skipped", Text.list (c.skipped.map (·.text)))])]

end Checkpoint

end LosslessSyntax
