import LosslessSyntax.Range
import LosslessSyntax.Fact.Text

/-!
# Faults

A `Fault` is the cause for which an operation gives up: a size that does not fit, or a breach of what
the operation demands of its caller. Broken input text is never a fault; it becomes missing tokens,
skipped text and diagnostics. `Fault.message` is the only place where a cause gets its wording.
-/

set_option autoImplicit false

namespace LosslessSyntax

inductive Fault where
  /-- A sum of sizes does not fit into 32 bits. -/
  | sumTooLarge
  /-- A difference of sizes would be negative. -/
  | differenceNegative
  /-- The shape asked for cannot hold that many children. -/
  | shapeMismatch (shape : Shape) (count : Nat)
  | childIndexOutside (index count : Nat)
  | offsetOutside (offset width : Nat)
  | offsetPastLastChild (offset : Nat)
  | tokenHasNoChildren (kind : Kind)
  | missingWithoutDiagnostic (kind : Kind)
  | leadingNotTrivia (kind : Kind)
  /-- A node is closed while none is open. -/
  | noOpenNode
  /-- A list is closed while nothing is open. -/
  | noOpenList
  | openNotList (kind : Kind)
  /-- The children of an open node start past the end of the stack. -/
  | openPastStack (first count : Nat)
  /-- The tree is asked for while nodes are open, each with the place of its first child. -/
  | nodesLeftOpen (opened : List (Kind × Nat))
  | rootCount (count : Nat)
  | rootNotNode (found : Slot)
  | builderAbandoned
  | snapshotPastEnd (snapshot : Nat)
  | markerAbandoned
  /-- The marker stands above the top of the stack. -/
  | markerDropped
  /-- Output from before the checkpoint has been wrapped since. -/
  | checkpointWrapped
  | spanOutside (span full : Range)
  | nothingToSkip
  | pointerUnresolved
  /-- A position inside a node was found in an absent slot. -/
  | offsetInAbsentSlot
  /-- A view number that the tree has not given out. -/
  | viewUnknown (count id : Nat)
  | nodeViewOverToken
  | tokenViewOverNode
  | tokenViewWithoutParent
  | childSlotsOfToken
  | viewOfAbsentSlot
  | viewUnderToken
deriving Repr, Inhabited

namespace Fault

/-- The wording of a branch that no caller can reach. -/
def unreachable (what : String) : String := "internal error: entered unreachable code: " ++ what

def message : Fault → String
  | sumTooLarge => "attempt to add with overflow"
  | differenceNegative => "attempt to subtract with overflow"
  | shapeMismatch shape count => s!"a `{shape.text}` list cannot hold {count} children"
  | childIndexOutside index count => s!"child index {index} out of range for {count} children"
  | offsetOutside offset width => s!"offset {offset} out of range for a node of width {width}"
  | offsetPastLastChild offset => unreachable s!"offset {offset} is past the last child"
  | tokenHasNoChildren kind => s!"`{kind.text}` is a terminal and has no children"
  | missingWithoutDiagnostic kind => s!"missing `{kind.text}` token without a diagnostic"
  | leadingNotTrivia kind => s!"leading trivia of `{kind.text}` holds a non-trivia token"
  | noOpenNode => "no opened nodes?"
  | noOpenList => "no opened lists?"
  | openNotList kind => s!"expected an opened list, found an opened `{kind.text}` node"
  | openPastStack first count => s!"slice index starts at {first} but ends at {count}"
  | nodesLeftOpen opened =>
    "unfinished nodes: " ++ Text.list (opened.map fun (kind, first) =>
      Text.record "Opened" [("kind", kind.text), ("first_child", toString first)])
  | rootCount count =>
    s!"assertion `left == right` failed: expected exactly one root node\n  left: {count}\n right: 1"
  | rootNotNode found => "expected a root node, found " ++ Text.call "Some" [found.optionText]
  | builderAbandoned => "you should call `Builder::finish()`"
  | snapshotPastEnd snapshot => s!"snapshot {snapshot} is past the end of the buffer"
  | markerAbandoned => "Marker must be either completed or abandoned"
  | markerDropped => "marker refers to output dropped by a rewind"
  | checkpointWrapped => "a marker started before the checkpoint was completed after it"
  | spanOutside span full => "span " ++ span.text ++ " is not inside the node at " ++ full.text
  | nothingToSkip => "must have a subtree to skip"
  | pointerUnresolved => "called `Option::unwrap()` on a `None` value"
  | offsetInAbsentSlot => unreachable "offsets never land on an empty slot"
  | viewUnknown count id => s!"index out of bounds: the len is {count} but the index is {id}"
  | nodeViewOverToken => unreachable "node view over a token"
  | tokenViewOverNode => unreachable "token view over a node"
  | tokenViewWithoutParent => "tokens always have a parent"
  | childSlotsOfToken => unreachable "tokens have no child slots"
  | viewOfAbsentSlot => "views are only created for present slots"
  | viewUnderToken => unreachable "tokens have no child views"

end Fault

theorem bind_eq_ok_iff {α β : Type} {x : Except Fault α} {f : α → Except Fault β} {b : β} :
    (x >>= f) = .ok b ↔ ∃ a, x = .ok a ∧ f a = .ok b := by
  cases x <;> simp [bind, Except.bind]

end LosslessSyntax
