import LosslessSyntax.Size
import LosslessSyntax.Fact.Terminals

/-!
# Widths and positions inside a fact

The full width of a fact includes the leading trivia of its first token; its width does not. Inside a
node the children lie one after the other, so a child starts where the widths before it end.

* `Slot.fullWidth`, `Slot.leadingWidth`, `Slot.width`;
* `Node.offsetAt` : where a child starts; `Node.indexAt` : the child at an offset. A `long` node
  answers both from its table of starts (`countUpTo` is a binary search), the others by adding up.
-/

set_option autoImplicit false

namespace LosslessSyntax

namespace Slot

/-- The width with leading trivia. A node has stored it; a token adds it up. -/
def fullWidth : Slot → Except Fault Nat
  | .absent => .ok 0
  | .token head leading => do Size.add (← leading.fullWidth) head.width
  | .node head _ => .ok head.fullWidth

end Slot

def Token.leadingWidth (t : Token) : Except Fault Nat := t.leading.fullWidth

def Token.fullWidth (t : Token) : Except Fault Nat := t.toSlot.fullWidth

namespace Slot

def leadingWidth (s : Slot) : Except Fault Nat :=
  match s.firstToken? with
  | some t => t.leadingWidth
  | none => .ok 0

/-- The width without the trivia in front of the first token. -/
def width (s : Slot) : Except Fault Nat :=
  match s with
  | .absent => .ok 0
  | .token head _ => .ok head.width
  | .node head _ => do Size.sub head.fullWidth (← s.leadingWidth)

/-- `start` plus the full widths of the slots. -/
def sumWidths (start : Nat) : List Slot → Except Fault Nat
  | [] => .ok start
  | s :: rest => do sumWidths (← Size.add start (← s.fullWidth)) rest

/-- Where each of the slots starts when the first one starts at `start`. -/
def startsFrom (start : Nat) : List Slot → Except Fault (List Nat)
  | [] => .ok []
  | s :: rest => do
    let next ← Size.add start (← s.fullWidth)
    return start :: (← startsFrom next rest)

/-- The index, counted from `index`, of the first slot that ends past `offset` when the first slot
starts at `start`. -/
def scanIndex (offset start index : Nat) : List Slot → Except Fault Nat
  | [] => .error (.offsetPastLastChild offset)
  | s :: rest => do
    let stop ← Size.add start (← s.fullWidth)
    if offset < stop then return index else scanIndex offset stop (index + 1) rest

end Slot

/-- The number of entries at or before `offset` in a sorted table, found by halving the interval
from `lo` to `hi` that holds the answer. -/
def countUpTo (starts : Array Nat) (offset lo hi : Nat) : Nat :=
  if lo < hi then
    let mid := (lo + hi) / 2
    if starts[mid]?.getD 0 ≤ offset then countUpTo starts offset (mid + 1) hi
    else countUpTo starts offset lo mid
  else lo
termination_by hi - lo

namespace Node

def leadingWidth (n : Node) : Except Fault Nat := n.toSlot.leadingWidth

def width (n : Node) : Except Fault Nat := n.toSlot.width

/-- Where the child at `index` starts, relative to the start of the node. -/
def offsetAt (n : Node) (index : Nat) : Except Fault Nat :=
  if index < n.count then
    match n.head.layout with
    | .long starts => .ok (starts[index]?.getD 0)
    | _ => Slot.sumWidths 0 (n.slots.take index)
  else .error (.childIndexOutside index n.count)

/-- The index of the child whose full span contains `offset`, relative to the start of the node. -/
def indexAt (n : Node) (offset : Nat) : Except Fault Nat :=
  if offset < n.fullWidth then
    match n.head.layout with
    | .long starts => Size.sub (countUpTo starts offset 0 starts.size) 1
    | _ => Slot.scanIndex offset 0 0 n.slots
  else .error (.offsetOutside offset n.fullWidth)

end Node

end LosslessSyntax
