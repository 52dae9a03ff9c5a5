import LosslessSyntax.View.Token

/-!
# Lookup by position

* `NodeRef.tokenAt` : the token whose full span holds an offset, or both tokens that meet there;
* `NodeRef.nodeAt` : the deepest node around a span. Of nested nodes with one full span the innermost or
  the outermost is meant, as asked. An empty span enters nodes without width that stand at its offset.
-/

set_option autoImplicit false

namespace LosslessSyntax

/-- The tokens at an offset: none, one, or the two that meet there. -/
inductive TokenAtOffset (α : Type) where
  | none
  | single (t : α)
  | between (left right : α)
deriving DecidableEq, Repr, Inhabited

namespace TokenAtOffset

variable {α β : Type}

def map (f : α → β) : TokenAtOffset α → TokenAtOffset β
  | none => none
  | single t => single (f t)
  | between left right => between (f left) (f right)

/-- The token, the right one of two. -/
def rightBiased : TokenAtOffset α → Option α
  | none => .none
  | single t => some t
  | between _ right => some right

/-- The token, the left one of two. -/
def leftBiased : TokenAtOffset α → Option α
  | none => .none
  | single t => some t
  | between left _ => some left

def toList : TokenAtOffset α → List α
  | none => []
  | single t => [t]
  | between left right => [left, right]

def text : TokenAtOffset String → String
  | none => "None"
  | single t => Text.call "Single" [t]
  | between left right => Text.call "Between" [left, right]

end TokenAtOffset

/-- The tokens at an offset with what is looked up for each of them, from left to right. -/
def TokenAtOffset.mapNav {α β : Type} (f : α → Nav β) : TokenAtOffset α → Nav (TokenAtOffset β)
  | .none => return .none
  | .single t => return .single (← f t)
  | .between left right => return .between (← f left) (← f right)

namespace NodeRef

/-- The token over an offset inside the node, at most `fuel` levels down. -/
def tokenOver (offset : Nat) : Nat → NodeRef → Nav TokenRef
  | 0, _ => .fail .offsetInAbsentSlot
  | fuel + 1, h => do
    let relative ← .lift (Size.sub offset (← SyntaxTree.view h.id).offset)
    let index ← .lift ((← h.node).indexAt relative)
    match ← h.childAt index with
    | some (.node n) => tokenOver offset fuel n
    | some (.token t) => return t
    | none => .fail .offsetInAbsentSlot

/-- The token before `right`, if it ends where `right` starts, at `offset`, and starts in `range`. -/
def leftNeighbour (offset : Nat) (range : Range) (right : TokenRef) : Nav (Option TokenRef) := do
  if offset == (← SyntaxTree.view right.id).offset then
    match ← right.prev false with
    | none => return none
    | some left =>
      let full ← left.fullSpan
      return if full.stop == offset && range.contains full.start then some left else none
  else return none

/-- The token whose full span holds `offset`, or both tokens that meet there. -/
def tokenAt (h : NodeRef) (offset : Nat) : Nav (TokenAtOffset TokenRef) := do
  let range ← h.fullSpan
  if range.isEmpty || !range.containsInclusive offset then return .none
  else if offset == range.stop then
    match ← h.lastToken false with
    | some last => return .single last
    | none => return .none
  else
    let right ← tokenOver offset (← h.node).toSlot.height h
    match ← leftNeighbour offset range right with
    | some left => return .between left right
    | none => return .single right

/-- The farthest node without width among slots that are empty or without width, where the slots come
with their indices, the nearest one first. -/
def farthestEmptyNode (best : Option Nat) : List (Slot × Nat) → Except Fault (Option Nat)
  | [] => .ok best
  | (s, index) :: rest => do
    if (← s.fullWidth) == 0 then farthestEmptyNode (if s.isNode then some index else best) rest
    else return best

/-- The slot of a node in which to look for a span that starts at `start`, relative to the node. -/
def slotFor (n : Node) (start : Nat) (spanIsEmpty : Bool) : Except Fault (Option Nat) := do
  let next ← if start < n.fullWidth then n.indexAt start else pure n.count
  -- slots without width in front of `next` all stand at `start`
  let emptyNode ←
    if spanIsEmpty then farthestEmptyNode none (n.slots.take next).zipIdx.reverse else pure none
  match emptyNode with
  | some index => return some index
  | none =>
    if next < n.count then return some next
    else return (n.slots.zipIdx.reverse.find? fun (s, _) => s.isPresent).map (·.2)

def childAround (h : NodeRef) (span : Range) : Nav (Option ElementRef) := do
  let full ← h.fullSpan
  let start ← .lift (Size.sub span.start full.start)
  match ← .lift (slotFor (← h.node) start span.isEmpty) with
  | none => return none
  | some index =>
    match ← h.childAt index with
    | none => return none
    | some child => return if (← child.fullSpan).containsRange span then some child else none

/-- The deepest node around a span, at most `fuel` levels down. -/
def descendTo (span : Range) : Nat → NodeRef → Nav NodeRef
  | 0, h => return h
  | fuel + 1, h => do
    match ← h.childAround span with
    | some (.node n) => descendTo span fuel n
    | _ => return h

/-- The outermost node from `h` up to `top` with the full span of `h`, at most `fuel` levels up. -/
def climbTo (top : NodeRef) : Nat → NodeRef → Nav NodeRef
  | 0, h => return h
  | fuel + 1, h => do
    if h == top then return h
    else
      match ← h.parent with
      | none => return h
      | some parent => if (← parent.fullSpan) == (← h.fullSpan) then climbTo top fuel parent else return h

/-- The deepest node around a span inside the node. -/
def nodeAt (h : NodeRef) (span : Range) (innermost : Bool) : Nav NodeRef := do
  let full ← h.fullSpan
  if full.containsRange span then
    let deepest ← descendTo span (← h.node).toSlot.height h
    if innermost then return deepest else climbTo h (deepest.id + 1) deepest
  else .fail (.spanOutside span full)

end NodeRef

end LosslessSyntax
