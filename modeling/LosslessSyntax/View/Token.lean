import LosslessSyntax.Fact.Measure
import LosslessSyntax.View.Tree

/-!
# From token to token

The first and last token under a node, and the neighbours of a token in document order. Missing tokens
are passed over unless they are asked for; a slot without a present token is then not even looked into.

A descent takes at most as many steps as the fact is high, and a view is made after its parent, so the
number of a view bounds the way up.
-/

set_option autoImplicit false

namespace LosslessSyntax

namespace NodeRef

/-- The slot holds a fact without a present token. This makes no view. -/
def slotIsMissing (h : NodeRef) (index : Nat) : Nav Bool := do
  let child := (← h.node).childAt index
  return child.isPresent && child.flags.isMissing

/-- The token in a slot that `inside` finds, when the slot holds a node, or the token there. -/
def tokenInSlot (inside : NodeRef → Nav (Option TokenRef)) (withMissing : Bool) (h : NodeRef) (index : Nat) :
    Nav (Option TokenRef) := do
  if !withMissing && (← h.slotIsMissing index) then return none
  else
    match ← h.childAt index with
    | none => return none
    | some (.token t) => return some t
    | some (.node n) => inside n

/-- The first token under a node, at most `fuel` levels down. -/
def firstTokenWithin (withMissing : Bool) : Nat → NodeRef → Nav (Option TokenRef)
  | 0, _ => return none
  | fuel + 1, h => do
    (List.range (← h.count)).findSomeM? (tokenInSlot (firstTokenWithin withMissing fuel) withMissing h)

/-- The last token under a node, at most `fuel` levels down. -/
def lastTokenWithin (withMissing : Bool) : Nat → NodeRef → Nav (Option TokenRef)
  | 0, _ => return none
  | fuel + 1, h => do
    (List.range (← h.count)).reverse.findSomeM? (tokenInSlot (lastTokenWithin withMissing fuel) withMissing h)

def firstToken (h : NodeRef) (withMissing : Bool) : Nav (Option TokenRef) := do
  firstTokenWithin withMissing (← h.node).toSlot.height h

def lastToken (h : NodeRef) (withMissing : Bool) : Nav (Option TokenRef) := do
  lastTokenWithin withMissing (← h.node).toSlot.height h

/-- The first token behind the slot `index` of a node, looked for there and then, at most `fuel` steps
up, behind the node itself. -/
def tokenBehind (withMissing : Bool) : Nat → NodeRef → Nat → Nav (Option TokenRef)
  | 0, _, _ => return none
  | fuel + 1, h, index => do
    let height := (← h.node).toSlot.height
    let behind := List.range' (index + 1) ((← h.count) - (index + 1))
    match ← behind.findSomeM? (tokenInSlot (firstTokenWithin withMissing height) withMissing h) with
    | some t => return some t
    | none =>
      match ← h.index, ← h.parent with
      | some index, some parent => tokenBehind withMissing fuel parent index
      | _, _ => return none

/-- The last token in front of the slot `index` of a node, looked for there and then, at most `fuel`
steps up, in front of the node itself. -/
def tokenInFront (withMissing : Bool) : Nat → NodeRef → Nat → Nav (Option TokenRef)
  | 0, _, _ => return none
  | fuel + 1, h, index => do
    let height := (← h.node).toSlot.height
    let inFront := (List.range index).reverse
    match ← inFront.findSomeM? (tokenInSlot (lastTokenWithin withMissing height) withMissing h) with
    | some t => return some t
    | none =>
      match ← h.index, ← h.parent with
      | some index, some parent => tokenInFront withMissing fuel parent index
      | _, _ => return none

end NodeRef

namespace TokenRef

def next (h : TokenRef) (withMissing : Bool) : Nav (Option TokenRef) := do
  let parent ← h.parent
  NodeRef.tokenBehind withMissing (parent.id + 1) parent (← h.index)

def prev (h : TokenRef) (withMissing : Bool) : Nav (Option TokenRef) := do
  let parent ← h.parent
  NodeRef.tokenInFront withMissing (parent.id + 1) parent (← h.index)

/-- The tokens from `start` on, each found from the one before by `step`, at most `fuel` of them. -/
def follow (step : TokenRef → Nav (Option TokenRef)) : Nat → Option TokenRef → Nav (List TokenRef)
  | 0, _ => return []
  | _ + 1, none => return []
  | fuel + 1, some t => do
    let rest ← follow step fuel (← step t)
    return t :: rest

end TokenRef

namespace NodeRef

/-- The tokens from the first one under the node to the end of the tree. -/
def tokensOnward (h : NodeRef) (withMissing : Bool) : Nav (List TokenRef) := do
  let t ← .get
  TokenRef.follow (·.next withMissing) t.root.toSlot.size (← h.firstToken withMissing)

/-- The tokens from the last one under the node back to the start of the tree. -/
def tokensBackward (h : NodeRef) (withMissing : Bool) : Nav (List TokenRef) := do
  let t ← .get
  TokenRef.follow (·.prev withMissing) t.root.toSlot.size (← h.lastToken withMissing)

end NodeRef

end LosslessSyntax
