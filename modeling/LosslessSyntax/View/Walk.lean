import LosslessSyntax.View.Token

/-!
# Walks in document order

A `Walk` visits a node and everything under it from the outside in: it enters a node, goes through the
present children in order, and leaves the node. It keeps the open nodes with the next slot of each, so it
can be stopped anywhere, and the subtree just entered can be skipped.

* `Walk.next` : the next event; `Walk.skipSubtree` : gives up the innermost open node;
* `Walk.trace` : the events of a whole walk with skips by choice; `Walk.collect` : elements met;
* `NodeRef.descendants`, `NodeRef.descendant?` : what is under a node.
-/

set_option autoImplicit false

namespace LosslessSyntax

inductive WalkEvent where
  | enter (n : NodeRef)
  | leave (n : NodeRef)
  | token (t : TokenRef)
deriving DecidableEq, Repr, Inhabited

namespace WalkEvent

/-- The element that is met for the first time. -/
def met? : WalkEvent → Option ElementRef
  | enter n => some (.node n)
  | leave _ => none
  | token t => some (.token t)

def entered? : WalkEvent → Option NodeRef
  | enter n => some n
  | _ => none

def isToken : WalkEvent → Bool
  | token _ => true
  | _ => false

def nodeText : WalkEvent → Nav String
  | enter n => return Text.call "Enter" [← n.text]
  | leave n => return Text.call "Leave" [← n.text]
  | token t => return Text.call "Token" [← t.text]

def text : WalkEvent → Nav String
  | enter n => return Text.call "EnterNode" [← n.text]
  | leave n => return Text.call "LeaveNode" [← n.text]
  | token t => return Text.call "Token" [← t.text]

end WalkEvent

structure Walk where
  /-- The open nodes, the innermost first, each with its next slot. -/
  stack : List (NodeRef × Nat) := []
  /-- The node to begin with, until the walk has begun. -/
  start : Option NodeRef
deriving DecidableEq, Repr, Inhabited

namespace Walk

def ofNode (h : NodeRef) : Walk := ⟨[], some h⟩

def firstChild (h : NodeRef) (slot : Nat) : Nav (Option (ElementRef × Nat)) := do
  (List.range' slot ((← h.count) - slot)).findSomeM? fun index =>
    return (← h.childAt index).map (·, index)

def next (w : Walk) : Nav (Option (WalkEvent × Walk)) := do
  match w.stack with
  | [] =>
    match w.start with
    | none => return none
    | some h => return some (.enter h, ⟨[(h, 0)], none⟩)
  | (h, slot) :: outer =>
    match ← firstChild h slot with
    | none => return some (.leave h, { w with stack := outer })
    | some (.node n, index) => return some (.enter n, { w with stack := (n, 0) :: (h, index + 1) :: outer })
    | some (.token t, index) => return some (.token t, { w with stack := (h, index + 1) :: outer })

/-- Gives up the innermost open node: neither the rest of it nor its end is visited. -/
def skipSubtree (w : Walk) : Except Fault Walk :=
  match w.stack with
  | [] => .error .nothingToSkip
  | _ :: outer => .ok { w with stack := outer }

/-- The next event over nodes alone, with at most `fuel` tokens passed over. -/
def nextNode : Nat → Walk → Nav (Option (WalkEvent × Walk))
  | 0, _ => return none
  | fuel + 1, w => do
    match ← w.next with
    | some (.token _, w) => nextNode fuel w
    | other => return other

/-- What a walk brings forth: events, and the faults of skips that had nothing to skip. -/
inductive Item where
  | event (e : WalkEvent)
  | fault (f : Fault)
deriving Inhabited

/-- Skips the innermost open node. A skip that has nothing to skip leaves the walk as it is. -/
def trySkip (w : Walk) : List Item × Walk :=
  match w.skipSubtree with
  | .ok w => ([], w)
  | .error f => ([.fault f], w)

/-- At most `fuel` events, from the one numbered `number` on. After each event `skips` decides whether to
skip the innermost open node. -/
def trace (step : Walk → Nav (Option (WalkEvent × Walk))) (skips : Nat → WalkEvent → Nav Bool) :
    Nat → Nat → Walk → Nav (List Item)
  | 0, _, _ => return []
  | fuel + 1, number, w => do
    match ← step w with
    | none => return []
    | some (e, w) =>
      let (faults, w) := if ← skips number e then w.trySkip else ([], w)
      return .event e :: faults ++ (← trace step skips fuel (number + 1) w)

/-- The elements that at most `fuel` events meet. -/
def collect : Nat → Walk → Nav (List ElementRef)
  | 0, _ => return []
  | fuel + 1, w => do
    match ← w.next with
    | none => return []
    | some (e, w) => return e.met?.toList ++ (← collect fuel w)

def nthMet : Nat → Nat → Walk → Nav (Option ElementRef)
  | 0, _, _ => return none
  | fuel + 1, n, w => do
    match ← w.next with
    | none => return none
    | some (e, w) =>
      match e.met?, n with
      | none, n => nthMet fuel n w
      | some met, 0 => return some met
      | some _, n + 1 => nthMet fuel n w

end Walk

namespace NodeRef

/-- A bound on the events of a walk through the node: a node is entered and left, a token is met once. -/
def walkLength (h : NodeRef) : Nav Nat := return 2 * (← h.node).toSlot.size + 1

/-- Everything under the node in document order, the node itself left out. -/
def descendants (h : NodeRef) : Nav (List ElementRef) :=
  return (← Walk.collect (← h.walkLength) (.ofNode h)).drop 1

/-- The element under the node that has `n` others in front of it. No more is visited than needed. -/
def descendant? (h : NodeRef) (n : Nat) : Nav (Option ElementRef) := do
  Walk.nthMet (← h.walkLength) (n + 1) (.ofNode h)

end NodeRef

end LosslessSyntax
