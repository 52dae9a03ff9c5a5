import LosslessSyntax.Step
import LosslessSyntax.Fact.Trivia

/-!
# Building a tree from events

The children of all open nodes lie on one stack; closing a node takes its children off the stack and
puts the node in their place. Tokens without trivia are kept, so that equal ones are shared.

* `Event` : one call on the builder; `Builder.apply` carries it out;
* `Builder.finish` : the root, once nothing is open and the root alone is on the stack.

A call that faults leaves the builder usable: `token` and `missing` leave it as it was, closing what is
not a list closes the node but keeps its children, and a node that is too wide is closed and lost with
its children.
-/

set_option autoImplicit false

namespace LosslessSyntax

/-- A node that has been started: its kind, and the height of the stack below its children. -/
structure Opened where
  kind : Kind
  first : Nat
deriving DecidableEq, Repr, Inhabited

structure Builder where
  /-- The finished children, the oldest first. -/
  children : List Slot := []
  /-- The open nodes, the innermost first. -/
  opened : List Opened := []
  /-- The tokens without trivia made so far. -/
  cache : List Token := []
  /-- The number of the next new instance. -/
  nextId : Nat := 0
deriving Repr, Inhabited

inductive Event where
  | startNode (kind : Kind)
  | finishNode
  | startList
  | finishList
  | token (pieces : List TriviaPiece) (kind : Kind) (width : Nat)
  | missing (kind : Kind) (diagnostics : List Diagnostic)
  | absent
  /-- A fact made before, for instance part of an older tree. -/
  | element (fact : Slot)
deriving Repr, Inhabited

namespace Builder

def push (b : Builder) (s : Slot) : Builder := { b with children := b.children ++ [s] }

def startNode (kind : Kind) : Step Builder Unit :=
  .modify fun b => { b with opened := ⟨kind, b.children.length⟩ :: b.opened }

/-- Takes the innermost open node off, or gives up for the reason given. -/
def close (otherwise : Fault) : Step Builder Opened := do
  let b ← .get
  match b.opened with
  | [] => .fail otherwise
  | o :: rest =>
    .set { b with opened := rest }
    return o

/-- Takes the children from `first` on off the stack. -/
def drain (first : Nat) : Step Builder (List Slot) := do
  let b ← .get
  if first ≤ b.children.length then
    .set { b with children := b.children.take first }
    return b.children.drop first
  else .fail (.openPastStack first b.children.length)

def fresh : Step Builder Nat := fun b => (.ok b.nextId, { b with nextId := b.nextId + 1 })

def finishNode : Step Builder Unit := do
  let o ← close .noOpenNode
  let slots ← drain o.first
  let node ← .lift (Node.make (← fresh) o.kind slots)
  .modify (·.push node.toSlot)

def startList : Step Builder Unit := startNode .list

/-- Closes a list; an empty one leaves an absent slot. -/
def finishList : Step Builder Unit := do
  let o ← close .noOpenList
  if o.kind.isList then
    let slots ← drain o.first
    let list ← .lift (Node.makeList (← fresh) slots)
    .modify (·.push list)
  else .fail (.openNotList o.kind)

/-- The token without trivia that has been made before. -/
def cached? (b : Builder) (kind : Kind) (width : Nat) : Option Token :=
  b.cache.find? fun t => t.kind == kind && t.width == width

def plainToken (kind : Kind) (width : Nat) : Step Builder Unit := do
  let b ← .get
  match b.cached? kind width with
  | some t => .set (b.push t.toSlot)
  | none =>
    let t := Token.plain b.nextId kind width
    .set ({ b with cache := b.cache ++ [t], nextId := b.nextId + 1 }.push t.toSlot)

/-- Adds a token behind pieces of trivia. -/
def token (pieces : List TriviaPiece) (kind : Kind) (width : Nat) : Step Builder Unit :=
  if pieces.isEmpty then plainToken kind width
  else do
    let b ← .get
    let leading ← .lift (triviaOfPieces b.nextId pieces)
    let t ← .lift (Token.make (b.nextId + pieces.length + 1) leading kind width)
    .set ({ b with nextId := b.nextId + pieces.length + 2 }.push t.toSlot)

def missing (kind : Kind) (diagnostics : List Diagnostic) : Step Builder Unit := do
  let b ← .get
  let t ← .lift (Token.makeMissing b.nextId .absent kind diagnostics)
  .set ({ b with nextId := b.nextId + 1 }.push t.toSlot)

def absent : Step Builder Unit := .modify (·.push .absent)

def element (fact : Slot) : Step Builder Unit := .modify (·.push fact)

def apply : Event → Step Builder Unit
  | .startNode kind => startNode kind
  | .finishNode => finishNode
  | .startList => startList
  | .finishList => finishList
  | .token pieces kind width => token pieces kind width
  | .missing kind diagnostics => missing kind diagnostics
  | .absent => absent
  | .element fact => element fact

def finish (b : Builder) : Except Fault Node :=
  if b.opened.isEmpty then
    match b.children with
    | [.node head slots] => .ok ⟨head, slots⟩
    | [other] => .error (.rootNotNode other)
    | children => .error (.rootCount children.length)
  else .error (.nodesLeftOpen (b.opened.reverse.map fun o => (o.kind, o.first)))

/-- Gives the builder up, which is only right while nothing is open. -/
def abandon (b : Builder) : Except Fault Unit :=
  if b.opened.isEmpty then .ok () else .error .builderAbandoned

end Builder

end LosslessSyntax
