import LosslessSyntax.NodeOrToken
import LosslessSyntax.Step
import LosslessSyntax.Fact.Report
import LosslessSyntax.Fact.Make

/-!
# Positioned views

A fact does not know where it stands. A `View` adds that: the view of its parent, its slot there, and
its absolute offset. Views are made when they are first asked for, kept in the tree by number, and
found again through the slots of their parent.

* `SyntaxTree` : a tree of facts with the views made so far; `NodeRef`, `TokenRef` name a view;
* `SyntaxTree.childView` : the one operation that makes views; everything else asks through `NodeRef.childAt`;
* `View.fullSpan`, `View.span` : the positions of a view, with and without leading trivia;
* `SyntaxTree.factAt` : the fact of a view, found from the root.

The slot of a view in its parent is an unbounded number; a node is taken to have fewer than 2^32 slots, so that it
fits into 32 bits.
-/

set_option autoImplicit false

namespace LosslessSyntax

/-- What is known of a child slot of a view. -/
inductive ChildView where
  | unseen
  /-- The slot is empty. -/
  | absent
  | present (id : Nat)
deriving DecidableEq, Repr, Inhabited

/-- A fact at its place in the text. -/
structure View where
  fact : Slot
  /-- The view of the parent; the root has none. -/
  parent : Option Nat
  /-- The slot in the parent. -/
  index : Nat
  /-- The absolute start, leading trivia included. -/
  offset : Nat
  slots : List ChildView
deriving Repr, Inhabited

namespace View

/-- The range with the leading trivia of the first token. -/
def fullSpan (v : View) : Except Fault Range := do Range.ofWidth v.offset (← v.fact.fullWidth)

/-- The range without the leading trivia of the first token. -/
def span (v : View) : Except Fault Range := do
  Range.ofWidth (← Size.add v.offset (← v.fact.leadingWidth)) (← v.fact.width)

def leadingSpan (v : View) : Except Fault Range := do Range.ofWidth v.offset (← v.fact.leadingWidth)

end View

/-- A tree of facts with the views made so far. -/
structure SyntaxTree where
  root : Node
  views : Array View
deriving Inhabited

structure NodeRef where
  id : Nat
deriving DecidableEq, Repr, Inhabited

structure TokenRef where
  id : Nat
deriving DecidableEq, Repr, Inhabited

abbrev ElementRef := NodeOrToken NodeRef TokenRef

def ElementRef.id : ElementRef → Nat
  | .node n => n.id
  | .token t => t.id

/-- A computation that may make views. -/
abbrev Nav := Step SyntaxTree

namespace SyntaxTree

def newView (fact : Slot) (parent : Option Nat) (index offset : Nat) : View :=
  ⟨fact, parent, index, offset, List.replicate fact.count .unseen⟩

/-- The tree with the view of its root, which starts at offset 0. -/
def ofRoot (root : Node) : SyntaxTree := ⟨root, #[newView root.toSlot none 0 0]⟩

def rootRef : NodeRef := ⟨0⟩

def materialized (t : SyntaxTree) : Nat := t.views.size

def text (t : SyntaxTree) : String :=
  "SyntaxTree \x7b full_width: " ++ toString t.root.fullWidth ++ ", materialized: " ++ toString t.materialized ++
    ", .. \x7d"

def view (id : Nat) : Nav View := do
  let t ← .get
  match t.views[id]? with
  | some v => return v
  | none => .fail (.viewUnknown t.views.size id)

/-- The tree with what is now known of a child slot. -/
def setSlot (t : SyntaxTree) (parent index : Nat) (known : ChildView) : SyntaxTree :=
  { t with views := t.views.modify parent fun v => { v with slots := v.slots.set index known } }

def addView (t : SyntaxTree) (fact : Slot) (parent index offset : Nat) : SyntaxTree :=
  let linked := t.setSlot parent index (.present t.views.size)
  { linked with views := linked.views.push (newView fact (some parent) index offset) }

/-- The view of a child, made when it is first asked for. -/
def childView (parent index : Nat) : Nav (Option Nat) := do
  let v ← view parent
  match v.slots[index]? with
  | none => return none
  | some (.present id) => return some id
  | some .absent => return none
  | some .unseen =>
    match v.fact with
    | .node head slots =>
      let n : Node := ⟨head, slots⟩
      let offset ← .lift (do Size.add v.offset (← n.offsetAt index))
      let t ← .get
      if (n.childAt index).isPresent then
        .set (t.addView (n.childAt index) parent index offset)
        return some t.views.size
      else
        .set (t.setSlot parent index .absent)
        return none
    | _ => .fail .childSlotsOfToken

def element (id : Nat) : Nav ElementRef := do
  let v ← view id
  return if v.fact.isNode then .node ⟨id⟩ else .token ⟨id⟩

/-- The slots that lead from the root to a view, in at most `fuel` steps up. -/
def pathWithin : Nat → Nat → Nav (List Nat)
  | 0, _ => return []
  | fuel + 1, id => do
    let v ← view id
    match v.parent with
    | none => return []
    | some parent => return (← pathWithin fuel parent) ++ [v.index]

/-- The fact at the end of a path of slots. -/
def descend (s : Slot) : List Nat → Except Fault Slot
  | [] => .ok s
  | index :: rest =>
    match s with
    | .node head slots =>
      let child := (⟨head, slots⟩ : Node).childAt index
      if child.isPresent then descend child rest else .error .viewOfAbsentSlot
    | _ => .error .viewUnderToken

/-- The fact of a view, found from the root. A view is made after its parent, so its number bounds the
way up. -/
def factAt (id : Nat) : Nav Slot := do
  let path ← pathWithin (id + 1) id
  let t ← .get
  .lift (descend t.root.toSlot path)

def reportAt (id : Nat) : Nav Report := do
  let fact ← factAt id
  let v ← view id
  return fact.report v.offset

def ancestorsWithin : Nat → Nat → Nav (List NodeRef)
  | 0, _ => return []
  | fuel + 1, id => do
    match (← view id).parent with
    | none => return []
    | some parent => return ⟨parent⟩ :: (← ancestorsWithin fuel parent)

end SyntaxTree

namespace NodeRef

open SyntaxTree (view childView element)

def node (h : NodeRef) : Nav Node := do
  match (← view h.id).fact with
  | .node head slots => return ⟨head, slots⟩
  | _ => .fail .nodeViewOverToken

def kind (h : NodeRef) : Nav Kind := return (← h.node).kind

/-- The number of child slots, absent ones included. -/
def count (h : NodeRef) : Nav Nat := return (← view h.id).slots.length

def fullSpan (h : NodeRef) : Nav Range := do .lift (← view h.id).fullSpan

def span (h : NodeRef) : Nav Range := do .lift (← view h.id).span

def parent (h : NodeRef) : Nav (Option NodeRef) := return (← view h.id).parent.map (⟨·⟩)

/-- The slot in the parent; the root has none. -/
def index (h : NodeRef) : Nav (Option Nat) := do
  let v ← view h.id
  return v.parent.map fun _ => v.index

/-- The child in a slot; none in an absent slot or past the end. -/
def childAt (h : NodeRef) (index : Nat) : Nav (Option ElementRef) := do
  match ← childView h.id index with
  | some id => return some (← element id)
  | none => return none

def childNodeAt (h : NodeRef) (index : Nat) : Nav (Option NodeRef) :=
  return (← h.childAt index).bind (·.node?)

def childrenIn (h : NodeRef) (indices : List Nat) : Nav (List ElementRef) :=
  return (← indices.mapM' h.childAt).filterMap fun child => child

def children (h : NodeRef) : Nav (List ElementRef) := do h.childrenIn (List.range (← h.count))

def childrenRev (h : NodeRef) : Nav (List ElementRef) := do h.childrenIn (List.range (← h.count)).reverse

def ancestors (h : NodeRef) : Nav (List NodeRef) := SyntaxTree.ancestorsWithin (h.id + 1) h.id

def ancestorsAndSelf (h : NodeRef) : Nav (List NodeRef) := return h :: (← h.ancestors)

/-- The closest node of a kind, from this one upwards. -/
def firstOfKind? (kind : Kind) : List NodeRef → Nav (Option NodeRef)
  | [] => return none
  | h :: rest => do if (← h.kind) == kind then return some h else firstOfKind? kind rest

def text (h : NodeRef) : Nav String := return (← h.kind).text ++ "@" ++ (← h.fullSpan).text

end NodeRef

namespace TokenRef

open SyntaxTree (view)

def token (h : TokenRef) : Nav Token := do
  match (← view h.id).fact with
  | .token head leading => return ⟨head, leading⟩
  | _ => .fail .tokenViewOverNode

def kind (h : TokenRef) : Nav Kind := return (← h.token).kind

def fullSpan (h : TokenRef) : Nav Range := do .lift (← view h.id).fullSpan

def span (h : TokenRef) : Nav Range := do .lift (← view h.id).span

def leadingSpan (h : TokenRef) : Nav Range := do .lift (← view h.id).leadingSpan

def parent (h : TokenRef) : Nav NodeRef := do
  match (← view h.id).parent with
  | some parent => return ⟨parent⟩
  | none => .fail .tokenViewWithoutParent

def index (h : TokenRef) : Nav Nat := return (← view h.id).index

def ancestors (h : TokenRef) : Nav (List NodeRef) := SyntaxTree.ancestorsWithin (h.id + 1) h.id

def text (h : TokenRef) : Nav String := return (← h.kind).text ++ "@" ++ (← h.span).text

end TokenRef

def ElementRef.fullSpan (e : ElementRef) : Nav Range := do .lift (← SyntaxTree.view e.id).fullSpan

end LosslessSyntax
