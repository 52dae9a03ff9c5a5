import LosslessSyntax.Kind
import LosslessSyntax.Flags
import LosslessSyntax.Diagnostic
import LosslessSyntax.Shape

/-!
# Facts: the immutable tree

A fact records kind and width of a piece of text but not its position, so one fact can stand in
several places. `Token` is a terminal with its leading trivia, `Node` has an ordered run of slots, and
`Slot` is a place for a fact: it holds a token or a node, or is `absent`.

Every fact carries the number of its instance: two facts with one number are one and the same fact,
shared; facts that merely look alike have different numbers. Whoever makes facts hands out the
numbers.
-/

set_option autoImplicit false

namespace LosslessSyntax

/-- What a token records besides its leading trivia; `width` is that of its own text. -/
structure TokenHead where
  id : Nat
  kind : Kind
  flags : Flags
  width : Nat
  diagnostics : List Diagnostic
deriving DecidableEq, Repr, Inhabited

/-- What a node records besides its slots; `fullWidth` is the sum of the widths of its children. -/
structure NodeHead where
  id : Nat
  kind : Kind
  flags : Flags
  fullWidth : Nat
  layout : Layout
  diagnostics : List Diagnostic
deriving DecidableEq, Repr, Inhabited

/-- A place for a fact. An absent slot keeps its place among the children of a node. The slot in a
token is its leading trivia. -/
inductive Slot where
  | absent
  | token (head : TokenHead) (leading : Slot)
  | node (head : NodeHead) (slots : List Slot)
deriving Repr, Inhabited

/-- A terminal: a piece of text with the trivia in front of it. -/
structure Token where
  head : TokenHead
  leading : Slot
deriving Repr, Inhabited

/-- An inner fact with its children in order. -/
structure Node where
  head : NodeHead
  slots : List Slot
deriving Repr, Inhabited

def Token.toSlot (t : Token) : Slot := .token t.head t.leading

def Node.toSlot (n : Node) : Slot := .node n.head n.slots

namespace Token

abbrev kind (t : Token) : Kind := t.head.kind

abbrev flags (t : Token) : Flags := t.head.flags

abbrev width (t : Token) : Nat := t.head.width

abbrev diagnostics (t : Token) : List Diagnostic := t.head.diagnostics

abbrev isMissing (t : Token) : Bool := t.head.flags.isMissing

end Token

namespace Node

abbrev kind (n : Node) : Kind := n.head.kind

abbrev flags (n : Node) : Flags := n.head.flags

abbrev fullWidth (n : Node) : Nat := n.head.fullWidth

abbrev shape (n : Node) : Shape := n.head.layout.shape

abbrev diagnostics (n : Node) : List Diagnostic := n.head.diagnostics

abbrev count (n : Node) : Nat := n.slots.length

/-- The slot at `index`; absent past the end. -/
def childAt (n : Node) (index : Nat) : Slot := n.slots[index]?.getD .absent

end Node

namespace Slot

def isPresent : Slot → Bool
  | absent => false
  | _ => true

def isNode : Slot → Bool
  | node _ _ => true
  | _ => false

def node? : Slot → Option Node
  | node head slots => some ⟨head, slots⟩
  | _ => none

def token? : Slot → Option Token
  | token head leading => some ⟨head, leading⟩
  | _ => none

def kind? : Slot → Option Kind
  | absent => none
  | token head _ => some head.kind
  | node head _ => some head.kind

def id? : Slot → Option Nat
  | absent => none
  | token head _ => some head.id
  | node head _ => some head.id

def flags : Slot → Flags
  | absent => Flags.none
  | token head _ => head.flags
  | node head _ => head.flags

def diagnostics : Slot → List Diagnostic
  | absent => []
  | token head _ => head.diagnostics
  | node head _ => head.diagnostics

def slots : Slot → List Slot
  | node _ slots => slots
  | _ => []

abbrev count (s : Slot) : Nat := s.slots.length

def sameInstance (s t : Slot) : Bool :=
  match s, t with
  | token a _, token b _ => a.id == b.id
  | node a _, node b _ => a.id == b.id
  | _, _ => false

end Slot

end LosslessSyntax
