/-!
# Storage shapes of nodes

Most nodes have few children, so the storage of a node depends on their number. A `long` node keeps
the start of every child, so that a position is found by binary search; a `short` one adds up widths.

* `Shape.forCount` : the cheapest shape; `Shape.accepts` : the counts that a shape can hold;
* `Layout` : a shape together with what it stores besides the children.
-/

set_option autoImplicit false

namespace LosslessSyntax

/-- How a node stores its children. -/
inductive Shape where
  | empty | one | two
  /-- Three or more children; positions are found by adding up widths. -/
  | short
  /-- Three or more children with a table of their starts. -/
  | long
deriving DecidableEq, Repr, Inhabited

namespace Shape

def all : List Shape := [empty, one, two, short, long]

/-- Nodes with more children than this are `long` unless a shape is asked for. -/
def longThreshold : Nat := 10

def forCount : Nat → Shape
  | 0 => empty
  | 1 => one
  | 2 => two
  | n => if n ≤ longThreshold then short else long

def accepts (s : Shape) (count : Nat) : Bool :=
  match s with
  | empty => count == 0
  | one => count == 1
  | two => count == 2
  | short | long => decide (3 ≤ count)

def text : Shape → String
  | empty => "Empty"
  | one => "One"
  | two => "Two"
  | short => "Short"
  | long => "Long"

def ofText? (s : String) : Option Shape := all.find? (·.text == s)

end Shape

/-- A shape with what it stores besides the children: `long` has the start of every child, relative
to the start of the node. -/
inductive Layout where
  | empty | one | two | short
  | long (starts : Array Nat)
deriving DecidableEq, Repr, Inhabited

def Layout.shape : Layout → Shape
  | empty => .empty
  | one => .one
  | two => .two
  | short => .short
  | long _ => .long

end LosslessSyntax
