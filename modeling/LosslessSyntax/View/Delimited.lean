import LosslessSyntax.View.Tree

/-!
# Delimited lists

The slots of a delimited list hold items and separators in turn, beginning with an item. The list may
end in a separator.
-/

set_option autoImplicit false

namespace LosslessSyntax

/-- A node whose slots hold items and separators in turn. -/
structure DelimitedList where
  list : NodeRef
deriving DecidableEq, Repr, Inhabited

namespace DelimitedList

def itemCount (l : DelimitedList) : Nav Nat := return ((← l.list.count) + 1) / 2

def separatorCount (l : DelimitedList) : Nav Nat := return (← l.list.count) / 2

def item (l : DelimitedList) (number : Nat) : Nav (Option ElementRef) := l.list.childAt (2 * number)

def separator (l : DelimitedList) (number : Nat) : Nav (Option TokenRef) :=
  return (← l.list.childAt (2 * number + 1)).bind (·.token?)

def itemsIn (l : DelimitedList) (numbers : List Nat) : Nav (List ElementRef) :=
  return (← numbers.mapM' l.item).filterMap fun item => item

def separatorsIn (l : DelimitedList) (numbers : List Nat) : Nav (List TokenRef) :=
  return (← numbers.mapM' l.separator).filterMap fun separator => separator

def items (l : DelimitedList) : Nav (List ElementRef) := do l.itemsIn (List.range (← l.itemCount))

def itemsRev (l : DelimitedList) : Nav (List ElementRef) := do l.itemsIn (List.range (← l.itemCount)).reverse

def separators (l : DelimitedList) : Nav (List TokenRef) := do
  l.separatorsIn (List.range (← l.separatorCount))

def separatorsRev (l : DelimitedList) : Nav (List TokenRef) := do
  l.separatorsIn (List.range (← l.separatorCount)).reverse

def hasTrailingSeparator (l : DelimitedList) : Nav Bool := do
  let count ← l.list.count
  return count != 0 && count % 2 == 0

def pairs (l : DelimitedList) : Nav (List (Option ElementRef × Option TokenRef)) := do
  (List.range (← l.itemCount)).mapM' fun number => return (← l.item number, ← l.separator number)

def text (l : DelimitedList) : Nav String := return Text.record "DelimitedList" [("list", ← l.list.text)]

end DelimitedList

end LosslessSyntax
