import LosslessSyntax.View.Token

/-!
# Pointers to nodes

A `NodePointer` names a node by its kind and span, and outlives the views. Several nodes can share both;
the pointer then means the first of them in document order.
-/

set_option autoImplicit false

namespace LosslessSyntax

structure NodePointer where
  kind : Kind
  range : Range
deriving DecidableEq, Repr, Inhabited

namespace NodePointer

def ofNode (h : NodeRef) : Nav NodePointer := return ⟨← h.kind, ← h.span⟩

def text (p : NodePointer) : String :=
  Text.record "SyntaxNodePtr" [("kind", p.kind.text), ("range", p.range.text)]

/-- The nodes whose full span covers the range, in order. -/
def covering (p : NodePointer) : List ElementRef → Nav (List NodeRef)
  | [] => return []
  | .token _ :: rest => covering p rest
  | .node n :: rest => do
    let covers := (← n.fullSpan).containsRange p.range
    let others ← covering p rest
    return if covers then n :: others else others

/-- The first match among the nodes on the stack and those under them, in at most `fuel` steps. -/
def search (p : NodePointer) : Nat → List NodeRef → Nav (Option NodeRef)
  | 0, _ => return none
  | _ + 1, [] => return none
  | fuel + 1, h :: stack => do
    if (← h.kind) == p.kind && (← h.span) == p.range then return some h
    else search p fuel ((← covering p (← h.children)) ++ stack)

/-- The node meant, found from the root; a node that is not the root leads nowhere. -/
def resolve? (p : NodePointer) (root : NodeRef) : Nav (Option NodeRef) := do
  if (← root.parent).isSome || !(← root.fullSpan).containsRange p.range then return none
  else search p ((← root.node).toSlot.size + 1) [root]

/-- The node meant, which has to be there. -/
def resolve (p : NodePointer) (root : NodeRef) : Nav NodeRef := do
  match ← p.resolve? root with
  | some h => return h
  | none => .fail .pointerUnresolved

end NodePointer

end LosslessSyntax
