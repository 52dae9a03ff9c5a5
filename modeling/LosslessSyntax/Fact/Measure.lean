import LosslessSyntax.Fact

/-!
# Height and size of a fact

`Slot.height` bounds a descent and `Slot.size` a walk through all the facts of a tree.
-/

set_option autoImplicit false

namespace LosslessSyntax.Slot

mutual

def height : Slot → Nat
  | .absent => 0
  | .token _ _ => 1
  | .node _ slots => 1 + heights slots

def heights : List Slot → Nat
  | [] => 0
  | s :: rest => max s.height (heights rest)

end

mutual

/-- The number of slots in the fact, its own included. -/
def size : Slot → Nat
  | .absent => 1
  | .token _ _ => 1
  | .node _ slots => 1 + sizes slots

def sizes : List Slot → Nat
  | [] => 0
  | s :: rest => s.size + sizes rest

end

end LosslessSyntax.Slot
