import LosslessSyntax.Fact

/-!
# The tokens of a fact

* `Slot.tokens` : every token of a fact in document order, leading trivia left out, by a walk that
  keeps the facts still to be visited on a stack;
* `Slot.firstToken?`, `Slot.lastToken?` : the outermost tokens, by descent through the first or last
  child that has any.
-/

set_option autoImplicit false

namespace LosslessSyntax.Slot

theorem sizeOf_append (ss ts : List Slot) : sizeOf (ss ++ ts) + 1 = sizeOf ss + sizeOf ts := by
  induction ss with
  | nil => simp only [List.nil_append, List.nil.sizeOf_spec]; omega
  | cons s rest ih => simp only [List.cons_append, List.cons.sizeOf_spec]; omega

/-- The tokens of the facts on the stack, topmost fact first. -/
def walkTokens : List Slot → List Token
  | [] => []
  | .absent :: stack => walkTokens stack
  | .token head leading :: stack => ⟨head, leading⟩ :: walkTokens stack
  | .node _ slots :: stack => walkTokens (slots ++ stack)
termination_by stack => sizeOf stack
decreasing_by
  all_goals simp only [List.cons.sizeOf_spec, Slot.absent.sizeOf_spec, Slot.token.sizeOf_spec,
    Slot.node.sizeOf_spec]
  · omega
  · omega
  · have := sizeOf_append slots stack
    omega

/-- Every token of the fact in document order, leading trivia left out. -/
def tokens (s : Slot) : List Token := walkTokens [s]

mutual

def firstToken? : Slot → Option Token
  | .absent => none
  | .token head leading => some ⟨head, leading⟩
  | .node _ slots => firstTokenIn? slots

/-- The first token of the first slot that has one. -/
def firstTokenIn? : List Slot → Option Token
  | [] => none
  | s :: rest =>
    match s.firstToken? with
    | some t => some t
    | none => firstTokenIn? rest

end

mutual

def lastToken? : Slot → Option Token
  | .absent => none
  | .token head leading => some ⟨head, leading⟩
  | .node _ slots => lastTokenIn? slots

/-- The last token of the last slot that has one. -/
def lastTokenIn? : List Slot → Option Token
  | [] => none
  | s :: rest =>
    match lastTokenIn? rest with
    | some t => some t
    | none => s.lastToken?

end

end LosslessSyntax.Slot
