import LosslessSyntax.Fact

/-!
# Facts on one line

A token leaves out leading trivia, the mark of a missing token and diagnostics when it has none; a
node always shows all its fields.
-/

set_option autoImplicit false

namespace LosslessSyntax.Slot

mutual

def text : Slot → String
  | .absent => "None"
  | .token head leading =>
    Text.call "Token" [Text.record "GreenToken"
      ([("kind", head.kind.text), ("width", toString head.width)]
        ++ (if leading.isPresent then [("leading", leading.text)] else [])
        ++ (if head.flags.isMissing then [("missing", "true")] else [])
        ++ (if head.diagnostics.isEmpty then []
            else [("diagnostics", Diagnostic.listText head.diagnostics)]))]
  | .node head slots =>
    Text.call "Node" [Text.record "GreenNode"
      [("kind", head.kind.text), ("shape", head.layout.shape.text), ("full_width", toString head.fullWidth),
        ("flags", head.flags.text), ("diagnostics", Diagnostic.listText head.diagnostics),
        ("children", Text.list (slotTexts slots))]]

def slotTexts : List Slot → List String
  | [] => []
  | s :: rest => (if s.isPresent then Text.call "Some" [s.text] else "None") :: slotTexts rest

end

def optionText (s : Slot) : String := if s.isPresent then Text.call "Some" [s.text] else "None"

end LosslessSyntax.Slot
