import LosslessSyntax.View.Token

/-!
# Dumps

A dump shows a subtree with one line for every element, indented by its depth: nodes with their full
span, tokens with their span and trivia, each followed by its own diagnostics.
-/

set_option autoImplicit false

namespace LosslessSyntax

namespace Text

def indent (depth : Nat) : String := String.ofList (List.replicate (2 * depth) ' ')

/-- The places of the diagnostics of one owner, each behind a blank. -/
def places (spanStart : Nat) : List Diagnostic → Except Fault String
  | [] => .ok ""
  | d :: rest => do
    let r ← d.resolve spanStart
    return " " ++ r.placeText ++ (← places spanStart rest)

/-- Each piece of trivia with its range and diagnostics, the first one starting at `offset`. -/
def triviaTexts (offset : Nat) : List Token → Except Fault (List String)
  | [] => .ok []
  | t :: rest => do
    let range ← Range.ofWidth offset (← t.fullWidth)
    let text := t.kind.text ++ "@" ++ range.text ++ (← places range.start t.diagnostics)
    return text :: (← triviaTexts range.stop rest)

end Text

def TokenRef.dumpLine (h : TokenRef) (depth : Nat) : Nav String := do
  let v ← SyntaxTree.view h.id
  let token ← h.token
  let span ← h.span
  let trivia ←
    if token.leading.isPresent then
      .lift (do
        let pieces ← Text.triviaTexts v.offset token.leading.tokens
        return " (" ++ ", ".intercalate pieces ++ ")")
    else pure ""
  let mark := if token.isMissing then " missing" else ""
  let places ← .lift (Text.places span.start token.diagnostics)
  return Text.indent depth ++ token.kind.text ++ "@" ++ span.text ++ trivia ++ mark ++ places ++ "\n"

namespace NodeRef

/-- The lines of a node and of what is under it, at most `fuel` levels down. -/
def dumpWithin : Nat → Nat → NodeRef → Nav String
  | 0, _, _ => return ""
  | fuel + 1, depth, h => do
    let node ← h.node
    let full ← h.fullSpan
    let span ← h.span
    let places ← .lift (Text.places span.start node.diagnostics)
    let lines ← (List.range (← h.count)).mapM' fun index => do
      match ← h.childAt index with
      | some (.node n) => dumpWithin fuel (depth + 1) n
      | some (.token t) => t.dumpLine (depth + 1)
      | none => return Text.indent (depth + 1) ++ "<absent>\n"
    return Text.indent depth ++ node.kind.text ++ "@" ++ full.text ++ places ++ "\n" ++ String.join lines

def dump (h : NodeRef) : Nav String := do dumpWithin (← h.node).toSlot.height 0 h

end NodeRef

end LosslessSyntax
