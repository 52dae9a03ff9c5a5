import LosslessSyntax.Text.Layout

/-!
# Nodes or tokens

`NodeOrToken ν τ` is either a node or a token. Every node comes before every token in its order.
-/

set_option autoImplicit false

namespace LosslessSyntax

inductive NodeOrToken (ν τ : Type) where
  | node (n : ν)
  | token (t : τ)
deriving DecidableEq, Repr

namespace NodeOrToken

variable {ν τ : Type}

def node? : NodeOrToken ν τ → Option ν
  | node n => some n
  | token _ => none

def token? : NodeOrToken ν τ → Option τ
  | node _ => none
  | token t => some t

/-- Nodes come before tokens; among their own, the given orders decide. -/
def compareWith (nodes : ν → ν → Ordering) (tokens : τ → τ → Ordering) :
    NodeOrToken ν τ → NodeOrToken ν τ → Ordering
  | node a, node b => nodes a b
  | node _, token _ => .lt
  | token _, node _ => .gt
  | token a, token b => tokens a b

def bareText (nodeText : ν → String) (tokenText : τ → String) : NodeOrToken ν τ → String
  | node n => nodeText n
  | token t => tokenText t

/-- The text that also says which of the two it is. -/
def text (nodeText : ν → String) (tokenText : τ → String) : NodeOrToken ν τ → String
  | node n => Text.call "Node" [nodeText n]
  | token t => Text.call "Token" [tokenText t]

end NodeOrToken

end LosslessSyntax
