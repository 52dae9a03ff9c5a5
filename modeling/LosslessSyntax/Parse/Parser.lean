import LosslessSyntax.KindSet
import LosslessSyntax.Step
import LosslessSyntax.Parse.TokenBuffer
import LosslessSyntax.Parse.Checkpoint

/-!
# The parser

The parser pulls tokens from a buffer and builds a tree from the bottom up. Finished output lies on one
stack; completing a marker wraps what has been put there since the marker was started. Input that fits
no production is skipped: it waits, and becomes leading trivia of the next token that is consumed or
found missing, so the tree always holds all of the input.

* consuming: `advance`, `eat`, `expect`, `require`, `missing`, `absent`;
* recovering: `skip`, `skipUntil`, `recover`;
* wrapping: `Parser.start`, `Marker.complete`, `Marker.completeList`, `CompletedMarker.precede`;
* going back: `Parser.checkpoint`, `rewind`. Every write to the stack gets a new stamp, which is how a
  rewind notices that output from before the checkpoint has been wrapped since.

The position of a marker is an unbounded number; the stack is taken to have fewer than 2^32 entries, so that
it fits into 32 bits.
-/

set_option autoImplicit false

namespace LosslessSyntax

/-- Why a production gave up. -/
inductive Mismatch where
  | expected (wanted found : Kind)
  | notApplicable
deriving DecidableEq, Repr, Inhabited

namespace Mismatch

def message : Mismatch → String
  | expected wanted found => s!"expected `{wanted.text}`, found `{found.text}`"
  | notApplicable => "production does not apply here"

def text : Mismatch → String
  | expected wanted found => Text.record "Expected" [("expected", wanted.text), ("found", found.text)]
  | notApplicable => "NotApplicable"

end Mismatch

/-- Finished output with the stamp of the write that put it on the stack. -/
structure Output where
  slot : Slot
  stamp : Nat
deriving Repr, Inhabited

structure Parser where
  source : TokenBuffer
  context : ParseContext := {}
  /-- The output stack, the oldest entry first. -/
  outputs : List Output := []
  /-- Skipped text that waits for the next token. -/
  skipped : List Slot := []
  /-- The stamp of the latest write to the stack. -/
  stamp : Nat := 0
  /-- The number of the next new instance. -/
  nextId : Nat := 0
deriving Repr, Inhabited

/-- A place on the output stack; what comes above it will be wrapped. -/
structure Marker where
  position : Nat
deriving DecidableEq, Repr, Inhabited

/-- A marker that has been wrapped into a node. -/
structure CompletedMarker where
  position : Nat
  kind : Kind
deriving DecidableEq, Repr, Inhabited

/-- A missing token is reported where it should have been. -/
def Diagnostic.ofMissing : Diagnostic := .error expectedToken 0 0

/-- Skipped text is reported over its whole width. -/
def Diagnostic.ofSkipped (width : Nat) : Diagnostic := .error skippedText 0 width

def Token.skipped (id width : Nat) : Token :=
  assemble id .absent .skippedTokens width false [.ofSkipped width]

namespace Parser

def peek (p : Parser) : Kind := p.source.current.kind

/-- The number of tokens consumed or skipped. -/
def offset (p : Parser) : Nat := p.source.pos

def isAt (p : Parser) (kind : Kind) : Bool := p.peek == kind

def isAtAny (p : Parser) (kinds : KindSet) : Bool := kinds.contains p.peek

/-- Puts output on the stack under a new stamp. -/
def push (p : Parser) (s : Slot) : Parser :=
  { p with outputs := p.outputs ++ [⟨s, p.stamp + 1⟩], stamp := p.stamp + 1 }

/-- Consumes the current token, whatever it is, behind the skipped text and its own trivia. -/
def bump : Step Parser Unit := do
  let p ← .get
  let t := p.source.current
  let n := p.nextId
  .set { p with skipped := [] }
  let leading ← .lift (packTrivia (n + t.leading.length) (p.skipped ++ TriviaPiece.toSlots n t.leading))
  let token ← .lift (Token.make (n + t.leading.length + 1) leading t.kind t.width)
  .modify fun q => { q.push token.toSlot with source := q.source.bump, nextId := n + t.leading.length + 2 }

/-- Consumes the current token; does nothing at the end. -/
def advance : Step Parser Unit := do
  let p ← .get
  if p.isAt .eof then return () else bump

def eat (kind : Kind) : Step Parser Bool := do
  let p ← .get
  if p.isAt kind then
    advance
    return true
  else return false

/-- Adds a missing token behind the skipped text. -/
def missing (kind : Kind) : Step Parser Unit := do
  let p ← .get
  .set { p with skipped := [] }
  let leading ← .lift (packTrivia p.nextId p.skipped)
  let token ← .lift (Token.makeMissing (p.nextId + 1) leading kind [.ofMissing])
  .modify fun q => { q.push token.toSlot with nextId := p.nextId + 2 }

/-- Consumes a token of this kind, or adds a missing one. -/
def expect (kind : Kind) : Step Parser Bool := do
  if ← eat kind then return true
  else
    missing kind
    return false

/-- Consumes a token of this kind, or says why it cannot. -/
def require (kind : Kind) : Step Parser (Except Mismatch Unit) := do
  if ← eat kind then return .ok ()
  else return .error (.expected kind (← .gets peek))

def absent (p : Parser) : Parser := p.push .absent

/-- Turns the current token into skipped text; does nothing at the end. -/
def skip (p : Parser) : Parser :=
  if p.isAt .eof then p
  else
    let t := p.source.current
    { p with
      skipped := p.skipped ++ TriviaPiece.toSlots p.nextId t.leading
        ++ [(Token.skipped (p.nextId + t.leading.length) t.width).toSlot]
      source := p.source.bump
      nextId := p.nextId + t.leading.length + 1 }

/-- Skips at most `n` tokens, and none from the first on that is `EOF` or in `recovery`. -/
def skipAtMost (recovery : KindSet) : Nat → Parser → Parser
  | 0, p => p
  | n + 1, p => if p.isAt .eof || p.isAtAny recovery then p else skipAtMost recovery n p.skip

/-- Skips up to the first token that is `EOF` or in `recovery`. The buffer ends in `EOF`, so the tokens
that remain in front of it are all that can be skipped. -/
def skipUntil (recovery : KindSet) (p : Parser) : Parser := skipAtMost recovery p.source.remaining p

/-- Skips to `recovery`, then demands the expected token. -/
def recover (expected : Kind) (recovery : KindSet) : Step Parser Unit := do
  .modify (skipUntil recovery)
  let _ ← expect expected

def fresh : Step Parser Nat := fun p => (.ok p.nextId, { p with nextId := p.nextId + 1 })

/-- Skips what is left, consumes the `EOF` token, and wraps all output into the root. -/
def finish (kind : Kind) : Step Parser Node := do
  .modify (skipUntil .empty)
  bump
  let p ← .get
  .lift (Node.make (← fresh) kind (p.outputs.map (·.slot)))

/-! ## Markers -/

/-- A marker at the top of the stack. -/
def start (p : Parser) : Marker := ⟨p.outputs.length⟩

/-- Takes the output above the marker off the stack. -/
def drain (m : Marker) : Step Parser (List Slot) := do
  let p ← .get
  if m.position ≤ p.outputs.length then
    .set { p with outputs := p.outputs.take m.position }
    return (p.outputs.drop m.position).map (·.slot)
  else .fail .markerDropped

/-! ## Checkpoints -/

def checkpoint (p : Parser) : Checkpoint where
  context := p.context
  snapshot := p.source.pos
  offset := p.source.pos
  height := p.outputs.length
  stamp := p.stamp
  skipped := p.skipped

/-- The output below the checkpoint is still there: the stack is high enough, and the topmost entry of
that output was not written after the checkpoint. -/
def canRewind (p : Parser) (c : Checkpoint) : Bool :=
  decide (c.height ≤ p.outputs.length) &&
    (c.height == 0 || (p.outputs[c.height - 1]?).all fun o => decide (o.stamp ≤ c.stamp))

/-- Returns to the checkpoint and drops what has been produced since. -/
def rewind (c : Checkpoint) : Step Parser Unit := do
  let p ← .get
  if p.canRewind c then
    .set { p with outputs := p.outputs.take c.height, skipped := c.skipped }
    let source ← .lift (p.source.restore c.snapshot)
    .modify fun q => { q with source := source, context := c.context }
  else .fail .checkpointWrapped

end Parser

namespace Marker

def complete (m : Marker) (kind : Kind) : Step Parser CompletedMarker := do
  let slots ← Parser.drain m
  let node ← .lift (Node.make (← Parser.fresh) kind slots)
  .modify (·.push node.toSlot)
  return ⟨m.position, kind⟩

/-- Wraps what has been produced since the marker into a list. An empty list leaves an absent slot and
no completed marker. -/
def completeList (m : Marker) : Step Parser (Option CompletedMarker) := do
  let slots ← Parser.drain m
  let list ← .lift (Node.makeList (← Parser.fresh) slots)
  .modify (·.push list)
  return if list.isPresent then some ⟨m.position, .list⟩ else none

/-- Losing a marker that is neither completed nor abandoned is a fault. -/
def lose (_ : Marker) : Except Fault Unit := .error .markerAbandoned

end Marker

/-- A marker in front of the completed node, which becomes the first child of what the new marker
wraps. -/
def CompletedMarker.precede (c : CompletedMarker) : Marker := ⟨c.position⟩

end LosslessSyntax
