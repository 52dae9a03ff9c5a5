import LosslessSyntax.Proofs.View.Traversals

/-!
# The queries

All that can be asked of a tree: about a node, about a token, and about a walk under way and its events. A query may
make views, and its answer may hold the numbers of views, but none of them shows which views there were before.

* `NodeRef.Query`, `TokenRef.Query`, `Walk.Query` : what can be asked, with the types of the answers;
* `Walk.SkipRule` : the skips of a walk, chosen by the numbers of events and the kinds of nodes;
* `Query.alike` : two trees over the same facts give the same answer to a query about the same place.
-/

set_option autoImplicit false

namespace LosslessSyntax

open Placed (Same)

variable {w : TreePair}

/-- What can be asked about a node. -/
inductive NodeRef.Query where
  | node | kind | count | fullSpan | span | parent | index | text | fact | report
  | childAt (index : Nat) | childNodeAt (index : Nat) | children | childrenRev
  | ancestors | ancestorsAndSelf
  /-- The closest node of a kind, from this one upwards. -/
  | closest (kind : Kind)
  | slotIsMissing (index : Nat) | firstToken (withMissing : Bool) | lastToken (withMissing : Bool)
  | tokensOnward (withMissing : Bool) | tokensBackward (withMissing : Bool)
  | descendants | descendant (n : Nat)
  | tokenAt (offset : Nat) | nodeAt (span : Range) (innermost : Bool)
  | pointer | resolve? (p : NodePointer) | resolve (p : NodePointer)
  | dump
  -- the node as a delimited list
  | itemCount | separatorCount | item (number : Nat) | separator (number : Nat)
  | items | itemsRev | separators | separatorsRev | hasTrailingSeparator | pairs | listText

namespace NodeRef.Query

abbrev Answer : Query → Type
  | .node => Node
  | .kind => Kind
  | .count | .itemCount | .separatorCount => Nat
  | .fullSpan | .span => Range
  | .parent | .childNodeAt _ | .closest _ | .resolve? _ => Option NodeRef
  | .index => Option Nat
  | .text | .dump | .listText => String
  | .fact => Slot
  | .report => Report
  | .childAt _ | .item _ | .descendant _ => Option ElementRef
  | .children | .childrenRev | .descendants | .items | .itemsRev => List ElementRef
  | .ancestors | .ancestorsAndSelf => List NodeRef
  | .slotIsMissing _ | .hasTrailingSeparator => Bool
  | .firstToken _ | .lastToken _ | .separator _ => Option TokenRef
  | .tokensOnward _ | .tokensBackward _ | .separators | .separatorsRev => List TokenRef
  | .tokenAt _ => TokenAtOffset TokenRef
  | .nodeAt _ _ | .resolve _ => NodeRef
  | .pointer => NodePointer
  | .pairs => List (Option ElementRef × Option TokenRef)

instance (q : Query) : Placed q.Answer := by cases q <;> infer_instance

def run (h : NodeRef) : (q : Query) → Nav q.Answer
  | .node => h.node
  | .kind => h.kind
  | .count => h.count
  | .fullSpan => h.fullSpan
  | .span => h.span
  | .parent => h.parent
  | .index => h.index
  | .text => h.text
  | .fact => SyntaxTree.factAt h.id
  | .report => SyntaxTree.reportAt h.id
  | .childAt i => h.childAt i
  | .childNodeAt i => h.childNodeAt i
  | .children => h.children
  | .childrenRev => h.childrenRev
  | .ancestors => h.ancestors
  | .ancestorsAndSelf => h.ancestorsAndSelf
  | .closest wanted => do firstOfKind? wanted (← h.ancestorsAndSelf)
  | .slotIsMissing i => h.slotIsMissing i
  | .firstToken withMissing => h.firstToken withMissing
  | .lastToken withMissing => h.lastToken withMissing
  | .tokensOnward withMissing => h.tokensOnward withMissing
  | .tokensBackward withMissing => h.tokensBackward withMissing
  | .descendants => h.descendants
  | .descendant n => h.descendant? n
  | .tokenAt offset => h.tokenAt offset
  | .nodeAt around innermost => h.nodeAt around innermost
  | .pointer => NodePointer.ofNode h
  | .resolve? p => p.resolve? h
  | .resolve p => p.resolve h
  | .dump => h.dump
  | .itemCount => DelimitedList.itemCount ⟨h⟩
  | .separatorCount => DelimitedList.separatorCount ⟨h⟩
  | .item number => DelimitedList.item ⟨h⟩ number
  | .separator number => DelimitedList.separator ⟨h⟩ number
  | .items => DelimitedList.items ⟨h⟩
  | .itemsRev => DelimitedList.itemsRev ⟨h⟩
  | .separators => DelimitedList.separators ⟨h⟩
  | .separatorsRev => DelimitedList.separatorsRev ⟨h⟩
  | .hasTrailingSeparator => DelimitedList.hasTrailingSeparator ⟨h⟩
  | .pairs => DelimitedList.pairs ⟨h⟩
  | .listText => DelimitedList.text ⟨h⟩

theorem alike (q : Query) {h k : NodeRef} (hsame : Same w h k) : Alike w (q.run h) (q.run k) := by
  cases q with
  | node => exact node_alike hsame
  | kind => exact kind_alike hsame
  | count => exact count_alike hsame
  | fullSpan => exact fullSpan_alike hsame
  | span => exact span_alike hsame
  | parent => exact parent_alike hsame
  | index => exact index_alike hsame
  | text => exact text_alike hsame
  | fact => exact factAt_alike hsame
  | report => exact reportAt_alike hsame
  | childAt index => exact childAt_alike hsame index
  | childNodeAt index => exact childNodeAt_alike hsame index
  | children => exact children_alike hsame
  | childrenRev => exact childrenRev_alike hsame
  | ancestors => exact ancestors_alike hsame
  | ancestorsAndSelf => exact ancestorsAndSelf_alike hsame
  | closest kind => exact (ancestorsAndSelf_alike hsame).bind fun _ _ _ _ => firstOfKind?_alike kind
  | slotIsMissing index => exact slotIsMissing_alike hsame index
  | firstToken withMissing => exact firstToken_alike hsame withMissing
  | lastToken withMissing => exact lastToken_alike hsame withMissing
  | tokensOnward withMissing => exact tokensOnward_alike hsame withMissing
  | tokensBackward withMissing => exact tokensBackward_alike hsame withMissing
  | descendants => exact descendants_alike hsame
  | descendant n => exact descendant?_alike hsame n
  | tokenAt offset => exact tokenAt_alike hsame offset
  | nodeAt span innermost => exact nodeAt_alike hsame span innermost
  | pointer => exact NodePointer.ofNode_alike hsame
  | resolve? p => exact p.resolve?_alike hsame
  | resolve p => exact p.resolve_alike hsame
  | dump => exact dump_alike hsame
  | itemCount => exact DelimitedList.itemCount_alike hsame
  | separatorCount => exact DelimitedList.separatorCount_alike hsame
  | item number => exact DelimitedList.item_alike hsame number
  | separator number => exact DelimitedList.separator_alike hsame number
  | items => exact DelimitedList.items_alike hsame
  | itemsRev => exact DelimitedList.itemsRev_alike hsame
  | separators => exact DelimitedList.separators_alike hsame
  | separatorsRev => exact DelimitedList.separatorsRev_alike hsame
  | hasTrailingSeparator => exact DelimitedList.hasTrailingSeparator_alike hsame
  | pairs => exact DelimitedList.pairs_alike hsame
  | listText => exact DelimitedList.text_alike hsame

end NodeRef.Query

inductive TokenRef.Query where
  | token | kind | fullSpan | span | leadingSpan | parent | index | ancestors | text | fact | report
  | next (withMissing : Bool) | prev (withMissing : Bool)
  | dumpLine (depth : Nat)

namespace TokenRef.Query

abbrev Answer : Query → Type
  | .token => Token
  | .kind => Kind
  | .fullSpan | .span | .leadingSpan => Range
  | .parent => NodeRef
  | .index => Nat
  | .ancestors => List NodeRef
  | .text | .dumpLine _ => String
  | .fact => Slot
  | .report => Report
  | .next _ | .prev _ => Option TokenRef

instance (q : Query) : Placed q.Answer := by cases q <;> infer_instance

def run (h : TokenRef) : (q : Query) → Nav q.Answer
  | .token => h.token
  | .kind => h.kind
  | .fullSpan => h.fullSpan
  | .span => h.span
  | .leadingSpan => h.leadingSpan
  | .parent => h.parent
  | .index => h.index
  | .ancestors => h.ancestors
  | .text => h.text
  | .fact => SyntaxTree.factAt h.id
  | .report => SyntaxTree.reportAt h.id
  | .next withMissing => h.next withMissing
  | .prev withMissing => h.prev withMissing
  | .dumpLine depth => h.dumpLine depth

theorem alike (q : Query) {h k : TokenRef} (hsame : Same w h k) : Alike w (q.run h) (q.run k) := by
  cases q with
  | token => exact token_alike hsame
  | kind => exact kind_alike hsame
  | fullSpan => exact fullSpan_alike hsame
  | span => exact span_alike hsame
  | leadingSpan => exact leadingSpan_alike hsame
  | parent => exact parent_alike hsame
  | index => exact index_alike hsame
  | ancestors => exact ancestors_alike hsame
  | text => exact text_alike hsame
  | fact => exact factAt_alike hsame
  | report => exact reportAt_alike hsame
  | next withMissing => exact next_alike hsame withMissing
  | prev withMissing => exact prev_alike hsame withMissing
  | dumpLine depth => exact dumpLine_alike hsame depth

end TokenRef.Query

/-- The events that are followed by a skip: those of some numbers, and those that enter nodes of some kinds. -/
structure Walk.SkipRule where
  atNumber : Nat → Bool
  atKind : Kind → Bool

def Walk.SkipRule.skips (r : SkipRule) (number : Nat) (e : WalkEvent) : Nav Bool := do
  match e.entered? with
  | some n => return r.atKind (← n.kind) || r.atNumber number
  | none => return r.atNumber number

theorem Walk.SkipRule.skips_alike (r : SkipRule) (number : Nat) {d e : WalkEvent} (h : Same w d e) :
    Alike w (r.skips number d) (r.skips number e) := by
  cases h with
  | enter h => exact (NodeRef.kind_alike h).map_eq
  | leave _ => exact .pure rfl
  | token _ => exact .pure rfl

inductive Walk.Query where
  | next | nextNode (fuel : Nat) | collect (fuel : Nat) | nthMet (fuel n : Nat)
  | trace (r : Walk.SkipRule) (fuel number : Nat) | traceNodes (r : Walk.SkipRule) (fuel number : Nat)

namespace Walk.Query

abbrev Answer : Query → Type
  | .next | .nextNode _ => Option (WalkEvent × Walk)
  | .collect _ => List ElementRef
  | .nthMet _ _ => Option ElementRef
  | .trace _ _ _ | .traceNodes _ _ _ => List Walk.Item

instance (q : Query) : Placed q.Answer := by cases q <;> infer_instance

def run (a : Walk) : (q : Query) → Nav q.Answer
  | .next => a.next
  | .nextNode fuel => a.nextNode fuel
  | .collect fuel => a.collect fuel
  | .nthMet fuel n => a.nthMet fuel n
  | .trace r fuel number => a.trace Walk.next r.skips fuel number
  | .traceNodes r fuel number => a.trace (Walk.nextNode fuel) r.skips fuel number

theorem alike (q : Query) {a b : Walk} (h : Same w a b) : Alike w (q.run a) (q.run b) := by
  cases q with
  | next => exact next_alike h
  | nextNode fuel => exact nextNode_alike fuel h
  | collect fuel => exact collect_alike fuel h
  | nthMet fuel n => exact nthMet_alike fuel n h
  | trace r fuel number => exact trace_alike next_alike r.skips_alike fuel number h
  | traceNodes r fuel number => exact trace_alike (nextNode_alike fuel) r.skips_alike fuel number h

end Walk.Query

inductive Query where
  | node (q : NodeRef.Query)
  | token (q : TokenRef.Query)
  | walk (q : Walk.Query)
  /-- How an event is shown, in a walk over nodes alone or over nodes and tokens. -/
  | event (nodesAlone : Bool)

namespace Query

abbrev Handle : Query → Type
  | .node _ => NodeRef
  | .token _ => TokenRef
  | .walk _ => Walk
  | .event _ => WalkEvent

abbrev Answer : Query → Type
  | .node q => q.Answer
  | .token q => q.Answer
  | .walk q => q.Answer
  | .event _ => String

instance (q : Query) : Placed q.Handle := by cases q <;> infer_instance

instance (q : Query) : Placed q.Answer := by cases q <;> infer_instance

def run : (q : Query) → q.Handle → Nav q.Answer
  | .node q, h => q.run h
  | .token q, h => q.run h
  | .walk q, a => q.run a
  | .event nodesAlone, e => if nodesAlone then e.nodeText else e.text

/-- Two trees over the same facts give the same answer to a query about the same place. -/
theorem alike (q : Query) {x y : q.Handle} (h : Same w x y) : Alike w (q.run x) (q.run y) := by
  cases q with
  | node q => exact q.alike h
  | token q => exact q.alike h
  | walk q => exact q.alike h
  | event nodesAlone =>
      cases nodesAlone with
      | false => exact SameEvent.text_alike h
      | true => exact SameEvent.nodeText_alike h

end Query

end LosslessSyntax
