import LosslessSyntax.Fact.Width

/-!
# Making and editing facts

Facts are only ever made, never changed: an edit makes a new fact that shares the parts it keeps.
Every construction is given the number of the new instance.

* tokens: `Token.plain`, `Token.make` (with leading trivia), `Token.makeMissing`, and the edits
  `Token.withLeading`, `Token.withDiagnostics`;
* nodes: `Node.make` (cheapest shape), `Node.makeShaped`, `Node.makeList`, and the edits
  `Node.withDiagnostics`, `Node.replaceChild`.

Flags and widths are summed up here, once; a sum of widths that does not fit is a fault.
-/

set_option autoImplicit false

namespace LosslessSyntax

namespace Token

def summary (leading : Slot) (kind : Kind) (missing : Bool) (diagnostics : List Diagnostic) : Flags :=
  Flags.union
    { diagnostics := !diagnostics.isEmpty, skippedText := kind == .skippedTokens, missing := missing,
      present := !missing }
    (leading.flags.inter Flags.fromTrivia)

def assemble (id : Nat) (leading : Slot) (kind : Kind) (width : Nat) (missing : Bool)
    (diagnostics : List Diagnostic) : Token :=
  ⟨⟨id, kind, summary leading kind missing diagnostics, width, diagnostics⟩, leading⟩

/-- The token with the given parts, if its leading trivia is trivia throughout. -/
def assembleChecked (id : Nat) (leading : Slot) (kind : Kind) (width : Nat) (missing : Bool)
    (diagnostics : List Diagnostic) : Except Fault Token :=
  if leading.tokens.all (·.kind.isTrivia) then .ok (assemble id leading kind width missing diagnostics)
  else .error (.leadingNotTrivia kind)

def plain (id : Nat) (kind : Kind) (width : Nat) : Token := assemble id .absent kind width false []

def make (id : Nat) (leading : Slot) (kind : Kind) (width : Nat) : Except Fault Token :=
  assembleChecked id leading kind width false []

/-- A missing token: it has no text, and always a diagnostic. -/
def makeMissing (id : Nat) (leading : Slot) (kind : Kind) (diagnostics : List Diagnostic) :
    Except Fault Token :=
  if diagnostics.isEmpty then .error (.missingWithoutDiagnostic kind)
  else assembleChecked id leading kind 0 true diagnostics

def withLeading (t : Token) (id : Nat) (leading : Slot) : Except Fault Token :=
  assembleChecked id leading t.kind t.width t.isMissing t.diagnostics

def withDiagnostics (t : Token) (id : Nat) (diagnostics : List Diagnostic) : Except Fault Token :=
  if t.isMissing && diagnostics.isEmpty then .error (.missingWithoutDiagnostic t.kind)
  else assembleChecked id t.leading t.kind t.width t.isMissing diagnostics

end Token

/-- What a shape stores besides the slots. -/
def Layout.forSlots (shape : Shape) (slots : List Slot) : Except Fault Layout :=
  if shape.accepts slots.length then
    match shape with
    | .empty => .ok .empty
    | .one => .ok .one
    | .two => .ok .two
    | .short => .ok .short
    | .long => do return .long (← Slot.startsFrom 0 slots).toArray
  else .error (.shapeMismatch shape slots.length)

namespace Node

/-- The flags of a node: what it inherits from its children, and its own diagnostics. -/
def summary (slots : List Slot) (diagnostics : List Diagnostic) : Flags :=
  Flags.union (slots.foldl (fun f s => f.union (s.flags.inter Flags.inheritable)) Flags.none)
    { diagnostics := !diagnostics.isEmpty }

def assemble (id : Nat) (kind : Kind) (layout : Layout) (slots : List Slot)
    (diagnostics : List Diagnostic) : Except Fault Node := do
  return ⟨⟨id, kind, summary slots diagnostics, ← Slot.sumWidths 0 slots, layout, diagnostics⟩, slots⟩

def makeShaped (id : Nat) (kind : Kind) (shape : Shape) (slots : List Slot) : Except Fault Node := do
  assemble id kind (← Layout.forSlots shape slots) slots []

/-- A node stored in the cheapest shape. -/
def make (id : Nat) (kind : Kind) (slots : List Slot) : Except Fault Node :=
  makeShaped id kind (.forCount slots.length) slots

/-- A list node; an empty list is no node at all. -/
def makeList (id : Nat) (slots : List Slot) : Except Fault Slot :=
  if slots.isEmpty then .ok .absent
  else do return (← make id .list slots).toSlot

def withDiagnostics (n : Node) (id : Nat) (diagnostics : List Diagnostic) : Except Fault Node :=
  assemble id n.kind n.head.layout n.slots diagnostics

def replaceChild (n : Node) (id index : Nat) (child : Slot) : Except Fault Node :=
  if index < n.count then do
    let slots := n.slots.set index child
    assemble id n.kind (← Layout.forSlots n.shape slots) slots n.diagnostics
  else .error (.childIndexOutside index n.count)

end Node

/-- The slot at `index` of a node; a token must not be asked for children. -/
def Slot.childAt (s : Slot) (index : Nat) : Except Fault Slot :=
  match s with
  | .absent => .ok .absent
  | .token head _ => .error (.tokenHasNoChildren head.kind)
  | .node head slots => .ok ((⟨head, slots⟩ : Node).childAt index)

end LosslessSyntax
