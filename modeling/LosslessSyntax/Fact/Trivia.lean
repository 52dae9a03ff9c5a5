import LosslessSyntax.Fact.Make

/-!
# Leading trivia

A lexer reports the text without meaning in front of a token as pieces. `packTrivia` puts trivia facts
into the form in which a token keeps them: nothing, the single fact, or a list of them.
-/

set_option autoImplicit false

namespace LosslessSyntax

/-- The kinds of trivia that a lexer reports. -/
inductive TriviaKind where
  | whitespace | newline | lineComment
deriving DecidableEq, Repr, Inhabited

namespace TriviaKind

def kind : TriviaKind → Kind
  | whitespace => .whitespace
  | newline => .newline
  | lineComment => .lineComment

def text : TriviaKind → String
  | whitespace => "Whitespace"
  | newline => "Newline"
  | lineComment => "SingleLineComment"

end TriviaKind

/-- A piece of trivia as a lexer reports it. -/
structure TriviaPiece where
  kind : TriviaKind
  width : Nat
deriving DecidableEq, Repr, Inhabited

namespace TriviaPiece

def text (p : TriviaPiece) : String :=
  Text.record "TriviaPiece" [("kind", p.kind.text), ("len", toString p.width)]

def toToken (id : Nat) (p : TriviaPiece) : Token := Token.plain id p.kind.kind p.width

/-- One token for each piece, numbered from `id` on. -/
def toSlots (id : Nat) : List TriviaPiece → List Slot
  | [] => []
  | p :: rest => (p.toToken id).toSlot :: toSlots (id + 1) rest

end TriviaPiece

/-- Trivia facts as a token keeps them; `id` is for the list that holds several. -/
def packTrivia (id : Nat) (trivia : List Slot) : Except Fault Slot :=
  match trivia with
  | [] => .ok .absent
  | [single] => .ok single
  | several => Node.makeList id several

/-- Pieces of trivia as a token keeps them, with the numbers from `id` up to
`id + pieces.length`. -/
def triviaOfPieces (id : Nat) (pieces : List TriviaPiece) : Except Fault Slot :=
  packTrivia (id + pieces.length) (TriviaPiece.toSlots id pieces)

end LosslessSyntax
