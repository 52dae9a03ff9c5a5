import LosslessSyntax.Fact.Trivia

/-!
# Lexed tokens and the buffer that hands them out

A lexer delivers tokens with the pieces of trivia in front of them. `TokenBuffer` holds them with a
cursor. It always ends in an `EOF` token: the tokens before it are the body, and the cursor never moves
past the end. Places in the buffer are unbounded numbers; there are taken to be fewer than 2^32 tokens, so
that a place fits into 32 bits.
-/

set_option autoImplicit false

namespace LosslessSyntax

/-- A token as a lexer delivers it. -/
structure Lexeme where
  kind : Kind
  width : Nat
  leading : List TriviaPiece := []
deriving DecidableEq, Repr, Inhabited

namespace Lexeme

def leadingWidth (t : Lexeme) : Except Fault Nat := Size.sum 0 (t.leading.map (·.width))

def fullWidth (t : Lexeme) : Except Fault Nat := do Size.add (← t.leadingWidth) t.width

def text (t : Lexeme) : String :=
  Text.record "LexedToken" [("kind", t.kind.text), ("width", toString t.width),
    ("leading", Text.list (t.leading.map (·.text)))]

end Lexeme

/-- Lexed tokens with a cursor; `pos` is the number of tokens in front of it. -/
structure TokenBuffer where
  /-- The tokens before the final `EOF`. -/
  body : List Lexeme
  eofWidth : Nat
  eofLeading : List TriviaPiece
  pos : Nat
deriving DecidableEq, Repr, Inhabited

namespace TokenBuffer

/-- A buffer at its start. An `EOF` token is added unless the tokens end in one. -/
def ofTokens (tokens : List Lexeme) : TokenBuffer :=
  match tokens.getLast? with
  | some last =>
    if last.kind = .eof then ⟨tokens.dropLast, last.width, last.leading, 0⟩ else ⟨tokens, 0, [], 0⟩
  | none => ⟨[], 0, [], 0⟩

def eof (b : TokenBuffer) : Lexeme := ⟨.eof, b.eofWidth, b.eofLeading⟩

def tokens (b : TokenBuffer) : List Lexeme := b.body ++ [b.eof]

def current (b : TokenBuffer) : Lexeme := b.body[b.pos]?.getD b.eof

/-- Moves past the current token, unless it is the last one. -/
def bump (b : TokenBuffer) : TokenBuffer := if b.pos < b.body.length then { b with pos := b.pos + 1 } else b

/-- The number of tokens between the cursor and the final `EOF`. -/
def remaining (b : TokenBuffer) : Nat := b.body.length - b.pos

def restore (b : TokenBuffer) (snapshot : Nat) : Except Fault TokenBuffer :=
  if snapshot < b.tokens.length then .ok { b with pos := snapshot } else .error (.snapshotPastEnd snapshot)

end TokenBuffer

end LosslessSyntax
