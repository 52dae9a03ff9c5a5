import LosslessSyntax.Diagnostic.Resolved
import LosslessSyntax.Fact.Width

/-!
# The diagnostics of a subtree

`Slot.report` lists the diagnostics of a fact and of everything under it in document order, with
absolute ranges: leading trivia first, then the nodes that start after it from the outside in, then the
rest. A node with diagnostics of its own starts behind the trivia of its first token, so this trivia is
visited before them, and not again when its token's turn comes. Subtrees without diagnostics are not
entered.

The walk keeps its work on a stack. `Slot.weight` bounds what a visit can still put there, and
`Slot.weight_eq` says that trivia visited early is taken off the weight of its token.
-/

set_option autoImplicit false

namespace LosslessSyntax

/-- The diagnostics found, up to the first that has no place in the text. -/
structure Report where
  found : List Resolved := []
  fault : Option Fault := none
deriving Repr, Inhabited

namespace Report

/-- The report that goes on with `next` unless a fault has ended it. -/
def andThen (r next : Report) : Report :=
  match r.fault with
  | some _ => r
  | none => ⟨r.found ++ next.found, next.fault⟩

/-- The diagnostics of one owner whose span starts at `spanStart`. -/
def ofOwner (spanStart : Nat) : List Diagnostic → Report
  | [] => {}
  | d :: rest =>
    match d.resolve spanStart with
    | .error f => ⟨[], some f⟩
    | .ok r => andThen ⟨[r], none⟩ (ofOwner spanStart rest)

inductive Work where
  /-- Walks a fact. The flag is set once the leading trivia of its first token has been visited. -/
  | visit (fact : Slot) (fullStart : Nat) (triviaDone : Bool)
  | emit (diagnostics : List Diagnostic) (spanStart : Nat)

/-- Visits to the children, the first of which starts at `offset`. While `pending`, the trivia of the
next token is one that has been visited. -/
def visitChildren (offset : Nat) (pending : Bool) : List Slot → Except Fault (List Work)
  | [] => .ok []
  | child :: rest => do
    let done := pending && child.firstToken?.isSome
    let next ← Size.add offset (← child.fullWidth)
    return .visit child offset done :: (← visitChildren next (pending && !done) rest)

def visitTrivia (trivia : Slot) (fullStart : Nat) : List Work :=
  if trivia.isPresent then [.visit trivia fullStart false] else []

def expand (fact : Slot) (fullStart : Nat) (triviaDone : Bool) : Except Fault (List Work) :=
  if fact.flags.diagnostics then
    match fact with
    | .absent => .ok []
    | .token head leading => do
      let spanStart ← Size.add fullStart (← leading.fullWidth)
      return (if triviaDone then [] else visitTrivia leading fullStart) ++ [.emit head.diagnostics spanStart]
    | .node head slots => do
      let spanStart ← Size.add fullStart (← fact.leadingWidth)
      let hoist := !triviaDone && !head.diagnostics.isEmpty
      let children ← visitChildren fullStart (triviaDone || hoist) slots
      let trivia :=
        match fact.firstToken? with
        | some first => if hoist then visitTrivia first.leading fullStart else []
        | none => []
      return trivia ++ .emit head.diagnostics spanStart :: children
  else .ok []

end Report

namespace Slot

mutual

/-- More than the steps that a visit leads to; the flag says that the leading trivia of the first
token needs no visit. -/
def weight : Slot → Bool → Nat
  | .absent, _ => 1
  | .token _ leading, done => 2 + if done then 0 else leading.weight false
  | .node _ slots, done => 2 + weights slots done

def weights : List Slot → Bool → Nat
  | [], _ => 0
  | s :: rest, done =>
    s.weight (done && s.firstToken?.isSome) + weights rest (done && !s.firstToken?.isSome)

end

theorem weight_pos (s : Slot) (done : Bool) : 0 < s.weight done := by
  cases s <;> simp only [weight] <;> omega

def triviaWeight : Option Token → Nat
  | some t => t.leading.weight false
  | none => 0

mutual

theorem weight_eq : ∀ s : Slot, s.weight false = s.weight true + triviaWeight s.firstToken?
  | .absent => rfl
  | .token _ leading => rfl
  | .node head slots => by
    have := weights_eq slots
    simp only [weight, firstToken?]
    omega

theorem weights_eq : ∀ ss : List Slot, weights ss false = weights ss true + triviaWeight (firstTokenIn? ss)
  | [] => rfl
  | s :: rest => by
    have hs := weight_eq s
    have hrest := weights_eq rest
    simp only [weights, firstTokenIn?]
    cases h : s.firstToken? with
    | none =>
      simp only [Option.isSome_none, Bool.and_false, Bool.not_false, Bool.and_true]
      omega
    | some t =>
      rw [h] at hs
      simp only [Option.isSome_some, Bool.and_true, Bool.not_true, Bool.and_false]
      omega

end

end Slot

namespace Report

def Work.weight : Work → Nat
  | .visit fact _ done => fact.weight done
  | .emit _ _ => 1

def stackWeight : List Work → Nat
  | [] => 0
  | w :: rest => w.weight + stackWeight rest

theorem stackWeight_append (ws vs : List Work) : stackWeight (ws ++ vs) = stackWeight ws + stackWeight vs := by
  induction ws with
  | nil => exact (Nat.zero_add _).symm
  | cons w rest ih =>
    simp only [List.cons_append, stackWeight, ih]
    omega

theorem stackWeight_visitTrivia (trivia : Slot) (fullStart : Nat) :
    stackWeight (visitTrivia trivia fullStart) ≤ trivia.weight false := by
  unfold visitTrivia
  split
  · exact Nat.le_refl _
  · exact Nat.zero_le _

theorem stackWeight_visitChildren {offset : Nat} {pending : Bool} {slots : List Slot} {ws : List Work}
    (h : visitChildren offset pending slots = .ok ws) : stackWeight ws = Slot.weights slots pending := by
  induction slots generalizing offset pending ws with
  | nil =>
    cases h
    rfl
  | cons child rest ih =>
    simp only [visitChildren, bind_eq_ok_iff, pure, Except.pure, Except.ok.injEq] at h
    obtain ⟨_, _, next, _, vs, hvs, rfl⟩ := h
    have hrest := ih hvs
    simp only [stackWeight, Work.weight, Slot.weights, hrest]
    cases pending <;> rfl

/-- A visit leads to steps of smaller weight. -/
theorem stackWeight_expand {fact : Slot} {fullStart : Nat} {done : Bool} {ws : List Work}
    (h : expand fact fullStart done = .ok ws) : stackWeight ws < fact.weight done := by
  unfold expand at h
  split at h
  · cases fact with
    | absent =>
      cases h
      exact Slot.weight_pos _ _
    | token head leading =>
      simp only [bind_eq_ok_iff, pure, Except.pure, Except.ok.injEq] at h
      obtain ⟨_, _, _, _, rfl⟩ := h
      have ht := stackWeight_visitTrivia leading fullStart
      cases done
      · simp only [Bool.false_eq_true, if_false, stackWeight_append, stackWeight, Work.weight, Slot.weight]
        omega
      · simp only [if_true, stackWeight_append, stackWeight, Work.weight, Slot.weight]
        omega
    | node head slots =>
      simp only [bind_eq_ok_iff, pure, Except.pure, Except.ok.injEq] at h
      obtain ⟨_, _, _, _, children, hchildren, rfl⟩ := h
      have hc := stackWeight_visitChildren hchildren
      have hw := Slot.weights_eq slots
      simp only [Slot.firstToken?, Slot.weight, stackWeight_append, stackWeight, Work.weight]
      -- trivia that is visited early is taken off the weight of the children
      have htrivia : ∀ hoist : Bool,
          stackWeight (match Slot.firstTokenIn? slots with
            | some first => if hoist then visitTrivia first.leading fullStart else []
            | none => []) ≤ if hoist then Slot.triviaWeight (Slot.firstTokenIn? slots) else 0 := by
        intro hoist
        cases hf : Slot.firstTokenIn? slots with
        | none => cases hoist <;> exact Nat.zero_le _
        | some first =>
          cases hoist
          · exact Nat.zero_le _
          · exact stackWeight_visitTrivia first.leading fullStart
      have ht := htrivia (!done && !head.diagnostics.isEmpty)
      generalize head.diagnostics.isEmpty = own at hc ht ⊢
      cases done <;> cases own <;> simp only [Bool.not_true, Bool.not_false, Bool.and_true, Bool.and_false,
        Bool.or_true, Bool.or_false, Bool.false_eq_true, if_true, if_false] at hc ht ⊢ <;> omega
  · cases h
    exact Slot.weight_pos _ _

/-- The report of the steps on the stack, topmost first. -/
def ofStack : List Work → Report
  | [] => {}
  | .emit diagnostics spanStart :: stack => (ofOwner spanStart diagnostics).andThen (ofStack stack)
  | .visit fact fullStart done :: stack =>
    match _ : expand fact fullStart done with
    | .error f => ⟨[], some f⟩
    | .ok ws => ofStack (ws ++ stack)
termination_by stack => stackWeight stack
decreasing_by
  · simp only [stackWeight, Work.weight]
    omega
  · have := stackWeight_expand ‹_›
    simp only [stackWeight_append, stackWeight, Work.weight]
    omega

end Report

/-- The diagnostics of the fact and of everything under it, in document order, when the fact starts at
`fullStart`. -/
def Slot.report (s : Slot) (fullStart : Nat) : Report := Report.ofStack [.visit s fullStart false]

end LosslessSyntax
