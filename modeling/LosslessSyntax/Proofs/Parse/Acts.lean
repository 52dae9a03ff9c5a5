import LosslessSyntax.Parse.Parser

/-!
# Runs of the parser

Whatever a caller does with a parser, the parser itself goes through a sequence of acts. There are few of
them: the other calls are made of these, a block in another context is a change of the context and a change
back, and a speculation also rewinds.

* `run_bump`, `run_missing`, ... : the outcome and the state left behind, in one equation for each call;
* `Act.outcome` : what becomes of an act; `Act.step` : the parser after it, whether or not it has faulted;
* `Parser.after` : the parser after a sequence of acts;
* `Act.spares` : how many entries at the bottom of the stack an act leaves in place;
* `Act.rebuilt_step` : what is left in place is untouched, all above it is new and has newer stamps, and
  only the cursor of the buffer moves.
-/

set_option autoImplicit false

namespace LosslessSyntax

def Parser.ofTokens (tokens : List Lexeme) : Parser := { source := .ofTokens tokens }

/-- What a caller can do to a parser. Markers and checkpoints are any at all, old ones included. -/
inductive Act where
  | advance
  | missing (kind : Kind)
  | absent
  | skip
  | complete (m : Marker) (kind : Kind)
  | completeList (m : Marker)
  | checkpoint
  | rewind (c : Checkpoint)
  | inContext (c : ParseContext)

namespace Parser

def slots (p : Parser) : List Slot := p.outputs.map (·.slot)

theorem slots_push (p : Parser) (s : Slot) : (p.push s).slots = p.slots ++ [s] := by
  unfold slots push
  rw [List.map_append]
  rfl

/-- The parser with one fact in place of the output above a marker. -/
def wrapped (p : Parser) (m : Marker) (u : Slot) : Parser :=
  { p with outputs := p.outputs.take m.position, nextId := p.nextId + 1 }.push u

theorem length_slots (p : Parser) : p.slots.length = p.outputs.length := List.length_map _

/-- The token that `bump` puts on the stack. -/
def nextToken (p : Parser) : Except Fault Token := do
  let t := p.source.current
  let leading ← packTrivia (p.nextId + t.leading.length) (p.skipped ++ TriviaPiece.toSlots p.nextId t.leading)
  Token.make (p.nextId + t.leading.length + 1) leading t.kind t.width

/-- The token that `missing` puts on the stack. -/
def missingToken (p : Parser) (kind : Kind) : Except Fault Token := do
  let leading ← packTrivia p.nextId p.skipped
  Token.makeMissing (p.nextId + 1) leading kind [.ofMissing]

theorem run_bump (p : Parser) :
    bump.run p =
      match p.nextToken with
      | .ok t =>
        (.ok (), { p.push t.toSlot with
          skipped := [], source := p.source.bump, nextId := p.nextId + p.source.current.leading.length + 2 })
      | .error f => (.error f, { p with skipped := [] }) := by
  unfold bump nextToken
  simp only [Step.run_bind, Step.run_get, Step.run_set, Step.run_lift, Step.run_modify]
  cases packTrivia (p.nextId + p.source.current.leading.length)
      (p.skipped ++ TriviaPiece.toSlots p.nextId p.source.current.leading) with
  | error f => rfl
  | ok leading =>
      simp only [bind, Except.bind]
      cases Token.make (p.nextId + p.source.current.leading.length + 1) leading p.source.current.kind
          p.source.current.width with
      | error f => rfl
      | ok t => rfl

theorem run_missing (kind : Kind) (p : Parser) :
    (missing kind).run p =
      match p.missingToken kind with
      | .ok t => (.ok (), { p.push t.toSlot with skipped := [], nextId := p.nextId + 2 })
      | .error f => (.error f, { p with skipped := [] }) := by
  unfold missing missingToken
  simp only [Step.run_bind, Step.run_get, Step.run_set, Step.run_lift, Step.run_modify]
  cases packTrivia p.nextId p.skipped with
  | error f => rfl
  | ok leading =>
      simp only [bind, Except.bind]
      cases Token.makeMissing (p.nextId + 1) leading kind [.ofMissing] with
      | error f => rfl
      | ok t => rfl

theorem run_advance (p : Parser) : advance.run p = if p.isAt .eof then (.ok (), p) else bump.run p := by
  unfold advance
  simp only [Step.run_bind, Step.run_get]
  cases p.isAt .eof <;> rfl

theorem run_eat (kind : Kind) (p : Parser) :
    (eat kind).run p = if p.isAt kind then (advance >>= fun _ => pure true).run p else (.ok false, p) := by
  unfold eat
  simp only [Step.run_bind, Step.run_get]
  cases p.isAt kind <;> rfl

theorem run_expect (kind : Kind) (p : Parser) :
    (expect kind).run p = if p.isAt kind then (advance >>= fun _ => pure true).run p
      else (missing kind >>= fun _ => pure false).run p := by
  unfold expect
  rw [Step.run_bind, run_eat]
  by_cases hat : p.isAt kind
  · rw [if_pos hat, if_pos hat, Step.run_bind]
    cases advance.run p with
    | mk outcome q => cases outcome <;> rfl
  · rw [if_neg hat, if_neg hat]
    rfl

theorem run_require (kind : Kind) (p : Parser) :
    (require kind).run p = if p.isAt kind then (advance >>= fun _ => pure (.ok ())).run p
      else (.ok (.error (.expected kind p.peek)), p) := by
  unfold require
  rw [Step.run_bind, run_eat]
  by_cases hat : p.isAt kind
  · rw [if_pos hat, if_pos hat, Step.run_bind, Step.run_bind]
    cases advance.run p with
    | mk outcome q => cases outcome <;> rfl
  · rw [if_neg hat, if_neg hat]
    rfl

theorem run_drain (m : Marker) (p : Parser) :
    (drain m).run p =
      if m.position ≤ p.outputs.length then
        (.ok ((p.outputs.drop m.position).map (·.slot)), { p with outputs := p.outputs.take m.position })
      else (.error .markerDropped, p) := by
  unfold drain
  simp only [Step.run_bind, Step.run_get]
  split <;> rfl

theorem run_fresh (p : Parser) : fresh.run p = (.ok p.nextId, { p with nextId := p.nextId + 1 }) := rfl

theorem run_rewind (c : Checkpoint) (p : Parser) :
    (rewind c).run p =
      if p.canRewind c then
        match p.source.restore c.snapshot with
        | .ok source =>
          (.ok (), { p with outputs := p.outputs.take c.height, skipped := c.skipped, source := source,
                            context := c.context })
        | .error f => (.error f, { p with outputs := p.outputs.take c.height, skipped := c.skipped })
      else (.error .checkpointWrapped, p) := by
  unfold rewind
  simp only [Step.run_bind, Step.run_get]
  split
  · simp only [Step.run_bind, Step.run_set, Step.run_lift, Step.run_modify]
    cases p.source.restore c.snapshot <;> rfl
  · rfl

/-- What becomes of `finish`: the rest of the input is skipped text in front of the last token. -/
theorem outcome_finish (kind : Kind) (p : Parser) :
    ((finish kind).run p).1 = (do
      let q := p.skipUntil .empty
      let t ← q.nextToken
      Node.make (q.nextId + q.source.current.leading.length + 2) kind (q.slots ++ [t.toSlot])) := by
  unfold finish
  rw [Step.run_bind, Step.run_modify]
  simp only [Step.run_bind, run_bump]
  cases (p.skipUntil .empty).nextToken with
  | error f => rfl
  | ok t =>
      simp only [Step.run_get, run_fresh, Step.run_lift]
      exact congrArg _ (slots_push (p.skipUntil .empty) t.toSlot)

end Parser

namespace Marker

theorem run_complete (m : Marker) (kind : Kind) (p : Parser) :
    (m.complete kind).run p =
      if m.position ≤ p.outputs.length then
        let q := { p with outputs := p.outputs.take m.position, nextId := p.nextId + 1 }
        match Node.make p.nextId kind ((p.outputs.drop m.position).map (·.slot)) with
        | .ok n => (.ok ⟨m.position, kind⟩, q.push n.toSlot)
        | .error f => (.error f, q)
      else (.error .markerDropped, p) := by
  unfold complete
  rw [Step.run_bind, Parser.run_drain]
  by_cases h : m.position ≤ p.outputs.length
  · simp only [if_pos h, Step.run_bind, Parser.run_fresh, Step.run_lift]
    cases Node.make p.nextId kind ((p.outputs.drop m.position).map (·.slot)) <;> rfl
  · simp only [if_neg h]

theorem run_completeList (m : Marker) (p : Parser) :
    m.completeList.run p =
      if m.position ≤ p.outputs.length then
        let q := { p with outputs := p.outputs.take m.position, nextId := p.nextId + 1 }
        match Node.makeList p.nextId ((p.outputs.drop m.position).map (·.slot)) with
        | .ok list => (.ok (if list.isPresent then some ⟨m.position, .list⟩ else none), q.push list)
        | .error f => (.error f, q)
      else (.error .markerDropped, p) := by
  unfold completeList
  rw [Step.run_bind, Parser.run_drain]
  by_cases h : m.position ≤ p.outputs.length
  · simp only [if_pos h, Step.run_bind, Parser.run_fresh, Step.run_lift]
    cases Node.makeList p.nextId ((p.outputs.drop m.position).map (·.slot)) <;> rfl
  · simp only [if_neg h]

end Marker

namespace Act

def toStep : Act → Step Parser Unit
  | advance => Parser.advance
  | missing kind => Parser.missing kind
  | absent => .modify (·.absent)
  | skip => .modify (·.skip)
  | complete m kind => do let _ ← m.complete kind
  | completeList m => do let _ ← m.completeList
  | checkpoint => .modify id
  | rewind c => Parser.rewind c
  | inContext c => .modify ({ · with context := c })

def outcome (p : Parser) (a : Act) : Except Fault Unit := (a.toStep.run p).1

/-- The parser after an act, whether or not the act has faulted. -/
def step (p : Parser) (a : Act) : Parser := (a.toStep.run p).2

/-- Completing a marker puts one fact in place of the output above it. -/
theorem run_complete {p : Parser} {m : Marker} {kind : Kind} {n : Node} (hm : m.position ≤ p.outputs.length)
    (hn : Node.make p.nextId kind ((p.outputs.drop m.position).map (·.slot)) = .ok n) :
    (complete m kind).toStep.run p = (.ok (), p.wrapped m n.toSlot) := by
  show (m.complete kind >>= fun _ => pure ()).run p = _
  rw [Step.run_bind, Marker.run_complete, if_pos hm, hn]
  rfl

theorem run_completeList {p : Parser} {m : Marker} {s : Slot} (hm : m.position ≤ p.outputs.length)
    (hs : Node.makeList p.nextId ((p.outputs.drop m.position).map (·.slot)) = .ok s) :
    (completeList m).toStep.run p = (.ok (), p.wrapped m s) := by
  show (m.completeList >>= fun _ => pure ()).run p = _
  rw [Step.run_bind, Marker.run_completeList, if_pos hm, hs]
  rfl

/-- The number of entries at the bottom of the stack that an act leaves in place. Completing a marker
takes off all that lies above the marker, and a rewind all that lies above the checkpoint. -/
def spares (p : Parser) : Act → Nat
  | complete m _ => min m.position p.outputs.length
  | completeList m => min m.position p.outputs.length
  | rewind c => if p.canRewind c then c.height else p.outputs.length
  | _ => p.outputs.length

end Act

def Parser.after (p : Parser) (acts : List Act) : Parser := acts.foldl Act.step p

namespace Parser

@[simp] theorem after_nil (p : Parser) : p.after [] = p := rfl

@[simp] theorem after_cons (p : Parser) (a : Act) (acts : List Act) : p.after (a :: acts) = (a.step p).after acts := rfl

theorem after_append (p : Parser) (acts more : List Act) : p.after (acts ++ more) = (p.after acts).after more :=
  List.foldl_append

/-- `q` comes from `p`: the `n` oldest entries of the stack are in place, all others have newer stamps, and
only the cursor of the buffer has moved. -/
structure Rebuilt (n : Nat) (p q : Parser) : Prop where
  outputs : ∃ new, q.outputs = p.outputs.take n ++ new ∧ ∀ o ∈ new, p.stamp < o.stamp ∧ o.stamp ≤ q.stamp
  stamp : p.stamp ≤ q.stamp
  source : q.source = { p.source with pos := q.source.pos }
  pos : p.source.pos ≤ p.source.body.length → q.source.pos ≤ p.source.body.length

theorem canRewind_height {p : Parser} {c : Checkpoint} (h : p.canRewind c = true) : c.height ≤ p.outputs.length := by
  unfold canRewind at h
  simp only [Bool.and_eq_true, decide_eq_true_eq] at h
  exact h.1

/-- Nothing but the skipped text, the context, the numbering and the place of the cursor has changed. -/
theorem Rebuilt.quiet {p q : Parser} (ho : q.outputs = p.outputs) (hs : q.stamp = p.stamp)
    (hsource : q.source = p.source ∨ q.source = p.source.bump) : Rebuilt p.outputs.length p q := by
  refine ⟨⟨[], ?_, ?_⟩, ?_, ?_, ?_⟩
  · rw [ho, List.take_length, List.append_nil]
  · intro o ho
    cases ho
  · exact Nat.le_of_eq hs.symm
  · rcases hsource with h | h
    · rw [h]
    · rw [h, TokenBuffer.bump]
      split <;> rfl
  · intro hpos
    rcases hsource with h | h
    · rw [h]
      exact hpos
    · rw [h, TokenBuffer.bump]
      split
      · assumption
      · exact hpos

/-- New output on what `n` entries are left of the stack. -/
theorem Rebuilt.cut_push {p q : Parser} {n : Nat} {s : Slot}
    (ho : q.outputs = p.outputs.take n ++ [⟨s, p.stamp + 1⟩]) (hs : q.stamp = p.stamp + 1)
    (hsource : q.source = p.source ∨ q.source = p.source.bump) : Rebuilt n p q := by
  have hquiet : Rebuilt p.outputs.length p { p with source := q.source } := Rebuilt.quiet rfl rfl hsource
  refine ⟨⟨[⟨s, p.stamp + 1⟩], ho, ?_⟩, ?_, hquiet.source, hquiet.pos⟩
  · intro o ho
    rw [List.mem_singleton] at ho
    subst ho
    rw [hs]
    exact ⟨Nat.lt_succ_self _, Nat.le_refl _⟩
  · omega

theorem Rebuilt.cut {p q : Parser} {n : Nat} (ho : q.outputs = p.outputs.take n) (hs : q.stamp = p.stamp)
    (hsource : q.source = p.source) : Rebuilt n p q := by
  refine ⟨⟨[], ?_, ?_⟩, ?_, ?_, ?_⟩
  · rw [ho, List.append_nil]
  · intro o ho
    cases ho
  · exact Nat.le_of_eq hs.symm
  · rw [hsource]
  · rw [hsource]
    exact id

theorem rebuilt_bump (p : Parser) : Rebuilt p.outputs.length p (bump.run p).2 := by
  rw [run_bump]
  cases p.nextToken with
  | error f => exact .quiet rfl rfl (.inl rfl)
  | ok t => exact .cut_push (by rw [List.take_length]; rfl) rfl (.inr rfl)

end Parser

namespace Act

/-- What an act does to the stack and to the buffer. -/
theorem rebuilt_step (p : Parser) (a : Act) : p.Rebuilt (a.spares p) (a.step p) := by
  cases a with
  | advance =>
      show p.Rebuilt p.outputs.length (Parser.advance.run p).2
      rw [Parser.run_advance]
      split
      · exact .quiet rfl rfl (.inl rfl)
      · exact p.rebuilt_bump
  | missing kind =>
      show p.Rebuilt p.outputs.length ((Parser.missing kind).run p).2
      rw [Parser.run_missing]
      cases p.missingToken kind with
      | error f => exact .quiet rfl rfl (.inl rfl)
      | ok t => exact .cut_push (by rw [List.take_length]; rfl) rfl (.inl rfl)
  | absent =>
      show p.Rebuilt p.outputs.length p.absent
      exact .cut_push (by rw [List.take_length]; rfl) rfl (.inl rfl)
  | skip =>
      show p.Rebuilt p.outputs.length p.skip
      unfold Parser.skip
      split
      · exact .quiet rfl rfl (.inl rfl)
      · exact .quiet rfl rfl (.inr rfl)
  | complete m kind =>
      show p.Rebuilt (min m.position p.outputs.length) ((m.complete kind >>= fun _ => pure ()).run p).2
      rw [Step.run_bind, Marker.run_complete]
      by_cases h : m.position ≤ p.outputs.length
      · rw [if_pos h, Nat.min_eq_left h]
        cases Node.make p.nextId kind ((p.outputs.drop m.position).map (·.slot)) with
        | error f => exact .cut rfl rfl rfl
        | ok n => exact .cut_push rfl rfl (.inl rfl)
      · rw [if_neg h, Nat.min_eq_right (Nat.le_of_not_le h)]
        exact .quiet rfl rfl (.inl rfl)
  | completeList m =>
      show p.Rebuilt (min m.position p.outputs.length) ((m.completeList >>= fun _ => pure ()).run p).2
      rw [Step.run_bind, Marker.run_completeList]
      by_cases h : m.position ≤ p.outputs.length
      · rw [if_pos h, Nat.min_eq_left h]
        cases Node.makeList p.nextId ((p.outputs.drop m.position).map (·.slot)) with
        | error f => exact .cut rfl rfl rfl
        | ok list => exact .cut_push rfl rfl (.inl rfl)
      · rw [if_neg h, Nat.min_eq_right (Nat.le_of_not_le h)]
        exact .quiet rfl rfl (.inl rfl)
  | checkpoint => exact .quiet rfl rfl (.inl rfl)
  | rewind c =>
      show p.Rebuilt (if p.canRewind c then c.height else p.outputs.length) ((Parser.rewind c).run p).2
      rw [Parser.run_rewind]
      by_cases h : p.canRewind c
      · rw [if_pos h, if_pos h]
        unfold TokenBuffer.restore
        split
        · next source hrestore =>
          split at hrestore
          · next hlt =>
            cases hrestore
            have hlen : c.snapshot < p.source.body.length + 1 := by
              simpa [TokenBuffer.tokens] using hlt
            exact ⟨⟨[], (List.append_nil _).symm, fun o ho => absurd ho List.not_mem_nil⟩, Nat.le_refl _, rfl,
              fun _ => Nat.le_of_lt_succ hlen⟩
          · cases hrestore
        · exact .cut rfl rfl rfl
      · rw [if_neg h, if_neg h]
        exact .quiet rfl rfl (.inl rfl)
  | inContext c => exact .quiet rfl rfl (.inl rfl)

end Act

end LosslessSyntax
