import LosslessSyntax.Proofs.Fact.Constructions
import LosslessSyntax.Proofs.Parse.Lossless

/-!
# How a run can fault

Nothing in the input makes a parser give up. Its output never grows wider than the input, what it skips is trivia, and
its checkpoints are places in the buffer. What is left are breaches of the rules for markers and checkpoints, and these
are noticed before anything has been changed, so that the run can go on.

* `Parser.SkipsTo` : the loop that skips up to a recovery token, without a bound on its length;
* `Parser.Regular` : what every parser that has been in use satisfies, faults or not;
* `Parser.Regular.run_act` : an act succeeds or is refused, and `Parser.Regular.step` : what an act preserves;
* `Command.runAll_regular` : what a script preserves, by induction over its blocks;
* `faults_are_breaches` : the faults of a script.
-/

set_option autoImplicit false

namespace LosslessSyntax

/-- The faults by which a parser refuses a marker or a checkpoint. -/
def Fault.breaches : List Fault := [.markerDropped, .checkpointWrapped, .markerAbandoned]

/-- The outcome is a success, or one of the faults that breaches have. -/
def Lawful {α : Type} : Except Fault α → Prop
  | .ok _ => True
  | .error f => f ∈ Fault.breaches

namespace Parser

/-! ## The loop -/

/-- Skipping token after token leads from `p` to `q`, which is the first at `EOF` or in `recovery`. -/
inductive SkipsTo (recovery : KindSet) : Parser → Parser → Prop
  | stop {p : Parser} (h : p.isAt .eof = true ∨ p.isAtAny recovery = true) : SkipsTo recovery p p
  | skip {p q : Parser} (heof : p.isAt .eof = false) (hrecovery : p.isAtAny recovery = false)
      (h : SkipsTo recovery p.skip q) : SkipsTo recovery p q

/-- The tokens that remain are enough for the loop to come to its end. -/
theorem skipsTo_skipAtMost (recovery : KindSet) (n : Nat) (p : Parser) (hn : p.source.remaining ≤ n) :
    SkipsTo recovery p (skipAtMost recovery n p) := by
  induction n generalizing p with
  | zero =>
      cases heof : p.isAt .eof with
      | true => exact .stop (.inl heof)
      | false =>
          have hlt : p.source.pos < p.source.body.length := pos_lt_of_not_eof (by rw [heof]; decide)
          unfold TokenBuffer.remaining at hn
          omega
  | succ n ih =>
      rw [skipAtMost]
      cases heof : p.isAt .eof with
      | true => exact .stop (.inl heof)
      | false =>
          cases hrecovery : p.isAtAny recovery with
          | true => exact .stop (.inr hrecovery)
          | false =>
              have hne : ¬ p.isAt .eof = true := by rw [heof]; decide
              have hlt := pos_lt_of_not_eof hne
              refine .skip heof hrecovery (ih p.skip ?_)
              rw [skip_source p hne]
              unfold TokenBuffer.remaining at hn ⊢
              rw [body_bump, TokenBuffer.bump_pos hlt]
              omega

theorem skipsTo_skipUntil (recovery : KindSet) (p : Parser) : SkipsTo recovery p (p.skipUntil recovery) :=
  skipsTo_skipAtMost recovery _ p (Nat.le_refl _)

/-! ## Regular parsers -/

/-- The parser has lost nothing of the buffer, which fits, and all text that it has skipped is trivia; so it will be
after a rewind to one of the checkpoints. -/
structure Regular (b : TokenBuffer) (cs : List Checkpoint) (p : Parser) : Prop where
  lossless : p.LosslessWith cs
  source : p.source = { b with pos := p.source.pos }
  fits : Lexeme.extents b.tokens < Size.limit
  trivia : ∀ s ∈ p.skipped, s.OnlyTrivia
  kept : ∀ c ∈ cs, ∀ s ∈ c.skipped, s.OnlyTrivia

variable {b : TokenBuffer} {cs ds : List Checkpoint} {p : Parser}

theorem Regular.subset (h : p.Regular b cs) (hsubset : ds ⊆ cs) : p.Regular b ds :=
  ⟨⟨h.lossless.1, fun c hc => h.lossless.2 c (hsubset hc)⟩, h.source, h.fits, h.trivia,
    fun c hc => h.kept c (hsubset hc)⟩

/-- A checkpoint of the parser itself can be added. -/
theorem Regular.noting (h : p.Regular b cs) : p.Regular b (p.checkpoint :: cs) := by
  refine ⟨⟨h.lossless.1, fun c hc => ?_⟩, h.source, h.fits, h.trivia, fun c hc => ?_⟩
  · rcases List.mem_cons.1 hc with rfl | hc
    · exact .ofParser h.lossless.1
    · exact h.lossless.2 c hc
  · rcases List.mem_cons.1 hc with rfl | hc
    · exact h.trivia
    · exact h.kept c hc

theorem regular_ofTokens (tokens : List Lexeme) (h : Lexeme.extents (TokenBuffer.ofTokens tokens).tokens < Size.limit) :
    (ofTokens tokens).Regular (.ofTokens tokens) [] :=
  ⟨⟨lossless_ofTokens tokens, fun _ hc => absurd hc List.not_mem_nil⟩, rfl, h, fun _ hs => absurd hs List.not_mem_nil,
    fun _ hc => absurd hc List.not_mem_nil⟩

theorem Regular.pos_le (h : p.Regular b cs) : p.source.pos ≤ b.body.length := by
  have hpos := h.lossless.1.pos_le
  rw [h.source] at hpos
  exact hpos

theorem Regular.current (h : p.Regular b cs) : b.tokens[p.source.pos]? = some p.source.current := by
  have htokens : p.source.tokens = b.tokens := by
    rw [h.source]
    rfl
  rw [← htokens]
  exact TokenBuffer.tokens_getElem?_pos h.lossless.1.pos_le

/-- The output, the skipped text and the token under the cursor fit together. -/
theorem Regular.extents_lt (h : p.Regular b cs) :
    Slot.extents p.slots + Slot.extents p.skipped + p.source.current.extent < Size.limit := by
  have hsum := h.lossless.1.extents_eq
  have hfits := h.fits
  obtain ⟨hlt, hcurrent⟩ := List.getElem?_eq_some_iff.1 h.current
  have hsucc := Lexeme.extents_take_succ hlt
  have hmono : Lexeme.extents (b.tokens.take (p.source.pos + 1)) ≤ Lexeme.extents (b.tokens.take b.tokens.length) :=
    Lexeme.extents_take_mono b.tokens hlt
  have htake : b.tokens.take p.source.pos = p.source.body.take p.source.pos := by
    rw [h.source]
    exact List.take_append_of_le_length h.pos_le
  rw [Slot.extents_append, ← htake] at hsum
  rw [hcurrent] at hsucc
  rw [List.take_length] at hmono
  omega

theorem Regular.exists_nextToken (h : p.Regular b cs) : ∃ t, p.nextToken = .ok t := by
  have hfits := h.extents_lt
  have hmade : ∀ s ∈ p.skipped ++ TriviaPiece.toSlots p.nextId p.source.current.leading, s.Made :=
    fun s hs => (List.mem_append.1 hs).elim (h.lossless.1.made_skipped s) (TriviaPiece.made_toSlots _ _ s)
  have htrivia : ∀ s ∈ p.skipped ++ TriviaPiece.toSlots p.nextId p.source.current.leading, s.OnlyTrivia :=
    fun s hs => (List.mem_append.1 hs).elim (h.trivia s) (TriviaPiece.onlyTrivia_toSlots _ _ s)
  have hwidth : Slot.extents (p.skipped ++ TriviaPiece.toSlots p.nextId p.source.current.leading) < Size.limit := by
    rw [Slot.extents_append, TriviaPiece.extents_toSlots]
    unfold Lexeme.extent at hfits
    omega
  obtain ⟨leading, hleading⟩ := exists_packTrivia hmade hwidth (p.nextId + p.source.current.leading.length)
  have htoken := Token.assembleChecked_eq_ok (onlyTrivia_packTrivia hleading htrivia)
    (p.nextId + p.source.current.leading.length + 1) p.source.current.kind p.source.current.width false []
  exact ⟨_, bind_eq_ok_iff.2 ⟨leading, hleading, htoken⟩⟩

theorem Regular.exists_missingToken (h : p.Regular b cs) (kind : Kind) : ∃ t, p.missingToken kind = .ok t := by
  have hfits := h.extents_lt
  obtain ⟨leading, hleading⟩ := exists_packTrivia h.lossless.1.made_skipped (by omega) p.nextId
  have htoken := Token.assembleChecked_eq_ok (onlyTrivia_packTrivia hleading h.trivia) (p.nextId + 1) kind 0 true
    [.ofMissing]
  exact ⟨_, bind_eq_ok_iff.2 ⟨leading, hleading, htoken⟩⟩

/-- The output above a marker fits into a node. -/
theorem Regular.extents_drop_lt (h : p.Regular b cs) (n : Nat) :
    Slot.extents ((p.outputs.drop n).map (·.slot)) < Size.limit := by
  have hfits := h.extents_lt
  have hsplit := Slot.extents_append (p.slots.take n) (p.slots.drop n)
  rw [List.take_append_drop] at hsplit
  rw [List.map_drop]
  show Slot.extents (p.slots.drop n) < _
  omega

theorem Regular.restore (h : p.Regular b cs) {c : Checkpoint} (hc : c ∈ cs) (hcan : p.canRewind c = true) :
    p.source.restore c.snapshot = .ok { p.source with pos := c.snapshot } := by
  have hpos := ((h.lossless.2 c hc).faithful hcan).pos_le
  unfold TokenBuffer.restore
  rw [if_pos]
  unfold TokenBuffer.tokens
  rw [List.length_append, List.length_singleton]
  omega

theorem trivia_skip (h : ∀ s ∈ p.skipped, s.OnlyTrivia) : ∀ s ∈ p.skip.skipped, s.OnlyTrivia := by
  unfold skip
  split
  · exact h
  · intro s hs
    rcases List.mem_append.1 hs with hs | hs
    · exact (List.mem_append.1 hs).elim (h s) (TriviaPiece.onlyTrivia_toSlots _ _ s)
    · rw [List.mem_singleton.1 hs]
      exact Token.onlyTrivia rfl

/-- An act succeeds, and all it skips, takes over or puts back is trivia; or it is a breach and does nothing. -/
theorem Regular.run_act (h : p.Regular b cs) {a : Act} (hown : a.Own cs) :
    (∃ q, a.toStep.run p = (.ok (), q) ∧ ∀ s ∈ q.skipped, s.OnlyTrivia) ∨
      ∃ f ∈ Fault.breaches, a.toStep.run p = (.error f, p) := by
  have hnone : ∀ s ∈ ([] : List Slot), s.OnlyTrivia := fun s hs => absurd hs List.not_mem_nil
  cases a with
  | advance =>
      obtain ⟨t, ht⟩ := h.exists_nextToken
      left
      show ∃ q, Parser.advance.run p = (.ok (), q) ∧ _
      rw [run_advance, run_bump, ht]
      split
      · exact ⟨p, rfl, h.trivia⟩
      · exact ⟨_, rfl, hnone⟩
  | missing kind =>
      obtain ⟨t, ht⟩ := h.exists_missingToken kind
      left
      show ∃ q, (Parser.missing kind).run p = (.ok (), q) ∧ _
      rw [run_missing, ht]
      exact ⟨_, rfl, hnone⟩
  | absent => exact .inl ⟨_, rfl, h.trivia⟩
  | skip => exact .inl ⟨_, rfl, trivia_skip h.trivia⟩
  | complete m kind =>
      obtain ⟨n, hn⟩ := Node.exists_make (h.lossless.1.made_drop m.position) (h.extents_drop_lt m.position) p.nextId
        kind
      by_cases hm : m.position ≤ p.outputs.length
      · exact .inl ⟨_, Act.run_complete hm hn, h.trivia⟩
      · refine .inr ⟨.markerDropped, by simp [Fault.breaches], ?_⟩
        show (m.complete kind >>= fun _ => pure ()).run p = _
        rw [Step.run_bind, Marker.run_complete, if_neg hm]
  | completeList m =>
      obtain ⟨l, hl⟩ := Node.exists_makeList (h.lossless.1.made_drop m.position) (h.extents_drop_lt m.position) p.nextId
      by_cases hm : m.position ≤ p.outputs.length
      · exact .inl ⟨_, Act.run_completeList hm hl, h.trivia⟩
      · refine .inr ⟨.markerDropped, by simp [Fault.breaches], ?_⟩
        show (m.completeList >>= fun _ => pure ()).run p = _
        rw [Step.run_bind, Marker.run_completeList, if_neg hm]
  | checkpoint => exact .inl ⟨_, rfl, h.trivia⟩
  | rewind c =>
      show (∃ q, (Parser.rewind c).run p = (.ok (), q) ∧ _) ∨
        ∃ f ∈ Fault.breaches, (Parser.rewind c).run p = (.error f, p)
      rw [run_rewind]
      by_cases hcan : p.canRewind c = true
      · rw [if_pos hcan, h.restore hown hcan]
        exact .inl ⟨_, rfl, h.kept c hown⟩
      · rw [if_neg hcan]
        exact .inr ⟨.checkpointWrapped, by simp [Fault.breaches], rfl⟩
  | inContext c => exact .inl ⟨_, rfl, h.trivia⟩

theorem Regular.outcome (h : p.Regular b cs) {a : Act} (hown : a.Own cs) : Lawful (a.outcome p) := by
  unfold Act.outcome
  rcases h.run_act hown with ⟨q, hrun, -⟩ | ⟨f, hf, hrun⟩
  · rw [hrun]
    trivial
  · rw [hrun]
    exact hf

/-- Acts keep a parser regular, whether they fault or not. -/
theorem Regular.step (h : p.Regular b cs) {a : Act} (hown : a.Own cs) : (a.step p).Regular b (a.noting p cs) := by
  rcases h.run_act hown with ⟨q, hrun, htrivia⟩ | ⟨f, -, hrun⟩
  · have hstep : a.step p = q := congrArg Prod.snd hrun
    rw [← hstep] at htrivia
    refine ⟨h.lossless.step a hown (congrArg Prod.fst hrun), ?_, h.fits, htrivia, fun c hc => ?_⟩
    · rw [(a.rebuilt_step p).source, h.source]
    · exact h.noting.kept c (a.noting_subset p cs hc)
  · rw [show a.step p = p from congrArg Prod.snd hrun]
    exact h.noting.subset (a.noting_subset p cs)

theorem Regular.after (h : p.Regular b cs) {acts : List Act} (hown : p.Own cs acts) :
    (p.after acts).Regular b (p.known cs acts) := by
  induction acts generalizing cs p with
  | nil => exact h
  | cons a rest ih => exact ih (h.step hown.1) hown.2

end Parser

/-! ## Steps and calls -/

/-- A step that ends as acts do: it succeeds or breaches a rule, and leaves a regular parser regular. -/
def Step.StaysRegular {α : Type} (x : Step Parser α) : Prop :=
  ∀ (b : TokenBuffer) (cs : List Checkpoint) (p : Parser), p.Regular b cs →
    Lawful (x.run p).1 ∧ (x.run p).2.Regular b cs

namespace Step.StaysRegular

variable {α β : Type}

theorem ofAct {a : Act} (hown : ∀ cs, a.Own cs) : a.toStep.StaysRegular := fun _ cs p h =>
  ⟨h.outcome (hown cs), (h.step (hown cs)).subset (a.subset_noting p cs)⟩

theorem pure (a : α) : (Pure.pure a : Step Parser α).StaysRegular := fun _ _ _ h => ⟨trivial, h⟩

theorem gets (f : Parser → α) : (Step.gets f).StaysRegular := fun _ _ _ h => ⟨trivial, h⟩

theorem get : (Step.get : Step Parser Parser).StaysRegular := fun _ _ _ h => ⟨trivial, h⟩

theorem bind {x : Step Parser α} {f : α → Step Parser β} (hx : x.StaysRegular) (hf : ∀ a, (f a).StaysRegular) :
    (x >>= f).StaysRegular := by
  intro b cs p h
  obtain ⟨hlawful, hregular⟩ := hx b cs p h
  rw [Step.run_bind]
  cases hr : x.run p with
  | mk outcome q =>
      rw [hr] at hlawful hregular
      cases outcome with
      | error e => exact ⟨hlawful, hregular⟩
      | ok a => exact hf a b cs q hregular

theorem of_discard {x : Step Parser α} (hx : (x >>= fun _ => Pure.pure ()).StaysRegular) : x.StaysRegular := by
  intro b cs p h
  have hrun := hx b cs p h
  rw [Step.run_bind] at hrun
  cases hr : x.run p with
  | mk outcome q =>
      rw [hr] at hrun
      cases outcome with
      | ok a => exact ⟨trivial, hrun.2⟩
      | error e => exact hrun

theorem map {x : Step Parser α} (f : α → β) (hx : x.StaysRegular) : (f <$> x).StaysRegular :=
  bind hx fun a => pure (f a)

end Step.StaysRegular

namespace Parser

theorem advance_staysRegular : advance.StaysRegular := Step.StaysRegular.ofAct (a := .advance) fun _ => trivial

theorem missing_staysRegular (kind : Kind) : (missing kind).StaysRegular :=
  Step.StaysRegular.ofAct (a := .missing kind) fun _ => trivial

theorem eat_staysRegular (kind : Kind) : (eat kind).StaysRegular := by
  refine .bind .get fun p => ?_
  cases p.isAt kind with
  | false => exact .pure false
  | true => exact .bind advance_staysRegular fun _ => .pure true

theorem expect_staysRegular (kind : Kind) : (expect kind).StaysRegular := by
  refine .bind (eat_staysRegular kind) fun eaten => ?_
  cases eaten with
  | true => exact .pure true
  | false => exact .bind (missing_staysRegular kind) fun _ => .pure false

theorem require_staysRegular (kind : Kind) : (require kind).StaysRegular := by
  refine .bind (eat_staysRegular kind) fun eaten => ?_
  cases eaten with
  | true => exact .pure _
  | false => exact .bind (.gets peek) fun _ => .pure _

theorem skipUntil_staysRegular (recovery : KindSet) : (Step.modify (skipUntil recovery)).StaysRegular := by
  intro b cs p h
  obtain ⟨acts, hafter, hown, -⟩ := skipUntil_madeOfActs recovery p
  refine ⟨trivial, ?_⟩
  rw [hafter]
  exact (h.after (hown cs)).subset (subset_known cs p acts)

theorem recover_staysRegular (expected : Kind) (recovery : KindSet) : (recover expected recovery).StaysRegular :=
  .bind (skipUntil_staysRegular recovery) fun _ => .bind (expect_staysRegular expected) fun _ => .pure _

theorem complete_staysRegular (m : Marker) (kind : Kind) : (m.complete kind).StaysRegular :=
  .of_discard (.ofAct (a := .complete m kind) fun _ => trivial)

theorem completeList_staysRegular (m : Marker) : m.completeList.StaysRegular :=
  .of_discard (.ofAct (a := .completeList m) fun _ => trivial)

end Parser

def Reply.Lawful : Reply → Prop
  | .fault f => f ∈ Fault.breaches
  | _ => True

namespace Session

/-- The parser of the session is regular, with the checkpoints that the script has named and those still to be used. -/
def Regular (b : TokenBuffer) (pending : List Checkpoint) (s : Session) : Prop :=
  s.parser.Regular b (s.checkpoints ++ pending)

variable {b : TokenBuffer} {pending : List Checkpoint} {s t : Session}

/-- Whatever comes down to acts keeps a session regular. -/
theorem Regular.leads {quiet : Prop} (h : s.Regular b pending) (hleads : Leads pending quiet s t) :
    t.Regular b pending := by
  obtain ⟨acts, hafter, hown, -, hknown⟩ :=
    hleads.acts (s.checkpoints ++ pending) (List.subset_append_left _ _) (List.subset_append_right _ _)
  have hregular := h.after hown
  rw [← hafter] at hregular
  have hpending : pending ⊆ s.parser.known (s.checkpoints ++ pending) acts :=
    List.Subset.trans (List.subset_append_right _ _) (Parser.subset_known _ _ _)
  exact hregular.subset (List.append_subset.2 ⟨hknown, hpending⟩)

theorem lawful_perform {α : Type} {x : Step Parser α} {reply : α → Reply} (hx : Lawful (x.run s.parser).1)
    (hreply : ∀ a, (reply a).Lawful) : (s.perform x reply).1.Lawful := by
  unfold perform
  cases hr : x.run s.parser with
  | mk outcome p =>
      rw [hr] at hx
      cases outcome with
      | ok a => exact hreply a
      | error f => exact hx

theorem lawful_completing {x : Step Parser (Option CompletedMarker)} (hx : Lawful (x.run s.parser).1) :
    (s.completing x).1.Lawful := by
  unfold completing
  cases hr : x.run s.parser with
  | mk outcome p =>
      rw [hr] at hx
      cases outcome with
      | ok completed => cases completed <;> trivial
      | error f => exact hx

theorem lawful_withMarker {name : Nat} {use : Marker → Session → Reply × Session}
    (h : ∀ m, (use m { s with markers := s.markers.set name none }).1.Lawful) : (s.withMarker name use).1.Lawful := by
  unfold withMarker
  split
  · exact h _
  · trivial

theorem Regular.lawful_rewind {c : Checkpoint} {reply : Unit → Reply} (h : s.Regular b pending)
    (hc : c ∈ s.checkpoints ++ pending) (hreply : (reply ()).Lawful) :
    (s.perform (Parser.rewind c) reply).1.Lawful := by
  exact lawful_perform (Parser.Regular.outcome (a := .rewind c) h hc) fun _ => hreply

theorem Regular.lawful_call (h : s.Regular b pending) (c : Call) : (s.call c).1.Lawful := by
  cases c with
  | advance => exact lawful_perform (Parser.advance_staysRegular b _ _ h).1 fun _ => trivial
  | missing kind => exact lawful_perform (Parser.missing_staysRegular kind b _ _ h).1 fun _ => trivial
  | eat kind => exact lawful_perform (Parser.eat_staysRegular kind b _ _ h).1 fun _ => trivial
  | expect kind => exact lawful_perform (Parser.expect_staysRegular kind b _ _ h).1 fun _ => trivial
  | recover expected recovery =>
      exact lawful_perform (Parser.recover_staysRegular expected recovery b _ _ h).1 fun _ => trivial
  | require kind =>
      refine lawful_perform (Parser.require_staysRegular kind b _ _ h).1 fun found => ?_
      cases found <;> trivial
  | complete name kind =>
      refine lawful_withMarker fun m => lawful_completing ?_
      exact (Step.StaysRegular.map some (Parser.complete_staysRegular m kind) b _ _ h).1
  | completeList name =>
      exact lawful_withMarker fun m => lawful_completing (Parser.completeList_staysRegular m b _ _ h).1
  | abandon name => exact lawful_withMarker fun m => trivial
  | lose name =>
      refine lawful_withMarker fun m => ?_
      show Fault.markerAbandoned ∈ Fault.breaches
      simp [Fault.breaches]
  | rewind name =>
      simp only [call]
      split
      · next c hget => exact h.lawful_rewind (List.mem_append_left _ (List.mem_of_getElem? hget)) trivial
      · trivial
  | precede name =>
      simp only [call]
      split <;> trivial
  | sameCheckpoint a b =>
      simp only [call]
      split <;> trivial
  | inspect name =>
      simp only [call]
      split <;> trivial
  | _ => trivial

theorem Regular.lawful_endSpeculation {c : Checkpoint} (h : s.Regular b pending) (hc : c ∈ s.checkpoints ++ pending)
    (failure : Option Mismatch) : (s.endSpeculation c failure).1.Lawful := by
  cases failure with
  | none => trivial
  | some m => exact h.lawful_rewind hc trivial

end Session

/-! ## Scripts -/

mutual

def Line.Every (P : Reply → Glance → Prop) : Line → Prop
  | .plain reply after => P reply after
  | .block reply after lines => P reply after ∧ Line.EveryOf P lines

def Line.EveryOf (P : Reply → Glance → Prop) : List Line → Prop
  | [] => True
  | line :: rest => line.Every P ∧ Line.EveryOf P rest

end

/-- A command ends lawfully, with the cursor on a token of the buffer. -/
def TokenBuffer.Endures (b : TokenBuffer) (reply : Reply) (after : Glance) : Prop :=
  reply.Lawful ∧ ∃ t, b.tokens[after.offset]? = some t ∧ t.kind = after.peek

theorem Session.Regular.endures {b : TokenBuffer} {pending : List Checkpoint} {s : Session} {reply : Reply}
    (h : s.Regular b pending) (hreply : reply.Lawful) : b.Endures reply s.parser.glance :=
  ⟨hreply, s.parser.source.current, Parser.Regular.current h, rfl⟩

namespace Command

mutual

theorem run_regular (b : TokenBuffer) : ∀ (c : Command) (pending : List Checkpoint) (s : Session),
    s.Regular b pending → c.foreign ⊆ pending → (run c s).1.Every b.Endures
  | .call c, pending, s, h, hforeign => by
    have hafter := h.leads (Session.leads_call s hforeign)
    exact hafter.endures (h.lawful_call c)
  | .attempt kind, pending, s, h, hforeign => by
    have hafter := h.leads (run_leads pending (.attempt kind) s hforeign)
    have hlawful := (Parser.require_staysRegular kind b _ _ h).1
    simp only [run] at hafter ⊢
    cases hr : (Parser.require kind).run s.parser with
    | mk outcome p =>
        rw [hr] at hafter hlawful
        cases outcome with
        | error f => exact hafter.endures hlawful
        | ok found => cases found <;> exact hafter.endures trivial
  | .within flags script, pending, s, h, hforeign => by
    have hafter := h.leads (run_leads pending (.within flags script) s hforeign)
    have henter := h.leads (Session.leads_inContext pending s (s.parser.context.enter flags))
    have hbody := runAll_regular b script pending _ henter hforeign
    exact ⟨hafter.endures trivial, hbody⟩
  | .speculate script giveUp, pending, s, h, hforeign => by
    -- the checkpoint of the speculation is pending while its script runs
    have hafter := h.leads (run_leads pending (.speculate script giveUp) s hforeign)
    have hnoting : s.Regular b (s.parser.checkpoint :: pending) :=
      (Parser.Regular.noting h).subset (List.perm_middle.subset)
    have henter := hnoting.leads (Session.leads_inContext _ s (s.parser.context.enter { speculating := true }))
    have hsubset := List.subset_cons_of_subset s.parser.checkpoint hforeign
    have hbody := runAll_regular b script _ _ henter hsubset
    have hleave := (henter.leads (runAll_leads _ script _ hsubset)).leads
      (Session.leads_inContext _ _ s.parser.context)
    refine ⟨hafter.endures ?_, hbody⟩
    exact hleave.lawful_endSpeculation (List.mem_append_right _ List.mem_cons_self) _

theorem runAll_regular (b : TokenBuffer) : ∀ (script : List Command) (pending : List Checkpoint) (s : Session),
    s.Regular b pending → foreignOf script ⊆ pending → Line.EveryOf b.Endures (runAll script s).1
  | [], _, _, _, _ => trivial
  | c :: rest, pending, s, h, hforeign => by
    rw [foreignOf, List.append_subset] at hforeign
    have hfirst := run_regular b c pending s h hforeign.1
    have hafter := h.leads (run_leads pending c s hforeign.1)
    simp only [runAll]
    cases hr : run c s with
    | mk line result =>
        obtain ⟨t, failure⟩ := result
        rw [hr] at hfirst hafter
        cases failure with
        | some m => exact ⟨hfirst, trivial⟩
        | none => exact ⟨hfirst, runAll_regular b rest pending t hafter hforeign.2⟩

end

end Command

/-- The last token and all that is in front of it fit into a root. -/
theorem Parser.Regular.exists_finish {b : TokenBuffer} {cs : List Checkpoint} {p : Parser} (h : p.Regular b cs)
    (kind : Kind) : ∃ root, ((finish kind).run p).1 = .ok root := by
  have hskipped : (p.skipUntil .empty).Regular b cs := (skipUntil_staysRegular .empty b cs p h).2
  have hmade := hskipped.lossless.1.made_skipped
  obtain ⟨t, ht⟩ := hskipped.exists_nextToken
  have hwidth : Slot.extents ((p.skipUntil .empty).slots ++ [t.toSlot]) < Size.limit := by
    have htoken := extent_nextToken ht hmade
    have hfits := hskipped.extents_lt
    rw [Slot.extents_append, Slot.extents, Slot.extents]
    omega
  obtain ⟨root, hroot⟩ := Node.exists_make (made_snoc hskipped.lossless.1.made_slots (nextToken_spec ht hmade).1) hwidth
    ((p.skipUntil .empty).nextId + (p.skipUntil .empty).source.current.leading.length + 2) kind
  refine ⟨root, ?_⟩
  rw [outcome_finish]
  exact bind_eq_ok_iff.2 ⟨t, ht, hroot⟩

/-- The `EOF` token that a buffer adds has no width. -/
theorem TokenBuffer.extents_ofTokens (tokens : List Lexeme) :
    Lexeme.extents (ofTokens tokens).tokens = Lexeme.extents tokens := by
  unfold ofTokens
  split
  · next last hlast =>
    obtain ⟨front, rfl⟩ := List.getLast?_eq_some_iff.1 hlast
    by_cases heof : last.kind = .eof
    · rw [if_pos heof, List.dropLast_concat]
      unfold TokenBuffer.tokens TokenBuffer.eof
      rw [← heof]
    · rw [if_neg heof]
      exact Lexeme.extents_append _ _
  · next hnone =>
    rw [List.getLast?_eq_none_iff.1 hnone]
    rfl

/-- **A run faults only where a marker or a checkpoint is misused.** Let the input fit into a tree, and let a script
rewind only to checkpoints of its own parser. Whatever the script does, and also after faults, each of its commands
succeeds or ends in one of the three breaches. The cursor is always on a token of the buffer, the loops that skip text
come to their end, and the tree can be finished at any time. -/
theorem faults_are_breaches (tokens : List Lexeme) (script : List Command)
    (hfits : Lexeme.extents tokens < Size.limit) (hown : Command.foreignOf script = []) {lines : List Line}
    {s : Session} {failure : Option Mismatch}
    (hrun : Command.runAll script { parser := .ofTokens tokens } = (lines, s, failure)) :
    Line.EveryOf (fun reply after => reply.Lawful ∧
      ∃ t, (TokenBuffer.ofTokens tokens).tokens[after.offset]? = some t ∧ t.kind = after.peek) lines ∧
    (∀ kind, ∃ root, ((Parser.finish kind).run s.parser).1 = .ok root) ∧
    (∀ recovery p, Parser.SkipsTo recovery p (p.skipUntil recovery)) ∧
    Fault.breaches.map Fault.message = ["marker refers to output dropped by a rewind",
      "a marker started before the checkpoint was completed after it",
      "Marker must be either completed or abandoned"] := by
  have hstart : ({ parser := .ofTokens tokens } : Session).Regular (.ofTokens tokens) [] :=
    Parser.regular_ofTokens tokens (by rw [TokenBuffer.extents_ofTokens]; exact hfits)
  have hlines := Command.runAll_regular _ script [] _ hstart (List.subset_nil.2 hown)
  have hafter := hstart.leads (Command.runAll_leads [] script _ (List.subset_nil.2 hown))
  rw [hrun] at hlines hafter
  exact ⟨hlines, hafter.exists_finish, Parser.skipsTo_skipUntil, rfl⟩

/-- The wording of the fault by which a simple call ended. -/
def Line.complaint? : Line → Option String
  | .plain (.fault f) _ => some f.message
  | _ => none

def threeTokens : List Lexeme := [⟨.name, 3, []⟩, ⟨.number, 1, [⟨.whitespace, 1⟩]⟩, ⟨.name, 5, []⟩]

/-- A script that completes a marker after what it marked is gone, goes back behind a node that it has completed since,
and loses a marker. -/
def carelessScript : List Command :=
  [.call .start, .call .advance, .call .checkpoint, .call .advance, .call .start, .call (.rewind 0),
    .call (.complete 1 .module), .call (.complete 0 .module), .call (.rewind 0), .call .start, .call (.lose 2)]

/-- Each breach occurs, and the tree can still be finished. -/
theorem carelessScript_faults :
    (Command.runAll carelessScript { parser := .ofTokens threeTokens }).1.filterMap Line.complaint? =
      Fault.breaches.map Fault.message ∧
    ∃ root, ((Parser.finish .module).run
      (Command.runAll carelessScript { parser := .ofTokens threeTokens }).2.1.parser).1 = .ok root := by
  refine ⟨by decide +kernel, ?_⟩
  cases hrun : Command.runAll carelessScript { parser := .ofTokens threeTokens } with
  | mk lines rest => exact (faults_are_breaches threeTokens carelessScript (by decide) rfl hrun).2.1 .module

end LosslessSyntax
