import LosslessSyntax.Proofs.Fact.Erase
import LosslessSyntax.Proofs.Parse.Rewind

/-!
# Parsers that cannot be told apart

Two parsers are twins if they agree in all but stamps and instance numbers. Stamps decide later rewinds, so
twins alone do not suffice: a checkpoint of one is paired with a checkpoint of the other if both hold the same
and a rewind to the one is possible exactly when a rewind to the other is. What an act does to a pair depends on
the heights only, so pairs stay pairs whatever is done to both parsers.

* `Parser.Twin`, `Parser.Paired` : parsers and checkpoints that agree;
* `Parser.Follows` : twins have come from twins, and pairs are pairs still;
* `Step.Blind` : a step that ends alike on twins and leads to twins; every step but a rewind is blind, and
  `Twin.rewind` says the same of rewinds to the checkpoints of a pair.
-/

set_option autoImplicit false

namespace LosslessSyntax

/-- The checkpoint without its stamp and the instance numbers in it. -/
def Checkpoint.erase (c : Checkpoint) : Checkpoint := { c with stamp := 0, skipped := Slot.eraseAll c.skipped }

theorem outcomes_of_map_eq {α β : Type} {f : α → β} {x y : Except Fault α} (h : x.map f = y.map f) :
    (∃ a b, x = .ok a ∧ y = .ok b ∧ f a = f b) ∨ ∃ e, x = .error e ∧ y = .error e := by
  cases x with
  | ok a =>
      cases y with
      | ok b => exact .inl ⟨a, b, rfl, rfl, Except.ok.inj h⟩
      | error e => cases h
  | error e =>
      cases y with
      | ok b => cases h
      | error e' => exact .inr ⟨e, rfl, congrArg _ (Except.error.inj h).symm⟩

namespace Parser

/-- The parsers agree in all but stamps and instance numbers. -/
structure Twin (p q : Parser) : Prop where
  source : q.source = p.source
  context : q.context = p.context
  slots : Slot.eraseAll q.slots = Slot.eraseAll p.slots
  skipped : Slot.eraseAll q.skipped = Slot.eraseAll p.skipped
  stamped : p.Stamped
  stamped_twin : q.Stamped

/-- The checkpoints hold the same, and a rewind to `c` in `p` is possible iff one to `d` in `q` is. -/
structure Paired (p q : Parser) (c d : Checkpoint) : Prop where
  erase : d.erase = c.erase
  stamp : c.stamp ≤ p.stamp
  stamp_twin : d.stamp ≤ q.stamp
  canRewind : q.canRewind d = p.canRewind c

/-- The parsers `p` and `q` have become `p'` and `q'`, which are twins, and all pairs are pairs still. -/
structure Follows (p q p' q' : Parser) : Prop where
  twin : Twin p' q'
  paired : ∀ {c d : Checkpoint}, Paired p q c d → Paired p' q' c d

theorem Follows.refl {p q : Parser} (h : Twin p q) : Follows p q p q := ⟨h, id⟩

theorem Follows.trans {p q p' q' p'' q'' : Parser} (h : Follows p q p' q') (h' : Follows p' q' p'' q'') :
    Follows p q p'' q'' := ⟨h'.twin, fun hc => h'.paired (h.paired hc)⟩

theorem Twin.length_outputs {p q : Parser} (h : Twin p q) : q.outputs.length = p.outputs.length := by
  have := congrArg List.length h.slots
  rwa [Slot.length_eraseAll, Slot.length_eraseAll, length_slots, length_slots] at this

theorem Twin.peek {p q : Parser} (h : Twin p q) : q.peek = p.peek := by rw [Parser.peek, Parser.peek, h.source]

theorem Twin.isAt {p q : Parser} (h : Twin p q) (kind : Kind) : q.isAt kind = p.isAt kind := by
  rw [Parser.isAt, Parser.isAt, h.peek]

/-- Changes to twins that leave equally many entries in place, and after which the parsers agree again. -/
theorem Follows.rebuilt {p q p' q' : Parser} {n : Nat} (h : Twin p q) (hn : n ≤ p.outputs.length)
    (hp : Rebuilt n p p') (hq : Rebuilt n q q') (hsource : q'.source = p'.source) (hcontext : q'.context = p'.context)
    (hslots : Slot.eraseAll q'.slots = Slot.eraseAll p'.slots)
    (hskipped : Slot.eraseAll q'.skipped = Slot.eraseAll p'.skipped) : Follows p q p' q' := by
  refine ⟨⟨hsource, hcontext, hslots, hskipped, h.stamped.rebuilt hp, h.stamped_twin.rebuilt hq⟩, ?_⟩
  intro c d hc
  refine ⟨hc.erase, Nat.le_trans hc.stamp hp.stamp, Nat.le_trans hc.stamp_twin hq.stamp, ?_⟩
  have hheight : d.height = c.height := congrArg (·.height) hc.erase
  rw [Bool.eq_iff_iff, hq.canRewind_iff (by rw [h.length_outputs]; exact hn) hc.stamp_twin,
    hp.canRewind_iff hn hc.stamp, hheight, hc.canRewind]

theorem Twin.checkpoint {p q : Parser} (h : Twin p q) : Paired p q p.checkpoint q.checkpoint := by
  refine ⟨?_, Nat.le_refl _, Nat.le_refl _, ?_⟩
  · unfold Checkpoint.erase Parser.checkpoint
    rw [h.source, h.context, h.length_outputs, h.skipped]
  · rw [h.stamped.canRewind_checkpoint, h.stamped_twin.canRewind_checkpoint]

/-- Foreign checkpoints hold no output, so a rewind to them is always possible. -/
theorem paired_capture (p q : Parser) (context : ParseContext) (snapshot offset : Nat) :
    Paired p q (.capture context snapshot offset) (.capture context snapshot offset) := by
  have hcan : ∀ p : Parser, p.canRewind (.capture context snapshot offset) = true := by
    intro p
    rw [canRewind_iff]
    exact ⟨Nat.zero_le _, fun o hpos _ => absurd hpos (Nat.lt_irrefl 0)⟩
  refine ⟨rfl, Nat.zero_le _, Nat.zero_le _, ?_⟩
  rw [hcan, hcan]

end Parser

/-! ## Blind steps -/

/-- The step ends alike on twins and leads to twins. -/
def Step.Blind {α : Type} (x : Step Parser α) : Prop :=
  ∀ p q : Parser, p.Twin q → (x.run q).1 = (x.run p).1 ∧ p.Follows q (x.run p).2 (x.run q).2

namespace Step.Blind

variable {α β γ : Type}

theorem pure (a : α) : (Pure.pure a : Step Parser α).Blind := fun _ _ h => ⟨rfl, .refl h⟩

theorem bind {x : Step Parser α} {f : α → Step Parser β} (hx : x.Blind) (hf : ∀ a, (f a).Blind) : (x >>= f).Blind := by
  intro p q h
  obtain ⟨houtcome, hfollows⟩ := hx p q h
  rw [Step.run_bind, Step.run_bind]
  cases hp : x.run p with
  | mk outcome p' =>
      cases hq : x.run q with
      | mk outcome' q' =>
          rw [hp, hq] at houtcome hfollows
          dsimp only at houtcome hfollows
          subst houtcome
          cases outcome' with
          | error e => exact ⟨rfl, hfollows⟩
          | ok a =>
              obtain ⟨houtcome', hfollows'⟩ := hf a _ _ hfollows.twin
              exact ⟨houtcome', hfollows.trans hfollows'⟩

theorem map {x : Step Parser α} (f : α → β) (hx : x.Blind) : (f <$> x).Blind := bind hx fun a => pure (f a)

theorem gets {g : Parser → γ} (hg : ∀ {p q}, p.Twin q → g q = g p) : (Step.gets g).Blind :=
  fun _ _ h => ⟨congrArg Except.ok (hg h), .refl h⟩

/-- A step that goes by what twins have in common. -/
theorem observe {g : Parser → γ} {f : γ → Step Parser α} (hg : ∀ {p q}, p.Twin q → g q = g p)
    (hf : ∀ c, (f c).Blind) :
    (Step.get >>= fun p => f (g p)).Blind := by
  intro p q h
  rw [Step.run_bind, Step.run_bind, Step.run_get, Step.run_get]
  dsimp only
  rw [hg h]
  exact hf (g p) p q h

end Step.Blind

namespace Parser

/-- The token that `bump` puts on the stack, made of what twins have in common. -/
theorem erase_nextToken (p : Parser) :
    p.nextToken.map Token.erase = (do
      let t := p.source.current
      let leading ← packTrivia 0 (Slot.eraseAll p.skipped ++ t.leading.map fun piece => (piece.toToken 0).toSlot)
      Token.make 0 leading t.kind t.width) := by
  unfold nextToken
  dsimp only
  rw [← TriviaPiece.eraseAll_toSlots p.nextId, ← Slot.eraseAll_append,
    ← erase_packTrivia (p.nextId + p.source.current.leading.length)]
  cases packTrivia (p.nextId + p.source.current.leading.length)
      (p.skipped ++ TriviaPiece.toSlots p.nextId p.source.current.leading) with
  | error f => rfl
  | ok leading => exact Token.erase_make ..

theorem erase_missingToken (p : Parser) (kind : Kind) :
    (p.missingToken kind).map Token.erase = (do
      let leading ← packTrivia 0 (Slot.eraseAll p.skipped)
      Token.makeMissing 0 leading kind [.ofMissing]) := by
  unfold missingToken
  rw [← erase_packTrivia p.nextId]
  cases packTrivia p.nextId p.skipped with
  | error f => rfl
  | ok leading => exact Token.erase_makeMissing (p.nextId + 1) leading kind [.ofMissing]

theorem Twin.slots_push {p q : Parser} (h : Twin p q) {s t : Slot} (hs : t.erase = s.erase) :
    Slot.eraseAll (q.push t).slots = Slot.eraseAll (p.push s).slots := by
  rw [Parser.slots_push, Parser.slots_push, Slot.eraseAll_append, Slot.eraseAll_append, h.slots]
  exact congrArg (Slot.eraseAll p.slots ++ [·]) hs

theorem Twin.nextToken {p q : Parser} (h : Twin p q) : q.nextToken.map Token.erase = p.nextToken.map Token.erase := by
  rw [erase_nextToken, erase_nextToken, h.source, h.skipped]

theorem bump_blind : bump.Blind := by
  intro p q h
  have hp := p.rebuilt_bump
  have hq := q.rebuilt_bump
  rw [h.length_outputs] at hq
  simp only [run_bump] at hp hq ⊢
  rcases outcomes_of_map_eq h.nextToken with ⟨u, t, hu, ht, he⟩ | ⟨f, hf, hf'⟩
  · rw [hu] at hq ⊢
    rw [ht] at hp ⊢
    have hslot : u.toSlot.erase = t.toSlot.erase := by rw [Token.erase_toSlot, he, Token.erase_toSlot]
    refine ⟨rfl, .rebuilt h (Nat.le_refl _) hp hq ?_ h.context (h.slots_push hslot) rfl⟩
    exact congrArg TokenBuffer.bump h.source
  · rw [hf] at hq ⊢
    rw [hf'] at hp ⊢
    exact ⟨rfl, .rebuilt h (Nat.le_refl _) hp hq h.source h.context h.slots rfl⟩

theorem advance_blind : advance.Blind := by
  refine .observe (g := fun p => p.isAt .eof) (f := fun atEnd => if atEnd then pure () else bump)
    (fun h => h.isAt .eof) fun atEnd => ?_
  cases atEnd with
  | true => exact .pure ()
  | false => exact bump_blind

theorem missing_blind (kind : Kind) : (missing kind).Blind := by
  intro p q h
  have hp := (Act.missing kind).rebuilt_step p
  have hq := (Act.missing kind).rebuilt_step q
  rw [show (Act.missing kind).spares q = p.outputs.length from h.length_outputs] at hq
  have htoken : (q.missingToken kind).map Token.erase = (p.missingToken kind).map Token.erase := by
    rw [erase_missingToken, erase_missingToken, h.skipped]
  simp only [Act.step, Act.toStep, run_missing] at hp hq ⊢
  rcases outcomes_of_map_eq htoken with ⟨u, t, hu, ht, he⟩ | ⟨f, hf, hf'⟩
  · rw [hu] at hq ⊢
    rw [ht] at hp ⊢
    have hslot : u.toSlot.erase = t.toSlot.erase := by rw [Token.erase_toSlot, he, Token.erase_toSlot]
    exact ⟨rfl, .rebuilt h (Nat.le_refl _) hp hq h.source h.context (h.slots_push hslot) rfl⟩
  · rw [hf] at hq ⊢
    rw [hf'] at hp ⊢
    exact ⟨rfl, .rebuilt h (Nat.le_refl _) hp hq h.source h.context h.slots rfl⟩

theorem Twin.absent {p q : Parser} (h : Twin p q) : Follows p q p.absent q.absent := by
  have hq := Act.absent.rebuilt_step q
  rw [show Act.absent.spares q = p.outputs.length from h.length_outputs] at hq
  exact .rebuilt h (Nat.le_refl _) (Act.absent.rebuilt_step p) hq h.source h.context (h.slots_push rfl) h.skipped

theorem Twin.inContext {p q : Parser} (h : Twin p q) (c : ParseContext) :
    Follows p q { p with context := c } { q with context := c } := by
  have hq := (Act.inContext c).rebuilt_step q
  rw [show (Act.inContext c).spares q = p.outputs.length from h.length_outputs] at hq
  exact .rebuilt h (Nat.le_refl _) ((Act.inContext c).rebuilt_step p) hq h.source rfl h.slots h.skipped

theorem Twin.skip {p q : Parser} (h : Twin p q) : Follows p q p.skip q.skip := by
  have hp := Act.skip.rebuilt_step p
  have hq := Act.skip.rebuilt_step q
  rw [show Act.skip.spares q = p.outputs.length from h.length_outputs] at hq
  simp only [Act.step, Act.toStep, Step.run_modify] at hp hq
  refine .rebuilt h (Nat.le_refl _) hp hq ?_ ?_ ?_ ?_
  all_goals
    simp only [Parser.skip, h.isAt]
    split
  · exact h.source
  · exact congrArg TokenBuffer.bump h.source
  · exact h.context
  · exact h.context
  · exact h.slots
  · exact h.slots
  · exact h.skipped
  · simp only [Slot.eraseAll_append, h.skipped, TriviaPiece.eraseAll_toSlots, h.source]
    rfl

theorem Twin.skipAtMost {p q : Parser} (h : Twin p q) (recovery : KindSet) (n : Nat) :
    Follows p q (p.skipAtMost recovery n) (q.skipAtMost recovery n) := by
  induction n generalizing p q with
  | zero => exact .refl h
  | succ n ih =>
      rw [Parser.skipAtMost, Parser.skipAtMost, h.isAt, isAtAny, isAtAny, h.peek]
      split
      · exact .refl h
      · exact h.skip.trans (ih h.skip.twin)

theorem Twin.skipUntil {p q : Parser} (h : Twin p q) (recovery : KindSet) :
    Follows p q (p.skipUntil recovery) (q.skipUntil recovery) := by
  rw [Parser.skipUntil, Parser.skipUntil, h.source]
  exact h.skipAtMost recovery _

theorem eat_blind (kind : Kind) : (eat kind).Blind := by
  refine .observe (g := fun p => p.isAt kind)
    (f := fun found => if found then do advance; return true else return false) (fun h => h.isAt kind) fun found => ?_
  cases found with
  | true => exact .bind advance_blind fun _ => .pure true
  | false => exact .pure false

theorem expect_blind (kind : Kind) : (expect kind).Blind := by
  refine .bind (eat_blind kind) fun eaten => ?_
  cases eaten with
  | true => exact .pure true
  | false => exact .bind (missing_blind kind) fun _ => .pure false

theorem require_blind (kind : Kind) : (require kind).Blind := by
  refine .bind (eat_blind kind) fun eaten => ?_
  cases eaten with
  | true => exact .pure _
  | false => exact .bind (.gets Twin.peek) fun _ => .pure _

theorem recover_blind (expected : Kind) (recovery : KindSet) : (recover expected recovery).Blind := by
  refine .bind (fun p q h => ⟨rfl, h.skipUntil recovery⟩) fun _ => ?_
  exact .bind (expect_blind expected) fun _ => .pure ()

/-- What lies above a marker on the stacks of twins is the same. -/
theorem Twin.above {p q : Parser} (h : Twin p q) (n : Nat) :
    Slot.eraseAll ((q.outputs.drop n).map (·.slot)) = Slot.eraseAll ((p.outputs.drop n).map (·.slot)) := by
  rw [List.map_drop, List.map_drop, Slot.eraseAll_drop, Slot.eraseAll_drop]
  exact congrArg (·.drop n) h.slots

theorem Twin.below {p q : Parser} (h : Twin p q) (n : Nat) :
    Slot.eraseAll ((q.outputs.take n).map (·.slot)) = Slot.eraseAll ((p.outputs.take n).map (·.slot)) := by
  rw [List.map_take, List.map_take, Slot.eraseAll_take, Slot.eraseAll_take]
  exact congrArg (·.take n) h.slots

/-- New output on what is left of the stacks below a marker. -/
theorem Twin.wrap {p q : Parser} (h : Twin p q) {n : Nat} (hn : n ≤ p.outputs.length) {s t : Slot}
    (hs : t.erase = s.erase) :
    Follows p q ({ p with outputs := p.outputs.take n, nextId := p.nextId + 1 }.push s)
      ({ q with outputs := q.outputs.take n, nextId := q.nextId + 1 }.push t) := by
  refine .rebuilt h hn (.cut_push rfl rfl (.inl rfl)) (.cut_push rfl rfl (.inl rfl)) h.source h.context ?_ h.skipped
  rw [Parser.slots_push, Parser.slots_push, Slot.eraseAll_append, Slot.eraseAll_append]
  show Slot.eraseAll ((q.outputs.take n).map (·.slot)) ++ [t.erase] =
    Slot.eraseAll ((p.outputs.take n).map (·.slot)) ++ [s.erase]
  rw [h.below, hs]

theorem Twin.cut {p q : Parser} (h : Twin p q) {n : Nat} (hn : n ≤ p.outputs.length) :
    Follows p q { p with outputs := p.outputs.take n, nextId := p.nextId + 1 }
      { q with outputs := q.outputs.take n, nextId := q.nextId + 1 } :=
  .rebuilt h hn (.cut rfl rfl rfl) (.cut rfl rfl rfl) h.source h.context (h.below n) h.skipped

theorem complete_blind (m : Marker) (kind : Kind) : (m.complete kind).Blind := by
  intro p q h
  rw [Marker.run_complete, Marker.run_complete, h.length_outputs]
  by_cases hm : m.position ≤ p.outputs.length
  · rw [if_pos hm, if_pos hm]
    have hnode : (Node.make q.nextId kind ((q.outputs.drop m.position).map (·.slot))).map Node.erase =
        (Node.make p.nextId kind ((p.outputs.drop m.position).map (·.slot))).map Node.erase := by
      rw [Node.erase_make, Node.erase_make, h.above]
    rcases outcomes_of_map_eq hnode with ⟨u, t, hu, ht, he⟩ | ⟨f, hf, hf'⟩
    · rw [hu, ht]
      exact ⟨rfl, h.wrap hm (by rw [Node.erase_toSlot, he, Node.erase_toSlot])⟩
    · rw [hf, hf']
      exact ⟨rfl, h.cut hm⟩
  · rw [if_neg hm, if_neg hm]
    exact ⟨rfl, .refl h⟩

theorem completeList_blind (m : Marker) : m.completeList.Blind := by
  intro p q h
  rw [Marker.run_completeList, Marker.run_completeList, h.length_outputs]
  by_cases hm : m.position ≤ p.outputs.length
  · rw [if_pos hm, if_pos hm]
    have hlist : (Node.makeList q.nextId ((q.outputs.drop m.position).map (·.slot))).map Slot.erase =
        (Node.makeList p.nextId ((p.outputs.drop m.position).map (·.slot))).map Slot.erase := by
      rw [Node.erase_makeList, Node.erase_makeList, h.above]
    rcases outcomes_of_map_eq hlist with ⟨u, t, hu, ht, he⟩ | ⟨f, hf, hf'⟩
    · rw [hu, ht]
      have hpresent : u.isPresent = t.isPresent := by rw [← Slot.isPresent_erase, he, Slot.isPresent_erase]
      refine ⟨?_, h.wrap hm he⟩
      dsimp only
      rw [hpresent]
    · rw [hf, hf']
      exact ⟨rfl, h.cut hm⟩
  · rw [if_neg hm, if_neg hm]
    exact ⟨rfl, .refl h⟩

theorem Twin.rewind {p q : Parser} (h : Twin p q) {c d : Checkpoint} (hc : Paired p q c d) :
    ((Parser.rewind d).run q).1 = ((Parser.rewind c).run p).1 ∧
      Follows p q ((Parser.rewind c).run p).2 ((Parser.rewind d).run q).2 := by
  have hheight : d.height = c.height := congrArg (·.height) hc.erase
  have hsnapshot : d.snapshot = c.snapshot := congrArg (·.snapshot) hc.erase
  have hcontext : d.context = c.context := congrArg (·.context) hc.erase
  have hskipped : Slot.eraseAll d.skipped = Slot.eraseAll c.skipped := congrArg (·.skipped) hc.erase
  have hp := (Act.rewind c).rebuilt_step p
  have hq := (Act.rewind d).rebuilt_step q
  have hspares : (Act.rewind d).spares q = (Act.rewind c).spares p := by
    simp only [Act.spares, hc.canRewind, hheight, h.length_outputs]
  rw [hspares] at hq
  simp only [Act.step, Act.toStep] at hp hq
  by_cases hcan : p.canRewind c
  · have hcan' : q.canRewind d = true := hc.canRewind.trans hcan
    rw [run_rewind, if_pos hcan] at hp
    rw [run_rewind, if_pos hcan', h.source, hsnapshot, hheight] at hq
    rw [run_rewind, run_rewind, if_pos hcan, if_pos hcan', h.source, hsnapshot, hheight]
    cases hrestore : p.source.restore c.snapshot with
    | ok source =>
        rw [hrestore] at hp hq
        exact ⟨rfl, .rebuilt h ((Act.rewind c).spares_le p) hp hq rfl hcontext (h.below _) hskipped⟩
    | error f =>
        rw [hrestore] at hp hq
        exact ⟨rfl, .rebuilt h ((Act.rewind c).spares_le p) hp hq rfl h.context (h.below _) hskipped⟩
  · rw [run_rewind, run_rewind, hc.canRewind, if_neg hcan, if_neg hcan]
    exact ⟨rfl, .refl h⟩

/-- Twins finish alike: the trees agree up to their instance numbers. -/
theorem Twin.finish {p q : Parser} (h : Twin p q) (kind : Kind) :
    ((Parser.finish kind).run q).1.map Node.erase = ((Parser.finish kind).run p).1.map Node.erase := by
  have hend := (h.skipUntil .empty).twin
  rw [outcome_finish, outcome_finish]
  dsimp only
  rcases outcomes_of_map_eq hend.nextToken with ⟨u, t, hu, ht, he⟩ | ⟨f, hf, hf'⟩
  · rw [hu, ht]
    show (Node.make _ kind _).map Node.erase = (Node.make _ kind _).map Node.erase
    rw [Node.erase_make, Node.erase_make, Slot.eraseAll_append, Slot.eraseAll_append, hend.slots]
    show Node.make 0 kind (_ ++ [u.toSlot.erase]) = Node.make 0 kind (_ ++ [t.toSlot.erase])
    rw [Token.erase_toSlot, he, Token.erase_toSlot]
  · rw [hf, hf']
    rfl

end Parser

end LosslessSyntax
