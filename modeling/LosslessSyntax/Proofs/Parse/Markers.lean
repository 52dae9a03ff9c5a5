import LosslessSyntax.Proofs.Builder.OpenNodes
import LosslessSyntax.Proofs.Parse.Rewind

/-!
# Markers

A marker remembers how high the stack was when it was started, and nothing else. When it is completed, the stack has
to be that high at least; whether the entries below the marker are still those of the start is not looked at. They are,
unless one of them has been taken off in between. Then later output may stand in its place, and that output stays
outside of the node although it was produced after the start. The stamps, which a rewind compares, would tell.

* `Completion` : the two ways to complete a marker, `Completion.Settles` : what becomes of it;
* `Marker.GoesBackTo` : a marker in front of a completed node goes back to the marker of the node;
* `Parser.NewAbove` : what lies above a height is newer than a stamp, `Parser.Keeps.newAbove_after` : as long as nothing
  below that height is taken off;
* `Parser.Stamped.take_outputs_after_iff` : the entries below are those of the start iff none has been taken off;
* `Session.Started` : each marker of a session was started on the way to it, `Command.runAll_started` : what a script
  preserves, by induction over its blocks;
* `completion_encloses_iff_kept` : when a completion is refused, and when it wraps all that has been produced.
-/

set_option autoImplicit false

namespace LosslessSyntax

/-! ## Completing a marker -/

/-- What a marker is completed to: a node, or a list. -/
inductive Completion where
  | node (kind : Kind)
  | list
deriving DecidableEq, Repr

namespace Completion

def toStep (m : Marker) : Completion → Step Parser (Option CompletedMarker)
  | node kind => some <$> m.complete kind
  | list => m.completeList

def wrap (id : Nat) (slots : List Slot) : Completion → Except Fault Slot
  | node kind => Node.toSlot <$> Node.make id kind slots
  | list => Node.makeList id slots

/-- The completed marker. An empty list has none. -/
def marker (m : Marker) (u : Slot) : Completion → Option CompletedMarker
  | node kind => some ⟨m.position, kind⟩
  | list => if u.isPresent then some ⟨m.position, .list⟩ else none

theorem wrap_eq_error_iff {w : Completion} {id : Nat} {slots : List Slot} {fault : Fault} :
    w.wrap id slots = .error fault ↔ fault = .sumTooLarge ∧ Slot.sumWidths 0 slots = .error .sumTooLarge := by
  cases w with
  | list => exact Node.makeList_eq_error_iff
  | node kind =>
      rw [← @Node.make_eq_error_iff id kind]
      exact map_eq_error_iff

theorem isOk_sumWidths_of_wrap {w : Completion} {id : Nat} {slots : List Slot} {u : Slot}
    (h : w.wrap id slots = .ok u) : (Slot.sumWidths 0 slots).isOk = true := by
  cases hsum : Slot.sumWidths 0 slots with
  | ok n => rfl
  | error fault =>
      obtain rfl := Slot.onlyTooWide_sumWidths 0 slots fault hsum
      rw [wrap_eq_error_iff.2 ⟨rfl, hsum⟩] at h
      cases h

/-- Completing a marker puts one fact in place of the output above it, if the stack is as high as the marker. -/
theorem run_toStep (w : Completion) (m : Marker) (p : Parser) :
    (w.toStep m).run p =
      if m.position ≤ p.outputs.length then
        match w.wrap p.nextId (p.slots.drop m.position) with
        | .ok u => (.ok (w.marker m u), p.wrapped m u)
        | .error f => (.error f, { p with outputs := p.outputs.take m.position, nextId := p.nextId + 1 })
      else (.error .markerDropped, p) := by
  have hslots : p.slots.drop m.position = (p.outputs.drop m.position).map (·.slot) := List.map_drop.symm
  rw [hslots]
  cases w with
  | node kind =>
      show (m.complete kind >>= fun c => pure (some c)).run p = _
      rw [Step.run_bind, Marker.run_complete]
      by_cases h : m.position ≤ p.outputs.length
      · simp only [if_pos h, wrap]
        cases Node.make p.nextId kind ((p.outputs.drop m.position).map (·.slot)) <;> rfl
      · simp only [if_neg h]
  | list =>
      show m.completeList.run p = _
      rw [Marker.run_completeList]
      rfl

/-- What becomes of a marker on a stack. -/
inductive Settles (w : Completion) (m : Marker) (q : Parser) : Except Fault (Option CompletedMarker) × Parser → Prop
  | dropped (h : q.outputs.length < m.position) : Settles w m q (.error .markerDropped, q)
  | tooWide (h : m.position ≤ q.outputs.length)
      (hwide : Slot.sumWidths 0 (q.slots.drop m.position) = .error .sumTooLarge) : Settles w m q
        (.error .sumTooLarge, { q with outputs := q.outputs.take m.position, nextId := q.nextId + 1 })
  | wrapped {u : Slot} (h : m.position ≤ q.outputs.length) (hu : w.wrap q.nextId (q.slots.drop m.position) = .ok u) :
      Settles w m q (.ok (w.marker m u), q.wrapped m u)

theorem settles_run (w : Completion) (m : Marker) (q : Parser) : Settles w m q ((w.toStep m).run q) := by
  rw [run_toStep]
  by_cases h : m.position ≤ q.outputs.length
  · rw [if_pos h]
    cases hu : w.wrap q.nextId (q.slots.drop m.position) with
    | ok u => exact .wrapped h hu
    | error fault =>
        obtain ⟨rfl, hwide⟩ := wrap_eq_error_iff.1 hu
        exact .tooWide h hwide
  · rw [if_neg h]
    exact .dropped (Nat.lt_of_not_le h)

namespace Settles

variable {w : Completion} {m : Marker} {q : Parser} {x : Except Fault (Option CompletedMarker) × Parser}

theorem dropped_iff (h : Settles w m q x) : x.1 = .error .markerDropped ↔ q.outputs.length < m.position := by
  cases h with
  | dropped hlt => exact ⟨fun _ => hlt, fun _ => rfl⟩
  | tooWide hle _ => exact iff_of_false (fun h => nomatch h) (Nat.not_lt_of_le hle)
  | wrapped hle _ => exact iff_of_false (fun h => nomatch h) (Nat.not_lt_of_le hle)

theorem eq_of_dropped (h : Settles w m q x) (hdropped : x.1 = .error .markerDropped) : x.2 = q := by
  cases h with
  | dropped _ => rfl
  | tooWide _ _ => cases hdropped
  | wrapped _ _ => cases hdropped

theorem exists_wrapped (h : Settles w m q x) (hok : x.1.isOk = true) :
    m.position ≤ q.outputs.length ∧
      ∃ u, w.wrap q.nextId (q.slots.drop m.position) = .ok u ∧ x = (.ok (w.marker m u), q.wrapped m u) := by
  cases h with
  | dropped _ => cases hok
  | tooWide _ _ => cases hok
  | wrapped hle hu => exact ⟨hle, _, hu, rfl⟩

theorem isOk_iff (h : Settles w m q x) : x.1.isOk = true ↔
    m.position ≤ q.outputs.length ∧ (Slot.sumWidths 0 (q.slots.drop m.position)).isOk = true := by
  constructor
  · intro hok
    obtain ⟨hle, u, hu, -⟩ := h.exists_wrapped hok
    exact ⟨hle, isOk_sumWidths_of_wrap hu⟩
  · rintro ⟨hle, hfits⟩
    cases h with
    | dropped hlt => exact absurd hle (Nat.not_le_of_lt hlt)
    | tooWide _ hwide =>
        rw [hwide] at hfits
        cases hfits
    | wrapped _ _ => rfl

end Settles

theorem precede_marker {w : Completion} {m : Marker} {u : Slot} {c : CompletedMarker} (h : w.marker m u = some c) :
    c.precede = m := by
  cases w with
  | node kind =>
      cases h
      rfl
  | list =>
      simp only [marker, Option.ite_none_right_eq_some, Option.some.injEq] at h
      rw [← h.2]
      rfl

end Completion

/-- The marker is the other one, or is made in front of a node to which a marker was completed that goes back to it. -/
inductive Marker.GoesBackTo : Marker → Marker → Prop
  | self (m : Marker) : GoesBackTo m m
  | precede {m n : Marker} {w : Completion} {q r : Parser} {c : CompletedMarker} (h : GoesBackTo n m)
      (run : (w.toStep n).run q = (.ok (some c), r)) : GoesBackTo c.precede m

theorem Completion.precede_eq {w : Completion} {m : Marker} {q r : Parser} {c : CompletedMarker}
    (h : (w.toStep m).run q = (.ok (some c), r)) : c.precede = m := by
  have hsettles := w.settles_run m q
  rw [h] at hsettles
  obtain ⟨-, u, -, hdone⟩ := hsettles.exists_wrapped rfl
  exact precede_marker (Except.ok.inj (congrArg Prod.fst hdone)).symm

theorem Marker.GoesBackTo.eq {n m : Marker} (h : n.GoesBackTo m) : n = m := by
  induction h with
  | self m => rfl
  | precede _ run ih => exact (Completion.precede_eq run).trans ih

/-! ## What has been produced since -/

namespace Parser

/-- All that lies above the `n` oldest entries is newer than the stamp. -/
def NewAbove (n stamp : Nat) (p : Parser) : Prop := ∀ o ∈ p.outputs.drop n, stamp < o.stamp

theorem NewAbove.rebuilt {p q : Parser} {n k stamp : Nat} (h : p.NewAbove n stamp) (hr : Rebuilt k p q) (hn : n ≤ k)
    (hk : k ≤ p.outputs.length) (hstamp : stamp ≤ p.stamp) : q.NewAbove n stamp := by
  obtain ⟨new, hq, hnew⟩ := hr.outputs
  intro o ho
  rw [hq, List.drop_append_of_le_length (by rw [List.length_take]; omega), List.mem_append, List.drop_take] at ho
  rcases ho with ho | ho
  · exact h o (List.mem_of_mem_take ho)
  · exact Nat.lt_of_le_of_lt hstamp (hnew o ho).1

theorem Keeps.newAbove_after {p : Parser} {n stamp : Nat} {acts : List Act} (hkeeps : p.Keeps n acts)
    (h : p.NewAbove n stamp) (hstamp : stamp ≤ p.stamp) : (p.after acts).NewAbove n stamp := by
  induction acts generalizing p with
  | nil => exact h
  | cons a rest ih =>
      have hr := a.rebuilt_step p
      exact ih hkeeps.2 (h.rebuilt hr hkeeps.1 (a.spares_le p) hstamp) (Nat.le_trans hstamp hr.stamp)

/-- All output above the height at the start is produced since, if the acts keep what was there. -/
theorem Keeps.produced {p : Parser} {since : List Act} (h : p.Keeps p.outputs.length since) :
    ∀ o ∈ (p.after since).outputs.drop p.outputs.length, p.stamp < o.stamp := by
  refine h.newAbove_after (fun o ho => ?_) (Nat.le_refl _)
  rw [List.drop_length] at ho
  cases ho

/-- A rewind to a checkpoint would tell whether the entries below it have been kept. -/
theorem Stamped.canRewind_after_iff {p : Parser} (hp : p.Stamped) (since : List Act) :
    (p.after since).canRewind p.checkpoint = true ↔ p.Keeps p.outputs.length since := by
  rw [canRewind_after since (Nat.le_refl _)]
  exact and_iff_left hp.canRewind_checkpoint

theorem canRewind_of_old {p q : Parser} (hlen : p.outputs.length ≤ q.outputs.length)
    (h : ∀ o ∈ q.outputs.take p.outputs.length, o.stamp ≤ p.stamp) : q.canRewind p.checkpoint = true := by
  rw [canRewind_iff]
  refine ⟨hlen, fun o hpos ho => h o ?_⟩
  have hlt : p.outputs.length - 1 < p.outputs.length := Nat.sub_lt hpos Nat.one_pos
  apply List.mem_of_getElem?
  rw [List.getElem?_take_of_lt hlt]
  exact ho

/-- The entries below are those of the start iff none of them has been taken off in between: one in the same place
that was put there later has a newer stamp. -/
theorem Stamped.take_outputs_after_iff {p : Parser} (hp : p.Stamped) (since : List Act) :
    (p.after since).outputs.take p.outputs.length = p.outputs ↔ p.Keeps p.outputs.length since := by
  constructor
  · intro h
    have hlen := congrArg List.length h
    rw [List.length_take] at hlen
    apply (hp.canRewind_after_iff since).1
    apply canRewind_of_old
    · omega
    · rw [h]
      exact hp.stamps
  · intro h
    exact (take_outputs_after h).trans List.take_length

/-- If one has been taken off, then on a stack that is high enough again later output lies below. -/
theorem Stamped.exists_newer_below {p : Parser} (hp : p.Stamped) {since : List Act}
    (hlen : p.outputs.length ≤ (p.after since).outputs.length) (h : ¬ p.Keeps p.outputs.length since) :
    ∃ o ∈ (p.after since).outputs.take p.outputs.length, p.stamp < o.stamp := by
  by_contra hnone
  apply h
  apply (hp.canRewind_after_iff since).1
  apply canRewind_of_old hlen
  intro o ho
  by_contra hnew
  exact hnone ⟨o, ho, Nat.lt_of_not_le hnew⟩

theorem take_outputs_wrapped {q : Parser} {m : Marker} (u : Slot) (h : m.position ≤ q.outputs.length) :
    (q.wrapped m u).outputs.take m.position = q.outputs.take m.position := by
  have hlen : (q.outputs.take m.position).length = m.position := by rw [List.length_take, Nat.min_eq_left h]
  exact List.take_left' hlen

end Parser

/-! ## The markers of a script -/

namespace Session

/-- The marker is at hand, or can be made in front of a completed node. -/
def Has (s : Session) (m : Marker) : Prop := some m ∈ s.markers ∨ ∃ c, some c ∈ s.completed ∧ c.precede = m

theorem has_perform {α : Type} {s : Session} {x : Step Parser α} {reply : α → Reply} {m : Marker}
    (h : (s.perform x reply).2.Has m) : s.Has m := by
  unfold perform at h
  split at h
  · exact h
  · exact h

/-- Completing a marker makes no other marker than that one. -/
theorem has_completing {s : Session} {w : Completion} {n m : Marker} (h : (s.completing (w.toStep n)).2.Has m) :
    s.Has m ∨ m = n := by
  unfold completing at h
  split at h
  · next c p hrun =>
    rcases h with h | ⟨d, hd, rfl⟩
    · exact .inl (.inl h)
    · rcases List.mem_append.1 hd with hd | hd
      · exact .inl (.inr ⟨d, hd, rfl⟩)
      · obtain rfl : d = c := Option.some.inj (List.mem_singleton.1 hd)
        exact .inr (Completion.precede_eq hrun)
  · exact .inl h
  · exact .inl h

theorem has_withMarker {s : Session} {name : Nat} {use : Marker → Session → Reply × Session} {m : Marker}
    (huse : ∀ n t, (use n t).2.Has m → t.Has m ∨ m = n) (h : (s.withMarker name use).2.Has m) : s.Has m := by
  unfold withMarker at h
  split at h
  · next n hn =>
    have hmem : some n ∈ s.markers := List.mem_of_getElem? (Option.join_eq_some_iff.1 hn)
    rcases huse n _ h with h | rfl
    · rcases h with h | h
      · rcases List.mem_or_eq_of_mem_set h with h | h
        · exact .inl h
        · cases h
      · exact .inr h
    · exact .inl hmem
  · exact h

/-- A call makes no other marker than one at the top of the stack. -/
theorem has_call {s : Session} {c : Call} {m : Marker} (h : (s.call c).2.Has m) : s.Has m ∨ m = s.parser.start := by
  cases c with
  | start =>
      rcases h with h | h
      · rcases List.mem_append.1 h with h | h
        · exact .inl (.inl h)
        · exact .inr (Option.some.inj (List.mem_singleton.1 h))
      · exact .inl (.inr h)
  | complete name kind => exact .inl (has_withMarker (fun n t => has_completing (w := .node kind)) h)
  | completeList name => exact .inl (has_withMarker (fun n t => has_completing (w := .list)) h)
  | abandon name => exact .inl (has_withMarker (fun n t h => .inl h) h)
  | lose name => exact .inl (has_withMarker (fun n t h => .inl (has_perform h)) h)
  | precede name =>
      simp only [call] at h
      split at h
      · next c hc =>
        have hmem : some c ∈ s.completed := List.mem_of_getElem? (Option.join_eq_some_iff.1 hc)
        rcases h with h | ⟨d, hd, rfl⟩
        · rcases List.mem_append.1 h with h | h
          · exact .inl (.inl h)
          · exact .inl (.inr ⟨c, hmem, (Option.some.inj (List.mem_singleton.1 h)).symm⟩)
        · rcases List.mem_or_eq_of_mem_set hd with hd | hd
          · exact .inl (.inr ⟨d, hd, rfl⟩)
          · cases hd
      · exact .inl h
  | rewind name =>
      simp only [call] at h
      split at h
      · exact .inl (has_perform h)
      · exact .inl h
  | sameCheckpoint a b =>
      simp only [call] at h
      split at h
      · exact .inl h
      · exact .inl h
  | inspect name =>
      simp only [call] at h
      split at h
      · exact .inl h
      · exact .inl h
  | advance => exact .inl (has_perform h)
  | missing kind => exact .inl (has_perform h)
  | eat kind => exact .inl (has_perform h)
  | expect kind => exact .inl (has_perform h)
  | recover expected recovery => exact .inl (has_perform h)
  | require kind => exact .inl (has_perform h)
  | _ => exact .inl h

/-- The session has come from the parser by acts, and each of its markers is one that was started in between. -/
structure Started (first : Parser) (s : Session) : Prop where
  acts : ∃ acts, s.parser = first.after acts
  markers : ∀ m, s.Has m → ∃ before since,
    s.parser = (first.after before).after since ∧ m = (first.after before).start

section Started

variable {first : Parser} {s t : Session}

theorem started_new (first : Parser) : Started first { parser := first } := by
  refine ⟨⟨[], rfl⟩, fun m h => ?_⟩
  rcases h with h | ⟨c, h, -⟩
  · cases h
  · cases h

theorem Started.step (h : Started first s) (hacts : ∃ acts, t.parser = s.parser.after acts)
    (hhas : ∀ m, t.Has m → s.Has m ∨ m = s.parser.start) : Started first t := by
  obtain ⟨before, hbefore⟩ := h.acts
  obtain ⟨acts, hafter⟩ := hacts
  refine ⟨⟨before ++ acts, ?_⟩, fun m hm => ?_⟩
  · rw [hafter, hbefore, Parser.after_append]
  · rcases hhas m hm with hm | rfl
    · obtain ⟨earlier, since, hs, hm⟩ := h.markers m hm
      refine ⟨earlier, since ++ acts, ?_, hm⟩
      rw [hafter, hs, Parser.after_append]
    · exact ⟨before, acts, by rw [hafter, hbefore], by rw [hbefore]⟩

theorem Started.call (h : Started first s) (c : Call) : Started first (s.call c).2 :=
  h.step (leads_call s (List.Subset.refl _)).exists_acts fun _ => has_call

theorem Started.inContext (h : Started first s) (c : ParseContext) : Started first (s.inContext c) :=
  h.step (leads_inContext [] s c).exists_acts fun _ => .inl

theorem Started.endSpeculation (h : Started first s) (c : Checkpoint) (failure : Option Mismatch) :
    Started first (s.endSpeculation c failure).2 := by
  have hleads := leads_endSpeculation (s := s) (List.mem_append_right _ (List.mem_singleton_self c)) failure
  refine h.step hleads.exists_acts fun m hm => .inl ?_
  cases failure with
  | none => exact hm
  | some _ => exact has_perform hm

end Started

end Session

namespace Command

open Session (Started)

mutual

theorem run_started {first : Parser} : ∀ (c : Command) (s : Session), Started first s → Started first (run c s).2.1
  | .call c, s, h => by
    simp only [run]
    exact h.call c
  | .attempt kind, s, h => by
    refine h.step (run_leads [] (.attempt kind) s (List.nil_subset _)).exists_acts fun m hm => .inl ?_
    simp only [run] at hm
    split at hm <;> exact hm
  | .within flags script, s, h => by
    simp only [run]
    exact (runAll_started script _ (h.inContext _)).inContext _
  | .speculate script giveUp, s, h => by
    simp only [run]
    exact ((runAll_started script _ (h.inContext _)).inContext _).endSpeculation _ _

theorem runAll_started {first : Parser} :
    ∀ (script : List Command) (s : Session), Started first s → Started first (runAll script s).2.1
  | [], _, h => h
  | c :: rest, s, h => by
    have hfirst := run_started c s h
    simp only [runAll]
    split
    · next hrun =>
      rw [hrun] at hfirst
      exact hfirst
    · next hrun =>
      rw [hrun] at hfirst
      exact runAll_started rest _ hfirst

end

end Command

/-- **A completion encloses all that was produced since the start iff nothing from before the start has been taken off
in between; it is refused iff the stack is lower than at the start.** The acts `before` lead to the place where a marker
is started, and the acts `since` from there to the completion of the marker, or of one that goes back to it. Each marker
that a script has at hand is such a one. -/
theorem completion_encloses_iff_kept (tokens : List Lexeme) :
    (∀ (script : List Command) (m : Marker),
      let s := (Command.runAll script { parser := .ofTokens tokens }).2.1
      some m ∈ s.markers → ∃ before since,
        s.parser = ((Parser.ofTokens tokens).after before).after since ∧
        m.GoesBackTo ((Parser.ofTokens tokens).after before).start) ∧
    ∀ (before since : List Act) (w : Completion) (m : Marker),
      let p := (Parser.ofTokens tokens).after before
      let q := p.after since
      let height := p.outputs.length
      let outcome := ((w.toStep m).run q).1
      let r := ((w.toStep m).run q).2
      m.GoesBackTo p.start →
        (outcome = .error .markerDropped ↔ q.outputs.length < height) ∧
        (outcome = .error .markerDropped → r = q) ∧
        (outcome.isOk = true ↔ height ≤ q.outputs.length ∧ (Slot.sumWidths 0 (q.slots.drop height)).isOk = true) ∧
        (outcome.isOk = true → ∃ u, w.wrap q.nextId (q.slots.drop height) = .ok u ∧
          r.outputs = q.outputs.take height ++ [⟨u, r.stamp⟩] ∧
          (r.outputs.take height = p.outputs ↔ p.Keeps height since) ∧
          (p.Keeps height since → ∀ o ∈ q.outputs.drop height, p.stamp < o.stamp) ∧
          (¬ p.Keeps height since → ∃ o ∈ r.outputs.take height, p.stamp < o.stamp)) := by
  refine ⟨fun script m => ?_, fun before since w m => ?_⟩
  · intro s hm
    have hstarted : s.Started (.ofTokens tokens) := Command.runAll_started script _ (Session.started_new _)
    obtain ⟨before, since, hs, rfl⟩ := hstarted.markers m (.inl hm)
    exact ⟨before, since, hs, .self _⟩
  · intro p q height outcome r hback
    have hp : p.Stamped := (Parser.stamped_ofTokens tokens).after before
    have hsettles := w.settles_run m q
    obtain rfl := hback.eq
    refine ⟨hsettles.dropped_iff, hsettles.eq_of_dropped, hsettles.isOk_iff, fun hok => ?_⟩
    obtain ⟨hle, u, hu, hrun⟩ := hsettles.exists_wrapped hok
    have hr : r = q.wrapped p.start u := congrArg Prod.snd hrun
    have htake : r.outputs.take height = q.outputs.take height := by
      rw [hr]
      exact Parser.take_outputs_wrapped u hle
    rw [htake]
    refine ⟨u, hu, ?_, hp.take_outputs_after_iff since, fun hkeeps => hkeeps.produced, hp.exists_newer_below hle⟩
    rw [hr]
    rfl

def threeNames : List Lexeme := [⟨.name, 1, []⟩, ⟨.name, 2, []⟩, ⟨.name, 3, []⟩]

/-- The second name becomes a node, and a marker in front of that node takes the third into a list with it. -/
theorem threeNames_preceded :
    let p := (Parser.ofTokens threeNames).after [.advance]
    let since := [.advance, .complete p.start .nameRef, .advance]
    let m := CompletedMarker.precede ⟨p.start.position, .nameRef⟩
    let x := (Completion.list.toStep m).run (p.after since)
    m.GoesBackTo p.start ∧ x.1.isOk = true ∧ x.2.outputs.take p.outputs.length = p.outputs := by
  intro p since m x
  have hback : m.GoesBackTo p.start := by
    have hsettles := (Completion.node .nameRef).settles_run p.start (p.after [.advance])
    obtain ⟨-, u, -, hrun⟩ := hsettles.exists_wrapped (by decide +kernel)
    exact .precede (.self p.start) hrun
  have hok : x.1.isOk = true := by decide +kernel
  have hkeeps : p.Keeps p.outputs.length since := ⟨by decide +kernel, by decide +kernel, by decide +kernel, trivial⟩
  obtain ⟨u, -, -, hiff, -⟩ := ((completion_encloses_iff_kept threeNames).2 [.advance] since .list m hback).2.2.2 hok
  exact ⟨hback, hok, hiff.2 hkeeps⟩

/-- A marker is completed although what was there at its start is gone: a rewind has taken it off, or an earlier
marker has been completed over it. -/
theorem threeNames_misplaced :
    let first := Parser.ofTokens threeNames
    let p := first.after [.checkpoint, .advance]
    let rewound := [.rewind first.checkpoint, .skip, .advance, .advance]
    let swallowed := [.complete first.start .nameRef, .advance]
    ∀ since ∈ [rewound, swallowed],
      first.Own [] ([.checkpoint, .advance] ++ since) ∧ first.Smooth ([.checkpoint, .advance] ++ since) ∧
      ((p.start.complete .nameRef).run (p.after since)).1.isOk = true ∧
      ((p.start.complete .nameRef).run (p.after since)).2.outputs.take p.start.position ≠ p.outputs := by
  intro first p rewound swallowed since hsince
  simp only [List.mem_cons, List.not_mem_nil, or_false] at hsince
  -- the stamps tell the entries apart
  rcases hsince with rfl | rfl
  · refine ⟨?_, by decide +kernel, by decide +kernel, fun h => ?_⟩
    · exact ⟨trivial, trivial, List.mem_cons_self, trivial, trivial, trivial, trivial⟩
    · exact absurd (congrArg (List.map Output.stamp) h) (by decide +kernel)
  · refine ⟨?_, by decide +kernel, by decide +kernel, fun h => ?_⟩
    · exact ⟨trivial, trivial, trivial, trivial, trivial⟩
    · exact absurd (congrArg (List.map Output.stamp) h) (by decide +kernel)

end LosslessSyntax
