import LosslessSyntax.Parse.Script
import LosslessSyntax.Proofs.Parse.Acts

/-!
# Scripts as sequences of acts

Every call of a script, and every block of it, comes down to acts of the parser. Here that is said once, so
that a property of all scripts only needs a look at the acts.

* `Parser.Own` : rewinds go to checkpoints taken in the same run; `Parser.Smooth` : no act faults;
* `Parser.run_invariant` : what each act preserves holds after a run;
* `Step.MadeOfActs` : a step of the parser that is a sequence of acts without rewinds;
* `Command.foreignOf` : the checkpoints that a script brings in from outside;
* `Session.Grows` : names keep their place; `Session.Leads` : acts lead from one session to another;
* `Command.runAll_leads` : a script is a sequence of acts that is own but for foreign checkpoints, and a smooth
  one if no reply is a fault.
-/

set_option autoImplicit false

namespace LosslessSyntax

namespace Act

def noting (p : Parser) (cs : List Checkpoint) : Act → List Checkpoint
  | checkpoint => p.checkpoint :: cs
  | _ => cs

/-- A rewind goes to one of the checkpoints at hand. -/
def Own (cs : List Checkpoint) : Act → Prop
  | rewind c => c ∈ cs
  | _ => True

theorem subset_noting (a : Act) (p : Parser) (cs : List Checkpoint) : cs ⊆ a.noting p cs := by
  cases a <;> first | exact List.Subset.refl _ | exact List.subset_cons_self _ _

theorem noting_subset (a : Act) (p : Parser) (cs : List Checkpoint) : a.noting p cs ⊆ p.checkpoint :: cs := by
  cases a <;> first | exact List.Subset.refl _ | exact List.subset_cons_self _ _

theorem isOk_outcome_iff {a : Act} {p : Parser} : (a.outcome p).isOk = true ↔ a.outcome p = .ok () := by
  cases a.outcome p with
  | ok u => exact iff_of_true rfl rfl
  | error fault => exact iff_of_false (fun h => nomatch h) fun h => nomatch h

end Act

namespace Parser

/-- Rewinds go to one of the checkpoints `cs`, or to one taken by an earlier act. -/
def Own (cs : List Checkpoint) : Parser → List Act → Prop
  | _, [] => True
  | p, a :: rest => a.Own cs ∧ Own (a.noting p cs) (a.step p) rest

def known (cs : List Checkpoint) : Parser → List Act → List Checkpoint
  | _, [] => cs
  | p, a :: rest => known (a.noting p cs) (a.step p) rest

/-- No act faults. -/
def Smooth : Parser → List Act → Prop
  | _, [] => True
  | p, a :: rest => a.outcome p = .ok () ∧ Smooth (a.step p) rest

instance decidableSmooth : (p : Parser) → (acts : List Act) → Decidable (p.Smooth acts)
  | _, [] => .isTrue trivial
  | p, a :: rest =>
    have := decidableSmooth (a.step p) rest
    decidable_of_iff ((a.outcome p).isOk = true ∧ (a.step p).Smooth rest) (and_congr Act.isOk_outcome_iff Iff.rfl)

theorem own_append {cs : List Checkpoint} {p : Parser} {acts more : List Act} :
    p.Own cs (acts ++ more) ↔ p.Own cs acts ∧ (p.after acts).Own (p.known cs acts) more := by
  induction acts generalizing cs p with
  | nil => simp only [List.nil_append, Own, known, after_nil, true_and]
  | cons a rest ih => simp only [List.cons_append, Own, known, after_cons, ih, and_assoc]

theorem known_append {cs : List Checkpoint} {p : Parser} {acts more : List Act} :
    p.known cs (acts ++ more) = (p.after acts).known (p.known cs acts) more := by
  induction acts generalizing cs p with
  | nil => rfl
  | cons a rest ih => exact ih

theorem smooth_append {p : Parser} {acts more : List Act} :
    p.Smooth (acts ++ more) ↔ p.Smooth acts ∧ (p.after acts).Smooth more := by
  induction acts generalizing p with
  | nil => simp only [List.nil_append, Smooth, after_nil, true_and]
  | cons a rest ih => simp only [List.cons_append, Smooth, after_cons, ih, and_assoc]

theorem subset_known (cs : List Checkpoint) (p : Parser) (acts : List Act) : cs ⊆ p.known cs acts := by
  induction acts generalizing cs p with
  | nil => exact List.Subset.refl _
  | cons a rest ih => exact List.Subset.trans (a.subset_noting p cs) (ih _ _)

/-- What every act preserves holds after a run without faults that stays with its own checkpoints. -/
theorem run_invariant {I : List Checkpoint → Parser → Prop}
    (hstep : ∀ cs p (a : Act), I cs p → a.Own cs → a.outcome p = .ok () → I (a.noting p cs) (a.step p))
    {cs : List Checkpoint} {p : Parser} {acts : List Act} (hown : p.Own cs acts) (hsmooth : p.Smooth acts)
    (h : I cs p) : I (p.known cs acts) (p.after acts) := by
  induction acts generalizing cs p with
  | nil => exact h
  | cons a rest ih => exact ih hown.2 hsmooth.2 (hstep cs p a h hown.1 hsmooth.1)

end Parser

/-! ## Steps that are acts -/

/-- The step is a sequence of acts, none of which is a rewind. -/
def Step.MadeOfActs {α : Type} (x : Step Parser α) : Prop :=
  ∀ p, ∃ acts, (x.run p).2 = p.after acts ∧ (∀ cs, p.Own cs acts) ∧ ((x.run p).1.isOk = true → p.Smooth acts)

namespace Step.MadeOfActs

variable {α β : Type}

theorem ofAct {a : Act} (h : ∀ cs, a.Own cs) : a.toStep.MadeOfActs := by
  intro p
  exact ⟨[a], rfl, fun cs => ⟨h cs, trivial⟩, fun hok => ⟨Act.isOk_outcome_iff.1 hok, trivial⟩⟩

theorem pure (a : α) : (Pure.pure a : Step Parser α).MadeOfActs :=
  fun _ => ⟨[], rfl, fun _ => trivial, fun _ => trivial⟩

theorem gets (f : Parser → α) : (Step.gets f).MadeOfActs := fun _ => ⟨[], rfl, fun _ => trivial, fun _ => trivial⟩

theorem get : (Step.get : Step Parser Parser).MadeOfActs := fun _ => ⟨[], rfl, fun _ => trivial, fun _ => trivial⟩

theorem bind {x : Step Parser α} {f : α → Step Parser β} (hx : x.MadeOfActs) (hf : ∀ a, (f a).MadeOfActs) :
    (x >>= f).MadeOfActs := by
  intro p
  obtain ⟨acts, hafter, hown, hsmooth⟩ := hx p
  rw [Step.run_bind]
  cases hr : x.run p with
  | mk outcome q =>
      rw [hr] at hafter hsmooth
      cases outcome with
      | error e => exact ⟨acts, hafter, hown, fun h => by cases h⟩
      | ok a =>
          obtain ⟨more, hafter', hown', hsmooth'⟩ := hf a q
          have hq : q = p.after acts := hafter
          rw [hq] at hafter' hown' hsmooth' ⊢
          refine ⟨acts ++ more, ?_, fun cs => ?_, fun h => ?_⟩
          · rw [Parser.after_append]
            exact hafter'
          · exact Parser.own_append.2 ⟨hown cs, hown' _⟩
          · exact Parser.smooth_append.2 ⟨hsmooth rfl, hsmooth' h⟩

theorem of_discard {x : Step Parser α} (hx : (x >>= fun _ => Pure.pure ()).MadeOfActs) : x.MadeOfActs := by
  intro p
  obtain ⟨acts, hafter, hown, hsmooth⟩ := hx p
  rw [Step.run_bind] at hafter hsmooth
  cases hr : x.run p with
  | mk outcome q =>
      rw [hr] at hafter hsmooth
      cases outcome with
      | ok a => exact ⟨acts, hafter, hown, hsmooth⟩
      | error e => exact ⟨acts, hafter, hown, hsmooth⟩

theorem map {x : Step Parser α} (f : α → β) (hx : x.MadeOfActs) : (f <$> x).MadeOfActs := bind hx fun a => pure (f a)

end Step.MadeOfActs

namespace Parser

theorem advance_madeOfActs : advance.MadeOfActs := Step.MadeOfActs.ofAct (a := .advance) fun _ => trivial

theorem missing_madeOfActs (kind : Kind) : (missing kind).MadeOfActs :=
  Step.MadeOfActs.ofAct (a := .missing kind) fun _ => trivial

theorem eat_madeOfActs (kind : Kind) : (eat kind).MadeOfActs := by
  refine .bind .get fun p => ?_
  cases p.isAt kind with
  | false => exact .pure false
  | true => exact .bind advance_madeOfActs fun _ => .pure true

theorem expect_madeOfActs (kind : Kind) : (expect kind).MadeOfActs := by
  refine .bind (eat_madeOfActs kind) fun eaten => ?_
  cases eaten with
  | true => exact .pure true
  | false => exact .bind (missing_madeOfActs kind) fun _ => .pure false

theorem require_madeOfActs (kind : Kind) : (require kind).MadeOfActs := by
  refine .bind (eat_madeOfActs kind) fun eaten => ?_
  cases eaten with
  | true => exact .pure _
  | false => exact .bind (.gets peek) fun _ => .pure _

theorem skipUntil_madeOfActs (recovery : KindSet) : (Step.modify (skipUntil recovery)).MadeOfActs := by
  intro p
  suffices h : ∀ n p, ∃ acts, skipAtMost recovery n p = p.after acts ∧ (∀ cs, p.Own cs acts) ∧ p.Smooth acts by
    obtain ⟨acts, hafter, hown, hsmooth⟩ := h p.source.remaining p
    exact ⟨acts, hafter, hown, fun _ => hsmooth⟩
  intro n
  induction n with
  | zero => exact fun p => ⟨[], rfl, fun _ => trivial, trivial⟩
  | succ n ih =>
      intro p
      unfold skipAtMost
      split
      · exact ⟨[], rfl, fun _ => trivial, trivial⟩
      · obtain ⟨acts, hafter, hown, hsmooth⟩ := ih p.skip
        exact ⟨.skip :: acts, hafter, fun cs => ⟨trivial, hown cs⟩, rfl, hsmooth⟩

theorem recover_madeOfActs (expected : Kind) (recovery : KindSet) : (recover expected recovery).MadeOfActs :=
  .bind (skipUntil_madeOfActs recovery) fun _ => .bind (expect_madeOfActs expected) fun _ => .pure _

theorem complete_madeOfActs (m : Marker) (kind : Kind) : (m.complete kind).MadeOfActs :=
  .of_discard (.ofAct (a := .complete m kind) fun _ => trivial)

theorem completeList_madeOfActs (m : Marker) : m.completeList.MadeOfActs :=
  .of_discard (.ofAct (a := .completeList m) fun _ => trivial)

end Parser

/-! ## Scripts and records -/

def Call.foreign : Call → List Checkpoint
  | .capture context snapshot offset => [.capture context snapshot offset]
  | _ => []

def Reply.isQuiet : Reply → Bool
  | .fault _ => false
  | _ => true

mutual

/-- The checkpoints that a command brings in from outside. -/
def Command.foreign : Command → List Checkpoint
  | .call c => c.foreign
  | .attempt _ => []
  | .within _ script => Command.foreignOf script
  | .speculate script _ => Command.foreignOf script

def Command.foreignOf : List Command → List Checkpoint
  | [] => []
  | c :: rest => c.foreign ++ Command.foreignOf rest

end

mutual

def Line.each (P : Reply → Bool) : Line → Bool
  | .plain reply _ => P reply
  | .block reply _ lines => P reply && Line.eachOf P lines

def Line.eachOf (P : Reply → Bool) : List Line → Bool
  | [] => true
  | line :: rest => line.each P && Line.eachOf P rest

end

namespace Session

/-- What has a name keeps it, though a marker may have been used up. -/
structure Grows (s t : Session) : Prop where
  markers : s.markers.length ≤ t.markers.length
  completed : s.completed.length ≤ t.completed.length
  checkpoints : s.checkpoints <+: t.checkpoints

theorem Grows.trans {s t u : Session} (h : Grows s t) (h' : Grows t u) : Grows s u where
  markers := Nat.le_trans h.markers h'.markers
  completed := Nat.le_trans h.completed h'.completed
  checkpoints := h.checkpoints.trans h'.checkpoints

theorem Grows.same {s t : Session} (hmarkers : t.markers.length = s.markers.length)
    (hcompleted : t.completed.length = s.completed.length) (hcheckpoints : t.checkpoints = s.checkpoints) :
    Grows s t :=
  ⟨Nat.le_of_eq hmarkers.symm, Nat.le_of_eq hcompleted.symm, hcheckpoints ▸ List.prefix_rfl⟩

/-- Acts lead from one session to another: smooth ones if `quiet`, with rewinds to checkpoints of the
session, to `pending` ones, or to their own. -/
structure Leads (pending : List Checkpoint) (quiet : Prop) (s t : Session) : Prop where
  grows : Grows s t
  acts : ∀ cs, s.checkpoints ⊆ cs → pending ⊆ cs → ∃ acts, t.parser = s.parser.after acts ∧ s.parser.Own cs acts ∧
    (quiet → s.parser.Smooth acts) ∧ t.checkpoints ⊆ s.parser.known cs acts

section Leads

variable {pending : List Checkpoint} {quiet quiet' : Prop} {s t u : Session}

theorem Leads.trans (h : Leads pending quiet s t) (h' : Leads pending quiet' t u) :
    Leads pending (quiet ∧ quiet') s u := by
  refine ⟨h.grows.trans h'.grows, fun cs hcs hpending => ?_⟩
  obtain ⟨acts, hafter, hown, hsmooth, hknown⟩ := h.acts cs hcs hpending
  obtain ⟨more, hafter', hown', hsmooth', hknown'⟩ :=
    h'.acts _ hknown (List.Subset.trans hpending (Parser.subset_known cs s.parser acts))
  rw [hafter] at hafter' hown' hsmooth' hknown'
  refine ⟨acts ++ more, ?_, ?_, fun hq => ?_, ?_⟩
  · rw [Parser.after_append]
    exact hafter'
  · exact Parser.own_append.2 ⟨hown, hown'⟩
  · exact Parser.smooth_append.2 ⟨hsmooth hq.1, hsmooth' hq.2⟩
  · rw [Parser.known_append]
    exact hknown'

theorem Leads.mono (h : Leads pending quiet s t) (hq : quiet' → quiet) : Leads pending quiet' s t := by
  refine ⟨h.grows, fun cs hcs hpending => ?_⟩
  obtain ⟨acts, hafter, hown, hsmooth, hknown⟩ := h.acts cs hcs hpending
  exact ⟨acts, hafter, hown, fun hquiet => hsmooth (hq hquiet), hknown⟩

/-- Nothing has been done to the parser, and checkpoints that are new were pending. -/
theorem Leads.idle (hparser : t.parser = s.parser) (hgrows : Grows s t)
    (hcheckpoints : t.checkpoints ⊆ s.checkpoints ++ pending) : Leads pending quiet s t := by
  refine ⟨hgrows, fun cs hcs hpending => ⟨[], hparser, trivial, fun _ => trivial, ?_⟩⟩
  exact List.Subset.trans hcheckpoints (List.append_subset.2 ⟨hcs, hpending⟩)

/-- At most the markers have changed. -/
theorem Leads.still (hparser : t.parser = s.parser) (hgrows : Grows s t)
    (hcheckpoints : t.checkpoints = s.checkpoints) : Leads pending quiet s t := by
  refine .idle hparser hgrows ?_
  rw [hcheckpoints]
  exact List.subset_append_left _ _

theorem Leads.refl (s : Session) : Leads pending quiet s s := .still rfl (.same rfl rfl rfl) rfl

theorem Leads.ofAct {a : Act} (hparser : t.parser = a.step s.parser) (hown : a.Own (s.checkpoints ++ pending))
    (hok : quiet → a.outcome s.parser = .ok ()) (hgrows : Grows s t)
    (hcheckpoints : t.checkpoints ⊆ a.noting s.parser s.checkpoints) : Leads pending quiet s t := by
  refine ⟨hgrows, fun cs hcs hpending => ?_⟩
  refine ⟨[a], hparser, ⟨?_, trivial⟩, fun hquiet => ⟨hok hquiet, trivial⟩, ?_⟩
  · cases a with
    | rewind c => exact (List.mem_append.1 hown).elim (fun h => hcs h) fun h => hpending h
    | _ => trivial
  · show t.checkpoints ⊆ a.noting s.parser cs
    refine List.Subset.trans hcheckpoints ?_
    cases a with
    | checkpoint => exact List.cons_subset_cons _ hcs
    | _ => exact hcs

theorem Leads.ofStep {α : Type} {x : Step Parser α} (hx : x.MadeOfActs) (hparser : t.parser = (x.run s.parser).2)
    (hok : quiet → (x.run s.parser).1.isOk = true) (hgrows : Grows s t)
    (hcheckpoints : t.checkpoints = s.checkpoints) : Leads pending quiet s t := by
  refine ⟨hgrows, fun cs hcs _ => ?_⟩
  obtain ⟨acts, hafter, hown, hsmooth⟩ := hx s.parser
  refine ⟨acts, hparser.trans hafter, hown cs, fun hquiet => hsmooth (hok hquiet), ?_⟩
  rw [hcheckpoints]
  exact List.Subset.trans hcs (Parser.subset_known cs s.parser acts)

/-- A pending checkpoint of the first parser can be taken by an act. -/
theorem Leads.noting (h : Leads (s.parser.checkpoint :: pending) quiet s t) : Leads pending quiet s t := by
  refine ⟨h.grows, fun cs hcs hpending => ?_⟩
  obtain ⟨acts, hafter, hown, hsmooth, hknown⟩ :=
    h.acts (s.parser.checkpoint :: cs) (List.subset_cons_of_subset _ hcs) (List.cons_subset_cons _ hpending)
  exact ⟨.checkpoint :: acts, hafter, ⟨trivial, hown⟩, fun hquiet => ⟨rfl, hsmooth hquiet⟩, hknown⟩

theorem Leads.exists_acts (h : Leads pending quiet s t) : ∃ acts, t.parser = s.parser.after acts := by
  obtain ⟨acts, hafter, -⟩ := h.acts _ (List.subset_append_left s.checkpoints pending) (List.subset_append_right _ _)
  exact ⟨acts, hafter⟩

end Leads

theorem leads_perform {pending : List Checkpoint} {α : Type} {x : Step Parser α} (hx : x.MadeOfActs) (s : Session)
    (reply : α → Reply) : Leads pending ((s.perform x reply).1.isQuiet = true) s (s.perform x reply).2 := by
  unfold perform
  cases hr : x.run s.parser with
  | mk outcome p =>
      cases outcome with
      | ok a => exact .ofStep hx (by rw [hr]) (fun _ => by rw [hr]; rfl) (.same rfl rfl rfl) rfl
      | error f => exact .ofStep hx (by rw [hr]) (fun h => (nomatch h)) (.same rfl rfl rfl) rfl

theorem leads_completing {pending : List Checkpoint} {x : Step Parser (Option CompletedMarker)} (hx : x.MadeOfActs)
    (s : Session) : Leads pending ((s.completing x).1.isQuiet = true) s (s.completing x).2 := by
  unfold completing
  cases hr : x.run s.parser with
  | mk outcome p =>
      cases outcome with
      | ok completed =>
          have hok : (x.run s.parser).1.isOk = true := by rw [hr]; rfl
          cases completed with
          | none => exact .ofStep hx (by rw [hr]) (fun _ => hok) (.same rfl rfl rfl) rfl
          | some c =>
              refine .ofStep hx (by rw [hr]; rfl) (fun _ => hok) ⟨Nat.le_refl _, ?_, List.prefix_rfl⟩ rfl
              show s.completed.length ≤ (s.completed ++ [some c]).length
              rw [List.length_append]
              exact Nat.le_add_right _ _
      | error f => exact .ofStep hx (by rw [hr]) (fun h => (nomatch h)) (.same rfl rfl rfl) rfl

theorem leads_rewind {pending : List Checkpoint} {s : Session} {c : Checkpoint} (hc : c ∈ s.checkpoints ++ pending)
    (reply : Unit → Reply) :
    Leads pending ((s.perform (Parser.rewind c) reply).1.isQuiet = true) s (s.perform (Parser.rewind c) reply).2 := by
  unfold perform
  cases hr : (Parser.rewind c).run s.parser with
  | mk outcome p =>
      have hstep : p = (Act.rewind c).step s.parser := (congrArg Prod.snd hr).symm
      cases outcome with
      | ok u => exact .ofAct hstep hc (fun _ => congrArg Prod.fst hr) (.same rfl rfl rfl) (List.Subset.refl _)
      | error f => exact .ofAct hstep hc (fun h => (nomatch h)) (.same rfl rfl rfl) (List.Subset.refl _)

theorem leads_withMarker {pending : List Checkpoint} {s : Session} {name : Nat}
    {use : Marker → Session → Reply × Session} (h : ∀ m t, Leads pending ((use m t).1.isQuiet = true) t (use m t).2) :
    Leads pending ((s.withMarker name use).1.isQuiet = true) s (s.withMarker name use).2 := by
  unfold withMarker
  split
  · next m _ =>
    have hset : Leads pending True s { s with markers := s.markers.set name none } :=
      .still rfl (.same List.length_set rfl rfl) rfl
    exact (hset.trans (h m _)).mono fun hq => ⟨trivial, hq⟩
  · exact .refl s

theorem grows_addMarker (s : Session) (m : Marker) : Grows s (s.addMarker m) := by
  refine ⟨?_, Nat.le_refl _, List.prefix_rfl⟩
  show s.markers.length ≤ (s.markers ++ [some m]).length
  rw [List.length_append]
  exact Nat.le_add_right _ _

theorem grows_addCheckpoint (s : Session) (c : Checkpoint) : Grows s (s.addCheckpoint c) :=
  ⟨Nat.le_refl _, Nat.le_refl _, List.prefix_append _ _⟩

/-- A call comes down to acts. -/
theorem leads_call {pending : List Checkpoint} (s : Session) {c : Call} (hc : c.foreign ⊆ pending) :
    Leads pending ((s.call c).1.isQuiet = true) s (s.call c).2 := by
  cases c with
  | advance => exact leads_perform Parser.advance_madeOfActs s _
  | absent => exact .ofAct (a := .absent) rfl trivial (fun _ => rfl) (.same rfl rfl rfl) (List.Subset.refl _)
  | skip => exact .ofAct (a := .skip) rfl trivial (fun _ => rfl) (.same rfl rfl rfl) (List.Subset.refl _)
  | missing kind => exact leads_perform (Parser.missing_madeOfActs kind) s _
  | eat kind => exact leads_perform (Parser.eat_madeOfActs kind) s _
  | expect kind => exact leads_perform (Parser.expect_madeOfActs kind) s _
  | isAt kind => exact .refl s
  | isAtAny kinds => exact .refl s
  | skipUntil recovery =>
      exact .ofStep (Parser.skipUntil_madeOfActs recovery) rfl (fun _ => rfl) (.same rfl rfl rfl) rfl
  | recover expected recovery => exact leads_perform (Parser.recover_madeOfActs expected recovery) s _
  | require kind => exact leads_perform (Parser.require_madeOfActs kind) s _
  | notApplicable => exact .refl s
  | start => exact .still rfl (grows_addMarker s _) rfl
  | complete name kind =>
      exact leads_withMarker fun m t => leads_completing (.map some (Parser.complete_madeOfActs m kind)) t
  | completeList name => exact leads_withMarker fun m t => leads_completing (Parser.completeList_madeOfActs m) t
  | abandon name => exact leads_withMarker fun m t => .refl t
  | lose name => exact leads_withMarker fun m t => .refl t
  | precede name =>
      simp only [call]
      split
      · next c _ =>
        have hset : Grows s { s with completed := s.completed.set name none } := .same rfl List.length_set rfl
        exact .still rfl (hset.trans (grows_addMarker _ c.precede)) rfl
      · exact .refl s
  | checkpoint =>
      refine .ofAct (a := .checkpoint) rfl trivial (fun _ => rfl) (grows_addCheckpoint s _) ?_
      intro c hc
      rcases List.mem_append.1 hc with hc | hc
      · exact List.mem_cons_of_mem _ hc
      · rw [List.mem_singleton.1 hc]
        exact List.mem_cons_self
  | capture context snapshot offset =>
      refine .idle rfl (grows_addCheckpoint s _) ?_
      exact List.append_subset.2 ⟨List.subset_append_left _ _, List.subset_append_of_subset_right _ hc⟩
  | rewind name =>
      simp only [call]
      split
      · next c hget => exact leads_rewind (List.mem_append_left _ (List.mem_of_getElem? hget)) _
      · exact .refl s
  | sameCheckpoint a b =>
      simp only [call]
      split
      · exact .refl s
      · exact .refl s
  | inspect name =>
      simp only [call]
      split
      · exact .refl s
      · exact .refl s

theorem leads_inContext (pending : List Checkpoint) (s : Session) (c : ParseContext) :
    Leads pending True s (s.inContext c) :=
  .ofAct (a := .inContext c) rfl trivial (fun _ => rfl) (.same rfl rfl rfl) (List.Subset.refl _)

/-- The end of a speculation comes down to a rewind, if its checkpoint is at hand. -/
theorem leads_endSpeculation {pending : List Checkpoint} {s : Session} {c : Checkpoint}
    (hc : c ∈ s.checkpoints ++ pending) (failure : Option Mismatch) :
    Leads pending ((s.endSpeculation c failure).1.isQuiet = true) s (s.endSpeculation c failure).2 := by
  cases failure with
  | none => exact .refl s
  | some m => exact leads_rewind hc _

end Session

namespace Command

open Session (Leads)

mutual

theorem run_leads (pending : List Checkpoint) :
    ∀ (c : Command) (s : Session), c.foreign ⊆ pending →
      Leads pending ((run c s).1.each Reply.isQuiet = true) s (run c s).2.1
  | .call c, s, hforeign => by
    simp only [run, Line.each]
    exact Session.leads_call s hforeign
  | .attempt kind, s, _ => by
    have hstep := Parser.require_madeOfActs kind
    simp only [run]
    cases hr : (Parser.require kind).run s.parser with
    | mk outcome p =>
        cases outcome with
        | error f => exact .ofStep hstep (by rw [hr]) (fun h => (nomatch h)) (.same rfl rfl rfl) rfl
        | ok found =>
            have hok : ((Parser.require kind).run s.parser).1.isOk = true := by rw [hr]; rfl
            cases found <;> exact .ofStep hstep (by rw [hr]) (fun _ => hok) (.same rfl rfl rfl) rfl
  | .within flags script, s, hforeign => by
    have henter := Session.leads_inContext pending s (s.parser.context.enter flags)
    have hbody := henter.trans (runAll_leads pending script _ hforeign)
    simp only [run, Line.each, Bool.and_eq_true]
    cases hr : runAll script (s.inContext (s.parser.context.enter flags)) with
    | mk lines result =>
        rw [hr] at hbody
        exact (hbody.trans (Session.leads_inContext pending result.1 s.parser.context)).mono
          fun hq => ⟨⟨trivial, hq.2⟩, trivial⟩
  | .speculate script giveUp, s, hforeign => by
    -- the checkpoint of the speculation is pending while its script runs
    have henter := Session.leads_inContext (s.parser.checkpoint :: pending) s
      (s.parser.context.enter { speculating := true })
    have hbody := henter.trans (runAll_leads (s.parser.checkpoint :: pending) script _
      (List.subset_cons_of_subset _ hforeign))
    simp only [run, Line.each, Bool.and_eq_true]
    cases hr : runAll script (s.inContext (s.parser.context.enter { speculating := true })) with
    | mk lines result =>
        rw [hr] at hbody
        have hleave := hbody.trans (Session.leads_inContext _ result.1 s.parser.context)
        have hend := hleave.trans (Session.leads_endSpeculation (List.mem_append_right _ List.mem_cons_self)
          (if giveUp then result.2.or (some .notApplicable) else result.2))
        exact (hend.mono fun hq => ⟨⟨⟨trivial, hq.2⟩, trivial⟩, hq.1⟩).noting

theorem runAll_leads (pending : List Checkpoint) :
    ∀ (script : List Command) (s : Session), foreignOf script ⊆ pending →
      Leads pending (Line.eachOf Reply.isQuiet (runAll script s).1 = true) s (runAll script s).2.1
  | [], s, _ => .refl s
  | c :: rest, s, hforeign => by
    rw [foreignOf, List.append_subset] at hforeign
    have hfirst := run_leads pending c s hforeign.1
    simp only [runAll]
    cases hr : run c s with
    | mk line result =>
        obtain ⟨t, failure⟩ := result
        rw [hr] at hfirst
        cases failure with
        | some m => exact hfirst.mono fun hq => (Bool.and_eq_true_iff.1 hq).1
        | none =>
            have hrest := runAll_leads pending rest t hforeign.2
            exact (hfirst.trans hrest).mono fun hq => Bool.and_eq_true_iff.1 hq

end

end Command

end LosslessSyntax
