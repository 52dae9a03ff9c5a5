import LosslessSyntax.Proofs.Parse.Findings
import LosslessSyntax.Proofs.View.Refinement

/-!
# The errors of a run

The ledger of a run is kept beside it: each call enters what it finds, and a rewind or a failed speculation puts
back the entries of the time to which it returns. At the end of the run the tree reports just what is in the ledger.

* `Call.findings` : what a call finds wrong; `Command.ledgerOf` : the ledger of a script;
* `Session.Accounted` : the ledger agrees with the output, and will after a rewind;
* `Command.runAll_accounted` : what a script preserves, by induction over its blocks;
* `finish_reports_errors` : the report of a finished tree, which ends with the tokens that were left over.
-/

set_option autoImplicit false

namespace LosslessSyntax

/-- What a call finds wrong: the tokens that the cursor passes by skipping, and a token that is missing. -/
def Call.findings (p : Parser) : Call → List Finding
  | .skip => Finding.skips p.offset p.skip.offset
  | .skipUntil recovery => Finding.skips p.offset (p.skipUntil recovery).offset
  | .missing _ => [.missing p.offset]
  | .expect kind => p.demands kind
  | .recover expected recovery =>
    Finding.skips p.offset (p.skipUntil recovery).offset ++ (p.skipUntil recovery).demands expected
  | _ => []

/-- The findings of a run that have not been taken back, in the order of the calls. -/
structure Ledger where
  findings : List Finding := []
  /-- For each checkpoint that has a name, the findings at the time it was taken. -/
  kept : List (List Finding) := []

def Ledger.note (l : Ledger) (p : Parser) : Call → Ledger
  | .checkpoint => { l with kept := l.kept ++ [l.findings] }
  | .capture _ _ _ => { l with kept := l.kept ++ [[]] }
  | .rewind name => { l with findings := l.kept[name]?.getD l.findings }
  | c => { l with findings := l.findings ++ c.findings p }

namespace Command

mutual

def ledger : Command → Session → Ledger → Ledger
  | .call c, s, l => l.note s.parser c
  | .attempt _, _, l => l
  | .within flags script, s, l => ledgerOf script (s.inContext (s.parser.context.enter flags)) l
  | .speculate script giveUp, s, l =>
    let trial := s.inContext (s.parser.context.enter { speculating := true })
    let after := ledgerOf script trial l
    if giveUp || (runAll script trial).2.2.isSome then { after with findings := l.findings } else after

/-- The ledger after a script, which ends with the first failed `attempt`. -/
def ledgerOf : List Command → Session → Ledger → Ledger
  | [], _, l => l
  | c :: rest, s, l =>
    match run c s with
    | (_, _, some _) => ledger c s l
    | (_, t, none) => ledgerOf rest t (ledger c s l)

end

end Command

namespace Session

/-- The ledger agrees with the output of the parser. It will after a rewind to a checkpoint that has a name, and to a
pending one that comes with its own findings. -/
structure Accounted (pending : List (Checkpoint × List Finding)) (s : Session) (l : Ledger) : Prop where
  parser : s.parser.Accounted l.findings
  names : s.checkpoints.length = l.kept.length
  kept : ∀ entry ∈ s.checkpoints.zip l.kept, entry.1.Accounts entry.2 s.parser
  pending : ∀ entry ∈ pending, entry.1.Accounts entry.2 s.parser

variable {pending : List (Checkpoint × List Finding)} {s t : Session} {l : Ledger}

/-- Acts that take and name no checkpoint. -/
theorem Accounted.moved {findings : List Finding} (h : s.Accounted pending l)
    (hacts : ∃ acts, t.parser = s.parser.after acts) (hcheckpoints : t.checkpoints = s.checkpoints)
    (hparser : t.parser.Accounted findings) : t.Accounted pending { l with findings := findings } := by
  obtain ⟨acts, hacts⟩ := hacts
  refine ⟨hparser, ?_, ?_, ?_⟩
  · rw [hcheckpoints]
    exact h.names
  · rw [hcheckpoints, hacts]
    exact fun entry hentry => (h.kept entry hentry).after acts
  · rw [hacts]
    exact fun entry hentry => (h.pending entry hentry).after acts

theorem checkpoints_perform {α : Type} (s : Session) (x : Step Parser α) (reply : α → Reply) :
    (s.perform x reply).2.checkpoints = s.checkpoints := by
  unfold perform
  cases x.run s.parser with
  | mk outcome p => cases outcome <;> rfl

theorem checkpoints_completing (s : Session) (x : Step Parser (Option CompletedMarker)) :
    (s.completing x).2.checkpoints = s.checkpoints := by
  unfold completing
  cases x.run s.parser with
  | mk outcome p =>
      cases outcome with
      | error f => rfl
      | ok completed => cases completed <;> rfl

theorem checkpoints_withMarker {name : Nat} {use : Marker → Session → Reply × Session}
    (h : ∀ m t, (use m t).2.checkpoints = t.checkpoints) : (s.withMarker name use).2.checkpoints = s.checkpoints := by
  unfold withMarker
  split
  · exact h _ _
  · rfl

/-- Only two calls name a checkpoint. -/
theorem checkpoints_call {c : Call} (hcheckpoint : c ≠ .checkpoint)
    (hcapture : ∀ context snapshot offset, c ≠ .capture context snapshot offset) :
    (s.call c).2.checkpoints = s.checkpoints := by
  cases c with
  | checkpoint => exact absurd rfl hcheckpoint
  | capture context snapshot offset => exact absurd rfl (hcapture _ _ _)
  | complete name kind => exact checkpoints_withMarker fun m t => checkpoints_completing t _
  | completeList name => exact checkpoints_withMarker fun m t => checkpoints_completing t _
  | abandon name => exact checkpoints_withMarker fun m t => rfl
  | lose name => exact checkpoints_withMarker fun m t => rfl
  | precede name =>
      simp only [call]
      split <;> rfl
  | rewind name =>
      simp only [call]
      split
      · exact checkpoints_perform s _ _
      · rfl
  | sameCheckpoint a b =>
      simp only [call]
      split <;> rfl
  | inspect name =>
      simp only [call]
      split <;> rfl
  | advance => exact checkpoints_perform s _ _
  | missing kind => exact checkpoints_perform s _ _
  | eat kind => exact checkpoints_perform s _ _
  | expect kind => exact checkpoints_perform s _ _
  | recover expected recovery => exact checkpoints_perform s _ _
  | require kind => exact checkpoints_perform s _ _
  | _ => rfl

/-! ## Calls -/

variable {findings : List Finding}

theorem accounted_perform {α : Type} {x : Step Parser α} {found : Parser → List Finding} (hx : x.Accounts found)
    (h : s.parser.Accounted findings) {reply : α → Reply} (hquiet : (s.perform x reply).1.isQuiet = true) :
    (s.perform x reply).2.parser.Accounted (findings ++ found s.parser) := by
  have hrun := hx s.parser findings h
  unfold perform at hquiet ⊢
  cases hr : x.run s.parser with
  | mk outcome p =>
      rw [hr] at hquiet hrun
      cases outcome with
      | ok a => exact hrun rfl
      | error f => cases hquiet

theorem accounted_completing {x : Step Parser (Option CompletedMarker)} (hx : x.Accounts fun _ => [])
    (h : s.parser.Accounted findings) (hquiet : (s.completing x).1.isQuiet = true) :
    (s.completing x).2.parser.Accounted findings := by
  have hrun := hx s.parser findings h
  rw [List.append_nil] at hrun
  unfold completing at hquiet ⊢
  cases hr : x.run s.parser with
  | mk outcome p =>
      rw [hr] at hquiet hrun
      cases outcome with
      | ok completed => cases completed <;> exact hrun rfl
      | error f => cases hquiet

theorem accounted_withMarker {name : Nat} {use : Marker → Session → Reply × Session}
    (h : s.parser.Accounted findings) (hquiet : (s.withMarker name use).1.isQuiet = true)
    (huse : ∀ m t, t.parser.Accounted findings → (use m t).1.isQuiet = true → (use m t).2.parser.Accounted findings) :
    (s.withMarker name use).2.parser.Accounted findings := by
  unfold withMarker at hquiet ⊢
  split at hquiet
  · exact huse _ _ h hquiet
  · exact h

/-- A call other than a rewind that does not fault adds its findings. -/
theorem accounted_call {c : Call} (h : s.parser.Accounted findings) (hrewind : ∀ name, c ≠ .rewind name)
    (hquiet : (s.call c).1.isQuiet = true) : (s.call c).2.parser.Accounted (findings ++ c.findings s.parser) := by
  have hsame : s.parser.Accounted (findings ++ []) := by
    rw [List.append_nil]
    exact h
  cases c with
  | advance => exact accounted_perform Parser.advance_accounts h hquiet
  | missing kind => exact accounted_perform (Parser.missing_accounts kind) h hquiet
  | eat kind => exact accounted_perform (Parser.eat_accounts kind) h hquiet
  | expect kind => exact accounted_perform (Parser.expect_accounts kind) h hquiet
  | recover expected recovery => exact accounted_perform (Parser.recover_accounts expected recovery) h hquiet
  | require kind => exact accounted_perform (Parser.require_accounts kind) h hquiet
  | absent =>
      show s.parser.absent.Accounted (findings ++ [])
      rw [List.append_nil]
      exact h.absent
  | skip => exact h.skips
  | skipUntil recovery => exact h.skipUntil recovery
  | complete name kind =>
      show (s.withMarker name _).2.parser.Accounted (findings ++ [])
      rw [List.append_nil]
      exact accounted_withMarker h hquiet fun m t ht =>
        accounted_completing ((Parser.complete_accounts m kind).map some) ht
  | completeList name =>
      show (s.withMarker name _).2.parser.Accounted (findings ++ [])
      rw [List.append_nil]
      exact accounted_withMarker h hquiet fun m t ht => accounted_completing (Parser.completeList_accounts m) ht
  | abandon name =>
      show (s.withMarker name _).2.parser.Accounted (findings ++ [])
      rw [List.append_nil]
      exact accounted_withMarker h hquiet fun m t ht _ => ht
  | lose name =>
      show (s.withMarker name _).2.parser.Accounted (findings ++ [])
      rw [List.append_nil]
      exact accounted_withMarker h hquiet fun m t _ hlost => nomatch hlost
  | precede name =>
      simp only [call]
      split <;> exact hsame
  | sameCheckpoint a b =>
      simp only [call]
      split <;> exact hsame
  | inspect name =>
      simp only [call]
      split <;> exact hsame
  | rewind name => exact absurd rfl (hrewind name)
  | _ => exact hsame

/-- A rewind that does not fault puts back the findings of its checkpoint. -/
theorem accounted_rewind {c : Checkpoint} {reply : Unit → Reply} (hc : c.Accounts findings s.parser)
    (hquiet : (s.perform (Parser.rewind c) reply).1.isQuiet = true) :
    (s.perform (Parser.rewind c) reply).2.parser.Accounted findings := by
  have hrun := hc.rewind
  unfold perform at hquiet ⊢
  cases hr : (Parser.rewind c).run s.parser with
  | mk outcome p =>
      rw [hr] at hquiet hrun
      cases outcome with
      | ok u => exact hrun rfl
      | error f => cases hquiet

theorem Accounted.inContext (h : s.Accounted pending l) (c : ParseContext) : (s.inContext c).Accounted pending l :=
  h.moved ⟨[.inContext c], rfl⟩ rfl h.parser

theorem Accounted.checkpoint (h : s.Accounted pending l) :
    (s.addCheckpoint s.parser.checkpoint).Accounted pending { l with kept := l.kept ++ [l.findings] } := by
  refine ⟨h.parser, ?_, ?_, h.pending⟩
  · show (s.checkpoints ++ [_]).length = (l.kept ++ [_]).length
    rw [List.length_append, List.length_append, h.names]
    rfl
  · have hzip : (s.checkpoints ++ [s.parser.checkpoint]).zip (l.kept ++ [l.findings]) =
        s.checkpoints.zip l.kept ++ [(s.parser.checkpoint, l.findings)] := List.zip_append h.names
    intro entry hentry
    replace hentry : entry ∈ (s.checkpoints ++ [s.parser.checkpoint]).zip (l.kept ++ [l.findings]) := hentry
    rw [hzip] at hentry
    rcases List.mem_append.1 hentry with hentry | hentry
    · exact h.kept entry hentry
    · rw [List.mem_singleton.1 hentry]
      exact .ofParser h.parser

theorem Accounted.named {name : Nat} {c : Checkpoint} (h : s.Accounted pending l)
    (hc : s.checkpoints[name]? = some c) : c.Accounts (l.kept[name]?.getD l.findings) s.parser := by
  obtain ⟨hlt, -⟩ := List.getElem?_eq_some_iff.1 hc
  rw [h.names] at hlt
  rw [List.getElem?_eq_getElem hlt]
  have hentry : (s.checkpoints.zip l.kept)[name]? = some (c, l.kept[name]) :=
    List.getElem?_zip_eq_some.2 ⟨hc, List.getElem?_eq_getElem hlt⟩
  exact h.kept _ (List.mem_of_getElem? hentry)

theorem Accounted.call {c : Call} (h : s.Accounted pending l) (hforeign : c.foreign = [])
    (hquiet : (s.call c).1.isQuiet = true) : (s.call c).2.Accounted pending (l.note s.parser c) := by
  have hacts := (leads_call s (List.subset_nil.2 hforeign)).exists_acts
  cases c with
  | checkpoint => exact h.checkpoint
  | capture context snapshot offset => cases hforeign
  | rewind name =>
      simp only [Session.call] at hquiet hacts ⊢
      cases hc : s.checkpoints[name]? with
      | none =>
          have hnone : l.kept[name]? = none := by
            rw [List.getElem?_eq_none_iff, ← h.names]
            exact List.getElem?_eq_none_iff.1 hc
          rw [Ledger.note, hnone]
          exact h
      | some c =>
          rw [hc] at hquiet hacts
          exact h.moved hacts (checkpoints_perform s _ _) (accounted_rewind (h.named hc) hquiet)
  | _ =>
      refine h.moved hacts (checkpoints_call ?_ ?_) (accounted_call h.parser ?_ hquiet)
      · exact Call.noConfusion
      · exact fun _ _ _ => Call.noConfusion
      · exact fun _ => Call.noConfusion

/-- While a speculation runs, the checkpoint at its start is pending. -/
theorem Accounted.startSpeculation (h : s.Accounted pending l) :
    s.Accounted ((s.parser.checkpoint, l.findings) :: pending) l := by
  refine ⟨h.parser, h.names, h.kept, fun entry hentry => ?_⟩
  rcases List.mem_cons.1 hentry with rfl | hentry
  · exact .ofParser h.parser
  · exact h.pending entry hentry

theorem Accounted.endSpeculation {c : Checkpoint} {failure : Option Mismatch}
    (h : s.Accounted ((c, findings) :: pending) l) (hquiet : (s.endSpeculation c failure).1.isQuiet = true) :
    (s.endSpeculation c failure).2.Accounted pending
      (if failure.isSome then { l with findings := findings } else l) := by
  have hpending : s.Accounted pending l :=
    ⟨h.parser, h.names, h.kept, fun entry hentry => h.pending entry (List.mem_cons_of_mem _ hentry)⟩
  cases failure with
  | none => exact hpending
  | some m =>
      have hacts : (s.perform (Parser.rewind c) fun _ => .rolledBack).2.parser = s.parser.after [.rewind c] := by
        unfold perform
        cases hr : (Parser.rewind c).run s.parser with
        | mk outcome p => cases outcome <;> exact (congrArg Prod.snd hr).symm
      exact hpending.moved ⟨_, hacts⟩ (checkpoints_perform s _ _)
        (accounted_rewind (h.pending (c, findings) List.mem_cons_self) hquiet)

end Session

namespace Command

mutual

theorem run_accounted : ∀ (c : Command) (pending : List (Checkpoint × List Finding)) (s : Session) (l : Ledger),
    c.foreign = [] → (run c s).1.each Reply.isQuiet = true → s.Accounted pending l →
      (run c s).2.1.Accounted pending (ledger c s l)
  | .call c, pending, s, l, hforeign, hquiet, h => h.call hforeign hquiet
  | .attempt kind, pending, s, l, hforeign, hquiet, h => by
    have hacts := (run_leads [] (.attempt kind) s (List.nil_subset _)).exists_acts
    have hrun := Parser.require_accounts kind s.parser l.findings h.parser
    rw [List.append_nil] at hrun
    simp only [run, ledger] at hquiet hacts ⊢
    cases hr : (Parser.require kind).run s.parser with
    | mk outcome p =>
        rw [hr] at hrun hquiet hacts
        cases outcome with
        | error f => cases hquiet
        | ok found => cases found <;> exact h.moved hacts rfl (hrun rfl)
  | .within flags script, pending, s, l, hforeign, hquiet, h => by
    have hbody := runAll_accounted script pending _ l hforeign
      (by simp only [run, Line.each, Bool.and_eq_true] at hquiet; exact hquiet.2)
      (h.inContext (s.parser.context.enter flags))
    exact hbody.inContext s.parser.context
  | .speculate script giveUp, pending, s, l, hforeign, hquiet, h => by
    simp only [run, Line.each, Bool.and_eq_true] at hquiet
    have hbody := runAll_accounted script _ _ l hforeign hquiet.2
      (h.startSpeculation.inContext (s.parser.context.enter { speculating := true }))
    have hend := (hbody.inContext s.parser.context).endSpeculation hquiet.1
    have hfailure : ∀ failure : Option Mismatch,
        (if giveUp then failure.or (some .notApplicable) else failure).isSome = (giveUp || failure.isSome) := by
      intro failure
      cases giveUp <;> cases failure <;> rfl
    rw [hfailure] at hend
    exact hend

theorem runAll_accounted : ∀ (script : List Command) (pending : List (Checkpoint × List Finding)) (s : Session)
    (l : Ledger), foreignOf script = [] → Line.eachOf Reply.isQuiet (runAll script s).1 = true →
      s.Accounted pending l → (runAll script s).2.1.Accounted pending (ledgerOf script s l)
  | [], pending, s, l, _, _, h => h
  | c :: rest, pending, s, l, hforeign, hquiet, h => by
    rw [foreignOf, List.append_eq_nil_iff] at hforeign
    have hfirst := run_accounted c pending s l hforeign.1
    simp only [runAll, ledgerOf] at hquiet ⊢
    cases hr : run c s with
    | mk line result =>
        obtain ⟨t, failure⟩ := result
        rw [hr] at hfirst hquiet
        cases failure with
        | some m => exact hfirst (Bool.and_eq_true_iff.1 hquiet).1 h
        | none =>
            have hq := Bool.and_eq_true_iff.1 hquiet
            exact runAll_accounted rest pending t _ hforeign.2 hq.2 (hfirst hq.1 h)

end

end Command

/-! ## The end of the run -/

theorem Parser.body_skipUntil (p : Parser) (recovery : KindSet) :
    (p.skipUntil recovery).source.body = p.source.body := by
  obtain ⟨acts, hafter, -⟩ := skipUntil_madeOfActs recovery p
  have heq : p.skipUntil recovery = p.after acts := hafter
  rw [heq, source_after]

/-- The last token has room for the skipped text in front of it. -/
theorem Parser.Accounted.extents_le {p : Parser} {findings : List Finding} {t : Token} (h : p.Accounted findings)
    (ht : p.nextToken = .ok t) :
    Lexeme.extents (p.source.body.take p.source.pos) ≤ Slot.extents (p.slots ++ [t.toSlot]) := by
  have htoken := extent_nextToken ht h.lossless.made_skipped
  rw [← h.extents_eq, Slot.extents_append, Slot.extents_append, Slot.extents, Slot.extents]
  omega

theorem Parser.offset_skipUntil_empty (p : Parser) :
    (p.skipUntil .empty).offset = Lexeme.endFrom p.source.body p.offset :=
  congrArg TokenBuffer.pos (skipUntil_empty_source p)

/-- A root has the marks of all the findings, and reports them. The last findings are the tokens that were left. -/
theorem Parser.Accounted.finish {p q : Parser} {kind : Kind} {root : Node} {findings : List Finding}
    (h : p.Accounted findings) (hfinish : (finish kind).run p = (.ok root, q)) :
    let found := findings ++ Finding.skips p.offset (Lexeme.endFrom p.source.body p.offset)
    root.toSlot.Made ∧ root.toSlot.marks 0 = found.map (·.resolved p.source.body) ∧
      root.toSlot.report 0 = ⟨root.toSlot.marks 0, none⟩ ∧ (∀ f ∈ found, f.next ≤ p.source.body.length) ∧
      found.Pairwise fun f g => f.next ≤ g.index := by
  intro found
  obtain ⟨t, id, ht, hroot⟩ := finish_eq_ok hfinish
  have hall : (p.skipUntil .empty).Accounted found := by
    have hskips := h.skipUntil .empty
    rw [p.offset_skipUntil_empty] at hskips
    exact hskips
  have hbody := p.body_skipUntil .empty
  obtain ⟨hmadeLast, -⟩ := nextToken_spec ht hall.lossless.made_skipped
  obtain ⟨hmarksLast, hsilentLast⟩ := nextToken_marks ht
  have hmade := Node.made_make (made_snoc hall.lossless.made_slots hmadeLast) hroot
  have hsilent := Node.silent_make hroot (Slot.silent_snoc hall.silent_slots (hsilentLast hall.silent_skipped))
  have hmarks : root.toSlot.marks 0 = found.map (·.resolved p.source.body) := by
    rw [Node.marks_make hroot, Slot.marksOf_append, Slot.marksOf_cons, Slot.marksOf_nil, hmarksLast, List.append_nil,
      ← Slot.marksOf_append, ← hbody]
    exact hall.marks
  have hfits : 0 + root.toSlot.extent < Size.limit := by
    rw [Nat.zero_add]
    exact hmade.node_width.2
  have hpassed : ∀ f ∈ found, f.next ≤ p.source.body.length := by
    intro f hf
    rw [← hbody]
    exact Nat.le_trans (hall.passed f hf) hall.faithful.pos_le
  refine ⟨hmade, hmarks, hmade.report_eq hsilent hfits ?_, hpassed, hall.ordered⟩
  rw [hmarks]
  intro r hr
  obtain ⟨f, hf, rfl⟩ := List.mem_map.1 hr
  calc (f.resolved p.source.body).range.stop
    _ ≤ Lexeme.extents (p.source.body.take f.next) := Finding.stop_le_extents (hpassed f hf)
    _ ≤ Lexeme.extents (p.source.body.take (p.skipUntil .empty).source.pos) :=
      Lexeme.extents_take_mono _ (hall.passed f hf)
    _ ≤ root.toSlot.extent := by
      rw [Node.extent_make hroot, ← hbody]
      exact hall.extents_le ht
    _ < Size.limit := hmade.node_width.2

/-- Whatever else has been asked of the tree, its root view reports what the root does. -/
theorem SyntaxTree.Reaches.run_reportAt_root {root : Node} (hroot : root.toSlot.Made) {t : SyntaxTree}
    (ht : (SyntaxTree.ofRoot root).Reaches t) :
    (SyntaxTree.reportAt SyntaxTree.rootRef.id).run t = (.ok (root.toSlot.report 0), t) := by
  obtain ⟨hlinked, hgrown⟩ := ht.linked (SyntaxTree.linked_ofRoot hroot)
  have hstart : (SyntaxTree.ofRoot root).views[SyntaxTree.rootRef.id]? =
      some (SyntaxTree.newView root.toSlot none 0 0) := rfl
  obtain ⟨v, hv, hfact, -, -, hoffset, -⟩ := hgrown.views hstart
  rw [hlinked.run_reportAt hv, hfact, hoffset]
  rfl

/-- **The finished tree reports exactly the errors of the run.** A script of calls that nowhere faults and rewinds
only to checkpoints of its own parser may do what it likes. The root view reports the tokens that the script skipped
and those it found missing, as far as they have not been taken back, and then the tokens that were left over: those from
the cursor to the first `EOF`, or to the end of the input. They are in the order of the calls, so that none starts before
the one in front of it, and the flag of the root says whether there are any. -/
theorem finish_reports_errors (tokens : List Lexeme) (script : List Command) (kind : Kind)
    (hown : Command.foreignOf script = []) {lines : List Line} {s : Session} {failure : Option Mismatch} {root : Node}
    {q : Parser} (hrun : Command.runAll script { parser := .ofTokens tokens } = (lines, s, failure))
    (hquiet : Line.eachOf Reply.isQuiet lines = true) (hfinish : (Parser.finish kind).run s.parser = (.ok root, q)) :
    let input := (TokenBuffer.ofTokens tokens).body
    let found := (Command.ledgerOf script { parser := .ofTokens tokens } {}).findings ++
      Finding.skips s.parser.offset (Lexeme.endFrom input s.parser.offset)
    (∀ {tree : SyntaxTree}, (SyntaxTree.ofRoot root).Reaches tree →
      (SyntaxTree.reportAt SyntaxTree.rootRef.id).run tree = (.ok ⟨found.map (·.resolved input), none⟩, tree)) ∧
    (∀ f ∈ found, f.next ≤ input.length) ∧
    (found.map (·.resolved input)).Pairwise (fun a b => a.range.start ≤ b.range.start) ∧
    (root.flags.diagnostics = true ↔ found ≠ []) := by
  intro input found
  have hstart : ({ parser := .ofTokens tokens } : Session).Accounted [] {} := by
    refine ⟨?_, rfl, fun _ hentry => absurd hentry List.not_mem_nil, fun _ hentry => absurd hentry List.not_mem_nil⟩
    show (Parser.ofTokens tokens).Accounted []
    unfold Parser.Accounted
    rw [Parser.body_ofTokens]
    exact .start _
  have haccounted := Command.runAll_accounted script [] _ {} hown (by rw [hrun]; exact hquiet) hstart
  have hbody : s.parser.source.body = input := by
    have hleads := Command.runAll_leads [] script { parser := .ofTokens tokens } (List.subset_nil.2 hown)
    rw [hrun] at hleads
    obtain ⟨acts, hafter⟩ := hleads.exists_acts
    rw [show s.parser = (Parser.ofTokens tokens).after acts from hafter, Parser.source_after]
    rfl
  rw [hrun] at haccounted
  obtain ⟨hmade, hmarks, hreport, hpassed, hordered⟩ := haccounted.parser.finish hfinish
  rw [hbody] at hmarks hpassed hordered
  refine ⟨fun htree => ?_, hpassed, ?_, ?_⟩
  · rw [htree.run_reportAt_root hmade, hreport, hmarks]
  · rw [List.pairwise_map]
    exact hordered.imp_of_mem fun hf _ hle => Finding.start_le_start (hpassed _ hf) hle
  · have hflag := hmade.marks_eq_nil_iff 0
    rw [hmarks, List.map_eq_nil_iff] at hflag
    show root.toSlot.flags.diagnostics = true ↔ found ≠ []
    rw [Ne, ← hflag, Bool.not_eq_false]

/-- The second of three tokens is skipped three times, of which one is left; the third is left over. -/
theorem wanderingScript_reports :
    ∃ (lines : List Line) (s : Session) (failure : Option Mismatch) (root : Node) (q : Parser),
      Command.runAll wanderingScript { parser := .ofTokens strayTokens } = (lines, s, failure) ∧
      Line.eachOf Reply.isQuiet lines = true ∧ (Parser.finish .module).run s.parser = (.ok root, q) ∧
      (SyntaxTree.reportAt SyntaxTree.rootRef.id).run (.ofRoot root) =
        (.ok ⟨[⟨.error Diagnostic.skippedText 0 1, ⟨4, 5⟩⟩, ⟨.error Diagnostic.expectedToken 0 0, ⟨5, 5⟩⟩,
          ⟨.error Diagnostic.skippedText 0 2, ⟨10, 12⟩⟩], none⟩, .ofRoot root) ∧ root.flags.diagnostics = true := by
  obtain ⟨lines, s, failure, root, q, hrun, hquiet, hfinish⟩ := exists_finish_wanderingScript
  have hfound : (Command.ledgerOf wanderingScript { parser := .ofTokens strayTokens } {}).findings ++
      Finding.skips (Command.runAll wanderingScript { parser := .ofTokens strayTokens }).2.1.parser.offset
        (Lexeme.endFrom (TokenBuffer.ofTokens strayTokens).body
          (Command.runAll wanderingScript { parser := .ofTokens strayTokens }).2.1.parser.offset) =
      [.skipped 1, .missing 2, .skipped 2] := by
    decide +kernel
  obtain ⟨hreport, -, -, hflag⟩ :=
    finish_reports_errors strayTokens wanderingScript .module rfl hrun hquiet hfinish
  rw [hrun] at hfound
  rw [hfound] at hreport hflag
  exact ⟨lines, s, failure, root, q, hrun, hquiet, hfinish, hreport .refl, hflag.2 (List.cons_ne_nil _ _)⟩

end LosslessSyntax
