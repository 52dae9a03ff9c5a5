import LosslessSyntax.Proofs.Parse.Renaming
import LosslessSyntax.Proofs.Parse.Runs

/-!
# Failed speculations

A speculation that fails leaves the parser as it was, but for stamps and instance numbers. Stamps are compared
by later rewinds, and markers and checkpoints that were made on trial keep their names, so the session
afterwards is not the one before; but no continuation can tell, as long as it stays away from what was made
or used up on trial.

* `Move`, `Session.proceed` : scripts, and the begin and end of the blocks around them;
* `Session.past` : the names of one session in a later one;
* `Session.Sound` : what every session satisfies;
* `twin_of_rolledBack` : the sessions before and after a failed speculation agree;
* `speculate_leaves_no_trace` : what follows is the same as if the speculation had not been tried.
-/

set_option autoImplicit false

namespace LosslessSyntax

/-- What may come next, at the outside of all blocks or in the midst of some. -/
inductive Move where
  | script (commands : List Command)
  /-- A block begins or ends, and its context is put in place. -/
  | context (c : ParseContext)

def Move.rename (σ : Renaming) : Move → Move
  | script commands => script (Command.renameAll σ commands)
  | context c => context c

def Move.each (P : Call → Bool) : Move → Bool
  | script commands => Command.eachOf P commands
  | context _ => true

def Line.isRolledBack : Line → Bool
  | .block .rolledBack _ _ => true
  | _ => false

namespace Session

/-- Makes the moves one after the other: the records, and the session left behind. -/
def proceed : List Move → Session → List Line × Session
  | [], s => ([], s)
  | .script commands :: rest, s =>
    let (lines, s, _) := Command.runAll commands s
    let (more, s) := proceed rest s
    (lines ++ more, s)
  | .context c :: rest, s => proceed rest (s.inContext c)

/-- The places up to `old` keep their names; those from there on are now counted from `new` on. -/
def shift (old new n : Nat) : Nat := if n < old then n else n - old + new

/-- The names of the session `s` in the session `t` that has come from it, and the markers that have not been
used up on the way. What `s` would name next, `t` names next. -/
def past (s t : Session) : Renaming where
  marker := shift s.markers.length t.markers.length
  completed := shift s.completed.length t.completed.length
  checkpoint := shift s.checkpoints.length t.checkpoints.length
  freeMarker n := decide (n < s.markers.length → t.markers[n]? = s.markers[n]?)
  freeCompleted n := decide (n < s.completed.length → t.completed[n]? = s.completed[n]?)

/-- The stamps of the output and of the checkpoints are no newer than the latest write. -/
structure Sound (s : Session) : Prop where
  parser : s.parser.Stamped
  checkpoints : ∀ c ∈ s.checkpoints, c.stamp ≤ s.parser.stamp

theorem sound_ofTokens (tokens : List Lexeme) : Sound { parser := .ofTokens tokens } :=
  ⟨Parser.stamped_ofTokens tokens, fun _ hc => absurd hc List.not_mem_nil⟩

end Session

/-- The checkpoints taken in a run are no newer than the latest write. -/
theorem Parser.stamp_known {cs : List Checkpoint} {p : Parser} (h : ∀ c ∈ cs, c.stamp ≤ p.stamp) (acts : List Act) :
    ∀ c ∈ p.known cs acts, c.stamp ≤ (p.after acts).stamp := by
  induction acts generalizing cs p with
  | nil => exact h
  | cons a rest ih =>
      have hle := (a.rebuilt_step p).stamp
      refine ih fun c hc => ?_
      cases a with
      | checkpoint =>
          rcases List.mem_cons.1 hc with rfl | hc
          · exact Nat.le_refl _
          · exact h c hc
      | _ => exact Nat.le_trans (h c hc) hle

/-- The checkpoint was captured without a parser, and has no output of any. -/
def Checkpoint.Captured (c : Checkpoint) : Prop := ∃ context snapshot offset, c = .capture context snapshot offset

mutual

/-- What a command brings in from outside has been captured there. -/
theorem Command.captured_foreign : ∀ (c : Command), ∀ d ∈ c.foreign, d.Captured
  | .call c => by
    intro d hd
    cases c with
    | capture context snapshot offset =>
        rw [foreign, Call.foreign, List.mem_singleton] at hd
        exact ⟨context, snapshot, offset, hd⟩
    | _ => cases hd
  | .attempt _ => fun _ hd => absurd hd List.not_mem_nil
  | .within _ script => Command.captured_foreignOf script
  | .speculate script _ => Command.captured_foreignOf script

theorem Command.captured_foreignOf : ∀ (script : List Command), ∀ d ∈ foreignOf script, d.Captured
  | [] => fun _ hd => absurd hd List.not_mem_nil
  | c :: rest => fun d hd =>
    (List.mem_append.1 hd).elim (Command.captured_foreign c d) (Command.captured_foreignOf rest d)

end

namespace Session

variable {s t : Session}

/-- What acts preserve holds after all moves, if they may also rewind to what has been captured outside. -/
theorem proceed_invariant {I : Session → Prop}
    (h : ∀ {pending : List Checkpoint} {quiet : Prop} {s t : Session}, Leads pending quiet s t →
      (∀ c ∈ pending, c.Captured) → I s → I t)
    (hs : I s) (moves : List Move) : I (s.proceed moves).2 := by
  induction moves generalizing s with
  | nil => exact hs
  | cons move rest ih =>
      cases move with
      | script commands =>
          have hleads := Command.runAll_leads (Command.foreignOf commands) commands s (List.Subset.refl _)
          exact ih (h hleads (Command.captured_foreignOf commands) hs)
      | context c => exact ih (h (leads_inContext [] s c) (fun _ hd => absurd hd List.not_mem_nil) hs)

theorem Leads.sound {pending : List Checkpoint} {quiet : Prop} (h : Leads pending quiet s t)
    (hpending : ∀ c ∈ pending, c.Captured) (hs : s.Sound) : t.Sound := by
  obtain ⟨acts, hafter, -, -, hknown⟩ := h.acts (s.checkpoints ++ pending) (List.subset_append_left _ _)
    (List.subset_append_right _ _)
  refine ⟨?_, fun c hc => ?_⟩
  · rw [hafter]
    exact hs.parser.after acts
  · rw [hafter]
    refine Parser.stamp_known (fun c hc => ?_) acts c (hknown hc)
    rcases List.mem_append.1 hc with hc | hc
    · exact hs.checkpoints c hc
    · obtain ⟨context, snapshot, offset, rfl⟩ := hpending c hc
      exact Nat.zero_le _

theorem Sound.proceed (hs : s.Sound) (moves : List Move) : (s.proceed moves).2.Sound :=
  proceed_invariant Leads.sound hs moves

/-- A speculation that is taken back puts back the parser, but for the stamps and the numbering. -/
theorem parser_of_rolledBack (hs : s.Sound) {script : List Command} {giveUp : Bool} {line : Line}
    {failure : Option Mismatch} (hrun : (Command.speculate script giveUp).run s = (line, t, failure))
    (hfailed : line.isRolledBack = true) :
    failure = none ∧ Grows s t ∧ ∃ stamp id, s.parser.stamp ≤ stamp ∧
      t.parser = { s.parser with stamp := stamp, nextId := id } := by
  have henter := leads_inContext (Command.foreignOf script) s (s.parser.context.enter { speculating := true })
  have hbody := henter.trans (Command.runAll_leads _ script _ (List.Subset.refl _))
  simp only [Command.run] at hrun
  cases hr : Command.runAll script (s.inContext (s.parser.context.enter { speculating := true })) with
  | mk lines result =>
      rw [hr] at hbody hrun
      have hleave := hbody.trans (leads_inContext _ result.1 s.parser.context)
      obtain ⟨acts, hafter, -⟩ := hleave.acts (s.checkpoints ++ Command.foreignOf script) (List.subset_append_left _ _)
        (List.subset_append_right _ _)
      dsimp only at hrun hafter hleave
      generalize result.1.inContext s.parser.context = u at hrun hafter hleave
      generalize (if giveUp then result.2.or (some Mismatch.notApplicable) else result.2) = outcome at hrun
      cases outcome with
      | none =>
          cases hrun
          cases hfailed
      | some m =>
          simp only [endSpeculation, perform, hafter] at hrun
          by_cases hcan : (s.parser.after acts).canRewind s.parser.checkpoint = true
          · rw [hs.parser.run_rewind_checkpoint hcan] at hrun
            cases hrun
            refine ⟨rfl, ?_, _, _, Parser.stamp_le_after _ acts, rfl⟩
            exact ⟨hleave.grows.markers, hleave.grows.completed, hleave.grows.checkpoints⟩
          · rw [Parser.run_rewind, if_neg hcan] at hrun
            cases hrun
            cases hfailed

theorem shift_injective {old new m n : Nat} (h : old ≤ new) (heq : shift old new m = shift old new n) : m = n := by
  unfold shift at heq
  split at heq <;> split at heq <;> omega

/-- Lists that agree on the places of the first one, if what comes after is counted anew. -/
theorem table_shift {α : Type} {xs ys : List α} {free : Nat → Bool} {R : α → α → Prop} (hle : xs.length ≤ ys.length)
    (h : ∀ n, free n = true → n < xs.length → Option.Rel R xs[n]? ys[n]?) :
    Table (shift xs.length ys.length) free R xs ys := by
  refine ⟨fun n hn => ?_, fun k => ?_, shift_injective hle⟩
  · by_cases hlt : n < xs.length
    · rw [shift, if_pos hlt]
      exact h n hn hlt
    · rw [shift, if_neg hlt, List.getElem?_eq_none (Nat.le_of_not_lt hlt), List.getElem?_eq_none (Nat.le_add_left _ _)]
      exact .none
  · rw [shift, if_neg (Nat.not_lt.2 (Nat.le_add_right _ _)), Nat.add_sub_cancel_left, Nat.add_comm]

theorem rel_of_eq {α : Type} {R : α → α → Prop} {x y : Option α} (h : y = x) (hR : ∀ a, x = some a → R a a) :
    Option.Rel R x y := by
  rw [h]
  cases x with
  | none => exact .none
  | some a => exact .some (hR a rfl)

/-- The sessions before and after a failed speculation agree. -/
theorem twin_of_rolledBack (hs : s.Sound) {script : List Command} {giveUp : Bool} {line : Line}
    {failure : Option Mismatch} (hrun : (Command.speculate script giveUp).run s = (line, t, failure))
    (hfailed : line.isRolledBack = true) : Twin (s.past t) s t := by
  obtain ⟨-, hgrows, stamp, id, hstamp, hparser⟩ := parser_of_rolledBack hs hrun hfailed
  refine ⟨?_, ?_, ?_, ?_⟩
  · rw [hparser]
    exact ⟨rfl, rfl, rfl, rfl, hs.parser, fun o ho => Nat.le_trans (hs.parser.stamps o ho) hstamp, hs.parser.pos⟩
  · exact table_shift hgrows.markers fun n hn hlt => rel_of_eq (of_decide_eq_true hn hlt) fun _ _ => rfl
  · exact table_shift hgrows.completed fun n hn hlt => rel_of_eq (of_decide_eq_true hn hlt) fun _ _ => rfl
  · refine table_shift hgrows.checkpoints.length_le fun n _ hlt => rel_of_eq ?_ fun c hc => ?_
    · obtain ⟨more, hmore⟩ := hgrows.checkpoints
      rw [← hmore, List.getElem?_append_left hlt]
    · have hle := hs.checkpoints c (List.mem_of_getElem? hc)
      rw [hparser]
      exact ⟨rfl, hle, Nat.le_trans hle hstamp, rfl⟩

/-- Moves and their renaming have the same records and lead to sessions that agree. -/
theorem Twin.proceed {σ : Renaming} (h : Twin σ s t) {moves : List Move}
    (hmoves : moves.all (·.each (Call.mayUse σ)) = true) :
    Line.mapAll Reply.erase (t.proceed (moves.map (·.rename σ))).1 =
        Line.mapAll (fun r => (r.rename σ).erase) (s.proceed moves).1 ∧
      Twin σ (s.proceed moves).2 (t.proceed (moves.map (·.rename σ))).2 := by
  induction moves generalizing s t with
  | nil => exact ⟨rfl, h⟩
  | cons move rest ih =>
      rw [List.all_cons, Bool.and_eq_true] at hmoves
      cases move with
      | script commands =>
          have hfirst := Command.runAll_agrees σ commands s t h hmoves.1
          obtain ⟨hlines, htwin⟩ := ih hfirst.follows.twin hmoves.2
          refine ⟨?_, htwin⟩
          show Line.mapAll Reply.erase ((Command.runAll (Command.renameAll σ commands) t).1 ++ _) =
            Line.mapAll _ ((Command.runAll commands s).1 ++ _)
          rw [Line.mapAll_append, Line.mapAll_append, hfirst.lines, hlines]
      | context c => exact ih (h.inContext c).twin hmoves.2

end Session

/-- **A failed speculation leaves no trace.** In any state that can be reached, let a speculation be tried and
taken back. Whatever comes next, if it only uses markers and checkpoints from before the speculation or made
after it, is the same as if the speculation had not been tried: the same replies and faults, the same token under
the cursor, the same offset and context, and in the end the same tree. -/
theorem speculate_leaves_no_trace (tokens : List Lexeme) (before next : List Move) (script : List Command)
    (giveUp : Bool) (kind : Kind) {s t : Session} {line : Line} {failure : Option Mismatch}
    (hreached : (Session.proceed before { parser := .ofTokens tokens }).2 = s)
    (hrun : (Command.speculate script giveUp).run s = (line, t, failure)) (hfailed : line.isRolledBack = true)
    (hnext : next.all (·.each (Call.mayUse (s.past t))) = true) :
    let plain := s.proceed next
    let tried := t.proceed (next.map (·.rename (s.past t)))
    failure = none ∧ t.parser.glance = s.parser.glance ∧
      Line.mapAll Reply.erase tried.1 = Line.mapAll (fun r => (r.rename (s.past t)).erase) plain.1 ∧
      tried.2.parser.glance = plain.2.parser.glance ∧
      ((Parser.finish kind).run tried.2.parser).1.map Node.erase =
        ((Parser.finish kind).run plain.2.parser).1.map Node.erase := by
  have hs : s.Sound := by
    rw [← hreached]
    exact (Session.sound_ofTokens tokens).proceed before
  have htwin := Session.twin_of_rolledBack hs hrun hfailed
  obtain ⟨hlines, hend⟩ := htwin.proceed hnext
  exact ⟨(Session.parser_of_rolledBack hs hrun hfailed).1, htwin.glance, hlines, hend.glance, hend.parser.finish kind⟩

def declarationTokens : List Lexeme :=
  [⟨.valKw, 3, []⟩, ⟨.name, 2, [⟨.whitespace, 1⟩]⟩, ⟨.eq, 1, [⟨.whitespace, 1⟩]⟩, ⟨.name, 4, [⟨.lineComment, 6⟩]⟩]

/-- Two open markers and a checkpoint between them. -/
def openedScript : List Command :=
  [.call .start, .call .advance, .call .checkpoint, .call .start, .call .advance]

/-- A trial that uses up the older marker, makes a marker and a checkpoint of its own, and fails. -/
def trialScript : List Command :=
  [.call (.abandon 0), .call .start, .call .skip, .call (.missing .comma), .call .checkpoint,
    .call (.complete 2 .valStmt), .attempt .comma]

/-- A continuation that returns to the checkpoint from before the trial. -/
def resumedScript : List Command :=
  [.call .checkpoint, .call (.rewind 0), .call .start, .call .advance, .call (.complete 2 .valStmt),
    .call (.rewind 1), .call (.inspect 1), .call (.complete 1 .list)]

theorem trialScript_leaves_no_trace :
    ∃ s t line, (Session.proceed [.script openedScript] { parser := .ofTokens declarationTokens }).2 = s ∧
      (Command.speculate trialScript false).run s = (line, t, none) ∧ line.isRolledBack = true ∧
      ((Parser.finish .module).run
          (t.proceed ([Move.script resumedScript].map (·.rename (s.past t)))).2.parser).1.map Node.erase =
        ((Parser.finish .module).run (s.proceed [.script resumedScript]).2.parser).1.map Node.erase := by
  have hfailed : ((Command.speculate trialScript false).run
      (Session.proceed [.script openedScript] { parser := .ofTokens declarationTokens }).2).1.isRolledBack = true := by
    decide +kernel
  have hnext : [Move.script resumedScript].all (·.each (Call.mayUse
      ((Session.proceed [.script openedScript] { parser := .ofTokens declarationTokens }).2.past
        ((Command.speculate trialScript false).run
          (Session.proceed [.script openedScript] { parser := .ofTokens declarationTokens }).2).2.1))) = true := by
    decide +kernel
  generalize hs : (Session.proceed [.script openedScript] { parser := .ofTokens declarationTokens }).2 = s
    at hfailed hnext
  cases hrun : (Command.speculate trialScript false).run s with
  | mk line rest =>
      obtain ⟨t, failure⟩ := rest
      rw [hrun] at hfailed hnext
      obtain ⟨rfl, -, -, -, htree⟩ := speculate_leaves_no_trace declarationTokens [.script openedScript]
        [.script resumedScript] trialScript false .module hs hrun hfailed hnext
      exact ⟨s, t, line, rfl, hrun, hfailed, htree⟩

end LosslessSyntax
