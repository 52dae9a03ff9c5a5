import LosslessSyntax.Proofs.Parse.Runs

/-!
# Rewinds

A rewind looks at one entry of the stack only, the topmost of those that were there when the checkpoint was
taken, and compares its stamp with that of the checkpoint. That is enough: stamps never go back, so an entry
in its place that is written later has a newer stamp, and no entry below it can go without it.

* `Parser.Keeps` : a sequence of acts takes none of the `n` oldest entries off the stack;
* `canRewind_step`, `canRewind_after` : what the comparison says after an act, and after a sequence of them;
* `Parser.Stamped` : what every parser that has been in use satisfies;
* `rewind_exact` : when a rewind succeeds, and what it does.
-/

set_option autoImplicit false

namespace LosslessSyntax

/-- None of the `n` oldest entries of the stack is taken off by the acts. -/
def Parser.Keeps (n : Nat) : Parser → List Act → Prop
  | _, [] => True
  | p, a :: rest => n ≤ a.spares p ∧ (a.step p).Keeps n rest

namespace Parser

theorem Rebuilt.take_outputs {p q : Parser} {n h : Nat} (hr : Rebuilt n p q) (hn : n ≤ p.outputs.length)
    (hh : h ≤ n) : q.outputs.take h = p.outputs.take h := by
  obtain ⟨new, hq, -⟩ := hr.outputs
  rw [hq, List.take_append_of_le_length (by rw [List.length_take]; omega), List.take_take, Nat.min_eq_left hh]

/-- The comparison of stamps, once it is known that the stack is high enough. -/
theorem canRewind_iff {p : Parser} {c : Checkpoint} :
    p.canRewind c = true ↔ c.height ≤ p.outputs.length ∧
      ∀ o, 0 < c.height → p.outputs[c.height - 1]? = some o → o.stamp ≤ c.stamp := by
  unfold canRewind
  simp only [Bool.and_eq_true, decide_eq_true_eq, Bool.or_eq_true, beq_iff_eq, Option.all_eq_true]
  constructor
  · rintro ⟨hheight, h⟩
    refine ⟨hheight, fun o hpos ho => ?_⟩
    rcases h with h | h
    · omega
    · exact h o ho
  · rintro ⟨hheight, h⟩
    refine ⟨hheight, ?_⟩
    rcases Nat.eq_zero_or_pos c.height with h0 | hpos
    · exact .inl h0
    · exact .inr fun o ho => h o hpos ho

/-- The comparison after a change to the stack: it fails from then on if one of the entries of the
checkpoint has been taken off, and says what it has said before if none has. -/
theorem Rebuilt.canRewind_iff {p q : Parser} {n : Nat} {c : Checkpoint} (hr : Rebuilt n p q)
    (hn : n ≤ p.outputs.length) (hc : c.stamp ≤ p.stamp) :
    q.canRewind c = true ↔ c.height ≤ n ∧ p.canRewind c = true := by
  obtain ⟨new, hq, hnew⟩ := hr.outputs
  rw [Parser.canRewind_iff, Parser.canRewind_iff]
  have hlen : q.outputs.length = n + new.length := by
    rw [hq, List.length_append, List.length_take, Nat.min_eq_left hn]
  have hbelow : ∀ i, i < n → q.outputs[i]? = p.outputs[i]? := by
    intro i hi
    rw [hq, List.getElem?_append_left (by rw [List.length_take]; omega), List.getElem?_take_of_lt hi]
  constructor
  · rintro ⟨hheight, h⟩
    by_cases hle : c.height ≤ n
    · refine ⟨hle, Nat.le_trans hle hn, fun o hpos ho => h o hpos ?_⟩
      rw [hbelow _ (by omega)]
      exact ho
    · -- the entry looked at is one of the new ones
      exfalso
      have hlt : c.height - 1 < q.outputs.length := by omega
      have hmem : q.outputs[c.height - 1] ∈ new := by
        have hge : (p.outputs.take n).length ≤ c.height - 1 := by
          rw [List.length_take]
          omega
        simp only [hq, List.getElem_append_right hge]
        exact List.getElem_mem _
      have hold := h _ (by omega) (List.getElem?_eq_getElem hlt)
      have := (hnew _ hmem).1
      omega
  · rintro ⟨hle, hheight, h⟩
    refine ⟨by omega, fun o hpos ho => h o hpos ?_⟩
    rw [← hbelow _ (by omega)]
    exact ho

end Parser

theorem Act.spares_le (p : Parser) (a : Act) : a.spares p ≤ p.outputs.length := by
  cases a with
  | complete m kind => exact Nat.min_le_right _ _
  | completeList m => exact Nat.min_le_right _ _
  | rewind c =>
      show (if p.canRewind c then c.height else p.outputs.length) ≤ _
      split
      · next h => exact Parser.canRewind_height h
      · exact Nat.le_refl _
  | _ => exact Nat.le_refl _

namespace Parser

theorem canRewind_step {p : Parser} {c : Checkpoint} (a : Act) (hc : c.stamp ≤ p.stamp) :
    (a.step p).canRewind c = true ↔ c.height ≤ a.spares p ∧ p.canRewind c = true :=
  (a.rebuilt_step p).canRewind_iff (a.spares_le p) hc

theorem stamp_le_after (p : Parser) (acts : List Act) : p.stamp ≤ (p.after acts).stamp := by
  induction acts generalizing p with
  | nil => exact Nat.le_refl _
  | cons a rest ih => exact Nat.le_trans (a.rebuilt_step p).stamp (ih (a.step p))

/-- After any acts, a rewind that was possible before is possible iff they have kept the entries below
the checkpoint. -/
theorem canRewind_after {p : Parser} {c : Checkpoint} (acts : List Act) (hc : c.stamp ≤ p.stamp) :
    (p.after acts).canRewind c = true ↔ p.Keeps c.height acts ∧ p.canRewind c = true := by
  induction acts generalizing p with
  | nil => simp only [after_nil, Keeps, true_and]
  | cons a rest ih =>
      rw [after_cons, ih (Nat.le_trans hc (a.rebuilt_step p).stamp), canRewind_step a hc, Keeps]
      constructor
      · rintro ⟨hrest, hle, h⟩
        exact ⟨⟨hle, hrest⟩, h⟩
      · rintro ⟨⟨hle, hrest⟩, h⟩
        exact ⟨hrest, hle, h⟩

theorem take_outputs_after {p : Parser} {n : Nat} {acts : List Act} (h : p.Keeps n acts) :
    (p.after acts).outputs.take n = p.outputs.take n := by
  induction acts generalizing p with
  | nil => rfl
  | cons a rest ih =>
      rw [after_cons, ih h.2]
      exact (a.rebuilt_step p).take_outputs (a.spares_le p) h.1

/-- No entry is newer than the latest write, and the cursor is in the buffer. -/
structure Stamped (p : Parser) : Prop where
  stamps : ∀ o ∈ p.outputs, o.stamp ≤ p.stamp
  pos : p.source.pos ≤ p.source.body.length

theorem stamped_ofTokens (tokens : List Lexeme) : (ofTokens tokens).Stamped := by
  refine ⟨fun o ho => absurd ho List.not_mem_nil, ?_⟩
  show (TokenBuffer.ofTokens tokens).pos ≤ _
  unfold TokenBuffer.ofTokens
  split
  · split <;> exact Nat.zero_le _
  · exact Nat.zero_le _

theorem Stamped.rebuilt {p q : Parser} {n : Nat} (hp : p.Stamped) (hr : Rebuilt n p q) : q.Stamped := by
  obtain ⟨new, hq, hnew⟩ := hr.outputs
  refine ⟨fun o ho => ?_, ?_⟩
  · rw [hq, List.mem_append] at ho
    rcases ho with ho | ho
    · exact Nat.le_trans (hp.stamps o (List.mem_of_mem_take ho)) hr.stamp
    · exact (hnew o ho).2
  · rw [hr.source]
    exact hr.pos hp.pos

theorem Stamped.after {p : Parser} (hp : p.Stamped) (acts : List Act) : (p.after acts).Stamped := by
  induction acts generalizing p with
  | nil => exact hp
  | cons a rest ih => exact ih (hp.rebuilt (a.rebuilt_step p))

theorem source_after (p : Parser) (acts : List Act) :
    (p.after acts).source = { p.source with pos := (p.after acts).source.pos } := by
  induction acts generalizing p with
  | nil => rfl
  | cons a rest ih =>
      rw [after_cons, ih]
      rw [(a.rebuilt_step p).source]

theorem Stamped.canRewind_checkpoint {p : Parser} (hp : p.Stamped) : p.canRewind p.checkpoint = true := by
  rw [canRewind_iff]
  refine ⟨Nat.le_refl _, fun o _ ho => ?_⟩
  exact hp.stamps o (List.mem_of_getElem? ho)

theorem Stamped.restore_checkpoint {p q : Parser} (hp : p.Stamped)
    (hq : q.source = { p.source with pos := q.source.pos }) :
    q.source.restore p.checkpoint.snapshot = .ok p.source := by
  have hpos : p.checkpoint.snapshot < q.source.tokens.length := by
    rw [hq]
    show p.source.pos < (p.source.body ++ [p.source.eof]).length
    rw [List.length_append, List.length_singleton]
    exact Nat.lt_succ_of_le hp.pos
  unfold TokenBuffer.restore
  rw [if_pos hpos, hq]
  rfl

/-- Going back to a checkpoint of this parser puts back all but the stamps and the numbering. -/
theorem Stamped.run_rewind_checkpoint {p : Parser} (hp : p.Stamped) {since : List Act}
    (h : (p.after since).canRewind p.checkpoint = true) :
    (rewind p.checkpoint).run (p.after since) =
      (.ok (), { p with stamp := (p.after since).stamp, nextId := (p.after since).nextId }) := by
  have hkeeps : p.Keeps p.outputs.length since := ((canRewind_after since (Nat.le_refl _)).1 h).1
  have htake : (p.after since).outputs.take p.checkpoint.height = p.outputs :=
    (take_outputs_after hkeeps).trans List.take_length
  rw [run_rewind, if_pos h, hp.restore_checkpoint (source_after p since), htake]
  rfl

theorem rewind_eq_ok {c : Checkpoint} {p : Parser} (hok : ((rewind c).run p).1.isOk = true) :
    p.canRewind c = true ∧ ((rewind c).run p).2 =
      { p with outputs := p.outputs.take c.height, skipped := c.skipped, source := { p.source with pos := c.snapshot },
               context := c.context } := by
  rw [run_rewind] at hok ⊢
  by_cases hcan : p.canRewind c
  · rw [if_pos hcan] at hok ⊢
    refine ⟨hcan, ?_⟩
    unfold TokenBuffer.restore at hok ⊢
    split at hok
    · next source hsource =>
      split at hsource
      · cases hsource
        rfl
      · cases hsource
    · cases hok
  · rw [if_neg hcan] at hok
    cases hok

/-- **A rewind is exact, refuses precisely the checkpoints that have lost output, and changes nothing when it
refuses.** Whatever a script does to a parser is a sequence of acts. The acts `before` lead from the start to the
place where the checkpoint is taken, and the acts `since` from there to the rewind. -/
theorem rewind_exact :
    (∀ (script : List Command) (s : Session), ∃ acts, (Command.runAll script s).2.1.parser = s.parser.after acts) ∧
    ∀ (tokens : List Lexeme) (before since : List Act),
      let p := (ofTokens tokens).after before
      let q := p.after since
      let (outcome, r) := (rewind p.checkpoint).run q
      (outcome = .ok () ↔ p.Keeps p.outputs.length since) ∧
        (outcome = .ok () → r.outputs = p.outputs ∧ r.skipped = p.skipped ∧ r.source = p.source ∧
          r.context = p.context) ∧
        (outcome ≠ .ok () → r = q) := by
  refine ⟨fun script s => ?_, fun tokens before since => ?_⟩
  · have hleads := Command.runAll_leads (Command.foreignOf script) script s (List.Subset.refl _)
    obtain ⟨acts, hafter, -⟩ := hleads.acts _ (List.subset_append_left s.checkpoints _) (List.subset_append_right _ _)
    exact ⟨acts, hafter⟩
  · intro p q
    have hp : p.Stamped := (stamped_ofTokens tokens).after before
    have hiff : q.canRewind p.checkpoint = true ↔ p.Keeps p.outputs.length since := by
      rw [canRewind_after since (Nat.le_refl _)]
      exact and_iff_left hp.canRewind_checkpoint
    by_cases h : q.canRewind p.checkpoint
    · rw [hp.run_rewind_checkpoint h]
      exact ⟨⟨fun _ => hiff.1 h, fun _ => rfl⟩, fun _ => ⟨rfl, rfl, rfl, rfl⟩, fun hne => absurd rfl hne⟩
    · rw [run_rewind, if_neg h]
      refine ⟨⟨fun he => ?_, fun hk => absurd (hiff.2 hk) h⟩, fun he => ?_, fun _ => rfl⟩
      · cases he
      · cases he

end Parser

end LosslessSyntax
