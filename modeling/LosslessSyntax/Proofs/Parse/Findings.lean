import LosslessSyntax.Proofs.Fact.Report
import LosslessSyntax.Proofs.Parse.Lossless

/-!
# What a parser finds wrong

A parser finds fault with its input in two ways: it skips a token, or it takes one for missing. Each time the output
gets one more mark, and the mark stays in its place whatever becomes of the output later on: skipped text moves into
the trivia of the next token, and output is wrapped into nodes, but neither changes where the text of it stands.

* `Finding` : a skipped or a missing token, by its place in the input; `Finding.resolved` : what is reported of it;
* `Accounted` : the marks in the output and in the skipped text are those of some findings, in order;
* `Step.Accounts` : what a step of the parser adds to the findings, if it does not fault;
* `Checkpoint.Accounts` : the findings that a rewind to the checkpoint would lead back to.
-/

set_option autoImplicit false

namespace LosslessSyntax

/-- A token that was skipped, or one that was missing in front of a token. Tokens go by their place in the input. -/
inductive Finding where
  | skipped (index : Nat)
  | missing (index : Nat)
deriving DecidableEq, Repr

namespace Finding

/-- The number of tokens in front of the cursor when it was found. -/
def index : Finding → Nat
  | skipped i => i
  | missing i => i

/-- The number of tokens in front of the cursor afterwards. -/
def next : Finding → Nat
  | skipped i => i + 1
  | missing i => i

/-- What is reported: skipped text over the text of the token, without its trivia, and a missing token at the end of
the tokens in front of it. -/
def resolved (input : List Lexeme) : Finding → Resolved
  | skipped i =>
    let t := input[i]?.getD default
    let start := Lexeme.extents (input.take i) + Leaf.total (t.leading.map TriviaPiece.leaf)
    ⟨.error Diagnostic.skippedText 0 t.width, ⟨start, start + t.width⟩⟩
  | missing i =>
    let start := Lexeme.extents (input.take i)
    ⟨.error Diagnostic.expectedToken 0 0, ⟨start, start⟩⟩

def skips (start stop : Nat) : List Finding := (List.range' start (stop - start)).map skipped

theorem skips_self (i : Nat) : skips i i = [] := by
  unfold skips
  rw [Nat.sub_self]
  rfl

theorem skips_cons {start stop : Nat} (h : start < stop) :
    skips start stop = skipped start :: skips (start + 1) stop := by
  unfold skips
  rw [show stop - start = stop - (start + 1) + 1 by omega]
  rfl

end Finding

namespace Finding

variable {input : List Lexeme}

theorem resolved_skipped {i : Nat} (h : i < input.length) :
    (skipped i).resolved input = (Diagnostic.ofSkipped input[i].width).placed
      (Lexeme.extents (input.take i) + Leaf.total (input[i].leading.map TriviaPiece.leaf)) := by
  unfold resolved
  simp only [List.getElem?_eq_getElem h]
  rfl

theorem start_le_stop (f : Finding) : (f.resolved input).range.start ≤ (f.resolved input).range.stop := by
  cases f with
  | skipped i => exact Nat.le_add_right _ _
  | missing i => exact Nat.le_refl _

theorem extents_index_le (f : Finding) : Lexeme.extents (input.take f.index) ≤ (f.resolved input).range.start := by
  cases f with
  | skipped i => exact Nat.le_add_right _ _
  | missing i => exact Nat.le_refl _

theorem stop_le_extents {f : Finding} (h : f.next ≤ input.length) :
    (f.resolved input).range.stop ≤ Lexeme.extents (input.take f.next) := by
  cases f with
  | skipped i =>
      replace h : i < input.length := h
      show _ ≤ Lexeme.extents (input.take (i + 1))
      rw [Lexeme.extents_take_succ h, resolved_skipped h, Lexeme.extent, ← Nat.add_assoc]
      exact Nat.le_refl _
  | missing i => exact Nat.le_refl _

/-- What is found later starts no earlier. -/
theorem start_le_start {f g : Finding} (hf : f.next ≤ input.length) (h : f.next ≤ g.index) :
    (f.resolved input).range.start ≤ (g.resolved input).range.start :=
  calc (f.resolved input).range.start
    _ ≤ (f.resolved input).range.stop := f.start_le_stop
    _ ≤ Lexeme.extents (input.take f.next) := stop_le_extents hf
    _ ≤ Lexeme.extents (input.take g.index) := Lexeme.extents_take_mono input h
    _ ≤ (g.resolved input).range.start := g.extents_index_le

end Finding

/-- The output and the skipped text have the text of the first `pos` tokens, and in them the marks of the findings. -/
structure Accounted (body : List Lexeme) (output skipped : List Slot) (pos : Nat) (findings : List Finding) : Prop where
  faithful : Faithful body output skipped pos
  silent : ∀ s ∈ output ++ skipped, s.Silent
  marks : Slot.marksOf (output ++ skipped) 0 = findings.map (·.resolved body)
  passed : ∀ f ∈ findings, f.next ≤ pos
  ordered : findings.Pairwise fun f g => f.next ≤ g.index

namespace Accounted

variable {body : List Lexeme} {output skipped output' skipped' : List Slot} {pos pos' : Nat} {findings : List Finding}

theorem start (body : List Lexeme) : Accounted body [] [] 0 [] :=
  ⟨.start body, fun _ hs => absurd hs List.not_mem_nil, rfl, fun _ hf => absurd hf List.not_mem_nil, .nil⟩

theorem extents_eq (h : Accounted body output skipped pos findings) :
    Slot.extents (output ++ skipped) = Lexeme.extents (body.take pos) := h.faithful.extents_eq

/-- No new marks. -/
theorem moved (h : Accounted body output skipped pos findings) (hfaithful : Faithful body output' skipped' pos')
    (hsilent : ∀ s ∈ output' ++ skipped', s.Silent) (hpos : pos ≤ pos')
    (hmarks : Slot.marksOf (output' ++ skipped') 0 = Slot.marksOf (output ++ skipped) 0) :
    Accounted body output' skipped' pos' findings :=
  ⟨hfaithful, hsilent, hmarks.trans h.marks, fun f hf => Nat.le_trans (h.passed f hf) hpos, h.ordered⟩

/-- One more mark, at the end. -/
theorem noted {f : Finding} (h : Accounted body output skipped pos findings) (hindex : f.index = pos)
    (hfaithful : Faithful body output' skipped' f.next) (hsilent : ∀ s ∈ output' ++ skipped', s.Silent)
    (hmarks : Slot.marksOf (output' ++ skipped') 0 = Slot.marksOf (output ++ skipped) 0 ++ [f.resolved body]) :
    Accounted body output' skipped' f.next (findings ++ [f]) := by
  have hnext : pos ≤ f.next := by
    rw [← hindex]
    cases f with
    | skipped i => exact Nat.le_succ i
    | missing i => exact Nat.le_refl i
  refine ⟨hfaithful, hsilent, ?_, ?_, ?_⟩
  · rw [hmarks, h.marks, List.map_append]
    rfl
  · intro g hg
    rcases List.mem_append.1 hg with hg | hg
    · exact Nat.le_trans (h.passed g hg) hnext
    · exact Nat.le_of_eq (congrArg Finding.next (List.mem_singleton.1 hg))
  · refine List.pairwise_append.2 ⟨h.ordered, List.pairwise_singleton _ _, fun g hg f' hf' => ?_⟩
    rw [List.mem_singleton.1 hf', hindex]
    exact h.passed g hg

end Accounted

theorem Slot.silent_snoc {ss : List Slot} {s : Slot} (h : ∀ t ∈ ss, t.Silent) (hs : s.Silent) :
    ∀ t ∈ ss ++ [s], t.Silent := by
  intro t ht
  rcases List.mem_append.1 ht with ht | ht
  · exact h t ht
  · rw [List.mem_singleton.1 ht]
    exact hs

namespace Parser

/-- The findings so far are the marks in the output of the parser and in its skipped text. -/
def Accounted (p : Parser) (findings : List Finding) : Prop :=
  LosslessSyntax.Accounted p.source.body p.slots p.skipped p.source.pos findings

/-- A missing token takes over the marks of the skipped text and has one of its own. -/
theorem missingToken_marks {p : Parser} {kind : Kind} {t : Token} (h : p.missingToken kind = .ok t) :
    (∀ start, t.toSlot.marks start = Slot.marksOf p.skipped start ++
      [Diagnostic.ofMissing.placed (start + Slot.extents p.skipped)]) ∧
    ((∀ s ∈ p.skipped, s.Silent) → t.toSlot.Silent) := by
  obtain ⟨leading, hleading, ht⟩ := bind_eq_ok_iff.1 h
  obtain ⟨hmarks, hextent, hsilent⟩ := marks_packTrivia hleading
  replace ht : Token.assembleChecked (p.nextId + 1) leading kind 0 true [.ofMissing] = .ok t := ht
  obtain ⟨-, rfl⟩ := Token.assembleChecked_eq_ok_iff.1 ht
  refine ⟨fun start => ?_, fun hs => Slot.silent_token.2 (hsilent hs)⟩
  rw [← hmarks, ← hextent]
  rfl

/-- The next token takes over the marks of the skipped text. -/
theorem nextToken_marks {p : Parser} {t : Token} (h : p.nextToken = .ok t) :
    (∀ start, t.toSlot.marks start = Slot.marksOf p.skipped start) ∧
    ((∀ s ∈ p.skipped, s.Silent) → t.toSlot.Silent) := by
  obtain ⟨leading, hleading, ht⟩ := bind_eq_ok_iff.1 h
  obtain ⟨hmarks, -, hsilent⟩ := marks_packTrivia hleading
  obtain ⟨hpieces, hpiecesSilent⟩ := TriviaPiece.marks_toSlots p.nextId p.source.current.leading
  obtain ⟨-, rfl⟩ := Token.assembleChecked_eq_ok_iff.1 ht
  refine ⟨fun start => ?_, fun hs => Slot.silent_token.2 (hsilent fun s hmem => ?_)⟩
  · show leading.marks start ++ [] = _
    rw [List.append_nil, hmarks, Slot.marksOf_append, hpieces, List.append_nil]
  · rcases List.mem_append.1 hmem with hmem | hmem
    · exact hs s hmem
    · exact hpiecesSilent s hmem

variable {p : Parser} {findings : List Finding}

theorem Accounted.lossless (h : p.Accounted findings) : p.Lossless := h.faithful

theorem Accounted.silent_slots (h : p.Accounted findings) : ∀ s ∈ p.slots, s.Silent :=
  fun s hs => h.silent s (List.mem_append_left _ hs)

theorem Accounted.silent_skipped (h : p.Accounted findings) : ∀ s ∈ p.skipped, s.Silent :=
  fun s hs => h.silent s (List.mem_append_right _ hs)

theorem Accounted.absent (h : p.Accounted findings) : p.absent.Accounted findings := by
  unfold Accounted
  rw [show p.absent.slots = p.slots ++ [.absent] from slots_push p .absent]
  refine h.moved h.lossless.absent ?_ (Nat.le_refl _) ?_
  · intro s hs
    rcases List.mem_append.1 hs with hs | hs
    · exact Slot.silent_snoc h.silent_slots Slot.silent_absent s hs
    · exact h.silent_skipped s hs
  · show Slot.marksOf (p.slots ++ [.absent] ++ p.skipped) 0 = _
    simp only [Slot.marksOf_append, Slot.marksOf_cons, Slot.marksOf_nil, Slot.marks, Slot.extents_append, Slot.extents,
      Slot.extent, List.append_nil, Nat.add_zero]

theorem Accounted.missing {kind : Kind} {t : Token} (h : p.Accounted findings) (ht : p.missingToken kind = .ok t) :
    LosslessSyntax.Accounted p.source.body (p.slots ++ [t.toSlot]) [] p.source.pos
      (findings ++ [.missing p.source.pos]) := by
  obtain ⟨hmarks, hsilent⟩ := missingToken_marks ht
  have hextents := h.extents_eq
  rw [Slot.extents_append] at hextents
  refine h.noted (f := .missing p.source.pos) rfl (h.lossless.missing ht) ?_ ?_
  · rw [List.append_nil]
    exact Slot.silent_snoc h.silent_slots (hsilent h.silent_skipped)
  · rw [List.append_nil, Slot.marksOf_append, Slot.marksOf_append, Slot.marksOf_cons, Slot.marksOf_nil, hmarks,
      List.append_nil, List.append_assoc, Nat.zero_add, hextents]
    rfl

theorem Accounted.bump {t : Token} (h : p.Accounted findings) (hlt : p.source.pos < p.source.body.length)
    (ht : p.nextToken = .ok t) :
    LosslessSyntax.Accounted p.source.body (p.slots ++ [t.toSlot]) [] (p.source.pos + 1) findings := by
  obtain ⟨hmarks, hsilent⟩ := nextToken_marks ht
  refine h.moved (h.lossless.bump hlt ht) ?_ (Nat.le_succ _) ?_
  · rw [List.append_nil]
    exact Slot.silent_snoc h.silent_slots (hsilent h.silent_skipped)
  · rw [List.append_nil, Slot.marksOf_append, Slot.marksOf_append, Slot.marksOf_cons, Slot.marksOf_nil, hmarks,
      List.append_nil]

theorem skip_parts {p : Parser} (heof : ¬ p.isAt .eof = true) :
    p.skip.slots = p.slots ∧ p.skip.skipped = p.skipped ++ TriviaPiece.toSlots p.nextId p.source.current.leading ++
        [(Token.skipped (p.nextId + p.source.current.leading.length) p.source.current.width).toSlot] ∧
      p.skip.source.body = p.source.body ∧ p.skip.source.pos = p.source.pos + 1 := by
  unfold skip
  rw [if_neg heof]
  exact ⟨rfl, rfl, body_bump _, TokenBuffer.bump_pos (pos_lt_of_not_eof heof)⟩

/-- Skipped text has a mark over the text of the token. -/
theorem Accounted.skip (h : p.Accounted findings) (heof : ¬ p.isAt .eof = true) :
    p.skip.Accounted (findings ++ [.skipped p.offset]) := by
  have hlt := pos_lt_of_not_eof heof
  have hlossless := h.lossless.skip
  obtain ⟨hpieces, hpiecesSilent⟩ := TriviaPiece.marks_toSlots p.nextId p.source.current.leading
  obtain ⟨hslots, hskipped, hbody, hpos⟩ := skip_parts heof
  unfold Lossless at hlossless
  unfold Accounted
  rw [hslots, hskipped, hbody, hpos] at hlossless ⊢
  refine h.noted (f := .skipped p.source.pos) rfl hlossless ?_ ?_
  · intro s hs
    rcases List.mem_append.1 hs with hs | hs
    · exact h.silent_slots s hs
    · refine Slot.silent_snoc (fun s hs => ?_) (Slot.silent_token.2 Slot.silent_absent) s hs
      rcases List.mem_append.1 hs with hs | hs
      · exact h.silent_skipped s hs
      · exact hpiecesSilent s hs
  · -- the new mark stands behind all the text so far and the trivia of the token
    have hown : (Token.skipped (p.nextId + p.source.current.leading.length) p.source.current.width).toSlot.marks
        (Lexeme.extents (p.source.body.take p.source.pos) +
          Leaf.total (p.source.current.leading.map TriviaPiece.leaf)) =
        [(Finding.skipped p.source.pos).resolved p.source.body] := by
      rw [TokenBuffer.current_eq hlt, Finding.resolved_skipped hlt]
      rfl
    rw [← List.append_assoc, ← List.append_assoc, Slot.marksOf_append, Slot.marksOf_append (p.slots ++ p.skipped),
      Slot.extents_append (p.slots ++ p.skipped), hpieces, List.append_nil, Nat.zero_add, h.extents_eq,
      TriviaPiece.extents_toSlots, Slot.marksOf_cons, Slot.marksOf_nil, List.append_nil, hown]

/-- Wrapping the output above a marker leaves the marks where they were. -/
theorem Accounted.wrapped {s : Slot} {n id : Nat} (h : p.Accounted findings) (hs : s.Made)
    (hleaves : s.leaves = Slot.leavesOf ((p.outputs.drop n).map (·.slot)))
    (hsilent : (∀ t ∈ (p.outputs.drop n).map (·.slot), t.Silent) → s.Silent)
    (hmarks : ∀ start, s.marks start = Slot.marksOf ((p.outputs.drop n).map (·.slot)) start)
    (hextent : s.extent = Slot.extents ((p.outputs.drop n).map (·.slot))) :
    ({ p with outputs := p.outputs.take n, nextId := id }.push s).Accounted findings := by
  have hlossless : ({ p with outputs := p.outputs.take n, nextId := id }.push s).Lossless :=
    h.lossless.wrapped hs hleaves
  have hdrop : (p.outputs.drop n).map (·.slot) = p.slots.drop n := List.map_drop
  rw [hdrop] at hsilent hmarks hextent
  have hslots : ({ p with outputs := p.outputs.take n, nextId := id }.push s).slots = p.slots.take n ++ [s] := by
    rw [slots_push]
    unfold slots
    rw [List.map_take]
  unfold Lossless at hlossless
  unfold Accounted
  rw [hslots] at hlossless ⊢
  refine h.moved hlossless ?_ (Nat.le_refl _) ?_
  · intro t ht
    rcases List.mem_append.1 ht with ht | ht
    · exact Slot.silent_snoc (fun u hu => h.silent_slots u (List.mem_of_mem_take hu))
        (hsilent fun u hu => h.silent_slots u (List.mem_of_mem_drop hu)) t ht
    · exact h.silent_skipped t ht
  · have hsplit : p.slots = p.slots.take n ++ p.slots.drop n := (List.take_append_drop n p.slots).symm
    show Slot.marksOf (p.slots.take n ++ [s] ++ p.skipped) 0 = _
    rw [show p.slots ++ p.skipped = p.slots.take n ++ p.slots.drop n ++ p.skipped by rw [← hsplit]]
    simp only [Slot.marksOf_append, Slot.marksOf_cons, Slot.marksOf_nil, Slot.extents_append, Slot.extents, hmarks,
      hextent, List.append_nil, Nat.add_zero]

theorem offset_skip {p : Parser} (heof : ¬ p.isAt .eof = true) : p.skip.offset = p.offset + 1 := (skip_parts heof).2.2.2

theorem Accounted.skips (h : p.Accounted findings) :
    p.skip.Accounted (findings ++ Finding.skips p.offset p.skip.offset) := by
  by_cases heof : p.isAt .eof
  · have hskip : p.skip = p := if_pos heof
    rw [hskip, Finding.skips_self, List.append_nil]
    exact h
  · rw [offset_skip heof, Finding.skips_cons (Nat.lt_succ_self _), Finding.skips_self]
    exact h.skip heof

theorem Accounted.skipAtMost (recovery : KindSet) (n : Nat) (h : p.Accounted findings) :
    p.offset ≤ (skipAtMost recovery n p).offset ∧
      (skipAtMost recovery n p).Accounted (findings ++ Finding.skips p.offset (skipAtMost recovery n p).offset) := by
  -- the findings of the steps that follow begin where the first step has left the cursor
  induction n generalizing p findings with
  | zero =>
      rw [Parser.skipAtMost, Finding.skips_self, List.append_nil]
      exact ⟨Nat.le_refl _, h⟩
  | succ n ih =>
      rw [Parser.skipAtMost]
      split
      · rw [Finding.skips_self, List.append_nil]
        exact ⟨Nat.le_refl _, h⟩
      · next hstop =>
        rw [Bool.or_eq_true, not_or] at hstop
        obtain ⟨hle, hrest⟩ := ih (h.skip hstop.1)
        rw [offset_skip hstop.1] at hle hrest
        rw [Finding.skips_cons hle, ← List.singleton_append, ← List.append_assoc]
        exact ⟨Nat.le_of_succ_le hle, hrest⟩

theorem Accounted.skipUntil (recovery : KindSet) (h : p.Accounted findings) :
    (p.skipUntil recovery).Accounted (findings ++ Finding.skips p.offset (p.skipUntil recovery).offset) :=
  (h.skipAtMost recovery _).2

end Parser

/-! ## Steps of the parser -/

/-- A step that does not fault adds to the findings what is given. -/
def Step.Accounts {α : Type} (x : Step Parser α) (found : Parser → List Finding) : Prop :=
  ∀ (p : Parser) (findings : List Finding), p.Accounted findings → (x.run p).1.isOk = true →
    (x.run p).2.Accounted (findings ++ found p)

theorem Step.Accounts.map {α β : Type} {x : Step Parser α} {found : Parser → List Finding} (hx : x.Accounts found)
    (f : α → β) : (x >>= fun a => pure (f a)).Accounts found := by
  intro p findings h hok
  rw [Step.run_bind] at hok ⊢
  have hx' := hx p findings h
  cases hr : x.run p with
  | mk outcome q =>
      rw [hr] at hok hx'
      cases outcome with
      | ok a => exact hx' rfl
      | error e => cases hok

namespace Parser

def demands (p : Parser) (kind : Kind) : List Finding := if p.isAt kind then [] else [.missing p.offset]

theorem advance_accounts : advance.Accounts fun _ => [] := by
  intro p findings h hok
  rw [List.append_nil]
  rw [run_advance] at hok ⊢
  by_cases heof : p.isAt .eof
  · rw [if_pos heof]
    exact h
  · rw [if_neg heof, run_bump] at hok ⊢
    have hlt := pos_lt_of_not_eof heof
    cases ht : p.nextToken with
    | error f =>
        rw [ht] at hok
        cases hok
    | ok t =>
        have hbump := h.bump hlt ht
        unfold Accounted
        rw [← slots_push, ← TokenBuffer.bump_pos hlt, ← body_bump] at hbump
        exact hbump

theorem missing_accounts (kind : Kind) : (missing kind).Accounts fun p => [.missing p.offset] := by
  intro p findings h hok
  rw [run_missing] at hok ⊢
  cases ht : p.missingToken kind with
  | error f =>
      rw [ht] at hok
      cases hok
  | ok t =>
      have hmissing := h.missing ht
      rw [← slots_push] at hmissing
      exact hmissing

theorem eat_accounts (kind : Kind) : (eat kind).Accounts fun _ => [] := by
  intro p findings h hok
  rw [run_eat] at hok ⊢
  split at hok
  · next hat =>
    rw [if_pos hat]
    exact advance_accounts.map (fun _ => true) _ _ h hok
  · next hat =>
    rw [if_neg hat, List.append_nil]
    exact h

theorem expect_accounts (kind : Kind) : (expect kind).Accounts (·.demands kind) := by
  intro p findings h hok
  show ((expect kind).run p).2.Accounted (findings ++ if p.isAt kind then [] else [.missing p.offset])
  rw [run_expect] at hok ⊢
  split at hok
  · next hat =>
    rw [if_pos hat, if_pos hat]
    exact advance_accounts.map (fun _ => true) _ _ h hok
  · next hat =>
    rw [if_neg hat, if_neg hat]
    exact (missing_accounts kind).map (fun _ => false) _ _ h hok

theorem require_accounts (kind : Kind) : (require kind).Accounts fun _ => [] := by
  intro p findings h hok
  rw [run_require] at hok ⊢
  split at hok
  · next hat =>
    rw [if_pos hat]
    exact advance_accounts.map (fun _ => Except.ok ()) _ _ h hok
  · next hat =>
    rw [if_neg hat, List.append_nil]
    exact h

theorem recover_accounts (expected : Kind) (recovery : KindSet) :
    (recover expected recovery).Accounts fun p =>
      Finding.skips p.offset (p.skipUntil recovery).offset ++ (p.skipUntil recovery).demands expected := by
  intro p findings h hok
  have hexpect := (expect_accounts expected).map (fun _ => ()) _ _ (h.skipUntil recovery) hok
  rw [List.append_assoc] at hexpect
  exact hexpect

theorem complete_accounts (m : Marker) (kind : Kind) : (m.complete kind).Accounts fun _ => [] := by
  intro p findings h hok
  rw [List.append_nil]
  rw [Marker.run_complete] at hok ⊢
  by_cases hm : m.position ≤ p.outputs.length
  · rw [if_pos hm] at hok ⊢
    cases hn : Node.make p.nextId kind ((p.outputs.drop m.position).map (·.slot)) with
    | error f =>
        rw [hn] at hok
        cases hok
    | ok n =>
        exact h.wrapped (Node.made_make (h.lossless.made_drop _) hn) (Node.leaves_make hn) (Node.silent_make hn)
          (Node.marks_make hn) (Node.extent_make hn)
  · rw [if_neg hm] at hok
    cases hok

theorem completeList_accounts (m : Marker) : m.completeList.Accounts fun _ => [] := by
  intro p findings h hok
  rw [List.append_nil]
  rw [Marker.run_completeList] at hok ⊢
  by_cases hm : m.position ≤ p.outputs.length
  · rw [if_pos hm] at hok ⊢
    cases hl : Node.makeList p.nextId ((p.outputs.drop m.position).map (·.slot)) with
    | error f =>
        rw [hl] at hok
        cases hok
    | ok list =>
        obtain ⟨hmarks, hextent, hsilent⟩ := Node.marks_makeList hl
        exact h.wrapped (Node.made_makeList (h.lossless.made_drop _) hl) (Node.leaves_makeList hl) hsilent hmarks
          hextent
  · rw [if_neg hm] at hok
    cases hok

end Parser

/-- A rewind to the checkpoint, if it is still possible, leads back to these findings. -/
structure Checkpoint.Accounts (c : Checkpoint) (findings : List Finding) (p : Parser) : Prop where
  stamp : c.stamp ≤ p.stamp
  accounted : p.canRewind c = true →
    LosslessSyntax.Accounted p.source.body ((p.outputs.take c.height).map (·.slot)) c.skipped c.snapshot findings

namespace Checkpoint.Accounts

variable {c : Checkpoint} {findings : List Finding} {p : Parser}

theorem ofParser (h : p.Accounted findings) : p.checkpoint.Accounts findings p := by
  refine ⟨Nat.le_refl _, fun _ => ?_⟩
  rw [show p.checkpoint.height = p.outputs.length from rfl, List.take_length]
  exact h

theorem after (h : c.Accounts findings p) (acts : List Act) : c.Accounts findings (p.after acts) := by
  refine ⟨Nat.le_trans h.stamp (p.stamp_le_after acts), fun hcan => ?_⟩
  obtain ⟨hkeeps, hcan⟩ := (Parser.canRewind_after acts h.stamp).1 hcan
  rw [Parser.source_after, Parser.take_outputs_after hkeeps]
  exact h.accounted hcan

theorem rewind (h : c.Accounts findings p) (hok : ((Parser.rewind c).run p).1.isOk = true) :
    ((Parser.rewind c).run p).2.Accounted findings := by
  obtain ⟨hcan, hrun⟩ := Parser.rewind_eq_ok hok
  rw [hrun]
  exact h.accounted hcan

end Checkpoint.Accounts

end LosslessSyntax
