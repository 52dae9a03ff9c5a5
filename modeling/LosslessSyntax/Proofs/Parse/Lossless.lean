import LosslessSyntax.Proofs.Fact.Leaves
import LosslessSyntax.Proofs.Parse.Rewind
import LosslessSyntax.Proofs.Parse.Runs

/-!
# No text is lost

At any time the text on the stack, followed by the skipped text that waits for the next token, is the text of
the tokens in front of the cursor. Wrapping only moves text to another place in the tree, a missing token
takes over the skipped text, and a rewind returns to a state in which this held.

* `Reads` : a text is that of lexed tokens, up to tokens that are read as skipped text;
* `Faithful` : the text of some output and of some skipped text is that of the first tokens of a buffer;
* `Checkpoint.Safe` : a rewind to the checkpoint would lead to a faithful state, if it is still possible;
* `Parser.LosslessWith.step` : what an act preserves, `Parser.Lossless.after` : what a run preserves;
* `Lexeme.endFrom` : where the tokens end, `Parser.skipUntil_empty_source` : skipping with no recovery leads there;
* `finish_reproduces_input` : a finished tree has the text of the whole input.
-/

set_option autoImplicit false

namespace LosslessSyntax

def Lexeme.extent (t : Lexeme) : Nat := Leaf.total (t.leading.map TriviaPiece.leaf) + t.width

def Lexeme.extents : List Lexeme → Nat
  | [] => 0
  | t :: rest => t.extent + extents rest

namespace Lexeme

theorem extents_append (ts us : List Lexeme) : extents (ts ++ us) = extents ts + extents us := by
  induction ts with
  | nil => exact (Nat.zero_add _).symm
  | cons t rest ih => rw [List.cons_append, extents, extents, ih, Nat.add_assoc]

theorem extents_take_mono (ts : List Lexeme) {m n : Nat} (h : m ≤ n) : extents (ts.take m) ≤ extents (ts.take n) := by
  have hsplit := extents_append ((ts.take n).take m) ((ts.take n).drop m)
  rw [List.take_append_drop, List.take_take, Nat.min_eq_left h] at hsplit
  omega

theorem extents_take_succ {ts : List Lexeme} {i : Nat} (h : i < ts.length) :
    extents (ts.take (i + 1)) = extents (ts.take i) + ts[i].extent := by
  rw [← List.take_append_getElem h, extents_append]
  rfl

end Lexeme

/-- The text `ls` is that of the tokens, except that any of them may be read as skipped text. -/
inductive Reads : List Lexeme → List Leaf → Prop
  | nil : Reads [] []
  | cons {t : Lexeme} {kind : Kind} {ts : List Lexeme} {ls : List Leaf}
      (hkind : kind = t.kind ∨ kind = .skippedTokens) (h : Reads ts ls) :
      Reads (t :: ts) (t.leading.map TriviaPiece.leaf ++ ⟨kind, t.width⟩ :: ls)

namespace Reads

theorem snoc {ts : List Lexeme} {ls : List Leaf} {t : Lexeme} {kind : Kind} (h : Reads ts ls)
    (hkind : kind = t.kind ∨ kind = .skippedTokens) :
    Reads (ts ++ [t]) (ls ++ (t.leading.map TriviaPiece.leaf ++ [⟨kind, t.width⟩])) := by
  induction h with
  | nil => exact .cons hkind .nil
  | @cons t' kind' ts ls hkind' h ih =>
      rw [List.cons_append, List.append_assoc, List.cons_append]
      exact .cons hkind' ih

theorem total {ts : List Lexeme} {ls : List Leaf} (h : Reads ts ls) : Leaf.total ls = Lexeme.extents ts := by
  induction h with
  | nil => rfl
  | cons hkind h ih => rw [Leaf.total_append, Leaf.total, ih, Lexeme.extents, Lexeme.extent, Nat.add_assoc]

end Reads

theorem TriviaPiece.sum_widths (pieces : List TriviaPiece) {start : Nat} (h : start < Size.limit) :
    Size.sum start (pieces.map (·.width)) = Size.ofNat (start + Leaf.total (pieces.map leaf)) := by
  induction pieces generalizing start with
  | nil => exact (Size.ofNat_eq_ok h).symm
  | cons p rest ih =>
      rw [List.map_cons, Size.sum, Size.add_eq_ofNat, List.map_cons, Leaf.total, ← Nat.add_assoc]
      show _ = Size.ofNat (start + p.width + _)
      by_cases hfits : start + p.width < Size.limit
      · rw [Size.ofNat_eq_ok hfits]
        exact ih hfits
      · rw [Size.ofNat, if_neg hfits, Size.ofNat, if_neg (by omega)]
        rfl

/-- The full width of a lexed token is computed right; it is a fault iff it does not fit. -/
theorem Lexeme.fullWidth_eq (t : Lexeme) : t.fullWidth = Size.ofNat t.extent := by
  unfold fullWidth leadingWidth
  rw [TriviaPiece.sum_widths _ (by decide), Nat.zero_add]
  exact Size.ofNat_bind _ t.width

/-- The output and the skipped text are made facts with the text of the first `pos` tokens of the body. -/
structure Faithful (body : List Lexeme) (output skipped : List Slot) (pos : Nat) : Prop where
  made : ∀ s ∈ output ++ skipped, s.Made
  reads : Reads (body.take pos) (Slot.leavesOf (output ++ skipped))
  pos_le : pos ≤ body.length

namespace Faithful

variable {body : List Lexeme} {output skipped : List Slot} {pos : Nat}

theorem start (body : List Lexeme) : Faithful body [] [] 0 :=
  ⟨fun _ hs => absurd hs List.not_mem_nil, .nil, Nat.zero_le _⟩

theorem extents_eq (h : Faithful body output skipped pos) :
    Slot.extents (output ++ skipped) = Lexeme.extents (body.take pos) := by
  rw [← h.reads.total]
  exact (Slot.total_leavesOf fun s hs => (h.made s hs).total_leaves).symm

/-- The same text in other facts. -/
theorem rearranged {output' skipped' : List Slot} (h : Faithful body output skipped pos)
    (hmade : ∀ s ∈ output' ++ skipped', s.Made)
    (hleaves : Slot.leavesOf (output' ++ skipped') = Slot.leavesOf (output ++ skipped)) :
    Faithful body output' skipped' pos :=
  ⟨hmade, by rw [hleaves]; exact h.reads, h.pos_le⟩

/-- The text of one more token. -/
theorem extended {output' skipped' : List Slot} (h : Faithful body output skipped pos) (hlt : pos < body.length)
    {kind : Kind} (hkind : kind = body[pos].kind ∨ kind = .skippedTokens)
    (hmade : ∀ s ∈ output' ++ skipped', s.Made)
    (hleaves : Slot.leavesOf (output' ++ skipped') = Slot.leavesOf (output ++ skipped) ++
      (body[pos].leading.map TriviaPiece.leaf ++ [⟨kind, body[pos].width⟩])) :
    Faithful body output' skipped' (pos + 1) := by
  refine ⟨hmade, ?_, hlt⟩
  rw [hleaves, ← List.take_append_getElem hlt]
  exact h.reads.snoc hkind

end Faithful

theorem TokenBuffer.current_eq {b : TokenBuffer} (h : b.pos < b.body.length) : b.current = b.body[b.pos] := by
  unfold current
  rw [List.getElem?_eq_getElem h]
  rfl

theorem TokenBuffer.tokens_getElem?_pos {b : TokenBuffer} (h : b.pos ≤ b.body.length) :
    b.tokens[b.pos]? = some b.current := by
  unfold tokens current
  rcases Nat.lt_or_eq_of_le h with hlt | heq
  · rw [List.getElem?_append_left hlt, List.getElem?_eq_getElem hlt]
    rfl
  · rw [heq, List.getElem?_append_right (Nat.le_refl _), Nat.sub_self, List.getElem?_eq_none (Nat.le_refl _)]
    rfl

theorem TokenBuffer.bump_pos {b : TokenBuffer} (h : b.pos < b.body.length) : b.bump.pos = b.pos + 1 := by
  unfold bump
  rw [if_pos h]

/-- A token that is not `EOF` is one of the body. -/
theorem Parser.pos_lt_of_not_eof {p : Parser} (h : ¬ p.isAt .eof = true) : p.source.pos < p.source.body.length := by
  refine Nat.lt_of_not_le fun hge => h ?_
  have hnone : p.source.body[p.source.pos]? = none := List.getElem?_eq_none hge
  unfold isAt peek TokenBuffer.current
  rw [hnone]
  rfl

namespace Parser

/-- The text on the stack and the skipped text are those of the tokens in front of the cursor. -/
def Lossless (p : Parser) : Prop := Faithful p.source.body p.slots p.skipped p.source.pos

/-- The token that `bump` puts on the stack has the skipped text and the text of the token under the cursor. -/
theorem nextToken_spec {p : Parser} {t : Token} (h : p.nextToken = .ok t) (hmade : ∀ s ∈ p.skipped, s.Made) :
    t.toSlot.Made ∧ t.leaves = Slot.leavesOf p.skipped ++
      (p.source.current.leading.map TriviaPiece.leaf ++ [⟨p.source.current.kind, p.source.current.width⟩]) := by
  obtain ⟨leading, hleading, ht⟩ := bind_eq_ok_iff.1 h
  constructor
  · refine Token.made_make (made_packTrivia ?_ hleading) ht
    intro s hs
    rcases List.mem_append.1 hs with hs | hs
    · exact hmade s hs
    · exact TriviaPiece.made_toSlots _ _ s hs
  · rw [Token.leaves_make ht, leaves_packTrivia hleading, Slot.leavesOf_append, TriviaPiece.leavesOf_toSlots,
      List.append_assoc]

/-- The token that `bump` puts on the stack is as wide as the skipped text and the token under the cursor. -/
theorem extent_nextToken {p : Parser} {t : Token} (h : p.nextToken = .ok t) (hmade : ∀ s ∈ p.skipped, s.Made) :
    t.toSlot.extent = Slot.extents p.skipped + p.source.current.extent := by
  obtain ⟨hmadeToken, hleaves⟩ := nextToken_spec h hmade
  rw [← hmadeToken.total_leaves, Token.leaves_toSlot, hleaves, Leaf.total_append, Leaf.total_append,
    Slot.total_leavesOf fun s hs => (hmade s hs).total_leaves]
  rfl

theorem nextToken_head {p : Parser} {t : Token} (h : p.nextToken = .ok t) :
    t.kind = p.source.current.kind ∧ t.width = p.source.current.width ∧ t.isMissing = false := by
  obtain ⟨leading, -, ht⟩ := bind_eq_ok_iff.1 h
  obtain ⟨-, rfl⟩ := Token.assembleChecked_eq_ok_iff.1 ht
  exact ⟨rfl, rfl, Token.isMissing_assemble _ _ _ _ _ _⟩

/-- The token that `missing` puts on the stack has the skipped text alone. -/
theorem missingToken_spec {p : Parser} {kind : Kind} {t : Token} (h : p.missingToken kind = .ok t)
    (hmade : ∀ s ∈ p.skipped, s.Made) : t.toSlot.Made ∧ t.leaves = Slot.leavesOf p.skipped := by
  obtain ⟨leading, hleading, ht⟩ := bind_eq_ok_iff.1 h
  exact ⟨Token.made_makeMissing (made_packTrivia hmade hleading) ht,
    (Token.leaves_makeMissing ht).trans (leaves_packTrivia hleading)⟩

variable {p : Parser}

theorem Lossless.made_slots (h : p.Lossless) : ∀ s ∈ p.slots, s.Made :=
  fun s hs => h.made s (List.mem_append_left _ hs)

theorem Lossless.made_skipped (h : p.Lossless) : ∀ s ∈ p.skipped, s.Made :=
  fun s hs => h.made s (List.mem_append_right _ hs)

theorem made_snoc {ss : List Slot} {s : Slot} (h : ∀ t ∈ ss, t.Made) (hs : s.Made) : ∀ t ∈ ss ++ [s], t.Made := by
  intro t ht
  rcases List.mem_append.1 ht with ht | ht
  · exact h t ht
  · rw [List.mem_singleton.1 ht]
    exact hs

theorem Lossless.absent (h : p.Lossless) :
    Faithful p.source.body (p.slots ++ [.absent]) p.skipped p.source.pos := by
  refine h.rearranged ?_ ?_
  · intro s hs
    rcases List.mem_append.1 hs with hs | hs
    · exact made_snoc h.made_slots .absent s hs
    · exact h.made_skipped s hs
  · simp only [Slot.leavesOf_append, Slot.leavesOf_cons, Slot.leavesOf_nil, Slot.leaves, List.append_nil]

theorem Lossless.missing {kind : Kind} {t : Token} (h : p.Lossless) (ht : p.missingToken kind = .ok t) :
    Faithful p.source.body (p.slots ++ [t.toSlot]) [] p.source.pos := by
  obtain ⟨hmade, hleaves⟩ := missingToken_spec ht h.made_skipped
  refine h.rearranged ?_ ?_
  · rw [List.append_nil]
    exact made_snoc h.made_slots hmade
  · simp only [Slot.leavesOf_append, Slot.leavesOf_cons, Slot.leavesOf_nil, List.append_nil, Token.leaves_toSlot,
      hleaves]

theorem Lossless.bump {t : Token} (h : p.Lossless) (hlt : p.source.pos < p.source.body.length)
    (ht : p.nextToken = .ok t) : Faithful p.source.body (p.slots ++ [t.toSlot]) [] (p.source.pos + 1) := by
  obtain ⟨hmade, hleaves⟩ := nextToken_spec ht h.made_skipped
  rw [TokenBuffer.current_eq hlt] at hleaves
  refine h.extended hlt (.inl rfl) ?_ ?_
  · rw [List.append_nil]
    exact made_snoc h.made_slots hmade
  · simp only [Slot.leavesOf_append, Slot.leavesOf_cons, Slot.leavesOf_nil, List.append_nil, Token.leaves_toSlot,
      hleaves, List.append_assoc]

theorem Lossless.skip (h : p.Lossless) : p.skip.Lossless := by
  unfold Parser.skip
  split
  · exact h
  · next heof =>
    have hlt := pos_lt_of_not_eof heof
    unfold Lossless
    simp only [TokenBuffer.current_eq hlt, TokenBuffer.bump_pos hlt]
    rw [show p.source.bump.body = p.source.body by unfold TokenBuffer.bump; split <;> rfl]
    refine h.extended hlt (.inr rfl) ?_ ?_
    · intro s hs
      rcases List.mem_append.1 hs with hs | hs
      · exact h.made_slots s hs
      · refine made_snoc (fun s hs => ?_) (Token.made_bare _ _ _ _) s hs
        rcases List.mem_append.1 hs with hs | hs
        · exact h.made_skipped s hs
        · exact TriviaPiece.made_toSlots _ _ s hs
    · simp only [Slot.leavesOf_append, Slot.leavesOf_cons, Slot.leavesOf_nil, TriviaPiece.leavesOf_toSlots,
        Token.leaves_toSlot, List.append_assoc, List.append_nil]
      rfl

/-- Wrapping the output above a marker leaves the text where it was. -/
theorem Lossless.wrap {s : Slot} {n : Nat} (h : p.Lossless) (hs : s.Made)
    (hleaves : s.leaves = Slot.leavesOf (p.slots.drop n)) :
    Faithful p.source.body (p.slots.take n ++ [s]) p.skipped p.source.pos := by
  refine h.rearranged ?_ ?_
  · intro t ht
    rcases List.mem_append.1 ht with ht | ht
    · exact made_snoc (fun u hu => h.made_slots u (List.mem_of_mem_take hu)) hs t ht
    · exact h.made_skipped t ht
  · have hsplit : Slot.leavesOf p.slots = Slot.leavesOf (p.slots.take n) ++ Slot.leavesOf (p.slots.drop n) := by
      rw [← Slot.leavesOf_append, List.take_append_drop]
    simp only [Slot.leavesOf_append, Slot.leavesOf_cons, Slot.leavesOf_nil, List.append_nil, hleaves, hsplit]

theorem body_bump (b : TokenBuffer) : b.bump.body = b.body := by
  unfold TokenBuffer.bump
  split <;> rfl

theorem Lossless.of_faithful {q : Parser} {output skipped : List Slot} {pos : Nat}
    (h : Faithful p.source.body output skipped pos) (hbody : q.source.body = p.source.body)
    (hslots : q.slots = output) (hskipped : q.skipped = skipped) (hpos : q.source.pos = pos) : q.Lossless := by
  unfold Lossless
  rw [hbody, hslots, hskipped, hpos]
  exact h

theorem Lossless.advance (h : p.Lossless) (hok : (advance.run p).1 = .ok ()) : (Parser.advance.run p).2.Lossless := by
  rw [run_advance] at hok ⊢
  by_cases heof : p.isAt .eof
  · rw [if_pos heof]
    exact h
  · rw [if_neg heof, run_bump] at hok ⊢
    have hlt := pos_lt_of_not_eof heof
    cases ht : p.nextToken with
    | error f =>
        rw [ht] at hok
        cases hok
    | ok t =>
        exact .of_faithful (h.bump hlt ht) (body_bump _) (slots_push p t.toSlot) rfl (TokenBuffer.bump_pos hlt)

theorem Lossless.wrapped {s : Slot} {n id : Nat} (h : p.Lossless) (hs : s.Made)
    (hleaves : s.leaves = Slot.leavesOf ((p.outputs.drop n).map (·.slot))) :
    ({ p with outputs := p.outputs.take n, nextId := id }.push s).Lossless := by
  rw [List.map_drop] at hleaves
  refine .of_faithful (h.wrap hs hleaves) rfl ?_ rfl rfl
  rw [slots_push]
  unfold slots
  rw [List.map_take]

theorem Lossless.made_drop (h : p.Lossless) (n : Nat) : ∀ s ∈ (p.outputs.drop n).map (·.slot), s.Made := by
  intro s hs
  rw [List.map_drop] at hs
  exact h.made_slots s (List.mem_of_mem_drop hs)

/-- An act other than a rewind that does not fault loses no text. -/
theorem Lossless.step {a : Act} (h : p.Lossless) (hrewind : ∀ c, a ≠ .rewind c) (hok : a.outcome p = .ok ()) :
    (a.step p).Lossless := by
  cases a with
  | advance => exact h.advance hok
  | missing kind =>
      replace hok : ((Parser.missing kind).run p).1 = .ok () := hok
      show ((Parser.missing kind).run p).2.Lossless
      rw [run_missing] at hok ⊢
      cases ht : p.missingToken kind with
      | error f =>
          rw [ht] at hok
          cases hok
      | ok t => exact .of_faithful (h.missing ht) rfl (slots_push p t.toSlot) rfl rfl
  | absent => exact .of_faithful h.absent rfl (slots_push p .absent) rfl rfl
  | skip => exact h.skip
  | complete m kind =>
      replace hok : ((m.complete kind >>= fun _ => pure ()).run p).1 = .ok () := hok
      show ((m.complete kind >>= fun _ => pure ()).run p).2.Lossless
      rw [Step.run_bind, Marker.run_complete] at hok ⊢
      by_cases hm : m.position ≤ p.outputs.length
      · rw [if_pos hm] at hok ⊢
        cases hn : Node.make p.nextId kind ((p.outputs.drop m.position).map (·.slot)) with
        | error f =>
            rw [hn] at hok
            cases hok
        | ok n => exact h.wrapped (Node.made_make (h.made_drop _) hn) (Node.leaves_make hn)
      · rw [if_neg hm] at hok
        cases hok
  | completeList m =>
      replace hok : ((m.completeList >>= fun _ => pure ()).run p).1 = .ok () := hok
      show ((m.completeList >>= fun _ => pure ()).run p).2.Lossless
      rw [Step.run_bind, Marker.run_completeList] at hok ⊢
      by_cases hm : m.position ≤ p.outputs.length
      · rw [if_pos hm] at hok ⊢
        cases hl : Node.makeList p.nextId ((p.outputs.drop m.position).map (·.slot)) with
        | error f =>
            rw [hl] at hok
            cases hok
        | ok list => exact h.wrapped (Node.made_makeList (h.made_drop _) hl) (Node.leaves_makeList hl)
      · rw [if_neg hm] at hok
        cases hok
  | checkpoint => exact h
  | rewind c => exact absurd rfl (hrewind c)
  | inContext c => exact h

end Parser

/-- A rewind to the checkpoint, if it is still possible, leads to a state without loss. -/
structure Checkpoint.Safe (c : Checkpoint) (p : Parser) : Prop where
  stamp : c.stamp ≤ p.stamp
  faithful : p.canRewind c = true →
    Faithful p.source.body ((p.outputs.take c.height).map (·.slot)) c.skipped c.snapshot

namespace Checkpoint.Safe

variable {c : Checkpoint} {p : Parser}

theorem ofParser (h : p.Lossless) : p.checkpoint.Safe p := by
  refine ⟨Nat.le_refl _, fun _ => ?_⟩
  rw [show p.checkpoint.height = p.outputs.length from rfl, List.take_length]
  exact h

theorem step (h : c.Safe p) (a : Act) : c.Safe (a.step p) := by
  have hr := a.rebuilt_step p
  refine ⟨Nat.le_trans h.stamp hr.stamp, fun hcan => ?_⟩
  obtain ⟨hheight, hcan⟩ := (Parser.canRewind_step a h.stamp).1 hcan
  rw [hr.source, hr.take_outputs (a.spares_le p) hheight]
  exact h.faithful hcan

theorem rewind (h : c.Safe p) (hok : (Act.rewind c).outcome p = .ok ()) : ((Act.rewind c).step p).Lossless := by
  replace hok : ((Parser.rewind c).run p).1 = .ok () := hok
  show ((Parser.rewind c).run p).2.Lossless
  obtain ⟨hcan, hrun⟩ := Parser.rewind_eq_ok (by rw [hok]; rfl)
  rw [hrun]
  exact h.faithful hcan

end Checkpoint.Safe

namespace Parser

/-- No text is lost, and none will be by a rewind to one of the checkpoints. -/
def LosslessWith (cs : List Checkpoint) (p : Parser) : Prop := p.Lossless ∧ ∀ c ∈ cs, c.Safe p

theorem LosslessWith.step {cs : List Checkpoint} {p : Parser} (a : Act) (h : p.LosslessWith cs) (hown : a.Own cs)
    (hok : a.outcome p = .ok ()) : (a.step p).LosslessWith (a.noting p cs) := by
  constructor
  · by_cases hrewind : ∃ c, a = .rewind c
    · obtain ⟨c, rfl⟩ := hrewind
      exact (h.2 c hown).rewind hok
    · exact h.1.step (fun c hc => hrewind ⟨c, hc⟩) hok
  · intro c hc
    refine Checkpoint.Safe.step ?_ a
    cases a with
    | checkpoint =>
        rcases List.mem_cons.1 hc with rfl | hc
        · exact .ofParser h.1
        · exact h.2 c hc
    | _ => exact h.2 c hc

theorem body_ofTokens (tokens : List Lexeme) : (ofTokens tokens).source.pos = 0 := by
  show (TokenBuffer.ofTokens tokens).pos = 0
  unfold TokenBuffer.ofTokens
  split
  · split <;> rfl
  · rfl

theorem lossless_ofTokens (tokens : List Lexeme) : (ofTokens tokens).Lossless := by
  unfold Lossless
  rw [body_ofTokens]
  exact Faithful.start _

/-- A run without faults that stays with its own checkpoints loses no text. -/
theorem Lossless.after {p : Parser} {acts : List Act} (h : p.Lossless) (hown : p.Own [] acts)
    (hsmooth : p.Smooth acts) :
    (p.after acts).Lossless :=
  (run_invariant (I := fun cs p => p.LosslessWith cs) (fun _ _ a h hown hok => h.step a hown hok) hown hsmooth
    ⟨h, fun _ hc => absurd hc List.not_mem_nil⟩).1

theorem Lossless.skipUntil {p : Parser} (h : p.Lossless) (recovery : KindSet) : (p.skipUntil recovery).Lossless := by
  obtain ⟨acts, hafter, hown, hsmooth⟩ := skipUntil_madeOfActs recovery p
  have heq : p.skipUntil recovery = p.after acts := hafter
  rw [heq]
  exact h.after (hown []) (hsmooth rfl)

/-! ## The end of the input -/

end Parser

namespace Lexeme

/-- The place of the first `EOF` from `pos` on, and if there is none, the end of the tokens. -/
def endFrom (input : List Lexeme) (pos : Nat) : Nat := pos + (input.drop pos).findIdx (·.kind == .eof)

variable {input : List Lexeme} {pos : Nat}

theorem endFrom_of_length_le (h : input.length ≤ pos) : endFrom input pos = pos := by
  unfold endFrom
  rw [List.drop_eq_nil_of_le h, List.findIdx_nil, Nat.add_zero]

theorem endFrom_of_eof (h : pos < input.length) (heof : input[pos].kind = .eof) : endFrom input pos = pos := by
  unfold endFrom
  rw [List.drop_eq_getElem_cons h, List.findIdx_cons, beq_iff_eq.2 heof, cond_true, Nat.add_zero]

theorem endFrom_of_ne_eof (h : pos < input.length) (hne : input[pos].kind ≠ .eof) :
    endFrom input pos = endFrom input (pos + 1) := by
  unfold endFrom
  rw [List.drop_eq_getElem_cons h, List.findIdx_cons, beq_eq_false_iff_ne.2 hne, cond_false]
  omega

theorem endFrom_eq_length (h : ∀ t ∈ input, t.kind ≠ .eof) (hpos : pos ≤ input.length) :
    endFrom input pos = input.length := by
  have hnone : (input.drop pos).findIdx (·.kind == .eof) = (input.drop pos).length := by
    rw [List.findIdx_eq_length]
    exact fun t ht => beq_eq_false_iff_ne.2 (h t (List.mem_of_mem_drop ht))
  unfold endFrom
  rw [hnone, List.length_drop]
  omega

end Lexeme

namespace Parser

theorem skip_source (p : Parser) (h : ¬ p.isAt .eof = true) : p.skip.source = p.source.bump := by
  unfold skip
  rw [if_neg h]

theorem isAt_eq {p : Parser} (hlt : p.source.pos < p.source.body.length) (kind : Kind) :
    p.isAt kind = (p.source.body[p.source.pos].kind == kind) := by
  unfold isAt peek
  rw [TokenBuffer.current_eq hlt]

/-- Skipping with no recovery ends where the input does. By induction on what remains of the body: either the token
under the cursor is the first `EOF`, or the rest of the loop starts behind it. -/
theorem skipAtMost_empty_source (n : Nat) (p : Parser) (hn : p.source.remaining = n) :
    (skipAtMost .empty n p).source =
      { p.source with pos := Lexeme.endFrom p.source.body p.source.pos } := by
  unfold TokenBuffer.remaining at hn
  induction n generalizing p with
  | zero => rw [skipAtMost, Lexeme.endFrom_of_length_le (by omega)]
  | succ n ih =>
      have hlt : p.source.pos < p.source.body.length := by omega
      have hempty : p.isAtAny .empty = false := KindSet.contains_empty p.peek
      rw [skipAtMost, hempty, Bool.or_false]
      by_cases heof : p.isAt .eof = true
      · have hkind := (isAt_eq hlt .eof).symm.trans heof
        rw [if_pos heof, Lexeme.endFrom_of_eof hlt (beq_iff_eq.1 hkind)]
      · have hkind := (isAt_eq hlt .eof).symm.trans (Bool.eq_false_iff.2 heof)
        have hsource := skip_source p heof
        have hpos := TokenBuffer.bump_pos hlt
        have hn' : p.skip.source.body.length - p.skip.source.pos = n := by
          rw [hsource, body_bump, hpos]
          omega
        rw [if_neg heof, ih p.skip hn', hsource, body_bump, hpos,
          Lexeme.endFrom_of_ne_eof hlt (beq_eq_false_iff_ne.1 hkind)]
        unfold TokenBuffer.bump
        rw [if_pos hlt]

theorem skipUntil_empty_source (p : Parser) :
    (p.skipUntil .empty).source = { p.source with pos := Lexeme.endFrom p.source.body p.source.pos } :=
  skipAtMost_empty_source p.source.remaining p rfl

/-- A root is what `finish` makes of all the output and the last token. -/
theorem finish_eq_ok {kind : Kind} {p q : Parser} {root : Node} (h : (finish kind).run p = (.ok root, q)) :
    ∃ t id, (p.skipUntil .empty).nextToken = .ok t ∧
      Node.make id kind ((p.skipUntil .empty).slots ++ [t.toSlot]) = .ok root := by
  have hroot := outcome_finish kind p
  rw [h] at hroot
  obtain ⟨t, ht, hmake⟩ := bind_eq_ok_iff.1 hroot.symm
  exact ⟨t, _, ht, hmake⟩

end Parser

theorem Slot.lastTokenIn_snoc (ss : List Slot) (t : Token) : lastTokenIn? (ss ++ [t.toSlot]) = some t := by
  induction ss with
  | nil => rfl
  | cons s rest ih => rw [List.cons_append, lastTokenIn?, ih]

theorem Lexeme.extent_le_extents {ts : List Lexeme} {t : Lexeme} (h : t ∈ ts) : t.extent ≤ extents ts := by
  induction ts with
  | nil => cases h
  | cons u rest ih =>
      rw [extents]
      rcases List.mem_cons.1 h with rfl | h
      · exact Nat.le_add_right _ _
      · exact Nat.le_trans (ih h) (Nat.le_add_left _ _)

namespace Parser

theorem current_at_end (b : TokenBuffer) : ({ b with pos := b.body.length } : TokenBuffer).current = b.eof := by
  unfold TokenBuffer.current
  rw [List.getElem?_eq_none (Nat.le_refl _)]
  rfl

/-- The root that `finish` returns has the text of all the tokens, and ends in the `EOF` token. -/
theorem Lossless.finish {p q : Parser} {kind : Kind} {root : Node} (h : p.Lossless)
    (hbody : ∀ t ∈ p.source.body, t.kind ≠ .eof) (hfinish : (finish kind).run p = (.ok root, q)) :
    root.toSlot.Made ∧ Reads p.source.tokens root.toSlot.leaves ∧
      ∃ last, root.toSlot.lastToken? = some last ∧ last.kind = .eof ∧ last.width = p.source.eofWidth ∧
        last.isMissing = false := by
  obtain ⟨t, id, ht, hroot⟩ := finish_eq_ok hfinish
  have hskipped := h.skipUntil .empty
  have hsource : (p.skipUntil .empty).source = { p.source with pos := p.source.body.length } := by
    rw [skipUntil_empty_source, Lexeme.endFrom_eq_length hbody h.pos_le]
  have hcurrent : (p.skipUntil .empty).source.current = p.source.eof := by
    rw [hsource]
    exact current_at_end p.source
  obtain ⟨hmade, hleaves⟩ := nextToken_spec ht hskipped.made_skipped
  obtain ⟨hkind, hwidth, hpresent⟩ := nextToken_head ht
  rw [hcurrent] at hleaves hkind hwidth
  refine ⟨Node.made_make (made_snoc hskipped.made_slots hmade) hroot, ?_, t, ?_, hkind, hwidth, hpresent⟩
  · have hreads := hskipped.reads
    rw [hsource] at hreads
    rw [show List.take p.source.body.length p.source.body = p.source.body from List.take_length] at hreads
    have hall := hreads.snoc (t := p.source.eof) (.inl rfl)
    rw [Node.leaves_make hroot, Slot.leavesOf_append, Slot.leavesOf_cons, Slot.leavesOf_nil, List.append_nil,
      Token.leaves_toSlot, hleaves, ← List.append_assoc, ← Slot.leavesOf_append]
    exact hall
  · show Slot.lastTokenIn? root.slots = some t
    rw [Node.slots_make hroot]
    exact Slot.lastTokenIn_snoc _ t

end Parser

theorem TokenBuffer.body_ne_eof {tokens : List Lexeme} (h : ∀ t ∈ tokens.dropLast, t.kind ≠ .eof) :
    ∀ t ∈ (ofTokens tokens).body, t.kind ≠ .eof := by
  unfold ofTokens
  cases hlast : tokens.getLast? with
  | none => exact fun t ht => absurd ht List.not_mem_nil
  | some last =>
      dsimp only
      split
      · exact h
      · next hne =>
        obtain ⟨front, rfl⟩ := List.getLast?_eq_some_iff.1 hlast
        rw [List.dropLast_concat] at h
        intro t ht
        rw [List.mem_append, List.mem_singleton] at ht
        rcases ht with ht | rfl
        · exact h t ht
        · exact hne

/-- **No text is lost.** A script of calls that nowhere faults and rewinds only to checkpoints of its own
parser may do what it likes: the finished tree has the text of the whole input, with some tokens read as
skipped text, its width is that of the input, and its last token is the `EOF` token of the buffer. -/
theorem finish_reproduces_input (tokens : List Lexeme) (script : List Command) (kind : Kind)
    (heof : ∀ t ∈ tokens.dropLast, t.kind ≠ .eof) (hown : Command.foreignOf script = [])
    {lines : List Line} {s : Session} {failure : Option Mismatch} {root : Node} {q : Parser}
    (hrun : Command.runAll script { parser := .ofTokens tokens } = (lines, s, failure))
    (hquiet : Line.eachOf Reply.isQuiet lines = true) (hfinish : (Parser.finish kind).run s.parser = (.ok root, q)) :
    let buffer := TokenBuffer.ofTokens tokens
    Reads buffer.tokens (root.toSlot.tokens.flatMap Token.leaves) ∧
      (∀ t ∈ buffer.tokens, t.fullWidth = .ok t.extent) ∧
      root.fullWidth = Lexeme.extents buffer.tokens ∧
      ∃ last, root.toSlot.lastToken? = some last ∧ last.kind = .eof ∧ last.width = buffer.eofWidth ∧
        last.isMissing = false := by
  intro buffer
  have hlossless : s.parser.Lossless ∧ s.parser.source = { buffer with pos := s.parser.source.pos } := by
    have hleads := Command.runAll_leads [] script { parser := .ofTokens tokens }
      (by rw [hown]; exact List.Subset.refl _)
    rw [hrun] at hleads
    obtain ⟨acts, hafter, hownActs, hsmooth, -⟩ := hleads.acts [] (List.Subset.refl _) (List.Subset.refl _)
    rw [show s.parser = (Parser.ofTokens tokens).after acts from hafter]
    exact ⟨(Parser.lossless_ofTokens tokens).after hownActs (hsmooth hquiet), Parser.source_after _ acts⟩
  obtain ⟨hlossless, hsource⟩ := hlossless
  have hbody : ∀ t ∈ s.parser.source.body, t.kind ≠ .eof := by
    rw [hsource]
    exact TokenBuffer.body_ne_eof heof
  obtain ⟨hmade, hreads, hlast⟩ := hlossless.finish hbody hfinish
  rw [hsource] at hreads hlast
  have hwidth := Slot.Made.node_width hmade
  have hsum : Slot.extents root.slots = Lexeme.extents buffer.tokens :=
    (hmade.total_leaves).symm.trans hreads.total
  rw [hsum] at hwidth
  rw [← Slot.leaves_eq_tokens]
  refine ⟨hreads, fun t ht => ?_, hwidth.1, hlast⟩
  rw [Lexeme.fullWidth_eq]
  exact Size.ofNat_eq_ok (Nat.lt_of_le_of_lt (Lexeme.extent_le_extents ht) hwidth.2)

/-- A script that skips text, takes back a speculation, rewinds, and wraps what it has into a statement. -/
def wanderingScript : List Command :=
  [.call .start, .call .advance, .call .checkpoint,
    .speculate [.call .skip, .call .advance, .attempt .comma] false,
    .call .skip, .call (.rewind 0), .call .skip, .call (.missing .eq), .call (.complete 0 .valStmt)]

/-- Three lexed tokens with trivia, one of which fits nowhere. -/
def strayTokens : List Lexeme :=
  [⟨.valKw, 3, []⟩, ⟨.unknown, 1, [⟨.whitespace, 1⟩]⟩, ⟨.name, 2, [⟨.newline, 1⟩, ⟨.whitespace, 4⟩]⟩]

theorem exists_finish_wanderingScript :
    ∃ (lines : List Line) (s : Session) (failure : Option Mismatch) (root : Node) (q : Parser),
      Command.runAll wanderingScript { parser := .ofTokens strayTokens } = (lines, s, failure) ∧
      Line.eachOf Reply.isQuiet lines = true ∧ (Parser.finish .module).run s.parser = (.ok root, q) := by
  have hquiet : Line.eachOf Reply.isQuiet
      (Command.runAll wanderingScript { parser := .ofTokens strayTokens }).1 = true := by decide +kernel
  have hok : ((Parser.finish .module).run
      (Command.runAll wanderingScript { parser := .ofTokens strayTokens }).2.1.parser).1.isOk = true := by
    decide +kernel
  rcases hrun : Command.runAll wanderingScript { parser := .ofTokens strayTokens } with ⟨lines, s, failure⟩
  rw [hrun] at hquiet hok
  rcases hfinish : (Parser.finish .module).run s.parser with ⟨_ | root, q⟩
  · rw [hfinish] at hok
    exact absurd hok Bool.false_ne_true
  · exact ⟨lines, s, failure, root, q, rfl, hquiet, hfinish⟩

theorem finish_wanderingScript :
    ∃ (lines : List Line) (s : Session) (failure : Option Mismatch) (root : Node) (q : Parser),
      Command.runAll wanderingScript { parser := .ofTokens strayTokens } = (lines, s, failure) ∧
      Line.eachOf Reply.isQuiet lines = true ∧ (Parser.finish .module).run s.parser = (.ok root, q) ∧
      Reads (TokenBuffer.ofTokens strayTokens).tokens (root.toSlot.tokens.flatMap Token.leaves) ∧
      root.fullWidth = 12 := by
  obtain ⟨lines, s, failure, root, q, hrun, hquiet, hfinish⟩ := exists_finish_wanderingScript
  obtain ⟨hreads, -, hwidth, -⟩ := finish_reproduces_input strayTokens wanderingScript .module
    (by decide) rfl hrun hquiet hfinish
  exact ⟨lines, s, failure, root, q, hrun, hquiet, hfinish, hreads, hwidth⟩

end LosslessSyntax
