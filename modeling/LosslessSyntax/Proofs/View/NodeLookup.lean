import LosslessSyntax.Proofs.View.Places
import LosslessSyntax.View.Lookup

/-!
# The way down to a node around a span

At each node on its way, the lookup of a node chooses one slot and goes down if it holds a node around the span. For an
empty span it first looks at the slots without width in front of the one over the offset: a node there stands at the
start of that slot. It is chosen even if the offset lies behind that start, and then the way down ends.

* `Slot.Shadowed` : a node without width stands in front of the slot, with nothing between;
* `Slot.Choice` : the slot in which the lookup goes on; `NodeRef.exists_choice` : there is always a choice;
* `Slot.Descends` : the way down along the chosen slots;
* `SyntaxTree.ShowsAround` : the child around a span; `Linked.run_nodeAt` : the lookup goes that way down;
* `nodeAt_encloses_iff` : the node found for an empty span lies in those around it up to the first shadowed one.
-/

set_option autoImplicit false

namespace LosslessSyntax

namespace Slot

/-! ## The choice of a slot -/

/-- The slot `j` holds a node without width, and up to the slot `n` there is no text. -/
def Blocks (s : Slot) (j n : Nat) : Prop :=
  j < n ∧ (s.along [j]).isNode = true ∧ ∀ k, j ≤ k → k < n → (s.along [k]).extent = 0

theorem blocks_succ {s : Slot} {j n : Nat} :
    s.Blocks j (n + 1) ↔ (s.along [n]).extent = 0 ∧ (s.Blocks j n ∨ j = n ∧ (s.along [n]).isNode = true) := by
  constructor
  · rintro ⟨hlt, hnode, hblank⟩
    refine ⟨hblank n (Nat.le_of_lt_succ hlt) (Nat.lt_succ_self n), ?_⟩
    rcases Nat.lt_succ_iff_lt_or_eq.1 hlt with hlt | rfl
    · exact .inl ⟨hlt, hnode, fun k hjk hkn => hblank k hjk (Nat.lt_succ_of_lt hkn)⟩
    · exact .inr ⟨rfl, hnode⟩
  · rintro ⟨hlast, ⟨hlt, hnode, hblank⟩ | ⟨rfl, hnode⟩⟩
    · refine ⟨Nat.lt_succ_of_lt hlt, hnode, fun k hjk hkn => ?_⟩
      rcases Nat.lt_succ_iff_lt_or_eq.1 hkn with hkn | rfl
      · exact hblank k hjk hkn
      · exact hlast
    · refine ⟨Nat.lt_succ_self _, hnode, fun k hjk hkn => ?_⟩
      rwa [show k = j by omega]

/-- A node without width stands in front of the slot, and nothing with text between. -/
def Shadowed (s : Slot) (i : Nat) : Prop := ∃ j, s.Blocks j i

/-- The slot over an offset inside the fact, or the end of the slots. -/
def NextTo (s : Slot) (offset n : Nat) : Prop :=
  (n < s.count ∧ s.offsetAlong [n] ≤ offset ∧ offset < s.offsetAlong [n] + (s.along [n]).extent) ∨
    (n = s.count ∧ offset = s.extent)

def lastPresentSlot? (s : Slot) : Option Nat := (s.slots.zipIdx.reverse.find? fun (c, _) => c.isPresent).map (·.2)

/-- The slot in which a lookup goes on. -/
inductive Choice (s : Slot) (offset : Nat) (spanIsEmpty : Bool) : Option Nat → Prop
  /-- The first one that blocks the next slot. -/
  | blocked {n j : Nat} (hspan : spanIsEmpty = true) (hnext : s.NextTo offset n) (hblocks : s.Blocks j n)
      (hfirst : ∀ k, s.Blocks k n → j ≤ k) : Choice s offset spanIsEmpty (some j)
  | next {n : Nat} (hnext : s.NextTo offset n) (hfree : spanIsEmpty = true → ¬ s.Shadowed n) (hlt : n < s.count) :
      Choice s offset spanIsEmpty (some n)
  | last {n : Nat} (hnext : s.NextTo offset n) (hfree : spanIsEmpty = true → ¬ s.Shadowed n) (hend : n = s.count) :
      Choice s offset spanIsEmpty s.lastPresentSlot?

/-! ## Nodes around an offset -/

/-- The node at the end of the path has text on both sides of the offset, where the fact starts at `start`. -/
def StrictlyAround (s : Slot) (start offset : Nat) (path : List Nat) : Prop :=
  (s.along path).isNode = true ∧ (s.rangeAlong start path).start < offset ∧ offset < (s.rangeAlong start path).stop

/-- None of the slots on the way along the path is shadowed. -/
def Unshadowed (s : Slot) : List Nat → Prop
  | [] => True
  | i :: rest => ¬ s.Shadowed i ∧ (s.along [i]).Unshadowed rest

theorem StrictlyAround.below {s : Slot} {start offset i : Nat} {rest : List Nat}
    (h : s.StrictlyAround start offset (i :: rest)) :
    (s.along [i]).StrictlyAround (start + s.offsetAlong [i]) offset rest := by
  have hrange := rangeAlong_append s start [i] rest
  unfold StrictlyAround at *
  rw [← hrange]
  exact h

theorem StrictlyAround.above {s : Slot} {start offset : Nat} {path : List Nat}
    (h : s.StrictlyAround start offset path) : s.StrictlyAround start offset [] := by
  obtain ⟨hnode, hstart, hstop⟩ := h
  have hle := s.extent_along_le path
  replace hstart : start + s.offsetAlong path < offset := hstart
  replace hstop : offset < start + s.offsetAlong path + (s.along path).extent := hstop
  refine ⟨isNode_of_along hnode, ?_, ?_⟩
  · show start + 0 < offset
    omega
  · show offset < start + 0 + s.extent
    omega

theorem NextTo.eq {s : Slot} {offset n i : Nat} (h : s.NextTo offset n) (hstart : s.offsetAlong [i] ≤ offset)
    (hstop : offset < s.offsetAlong [i] + (s.along [i]).extent) : n = i := by
  have hle := s.extent_along_le [i]
  rcases h with ⟨-, hfrom, hto⟩ | ⟨-, hend⟩
  · rcases Nat.lt_trichotomy n i with hlt | heq | hlt
    · have hmono := s.offsetAlong_mono hlt
      omega
    · exact heq
    · have hmono := s.offsetAlong_mono hlt
      omega
  · omega

/-- Where the offset lies strictly inside a slot, that slot is chosen for the empty span, or one in front of it if it is
shadowed. -/
theorem Choice.of_inside {s : Slot} {offset i : Nat} {choice : Option Nat} (h : s.Choice offset true choice)
    (hstart : s.offsetAlong [i] < offset) (hstop : offset < s.offsetAlong [i] + (s.along [i]).extent) :
    choice = some i ∧ ¬ s.Shadowed i ∨
      s.Shadowed i ∧ ∃ j, choice = some j ∧ s.offsetAlong [j] + (s.along [j]).extent < offset := by
  have hle := s.extent_along_le [i]
  cases h with
  | @blocked n j _ hn hblocks _ =>
      obtain rfl := hn.eq (Nat.le_of_lt hstart) hstop
      have hmono := s.offsetAlong_mono hblocks.1
      exact .inr ⟨⟨j, hblocks⟩, j, rfl, by omega⟩
  | @next n hn hfree hlt =>
      obtain rfl := hn.eq (Nat.le_of_lt hstart) hstop
      exact .inl ⟨rfl, hfree rfl⟩
  | @last n hn _ hend => rcases hn with ⟨hlt, -⟩ | ⟨-, hstop'⟩ <;> omega

/-! ## The way down -/

/-- The way down from a node that starts at `start`: along the chosen slots, as long as these hold nodes around the
span. -/
inductive Descends (span : Range) : Slot → Nat → List Nat → Prop
  | stop {s : Slot} {start : Nat} {choice : Option Nat} (hchoice : s.Choice (span.start - start) span.isEmpty choice)
      (hend : ∀ i, choice = some i → (s.along [i]).isNode = true →
        (s.rangeAlong start [i]).containsRange span = false) : Descends span s start []
  | down {s : Slot} {start i : Nat} {rest : List Nat}
      (hchoice : s.Choice (span.start - start) span.isEmpty (some i)) (hnode : (s.along [i]).isNode = true)
      (hin : (s.rangeAlong start [i]).containsRange span = true)
      (hrest : Descends span (s.along [i]) (start + s.offsetAlong [i]) rest) : Descends span s start (i :: rest)

theorem Descends.around {span : Range} {s : Slot} {start : Nat} {q : List Nat} (h : Descends span s start q)
    (hnode : s.isNode = true) (hin : (s.rangeAlong start []).containsRange span = true) :
    (s.along q).isNode = true ∧ (s.rangeAlong start q).containsRange span = true := by
  induction h with
  | stop _ _ => exact ⟨hnode, hin⟩
  | @down s start i rest _ hslot hin' _ ih =>
      have hrange := rangeAlong_append s start [i] rest
      rw [List.singleton_append] at hrange
      rw [hrange]
      exact ih hslot hin'

/-- The way down passes a node with text on both sides of the offset iff none of the slots that lead to that node is
shadowed. -/
theorem Descends.passes_iff {s : Slot} {start offset : Nat} {q : List Nat} (h : Descends ⟨offset, offset⟩ s start q)
    {inner : List Nat} (haround : s.StrictlyAround start offset inner) : inner <+: q ↔ s.Unshadowed inner := by
  induction h generalizing inner with
  | @stop s start choice hchoice hend =>
      simp only [Range.isEmpty_self] at hchoice
      rcases inner with - | ⟨k, rest⟩
      · exact iff_of_true List.nil_prefix trivial
      · obtain ⟨hnode, hfrom, hto⟩ := haround.below.above
        simp only [rangeAlong_start, rangeAlong_stop, offsetAlong_nil, along_nil] at hnode hfrom hto
        rcases hchoice.of_inside (i := k) (by omega) (by omega) with ⟨rfl, -⟩ | ⟨hshadowed, -⟩
        · have hout := hend k rfl hnode
          simp only [← Bool.not_eq_true, Range.containsRange_iff, rangeAlong_start, rangeAlong_stop] at hout
          omega
        · exact iff_of_false (by simp) fun hfree => hfree.1 hshadowed
  | @down s start i rest hchoice _ hin _ ih =>
      simp only [Range.isEmpty_self] at hchoice
      rcases inner with - | ⟨k, rest'⟩
      · exact iff_of_true List.nil_prefix trivial
      · obtain ⟨hnode, hfrom, hto⟩ := haround.below.above
        simp only [rangeAlong_start, rangeAlong_stop, offsetAlong_nil, along_nil] at hnode hfrom hto
        rcases hchoice.of_inside (i := k) (by omega) (by omega) with ⟨hk, hfree⟩ | ⟨-, j, hj, hbefore⟩
        · obtain rfl := Option.some.inj hk
          rw [List.cons_prefix_cons, and_iff_right rfl, ih haround.below, Unshadowed, and_iff_right hfree]
        · obtain rfl := Option.some.inj hj
          simp only [Range.containsRange_iff, rangeAlong_start, rangeAlong_stop] at hin
          omega

end Slot

/-- The search for a node without width in front of a slot finds the farthest one. -/
theorem NodeRef.farthestEmptyNode_eq {s : Slot} (h : s.Made) (hfits : s.extent < Size.limit) (best : Option Nat)
    {n : Nat} (hn : n ≤ s.count) :
    (∃ j, farthestEmptyNode best (s.slots.take n).zipIdx.reverse = .ok (some j) ∧ s.Blocks j n ∧
      ∀ k, s.Blocks k n → j ≤ k) ∨
    farthestEmptyNode best (s.slots.take n).zipIdx.reverse = .ok best ∧ ¬ s.Shadowed n := by
  induction n generalizing best with
  | zero => exact .inr ⟨rfl, fun ⟨j, hj, _⟩ => absurd hj (Nat.not_lt_zero _)⟩
  | succ n ih =>
      have hlt : n < s.slots.length := hn
      have hslot : s.along [n] = s.slots[n] := by
        show s.slots[n]?.getD .absent = s.slots[n]
        rw [List.getElem?_eq_getElem hlt, Option.getD_some]
      have hlist : (s.slots.take (n + 1)).zipIdx.reverse = (s.slots[n], n) :: (s.slots.take n).zipIdx.reverse := by
        rw [← List.take_append_getElem hlt, List.zipIdx_append, List.reverse_append, List.length_take]
        simp [Nat.min_eq_left (Nat.le_of_lt hlt)]
      have hwidth : s.slots[n].fullWidth = .ok (s.along [n]).extent := by
        have hle := s.extent_along_le [n]
        rw [← hslot, (h.along [n]).fullWidth_eq, Size.ofNat_eq_ok (by omega)]
      rw [hlist, farthestEmptyNode, hwidth]
      by_cases hblank : (s.along [n]).extent = 0
      · have hstep : (Except.ok (s.along [n]).extent >>= fun w => if w == 0 then
            farthestEmptyNode (if s.slots[n].isNode then some n else best) (s.slots.take n).zipIdx.reverse
          else pure best) =
            farthestEmptyNode (if (s.along [n]).isNode then some n else best) (s.slots.take n).zipIdx.reverse := by
          rw [hblank, hslot]
          rfl
        rw [hstep]
        obtain ⟨j, hj, hblocks, hfirst⟩ | ⟨hbest, hfree⟩ :=
          ih (if (s.along [n]).isNode then some n else best) (Nat.le_of_lt hlt)
        · refine .inl ⟨j, hj, Slot.blocks_succ.2 ⟨hblank, .inl hblocks⟩, fun k hk => ?_⟩
          obtain ⟨-, hk | ⟨rfl, -⟩⟩ := Slot.blocks_succ.1 hk
          · exact hfirst k hk
          · exact Nat.le_of_lt hblocks.1
        · rw [hbest]
          cases hnode : (s.along [n]).isNode with
          | true =>
              refine .inl ⟨n, rfl, Slot.blocks_succ.2 ⟨hblank, .inr ⟨rfl, hnode⟩⟩, fun k hk => ?_⟩
              obtain ⟨-, hk | ⟨rfl, -⟩⟩ := Slot.blocks_succ.1 hk
              · exact absurd ⟨k, hk⟩ hfree
              · exact Nat.le_refl _
          | false =>
              refine .inr ⟨rfl, fun ⟨k, hk⟩ => ?_⟩
              obtain ⟨-, hk | ⟨-, hnode'⟩⟩ := Slot.blocks_succ.1 hk
              · exact hfree ⟨k, hk⟩
              · rw [hnode] at hnode'
                cases hnode'
      · refine .inr ⟨?_, fun ⟨k, hk⟩ => hblank (Slot.blocks_succ.1 hk).1⟩
        show (if (s.along [n]).extent == 0 then _ else pure best) = _
        rw [if_neg (by simpa using hblank)]
        rfl

namespace NodeRef

/-- A node without width in front of the next slot goes first. -/
theorem slotFor_eq {n : Node} {start next : Nat}
    (hnext : (if start < n.fullWidth then n.indexAt start else pure n.count) = .ok next) (spanIsEmpty : Bool) :
    slotFor n start spanIsEmpty =
      (if spanIsEmpty then farthestEmptyNode none (n.slots.take next).zipIdx.reverse else pure none).map fun found =>
        found.or (if next < n.count then some next else n.toSlot.lastPresentSlot?) := by
  have hbind : ∀ f : Nat → Except Fault (Option Nat),
      (if start < n.fullWidth then n.indexAt start >>= f else pure n.count >>= f) = f next := by
    intro f
    rw [← apply_ite (· >>= f), hnext]
    rfl
  unfold slotFor
  refine (hbind _).trans ?_
  cases spanIsEmpty with
  | false => exact (apply_ite _ _ _ _).symm
  | true =>
      simp only [if_true]
      rcases farthestEmptyNode none (n.slots.take next).zipIdx.reverse with fault | found | j
      · rfl
      · exact (apply_ite _ _ _ _).symm
      · rfl

/-- There is a choice at every offset of a made node, its end included. -/
theorem exists_choice {n : Node} (h : n.toSlot.Made) {offset : Nat} (hle : offset ≤ n.toSlot.extent)
    (spanIsEmpty : Bool) :
    ∃ choice, slotFor n offset spanIsEmpty = .ok choice ∧ n.toSlot.Choice offset spanIsEmpty choice := by
  obtain ⟨hwidth, hfits⟩ : n.fullWidth = n.toSlot.extent ∧ n.toSlot.extent < Size.limit := h.node_width
  obtain ⟨next, hindex, hnext, hcount⟩ : ∃ next, (if offset < n.fullWidth then n.indexAt offset else pure n.count) =
      .ok next ∧ n.toSlot.NextTo offset next ∧ next ≤ n.count := by
    by_cases hlt : offset < n.toSlot.extent
    · obtain ⟨i, hindex, hcount, hfrom, hto⟩ := Node.exists_indexAt h hlt
      refine ⟨i, ?_, .inl ⟨hcount, hfrom, hto⟩, Nat.le_of_lt hcount⟩
      rw [if_pos (by omega), hindex]
    · refine ⟨n.count, ?_, .inr ⟨rfl, by omega⟩, Nat.le_refl _⟩
      rw [if_neg (by omega)]
      rfl
  -- without a node in front of it, the next slot is chosen, or at the end the last one
  have hfree : (spanIsEmpty = true → ¬ n.toSlot.Shadowed next) → n.toSlot.Choice offset spanIsEmpty
      (if next < n.count then some next else n.toSlot.lastPresentSlot?) := by
    intro hfree
    by_cases hlt : next < n.count
    · rw [if_pos hlt]
      exact .next hnext hfree hlt
    · rw [if_neg hlt]
      exact .last hnext hfree (Nat.le_antisymm hcount (Nat.le_of_not_lt hlt))
  rw [slotFor_eq hindex]
  cases spanIsEmpty with
  | false => exact ⟨_, rfl, hfree fun hfalse => absurd hfalse Bool.false_ne_true⟩
  | true =>
      show ∃ choice, (farthestEmptyNode none (n.toSlot.slots.take next).zipIdx.reverse).map _ = _ ∧ _
      obtain ⟨j, hj, hblocks, hfirst⟩ | ⟨hnone, hshadow⟩ := farthestEmptyNode_eq h hfits none hcount
      · rw [hj]
        exact ⟨some j, rfl, .blocked rfl hnext hblocks hfirst⟩
      · rw [hnone]
        exact ⟨_, rfl, hfree fun _ => hshadow⟩

end NodeRef

namespace SyntaxTree

variable {t : SyntaxTree}

/-! ## The child around a span -/

/-- The child that is shown for the chosen slot: only if it lies around the span. -/
inductive ShowsAround (t : SyntaxTree) (path : List Nat) (span : Range) : Option Nat → Option ElementRef → Prop
  | nowhere : ShowsAround t path span none none
  | beside {i : Nat} (hout : (t.root.toSlot.rangeAlong 0 (path ++ [i])).containsRange span = false) :
      ShowsAround t path span (some i) none
  | inside {i : Nat} {answer : Option ElementRef}
      (hin : (t.root.toSlot.rangeAlong 0 (path ++ [i])).containsRange span = true)
      (hshows : Shows t (path ++ [i]) answer) : ShowsAround t path span (some i) answer

theorem Linked.run_childAround (ht : t.Linked) {h : NodeRef} {path : List Nat} (hplace : At t h.id path)
    (hnode : (t.root.toSlot.along path).isNode = true) {span : Range} (hspan : span.start ≤ span.stop)
    (hin : (t.root.toSlot.rangeAlong 0 path).containsRange span = true) :
    ∃ choice answer u, (h.childAround span).run t = (.ok answer, u) ∧ Grown t u ∧ u.Linked ∧
      (t.root.toSlot.along path).Choice (span.start - (t.root.toSlot.rangeAlong 0 path).start) span.isEmpty choice ∧
      ShowsAround u path span choice answer := by
  obtain ⟨n, hn, hrun⟩ := ht.run_node hplace hnode
  have hmade := ht.made.along path
  obtain ⟨hstart, hstop⟩ := Range.containsRange_iff.1 hin
  have hrelative : span.start - (t.root.toSlot.rangeAlong 0 path).start ≤ (t.root.toSlot.along path).extent := by
    simp only [Slot.rangeAlong_start, Slot.rangeAlong_stop] at hstart hstop ⊢
    omega
  have hsub : Size.sub span.start (t.root.toSlot.rangeAlong 0 path).start =
      .ok (span.start - (t.root.toSlot.rangeAlong 0 path).start) := Size.sub_eq_ok_iff.2 ⟨hstart, rfl⟩
  rw [hn] at hmade hrelative ⊢
  obtain ⟨choice, hslot, hchoice⟩ := NodeRef.exists_choice hmade hrelative span.isEmpty
  cases choice with
  | none =>
      refine ⟨none, none, t, ?_, .refl t, ht, hchoice, .nowhere⟩
      simp only [NodeRef.childAround, Step.run_bind, ht.run_nodeSpan hplace, Step.run_lift, hsub, hrun, hslot,
        Step.run_pure]
  | some i =>
      obtain ⟨child, u, hchild, hgrown, hu, hshows⟩ := ht.run_child hplace i
      have hspan' : ∀ e : ElementRef, At u e.id (path ++ [i]) → (e.fullSpan >>= fun full =>
          (pure (if full.containsRange span then some e else none) : Nav (Option ElementRef))).run u =
          (.ok (if (u.root.toSlot.rangeAlong 0 (path ++ [i])).containsRange span then some e else none), u) := by
        intro e hat
        rw [Step.run_bind, hu.run_elementSpan hat]
        rfl
      have hdown : (h.childAround span).run t = (.ok (if (u.root.toSlot.rangeAlong 0 (path ++ [i])).containsRange span
          then child else none), u) := by
        simp only [NodeRef.childAround, Step.run_bind, ht.run_nodeSpan hplace, Step.run_lift, hsub, hrun, hslot, hchild]
        cases hshows with
        | none habsent => simp only [ite_self, Step.run_pure]
        | node hat _ => exact hspan' (.node _) hat
        | token hat _ => exact hspan' (.token _) hat
      refine ⟨some i, _, u, hdown, hgrown, hu, hchoice, ?_⟩
      cases hin' : (u.root.toSlot.rangeAlong 0 (path ++ [i])).containsRange span with
      | true => exact .inside hin' hshows
      | false => exact .beside hin'

/-- The search goes down as far as the chosen slots hold nodes around the span. -/
theorem Linked.run_descendTo (ht : t.Linked) {h : NodeRef} {path : List Nat} (hplace : At t h.id path)
    (hnode : (t.root.toSlot.along path).isNode = true) {span : Range} (hspan : span.start ≤ span.stop)
    (hin : (t.root.toSlot.rangeAlong 0 path).containsRange span = true) {fuel : Nat}
    (hfuel : (t.root.toSlot.along path).height ≤ fuel) :
    ∃ r u q, (NodeRef.descendTo span fuel h).run t = (.ok r, u) ∧ Grown t u ∧ u.Linked ∧ At u r.id (path ++ q) ∧
      (t.root.toSlot.along path).Descends span (t.root.toSlot.rangeAlong 0 path).start q := by
  induction fuel generalizing t h path with
  | zero => exact absurd (Slot.height_along_lt hnode 0) (by omega)
  | succ fuel ih =>
      obtain ⟨choice, answer, u, hrun, hgrown, hu, hchoice, hshows⟩ := ht.run_childAround hplace hnode hspan hin
      have hlow := Slot.height_along_lt hnode
      rw [← hgrown.root] at hfuel hchoice hlow ⊢
      rw [NodeRef.descendTo, Step.run_bind, hrun]
      by_cases hfound : ∃ n, answer = some (.node n)
      · obtain ⟨n, rfl⟩ := hfound
        cases hshows with
        | @inside i _ hin' hchild =>
            cases hchild with
            | node hat hinner =>
                obtain ⟨r, u', q, hrun', hgrown', hu', hat', hdown⟩ :=
                  ih hu hat hinner hin' (by rw [Slot.along_append]; have := hlow i; omega)
                rw [List.append_assoc] at hat'
                rw [Slot.along_append] at hinner hdown
                rw [Slot.rangeAlong_append] at hin' hdown
                exact ⟨r, u', i :: q, hrun', hgrown.trans hgrown', hu', hat', .down hchoice hinner hin' hdown⟩
      · -- where no node is found the way ends
        refine ⟨h, u, [], ?_, hgrown, hu, ?_, .stop hchoice ?_⟩
        · rcases answer with - | ⟨n⟩ | ⟨k⟩
          · rfl
          · exact absurd ⟨n, rfl⟩ hfound
          · rfl
        · rw [List.append_nil]
          exact hplace.grown hgrown
        · rintro i rfl hinner
          rw [← Slot.along_append] at hinner
          rw [Slot.rangeAlong_start, ← Slot.rangeAlong_append]
          cases hshows with
          | beside hout => exact hout
          | inside _ hchild =>
              cases hchild with
              | none habsent => simp [habsent, Slot.isNode] at hinner
              | token _ htoken => simp [htoken, Slot.isNode] at hinner
              | node _ _ => exact absurd ⟨_, rfl⟩ hfound

/-- Inside the text of a node the lookup goes down, and then up again if it is not the innermost node that is meant. -/
theorem Linked.run_nodeAt (ht : t.Linked) {h : NodeRef} {path : List Nat} (hplace : At t h.id path)
    (hnode : (t.root.toSlot.along path).isNode = true) {span : Range} (hspan : span.start ≤ span.stop)
    (hin : (t.root.toSlot.rangeAlong 0 path).containsRange span = true) :
    ∃ r u q, (h.nodeAt span true).run t = (.ok r, u) ∧
      (h.nodeAt span false).run t = (NodeRef.climbTo h (r.id + 1) r).run u ∧ Grown t u ∧ u.Linked ∧
      At u r.id (path ++ q) ∧ (t.root.toSlot.along path).Descends span (t.root.toSlot.rangeAlong 0 path).start q := by
  obtain ⟨n, hn, hrun⟩ := ht.run_node hplace hnode
  obtain ⟨r, u, q, hrun', hfound⟩ := ht.run_descendTo hplace hnode hspan hin (Nat.le_of_eq (congrArg _ hn))
  refine ⟨r, u, q, ?_, ?_, hfound⟩
  · simp only [NodeRef.nodeAt, Step.run_bind, ht.run_nodeSpan hplace, hin, if_true, hrun, hrun', Step.run_pure]
  · simp only [NodeRef.nodeAt, Step.run_bind, ht.run_nodeSpan hplace, hin, if_true, hrun, hrun', Bool.false_eq_true,
      if_false]

/-- What the innermost node for an empty span is. -/
theorem Linked.run_nodeAt_empty (ht : t.Linked) {h : NodeRef} {path : List Nat} (hplace : At t h.id path)
    (hnode : (t.root.toSlot.along path).isNode = true) {offset : Nat}
    (hin : (t.root.toSlot.rangeAlong 0 path).containsInclusive offset = true) :
    ∃ r u q, (h.nodeAt ⟨offset, offset⟩ true).run t = (.ok r, u) ∧ u.Linked ∧ At u r.id (path ++ q) ∧
      (t.root.toSlot.along (path ++ q)).isNode = true ∧
      (∃ range, r.fullSpan.run u = (.ok range, u) ∧ range.containsInclusive offset = true) ∧
      ∀ inner, (t.root.toSlot.along path).StrictlyAround (t.root.toSlot.rangeAlong 0 path).start offset inner →
        (inner <+: q ↔ (t.root.toSlot.along path).Unshadowed inner) := by
  have hspan : (t.root.toSlot.rangeAlong 0 path).containsRange ⟨offset, offset⟩ = true := hin
  obtain ⟨r, u, q, hrun, -, hgrown, hu, hat, hdown⟩ := ht.run_nodeAt hplace hnode (Nat.le_refl _) hspan
  obtain ⟨hnode', hin'⟩ := hdown.around hnode hspan
  rw [← Slot.along_append] at hnode'
  refine ⟨r, u, q, hrun, hu, hat, hnode', ⟨_, hu.run_nodeSpan hat, ?_⟩, fun inner => hdown.passes_iff⟩
  rw [hgrown.root, Slot.rangeAlong_append]
  exact hin'

end SyntaxTree

open SyntaxTree (At)

/-- **The node around an empty span.** For every offset of a node, its ends included, a node around it is found. A node
below that has text on both sides of the offset lies above the one found, or is that one, iff on the way to it no node
without width stands right in front of a slot. -/
theorem nodeAt_encloses_iff {root : Node} (hroot : root.toSlot.Obtainable) {t : SyntaxTree}
    (ht : (SyntaxTree.ofRoot root).Reaches t) {h : NodeRef} {path : List Nat} (hplace : At t h.id path)
    (hnode : (root.toSlot.along path).isNode = true) {full : Range} (hfull : h.fullSpan.run t = (.ok full, t))
    {offset : Nat} (hin : full.containsInclusive offset = true) :
    ∃ r u q, (h.nodeAt ⟨offset, offset⟩ true).run t = (.ok r, u) ∧ At u r.id (path ++ q) ∧
      (root.toSlot.along (path ++ q)).isNode = true ∧
      (∃ range, r.fullSpan.run u = (.ok range, u) ∧ range.containsInclusive offset = true) ∧
      ∀ inner, (root.toSlot.along path).StrictlyAround full.start offset inner →
        (inner <+: q ↔ (root.toSlot.along path).Unshadowed inner) := by
  obtain ⟨hlinked, rfl, rfl⟩ := ht.span_eq hroot hplace hfull
  obtain ⟨r, u, q, hrun, -, hfound⟩ := hlinked.run_nodeAt_empty hplace hnode hin
  exact ⟨r, u, q, hrun, hfound⟩

/-- A node without width, a name and a node with a name. -/
def shadedList (width : Nat) : Except Fault Node := do
  let empty ← Node.make 0 .list []
  let item ← Node.make 3 .nameRef [(Token.plain 2 .name 3).toSlot]
  Node.make 4 .list [empty.toSlot, (Token.plain 1 .name width).toSlot, item.toSlot]

theorem shadedList_obtainable {width : Nat} {root : Node} (h : shadedList width = .ok root) :
    root.toSlot.Obtainable := by
  obtain ⟨empty, hempty, h⟩ := bind_eq_ok_iff.1 h
  obtain ⟨item, hitem, h⟩ := bind_eq_ok_iff.1 h
  refine .node ?_ h
  simp only [List.mem_cons, List.not_mem_nil, or_false, forall_eq_or_imp, forall_eq]
  refine ⟨.node (fun s hs => absurd hs List.not_mem_nil) hempty, .plain 1 .name width, .node ?_ hitem⟩
  exact fun s hs => by rw [List.mem_singleton.1 hs]; exact .plain 2 .name 3

/-- With text between the node without width and the other one, that one is found. -/
theorem shadedList_encloses : ∃ (root : Node) (r : NodeRef) (u : SyntaxTree) (q : List Nat), shadedList 1 = .ok root ∧
    root.toSlot.Obtainable ∧ root.toSlot.StrictlyAround 0 3 [2] ∧
    (SyntaxTree.rootRef.nodeAt ⟨3, 3⟩ true).run (SyntaxTree.ofRoot root) = (.ok r, u) ∧ At u r.id q ∧ [2] <+: q := by
  obtain ⟨root, hn, hnode, hfull, haround, hbetween⟩ : ∃ root : Node, shadedList 1 = .ok root ∧
      (root.toSlot.along []).isNode = true ∧
      SyntaxTree.rootRef.fullSpan.run (SyntaxTree.ofRoot root) = (.ok ⟨0, 4⟩, SyntaxTree.ofRoot root) ∧
      root.toSlot.StrictlyAround 0 3 [2] ∧ (root.toSlot.along [1]).extent = 1 :=
    ⟨_, rfl, rfl, rfl, ⟨rfl, by decide, by decide⟩, rfl⟩
  have hobtainable := shadedList_obtainable hn
  have hplace : At (SyntaxTree.ofRoot root) SyntaxTree.rootRef.id [] := .root rfl rfl
  have hin : (⟨0, 4⟩ : Range).containsInclusive 3 = true := rfl
  obtain ⟨r, u, q, hrun, hat, -, -, hpassed⟩ := nodeAt_encloses_iff hobtainable .refl hplace hnode hfull hin
  refine ⟨root, r, u, q, hn, hobtainable, haround, hrun, hat, (hpassed [2] haround).2 ⟨?_, trivial⟩⟩
  rintro ⟨j, hj, -, hblank⟩
  have hzero := hblank 1 (Nat.le_of_lt_succ hj) (Nat.lt_succ_self 1)
  exact absurd (hbetween.symm.trans hzero) (by decide)

/-- Without text between them the way ends at the list, though the offset lies inside the other node. -/
theorem shadedList_not_enclosed : ∃ (root : Node) (r : NodeRef) (u : SyntaxTree) (q : List Nat),
    shadedList 0 = .ok root ∧ root.toSlot.Obtainable ∧ root.toSlot.StrictlyAround 0 1 [2] ∧
    (SyntaxTree.rootRef.nodeAt ⟨1, 1⟩ true).run (SyntaxTree.ofRoot root) = (.ok r, u) ∧ At u r.id q ∧ ¬ [2] <+: q := by
  obtain ⟨root, hn, hnode, hin, haround, hshadowed⟩ : ∃ root : Node, shadedList 0 = .ok root ∧
      (root.toSlot.along []).isNode = true ∧ (root.toSlot.rangeAlong 0 []).containsInclusive 1 = true ∧
      root.toSlot.StrictlyAround 0 1 [2] ∧ root.toSlot.Shadowed 2 :=
    ⟨_, rfl, rfl, rfl, ⟨rfl, by decide, by decide⟩, 0, by decide, rfl, fun | 0, _, _ => rfl | 1, _, _ => rfl⟩
  have hobtainable := shadedList_obtainable hn
  have hlinked := SyntaxTree.linked_ofRoot (Slot.obtainable_iff_made.1 hobtainable)
  obtain ⟨r, u, q, hrun, -, hat, -, -, hpassed⟩ :=
    hlinked.run_nodeAt_empty (h := SyntaxTree.rootRef) (.root rfl rfl) hnode hin
  refine ⟨root, r, u, q, hn, hobtainable, haround, hrun, hat, fun hprefix => ?_⟩
  exact ((hpassed [2] haround).1 hprefix).1 hshadowed

end LosslessSyntax
