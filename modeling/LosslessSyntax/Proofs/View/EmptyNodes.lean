import Mathlib.Data.List.Induction
import LosslessSyntax.Proofs.View.NodesAround

/-!
# Nodes without width

A node without width can stand between two slots, and also at the start or at the end of a slot with text, at any depth.
For an empty span the lookup tries the nodes without width in front of the slot over the offset, and then that slot. So
there are two kinds of slots that it passes by: one that ends at the offset, if anything stands behind it; and one with
the offset inside, if it is shadowed. All others are on its way.

* `Slot.Followed` : something stands behind a slot; `Slot.lastPresentSlot?_eq_some_iff` : else it is the last one;
* `Slot.Hides`, `Slot.Exposed` : a slot is passed by, and no slot on the way to a place is;
* `Slot.Choice.toward` : at each node the lookup goes on towards an exposed node without width, or enters another one;
* `nodeAt_enters_iff` : a node without width is found iff one of those at the offset is exposed.
-/

set_option autoImplicit false

namespace LosslessSyntax

namespace Slot

/-! ## Slots without width -/

theorem offsetAlong_succ (s : Slot) (i : Nat) : s.offsetAlong [i + 1] = s.offsetAlong [i] + (s.along [i]).extent := by
  show extents (s.slots.take (i + 1)) = extents (s.slots.take i) + (s.slots[i]?.getD .absent).extent
  rcases Nat.lt_or_ge i s.slots.length with hlt | hge
  · rw [← List.take_append_getElem hlt, extents_append, List.getElem?_eq_getElem hlt]
    simp [extents]
  · rw [List.take_of_length_le hge, List.take_of_length_le (Nat.le_succ_of_le hge), List.getElem?_eq_none hge]
    simp [extent]

theorem offsetAlong_count {s : Slot} (hnode : s.isNode = true) : s.offsetAlong [s.count] = s.extent := by
  obtain ⟨n, rfl⟩ := eq_node_of_isNode hnode
  show extents (n.slots.take n.slots.length) + 0 = extents n.slots
  rw [List.take_length, Nat.add_zero]

theorem isPresent_of_extent {s : Slot} (h : 0 < s.extent) : s.isPresent = true := by
  rcases s with - | _ | _
  · simp [extent] at h
  · rfl
  · rfl

theorem Blocks.offsetAlong_eq {s : Slot} {j n : Nat} (h : s.Blocks j n) : s.offsetAlong [j] = s.offsetAlong [n] := by
  induction n with
  | zero => exact absurd h.1 (Nat.not_lt_zero j)
  | succ n ih =>
      obtain ⟨hblank, hblocks | ⟨rfl, -⟩⟩ := blocks_succ.1 h
      · rw [ih hblocks, offsetAlong_succ, hblank, Nat.add_zero]
      · rw [offsetAlong_succ, hblank, Nat.add_zero]

/-- A node blocks the slots that start where it starts. -/
theorem blocks_of_offsetAlong_eq {s : Slot} {j n : Nat} (hlt : j < n) (hnode : (s.along [j]).isNode = true)
    (hsame : s.offsetAlong [j] = s.offsetAlong [n]) : s.Blocks j n := by
  refine ⟨hlt, hnode, fun k hjk hkn => ?_⟩
  have hend := s.offsetAlong_mono hkn
  rcases Nat.eq_or_lt_of_le hjk with rfl | hjk
  · omega
  · have hstart := s.offsetAlong_mono hjk
    omega

/-! ## Slots that are passed by -/

/-- Something stands behind the slot. -/
def Followed (s : Slot) (i : Nat) : Prop := ∃ j, i < j ∧ (s.along [j]).isPresent = true

/-- What stands in slots to which one more is added at the end. -/
theorem isPresent_snoc (front : List Slot) (last : Slot) (k : Nat) :
    ((front ++ [last])[k]?.getD .absent).isPresent =
      if k = front.length then last.isPresent else (front[k]?.getD .absent).isPresent := by
  rcases Nat.lt_trichotomy k front.length with hlt | rfl | hlt
  · rw [List.getElem?_append_left hlt, if_neg (Nat.ne_of_lt hlt)]
  · simp
  · rw [List.getElem?_eq_none (by simp; omega), List.getElem?_eq_none (Nat.le_of_lt hlt), if_neg (Nat.ne_of_gt hlt)]

/-- The last one of slots that is not absent, looked for from the end. -/
theorem find?_zipIdx_reverse_iff {slots : List Slot} {i : Nat} :
    (slots.zipIdx.reverse.find? fun (c, _) => c.isPresent).map (·.2) = some i ↔
      (slots[i]?.getD .absent).isPresent = true ∧ ¬ ∃ j, i < j ∧ (slots[j]?.getD .absent).isPresent = true := by
  induction slots using List.reverseRecOn with
  | nil => simp [isPresent]
  | append_singleton front last ih =>
      have hrev : (front ++ [last]).zipIdx.reverse = (last, front.length) :: front.zipIdx.reverse := by
        simp [List.zipIdx_append]
      simp only [hrev, List.find?_cons, isPresent_snoc]
      cases hlast : last.isPresent with
      | true =>
          simp only [Option.map_some, Option.some.injEq]
          constructor
          · rintro rfl
            refine ⟨if_pos rfl, ?_⟩
            rintro ⟨j, hj, hpresent⟩
            rw [if_neg (Nat.ne_of_gt hj), isPresent_past_end (Nat.le_of_lt hj)] at hpresent
            cases hpresent
          · rintro ⟨hpresent, hnone⟩
            rcases Nat.lt_trichotomy i front.length with hlt | heq | hlt
            · exact absurd ⟨front.length, hlt, if_pos rfl⟩ hnone
            · exact heq.symm
            · rw [if_neg (Nat.ne_of_gt hlt), isPresent_past_end (Nat.le_of_lt hlt)] at hpresent
              cases hpresent
      | false =>
          have hsame : ∀ k, (if k = front.length then false else (front[k]?.getD .absent).isPresent) =
              (front[k]?.getD .absent).isPresent := by
            intro k
            split
            · next hk => rw [isPresent_past_end (Nat.le_of_eq hk.symm)]
            · rfl
          simp only [hsame]
          exact ih

/-- The last slot that is not absent is the one with nothing behind it. -/
theorem lastPresentSlot?_eq_some_iff {s : Slot} {i : Nat} :
    s.lastPresentSlot? = some i ↔ (s.along [i]).isPresent = true ∧ ¬ s.Followed i :=
  find?_zipIdx_reverse_iff

/-- The slot starts in front of the offset and reaches it, but the lookup passes it by: it is shadowed, or it ends there
and something stands behind it. -/
def Hides (s : Slot) (start offset i : Nat) : Prop :=
  (s.rangeAlong start [i]).start < offset ∧
    (offset < (s.rangeAlong start [i]).stop ∧ s.Shadowed i ∨ offset = (s.rangeAlong start [i]).stop ∧ s.Followed i)

/-- None of the slots on the way along the path is passed by. -/
def Exposed (s : Slot) (start offset : Nat) : List Nat → Prop
  | [] => True
  | i :: rest => ¬ s.Hides start offset i ∧ (s.along [i]).Exposed (start + s.offsetAlong [i]) offset rest

/-- A node without width stands at the offset, at the end of the path. -/
def EmptyNodeAt (s : Slot) (start offset : Nat) (path : List Nat) : Prop :=
  (s.along path).isNode = true ∧ s.rangeAlong start path = ⟨offset, offset⟩

theorem EmptyNodeAt.around {s : Slot} {start offset : Nat} {path : List Nat} (h : s.EmptyNodeAt start offset path) :
    s.NodeAround start ⟨offset, offset⟩ path := by
  refine ⟨h.1, ?_⟩
  rw [h.2]
  simp [Range.containsRange_iff]

theorem EmptyNodeAt.below {s : Slot} {start offset i : Nat} {rest : List Nat}
    (h : s.EmptyNodeAt start offset (i :: rest)) :
    (s.along [i]).EmptyNodeAt (start + s.offsetAlong [i]) offset rest := by
  have hrange := rangeAlong_append s start [i] rest
  unfold EmptyNodeAt at *
  rw [← hrange]
  exact h

/-! ## The choice of a slot -/

/-- The slot next to an offset, if a node without width stands there. -/
theorem NextTo.of_empty {s : Slot} (hnode : s.isNode = true) {offset n i : Nat} (h : s.NextTo offset n)
    (hslot : (s.along [i]).isNode = true) (hstart : s.offsetAlong [i] = offset) (hblank : (s.along [i]).extent = 0) :
    s.Blocks i n ∧ s.offsetAlong [n] = offset := by
  have hcount := lt_count_of_isPresent (isPresent_of_isNode hslot)
  have hend := offsetAlong_count hnode
  obtain ⟨hlt, hn⟩ : i < n ∧ s.offsetAlong [n] = offset := by
    rcases h with ⟨-, hfrom, hto⟩ | ⟨rfl, rfl⟩
    · rcases Nat.lt_trichotomy i n with hlt | rfl | hlt
      · have hmono := s.offsetAlong_mono hlt
        omega
      · omega
      · have hmono := s.offsetAlong_mono hlt
        omega
    · omega
  exact ⟨blocks_of_offsetAlong_eq hlt hslot (hstart.trans hn.symm), hn⟩

/-- The next slot is the end of the slots, if one with text ends at the offset and nothing stands behind it. -/
theorem NextTo.of_end {s : Slot} {offset n i : Nat} (h : s.NextTo offset n) (htext : 0 < (s.along [i]).extent)
    (hstop : s.offsetAlong [i] + (s.along [i]).extent = offset) (hlast : ¬ s.Followed i) : n = s.count := by
  rcases h with ⟨-, hfrom, hto⟩ | ⟨hn, -⟩
  · rcases Nat.lt_trichotomy n i with hlt | rfl | hlt
    · have hmono := s.offsetAlong_mono hlt
      omega
    · omega
    · exact absurd ⟨n, hlt, isPresent_of_extent (by omega)⟩ hlast
  · exact hn

/-- The choice for the empty span at an offset enters a node without width that stands there. -/
def Enters (s : Slot) (offset : Nat) (choice : Option Nat) : Prop :=
  ∃ j, choice = some j ∧ (s.along [j]).isNode = true ∧ s.offsetAlong [j] = offset ∧ (s.along [j]).extent = 0

theorem Blocks.enters {s : Slot} {offset j n : Nat} (h : s.Blocks j n) (hn : s.offsetAlong [n] = offset) :
    s.Enters offset (some j) :=
  ⟨j, rfl, h.2.1, h.offsetAlong_eq.trans hn, h.2.2 j (Nat.le_refl j) h.1⟩

/-- At a node the lookup goes on in a slot that is not passed by, or it enters a node without width. -/
theorem Choice.toward {s : Slot} (hnode : s.isNode = true) {start offset i : Nat} {choice : Option Nat}
    (h : s.Choice (offset - start) true choice) (hstart : start ≤ offset)
    (haround : s.NodeAround start ⟨offset, offset⟩ [i]) (hopen : ¬ s.Hides start offset i) :
    choice = some i ∨ s.Enters (offset - start) choice := by
  obtain ⟨hslot, hin⟩ := haround
  have hcount := lt_count_of_isPresent (isPresent_of_isNode hslot)
  simp only [Range.containsRange_iff, rangeAlong_start, rangeAlong_stop] at hin
  rcases Nat.eq_or_lt_of_le hin.1 with hfrom | hfrom
  · -- the slot starts at the offset: it is the next one, or it has no width
    rcases Nat.eq_zero_or_pos (s.along [i]).extent with hblank | htext
    · cases h with
      | blocked _ hnext hblocks _ =>
          exact .inr (hblocks.enters (hnext.of_empty hnode hslot (by omega) hblank).2)
      | next hnext hfree _ =>
          exact absurd ⟨i, (hnext.of_empty hnode hslot (by omega) hblank).1⟩ (hfree rfl)
      | last hnext hfree _ =>
          exact absurd ⟨i, (hnext.of_empty hnode hslot (by omega) hblank).1⟩ (hfree rfl)
    · cases h with
      | blocked _ hnext hblocks _ =>
          obtain rfl := hnext.eq (i := i) (by omega) (by omega)
          exact .inr (hblocks.enters (by omega))
      | next hnext _ _ => exact .inl (congrArg some (hnext.eq (by omega) (by omega)))
      | last hnext _ hend =>
          have hn := hnext.eq (i := i) (by omega) (by omega)
          omega
  · rcases Nat.eq_or_lt_of_le hin.2 with hto | hto
    · -- it ends there: then it is the last one
      have hlast : ¬ s.Followed i := fun hfollowed => hopen ⟨hfrom, .inr ⟨hto, hfollowed⟩⟩
      cases h with
      | @blocked n j _ hnext hblocks _ =>
          obtain rfl := hnext.of_end (i := i) (by omega) (by omega) hlast
          rcases Nat.lt_or_ge i j with hlt | hge
          · exact absurd ⟨j, hlt, isPresent_of_isNode hblocks.2.1⟩ hlast
          · have hblank := hblocks.2.2 i hge hcount
            omega
      | next hnext _ hlt =>
          have hn := hnext.of_end (i := i) (by omega) (by omega) hlast
          omega
      | last _ _ _ => exact .inl (lastPresentSlot?_eq_some_iff.2 ⟨isPresent_of_isNode hslot, hlast⟩)
    · -- the offset lies inside
      rcases h.of_inside (i := i) (by omega) (by omega) with ⟨hi, -⟩ | ⟨hshadowed, -⟩
      · exact .inl hi
      · exact absurd ⟨hfrom, .inl ⟨hto, hshadowed⟩⟩ hopen

theorem Choice.not_hides {s : Slot} {start offset i : Nat} (h : s.Choice (offset - start) true (some i))
    (hstart : start ≤ offset) : ¬ s.Hides start offset i := by
  rintro ⟨hfrom, ⟨hto, hshadowed⟩ | ⟨hto, hfollowed⟩⟩
  · simp only [rangeAlong_start, rangeAlong_stop] at hfrom hto
    rcases h.of_inside (i := i) (by omega) (by omega) with ⟨-, hfree⟩ | ⟨-, j, hj, hbefore⟩
    · exact hfree hshadowed
    · obtain rfl := Option.some.inj hj
      omega
  · simp only [rangeAlong_start, rangeAlong_stop] at hfrom hto
    generalize hchoice : some i = choice at h
    cases h with
    | blocked _ _ hblocks _ =>
        obtain rfl := Option.some.inj hchoice
        have hblank := hblocks.2.2 i (Nat.le_refl i) hblocks.1
        omega
    | next hnext _ hlt =>
        obtain rfl := Option.some.inj hchoice
        rcases hnext with ⟨-, -, hover⟩ | ⟨hend, -⟩ <;> omega
    | last _ _ _ => exact (lastPresentSlot?_eq_some_iff.1 hchoice.symm).2 hfollowed

/-! ## The way down -/

/-- Nothing on the way down is passed by. -/
theorem Descends.exposed {s : Slot} {start offset : Nat} {q : List Nat} (h : Descends ⟨offset, offset⟩ s start q)
    (hstart : start ≤ offset) : s.Exposed start offset q := by
  induction h with
  | stop _ _ => trivial
  | down hchoice _ hin _ ih =>
      simp only [Range.isEmpty_self] at hchoice
      exact ⟨hchoice.not_hides hstart, ih (Range.containsRange_iff.1 hin).1⟩

/-- Below a node without width all nodes have none. -/
theorem Descends.range_of_empty {s : Slot} {start offset : Nat} {q : List Nat}
    (h : Descends ⟨offset, offset⟩ s start q) (hnode : s.isNode = true)
    (hempty : s.rangeAlong start [] = ⟨offset, offset⟩) : s.rangeAlong start q = ⟨offset, offset⟩ := by
  have hin : (s.rangeAlong start []).containsRange ⟨offset, offset⟩ = true := by
    simp [hempty, Range.containsRange_iff]
  have hinside := s.rangeAlong_contains start [] q
  rw [hempty] at hinside
  exact Range.containsRange_antisymm (h.around hnode hin).2 hinside

/-- **The way down towards an exposed node without width** ends at one. -/
theorem Descends.enters {s : Slot} {start offset : Nat} {q : List Nat} (h : Descends ⟨offset, offset⟩ s start q)
    (hnode : s.isNode = true) (hstart : start ≤ offset) {inner : List Nat} (hempty : s.EmptyNodeAt start offset inner)
    (hexposed : s.Exposed start offset inner) : s.rangeAlong start q = ⟨offset, offset⟩ := by
  induction h generalizing inner with
  | @stop s start choice hchoice hend =>
      rcases inner with - | ⟨i, rest⟩
      · exact hempty.2
      · simp only [Range.isEmpty_self] at hchoice
        have haround := hempty.around.slot
        rcases hchoice.toward hnode hstart haround hexposed.1 with rfl | ⟨j, rfl, hslot, hfrom, hblank⟩
        · exact absurd (haround.2.symm.trans (hend i rfl haround.1)) (by decide)
        · have hout := hend j rfl hslot
          simp only [← Bool.not_eq_true, Range.containsRange_iff, rangeAlong_start, rangeAlong_stop] at hout
          omega
  | @down s start k below hchoice hslot hin hrest ih =>
      rcases inner with - | ⟨i, rest⟩
      · exact (Descends.down hchoice hslot hin hrest).range_of_empty hnode hempty.2
      · have hrange := rangeAlong_append s start [k] below
        rw [List.singleton_append] at hrange
        rw [hrange]
        simp only [Range.isEmpty_self] at hchoice
        rcases hchoice.toward hnode hstart hempty.around.slot hexposed.1 with hk | ⟨j, hj, -, hfrom, hblank⟩
        · obtain rfl := Option.some.inj hk
          exact ih hslot (Range.containsRange_iff.1 hin).1 hempty.below hexposed.2
        · obtain rfl := Option.some.inj hj
          apply hrest.range_of_empty hslot
          simp only [rangeAlong, Range.mk.injEq, offsetAlong_nil, along_nil]
          omega

end Slot

open SyntaxTree (At)

/-- **Nodes without width at an offset.** The node found for an empty span has no width itself iff there is a node
without width at the offset, the node where the lookup begins or one below it, that is exposed: no slot on the way to it
ends at the offset with something behind it, or has the offset inside and is shadowed. -/
theorem nodeAt_enters_iff {root : Node} (hroot : root.toSlot.Obtainable) {t : SyntaxTree}
    (ht : (SyntaxTree.ofRoot root).Reaches t) {h : NodeRef} {path : List Nat} (hplace : At t h.id path)
    (hnode : (root.toSlot.along path).isNode = true) {full : Range} (hfull : h.fullSpan.run t = (.ok full, t))
    {offset : Nat} (hin : full.containsInclusive offset = true) :
    ∃ r u q range, (h.nodeAt ⟨offset, offset⟩ true).run t = (.ok r, u) ∧ At u r.id (path ++ q) ∧
      r.fullSpan.run u = (.ok range, u) ∧
      (range = ⟨offset, offset⟩ ↔ ∃ inner, (root.toSlot.along path).EmptyNodeAt full.start offset inner ∧
        (root.toSlot.along path).Exposed full.start offset inner) := by
  obtain ⟨hlinked, rfl, rfl⟩ := ht.span_eq hroot hplace hfull
  have hspan : (t.root.toSlot.rangeAlong 0 path).containsRange ⟨offset, offset⟩ = true := hin
  have hstart := (Range.containsRange_iff.1 hspan).1
  obtain ⟨r, u, q, hrun, -, hgrown, hu, hat, hdown⟩ := hlinked.run_nodeAt hplace hnode (Nat.le_refl offset) hspan
  refine ⟨r, u, q, _, hrun, hat, hu.run_nodeSpan hat, ?_⟩
  rw [hgrown.root, Slot.rangeAlong_append]
  constructor
  · intro hempty
    exact ⟨q, ⟨(hdown.around hnode hspan).1, hempty⟩, hdown.exposed hstart⟩
  · rintro ⟨inner, hempty, hexposed⟩
    exact hdown.enters hnode hstart hempty hexposed

/-- A name with a node without width behind it, in a list whose other slot is given. -/
def frayedList (last : Slot) : Except Fault Node := do
  let empty ← Node.make 0 .list []
  let item ← Node.make 2 .nameRef [(Token.plain 1 .name 2).toSlot, empty.toSlot]
  Node.make 4 .list [item.toSlot, last]

theorem frayedList_obtainable {last : Slot} (hlast : last.Obtainable) {root : Node} (h : frayedList last = .ok root) :
    root.toSlot.Obtainable := by
  obtain ⟨empty, hempty, h⟩ := bind_eq_ok_iff.1 h
  obtain ⟨item, hitem, h⟩ := bind_eq_ok_iff.1 h
  refine .node ?_ h
  simp only [List.mem_cons, List.not_mem_nil, or_false, forall_eq_or_imp, forall_eq]
  refine ⟨.node ?_ hitem, hlast⟩
  simp only [List.mem_cons, List.not_mem_nil, or_false, forall_eq_or_imp, forall_eq]
  exact ⟨.plain 1 .name 2, .node (by simp) hempty⟩

/-- With nothing behind the name, the node without width at its end is found. -/
theorem frayedList_enters : ∃ (root : Node) (r : NodeRef) (u : SyntaxTree), frayedList .absent = .ok root ∧
    root.toSlot.Obtainable ∧ root.toSlot.EmptyNodeAt 0 2 [0, 1] ∧
    (SyntaxTree.rootRef.nodeAt ⟨2, 2⟩ true).run (SyntaxTree.ofRoot root) = (.ok r, u) ∧
    r.fullSpan.run u = (.ok ⟨2, 2⟩, u) := by
  obtain ⟨root, hn, hnode, hfull, hempty, hlast, hstop, hstart⟩ : ∃ root : Node, frayedList .absent = .ok root ∧
      (root.toSlot.along []).isNode = true ∧
      SyntaxTree.rootRef.fullSpan.run (SyntaxTree.ofRoot root) = (.ok ⟨0, 2⟩, SyntaxTree.ofRoot root) ∧
      root.toSlot.EmptyNodeAt 0 2 [0, 1] ∧ (∀ j, (root.toSlot.along [j + 1]).isPresent = false) ∧
      (root.toSlot.rangeAlong 0 [0]).stop = 2 ∧
      ((root.toSlot.along [0]).rangeAlong (0 + root.toSlot.offsetAlong [0]) [1]).start = 2 :=
    ⟨_, rfl, rfl, rfl, ⟨rfl, rfl⟩, fun | 0 => rfl | _ + 1 => rfl, rfl, rfl⟩
  have hobtainable := frayedList_obtainable .absent hn
  have hplace : At (SyntaxTree.ofRoot root) SyntaxTree.rootRef.id [] := .root rfl rfl
  have hin : (⟨0, 2⟩ : Range).containsInclusive 2 = true := rfl
  obtain ⟨r, u, _, _, hrun, -, hspan, hiff⟩ := nodeAt_enters_iff hobtainable .refl hplace hnode hfull hin
  have hexposed : root.toSlot.Exposed 0 2 [0, 1] := by
    refine ⟨?_, ?_, trivial⟩
    · rintro ⟨-, ⟨hinside, -⟩ | ⟨-, j, hj, hpresent⟩⟩
      · omega
      · obtain ⟨j, rfl⟩ := Nat.exists_eq_succ_of_ne_zero (Nat.ne_of_gt hj)
        exact absurd (hpresent.symm.trans (hlast j)) (by decide)
    · rintro ⟨hfrom, -⟩
      omega
  obtain rfl := hiff.2 ⟨_, hempty, hexposed⟩
  exact ⟨root, r, u, hn, hobtainable, hempty, hrun, hspan⟩

/-- A node without width between two names, and another one in front of the node that they are in. -/
def shadedGap : Except Fault Node := do
  let empty ← Node.make 0 .list []
  let item ← Node.make 3 .nameRef [(Token.plain 1 .name 2).toSlot, empty.toSlot, (Token.plain 2 .name 2).toSlot]
  Node.make 4 .list [empty.toSlot, item.toSlot]

theorem shadedGap_obtainable {root : Node} (h : shadedGap = .ok root) : root.toSlot.Obtainable := by
  obtain ⟨empty, hempty, h⟩ := bind_eq_ok_iff.1 h
  obtain ⟨item, hitem, h⟩ := bind_eq_ok_iff.1 h
  have hnone : empty.toSlot.Obtainable := .node (by simp) hempty
  refine .node ?_ h
  simp only [List.mem_cons, List.not_mem_nil, or_false, forall_eq_or_imp, forall_eq]
  refine ⟨hnone, .node ?_ hitem⟩
  simp only [List.mem_cons, List.not_mem_nil, or_false, forall_eq_or_imp, forall_eq]
  exact ⟨.plain 1 .name 2, hnone, .plain 2 .name 2⟩

/-- With a name behind it, the node without width is not found: the list itself is the answer. Nor is it found between
two names, if the node that they are in is shadowed. -/
theorem frayedList_not_entered :
    (∃ (root : Node) (r : NodeRef) (u : SyntaxTree) (range : Range),
      frayedList (Token.plain 3 .name 2).toSlot = .ok root ∧ root.toSlot.Obtainable ∧
      root.toSlot.EmptyNodeAt 0 2 [0, 1] ∧
      (SyntaxTree.rootRef.nodeAt ⟨2, 2⟩ true).run (SyntaxTree.ofRoot root) = (.ok r, u) ∧
      r.fullSpan.run u = (.ok range, u) ∧ range ≠ ⟨2, 2⟩) ∧
    ∃ (root : Node) (r : NodeRef) (u : SyntaxTree) (range : Range),
      shadedGap = .ok root ∧ root.toSlot.Obtainable ∧ root.toSlot.EmptyNodeAt 0 2 [1, 1] ∧
      (SyntaxTree.rootRef.nodeAt ⟨2, 2⟩ true).run (SyntaxTree.ofRoot root) = (.ok r, u) ∧
      r.fullSpan.run u = (.ok range, u) ∧ range ≠ ⟨2, 2⟩ := by
  constructor
  · obtain ⟨root, u, hn, hempty, hrun, hspan⟩ : ∃ (root : Node) (u : SyntaxTree),
        frayedList (Token.plain 3 .name 2).toSlot = .ok root ∧ root.toSlot.EmptyNodeAt 0 2 [0, 1] ∧
        (SyntaxTree.rootRef.nodeAt ⟨2, 2⟩ true).run (SyntaxTree.ofRoot root) = (.ok SyntaxTree.rootRef, u) ∧
        SyntaxTree.rootRef.fullSpan.run u = (.ok ⟨0, 4⟩, u) :=
      ⟨_, _, rfl, ⟨rfl, rfl⟩, rfl, rfl⟩
    exact ⟨root, _, u, _, hn, frayedList_obtainable (.plain 3 .name 2) hn, hempty, hrun, hspan, by decide⟩
  · obtain ⟨root, u, hn, hempty, hrun, hspan⟩ : ∃ (root : Node) (u : SyntaxTree),
        shadedGap = .ok root ∧ root.toSlot.EmptyNodeAt 0 2 [1, 1] ∧
        (SyntaxTree.rootRef.nodeAt ⟨2, 2⟩ true).run (SyntaxTree.ofRoot root) = (.ok SyntaxTree.rootRef, u) ∧
        SyntaxTree.rootRef.fullSpan.run u = (.ok ⟨0, 4⟩, u) :=
      ⟨_, _, rfl, ⟨rfl, rfl⟩, rfl, rfl⟩
    exact ⟨root, _, u, _, hn, shadedGap_obtainable hn, hempty, hrun, hspan, by decide⟩

end LosslessSyntax
