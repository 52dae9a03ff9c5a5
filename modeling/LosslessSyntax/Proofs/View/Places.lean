import LosslessSyntax.Fact.Measure
import LosslessSyntax.Proofs.View.Spans

/-!
# Asking by place

A view is named by a number that depends on what was asked before. Its place in the tree does not: it determines the
fact and the range, and stays what it is while more views are made. So what a view answers is said here of places.

* `Slot.along_append`, `Slot.rangeAlong_append` : facts and ranges along a path that goes on;
* `Node.exists_indexAt` : the slot over an offset;
* `SyntaxTree.NodeAt` : a view is that of the node at a place;
* `SyntaxTree.Shows` : the element shown for a place; `Linked.run_child` : asking for a child shows the place below.
-/

set_option autoImplicit false

namespace LosslessSyntax

theorem Range.contains_iff {r : Range} {offset : Nat} :
    r.contains offset = true ↔ r.start ≤ offset ∧ offset < r.stop := by
  simp [contains]

theorem Range.containsInclusive_iff {r : Range} {offset : Nat} :
    r.containsInclusive offset = true ↔ r.start ≤ offset ∧ offset ≤ r.stop := by
  simp [containsInclusive]

theorem Range.containsRange_trans {a b c : Range} (h : a.containsRange b = true) (h' : b.containsRange c = true) :
    a.containsRange c = true := by
  simp only [Range.containsRange_iff] at *
  omega

@[simp] theorem Range.isEmpty_self (offset : Nat) : (⟨offset, offset⟩ : Range).isEmpty = true :=
  beq_self_eq_true offset

/-! ## Paths -/

namespace Slot

@[simp] theorem along_nil (s : Slot) : s.along [] = s := rfl

@[simp] theorem offsetAlong_nil (s : Slot) : s.offsetAlong [] = 0 := rfl

@[simp] theorem rangeAlong_start (s : Slot) (start : Nat) (path : List Nat) :
    (s.rangeAlong start path).start = start + s.offsetAlong path := rfl

@[simp] theorem rangeAlong_stop (s : Slot) (start : Nat) (path : List Nat) :
    (s.rangeAlong start path).stop = start + s.offsetAlong path + (s.along path).extent := rfl

theorem along_append (s : Slot) (path rest : List Nat) : s.along (path ++ rest) = (s.along path).along rest := by
  induction path generalizing s with
  | nil => rfl
  | cons i path ih => exact ih _

theorem offsetAlong_add (s : Slot) (path rest : List Nat) :
    s.offsetAlong (path ++ rest) = s.offsetAlong path + (s.along path).offsetAlong rest := by
  induction path generalizing s with
  | nil => exact (Nat.zero_add _).symm
  | cons i path ih => rw [List.cons_append, offsetAlong, offsetAlong, along, ih, Nat.add_assoc]

theorem Made.along {s : Slot} (h : s.Made) (path : List Nat) : (s.along path).Made := by
  induction path generalizing s with
  | nil => exact h
  | cons i path ih =>
      refine ih ?_
      cases hslot : s.slots[i]? with
      | none => exact .absent
      | some c => exact h.slot (List.mem_of_getElem? hslot)

theorem rangeAlong_append (s : Slot) (start : Nat) (path rest : List Nat) :
    s.rangeAlong start (path ++ rest) = (s.along path).rangeAlong (start + s.offsetAlong path) rest := by
  unfold rangeAlong
  rw [offsetAlong_add, along_append, ← Nat.add_assoc]

theorem eq_node_of_isNode {s : Slot} (h : s.isNode = true) : ∃ n : Node, s = n.toSlot := by
  cases s with
  | absent => cases h
  | token head leading => cases h
  | node head slots => exact ⟨⟨head, slots⟩, rfl⟩

theorem isPresent_of_isNode {s : Slot} (h : s.isNode = true) : s.isPresent = true := by
  obtain ⟨n, rfl⟩ := eq_node_of_isNode h
  rfl

theorem isPresent_past_end {slots : List Slot} {k : Nat} (h : slots.length ≤ k) :
    (slots[k]?.getD .absent).isPresent = false := by
  rw [List.getElem?_eq_none h]
  rfl

theorem lt_count_of_isPresent {s : Slot} {i : Nat} (h : (s.along [i]).isPresent = true) : i < s.count := by
  by_contra hge
  have habsent : (s.along [i]).isPresent = false := isPresent_past_end (Nat.le_of_not_lt hge)
  exact absurd (h.symm.trans habsent) (by decide)

theorem height_le_heights (slots : List Slot) (i : Nat) : (slots[i]?.getD .absent).height ≤ heights slots := by
  induction slots generalizing i with
  | nil => exact Nat.zero_le _
  | cons s rest ih =>
      rw [heights]
      cases i with
      | zero => exact Nat.le_max_left _ _
      | succ i => exact Nat.le_trans (ih i) (Nat.le_max_right _ _)

theorem height_along_lt {s : Slot} (hnode : s.isNode = true) (i : Nat) : (s.along [i]).height < s.height := by
  obtain ⟨n, rfl⟩ := eq_node_of_isNode hnode
  have hle := height_le_heights n.slots i
  show (n.slots[i]?.getD .absent).height < 1 + heights n.slots
  omega

theorem extent_along_le (s : Slot) (path : List Nat) : s.offsetAlong path + (s.along path).extent ≤ s.extent := by
  induction path generalizing s with
  | nil => exact Nat.le_of_eq (Nat.zero_add _)
  | cons i rest ih =>
      have hinside := ih (s.slots[i]?.getD .absent)
      have hwithin := s.extents_slots_le
      rw [offsetAlong, along]
      cases hslot : s.slots[i]? with
      | some c =>
          have hle := extents_take_add_le hslot
          rw [hslot, Option.getD_some] at hinside
          rw [Option.getD_some]
          omega
      | none =>
          rw [hslot, Option.getD_none, extent] at hinside
          rw [List.take_of_length_le (List.getElem?_eq_none_iff.1 hslot), Option.getD_none]
          omega

theorem rangeAlong_contains (s : Slot) (start : Nat) (path rest : List Nat) :
    (s.rangeAlong start path).containsRange (s.rangeAlong start (path ++ rest)) = true := by
  have hle := (s.along path).extent_along_le rest
  simp only [Range.containsRange_iff, rangeAlong_append, rangeAlong_start, rangeAlong_stop]
  omega

/-- A slot starts where the ones in front of it have ended. -/
theorem offsetAlong_mono (s : Slot) {i n : Nat} (h : i < n) :
    s.offsetAlong [i] + (s.along [i]).extent ≤ s.offsetAlong [n] := by
  show extents (s.slots.take i) + 0 + (s.slots[i]?.getD .absent).extent ≤ extents (s.slots.take n) + 0
  cases hslot : s.slots[i]? with
  | some c =>
      have htake : (s.slots.take n)[i]? = some c := by rw [List.getElem?_take_of_lt h, hslot]
      have hle := extents_take_add_le htake
      rw [List.take_take, Nat.min_eq_left (Nat.le_of_lt h)] at hle
      exact hle
  | none =>
      have hlength := List.getElem?_eq_none_iff.1 hslot
      rw [List.take_of_length_le hlength, List.take_of_length_le (Nat.le_trans hlength (Nat.le_of_lt h)),
        Option.getD_none]
      exact Nat.le_refl _

/-- Only nodes have something below. -/
theorem isNode_of_along {s : Slot} {path : List Nat} (h : (s.along path).isNode = true) : s.isNode = true := by
  induction path generalizing s with
  | nil => exact h
  | cons i rest ih =>
      have hslot := ih h
      cases s with
      | absent => cases hslot
      | token head leading => cases hslot
      | node head slots => rfl

end Slot

/-- Inside a made node there is a slot over every offset. -/
theorem Node.exists_indexAt {n : Node} (h : n.toSlot.Made) {offset : Nat} (hlt : offset < n.toSlot.extent) :
    ∃ i, n.indexAt offset = .ok i ∧ i < n.count ∧ n.toSlot.offsetAlong [i] ≤ offset ∧
      offset < n.toSlot.offsetAlong [i] + (n.toSlot.along [i]).extent := by
  obtain ⟨shape, hlayout⟩ := h.layout
  obtain ⟨hwidth, hfits⟩ := h.node_width
  have hws := Slot.widths_made h.slots hfits
  rw [← Slot.total_map_extent] at hwidth hfits
  obtain ⟨i, hcovers⟩ : ∃ i, Size.Covers (n.slots.map Slot.extent) offset i := by
    refine Size.exists_covers ?_
    rw [Slot.total_map_extent]
    exact hlt
  refine ⟨i, indexAt_of_covers hlayout hws hwidth hfits hcovers, ?_⟩
  obtain ⟨w, hw, hle, hlt⟩ := hcovers
  rw [List.getElem?_map] at hw
  obtain ⟨c, hc, rfl⟩ := Option.map_eq_some_iff.1 hw
  rw [← List.map_take, Slot.total_map_extent] at hle hlt
  have hslot : n.toSlot.along [i] = c := by
    show n.slots[i]?.getD .absent = c
    rw [hc, Option.getD_some]
  rw [hslot]
  exact ⟨(List.getElem?_eq_some_iff.1 hc).1, hle, hlt⟩

namespace SyntaxTree

variable {t : SyntaxTree}

/-! ## What views answer -/

/-- The element shown for what stands at the end of a path: nothing where the slot is absent or past the end, and else
the view of what is there. -/
inductive Shows (t : SyntaxTree) (path : List Nat) : Option ElementRef → Prop
  | none (habsent : t.root.toSlot.along path = .absent) : Shows t path none
  | node {n : NodeRef} (hplace : At t n.id path) (hnode : (t.root.toSlot.along path).isNode = true) :
      Shows t path (some (.node n))
  | token {k : TokenRef} {head : TokenHead} {leading : Slot} (hplace : At t k.id path)
      (htoken : t.root.toSlot.along path = .token head leading) : Shows t path (some (.token k))

structure NodeAt (t : SyntaxTree) (h : NodeRef) (path : List Nat) : Prop where
  place : At t h.id path
  isNode : (t.root.toSlot.along path).isNode = true

theorem NodeAt.grown {u : SyntaxTree} {h : NodeRef} {path : List Nat} (hat : NodeAt t h path) (hg : Grown t u) :
    NodeAt u h path :=
  ⟨hat.place.grown hg, hg.root ▸ hat.isNode⟩

theorem Shows.place {path : List Nat} {e : ElementRef} (h : Shows t path (some e)) : At t e.id path := by
  cases h with
  | node hplace _ => exact hplace
  | token hplace _ => exact hplace

theorem Shows.grown {u : SyntaxTree} {path : List Nat} {answer : Option ElementRef} (h : Shows t path answer)
    (hg : Grown t u) : Shows u path answer := by
  cases h with
  | none habsent => exact .none (hg.root ▸ habsent)
  | node hplace hnode => exact .node (hplace.grown hg) (hg.root ▸ hnode)
  | token hplace htoken => exact .token (hplace.grown hg) (hg.root ▸ htoken)

theorem Linked.place_root (ht : t.Linked) : At t rootRef.id [] := by
  obtain ⟨v, hv, hparent, -⟩ := ht.root
  exact .root hv hparent

theorem Linked.nodeAt_root (ht : t.Linked) : NodeAt t rootRef [] := ⟨ht.place_root, rfl⟩

theorem Linked.run_child (ht : t.Linked) {h : NodeRef} {path : List Nat} (hplace : At t h.id path) (i : Nat) :
    ∃ answer u, (h.childAt i).run t = (.ok answer, u) ∧ Grown t u ∧ u.Linked ∧ Shows u (path ++ [i]) answer := by
  obtain ⟨v, hv, hfact, -⟩ := ht.view_along hplace
  obtain ⟨answer, u, hrun, hgrown, hu, hfinds⟩ := ht.childView hv i
  unfold NodeRef.childAt
  rw [Step.run_bind, hrun]
  cases answer with
  | none =>
      refine ⟨none, u, rfl, hgrown, hu, .none ?_⟩
      rw [hgrown.root, Slot.along_append, ← hfact]
      replace hfinds : (v.fact.along [i]).isPresent = false := hfinds
      cases hslot : v.fact.along [i] with
      | absent => rfl
      | token _ _ =>
          rw [hslot] at hfinds
          cases hfinds
      | node _ _ =>
          rw [hslot] at hfinds
          cases hfinds
  | some c =>
      have hat := hfinds.at (hplace.grown hgrown)
      obtain ⟨w, hw, hfact', -⟩ := hu.view_along hat
      have hrun' : (element c >>= fun e => (pure (some e) : Nav (Option ElementRef))).run u =
          (.ok (some (if w.fact.isNode then .node ⟨c⟩ else .token ⟨c⟩)), u) := by
        simp only [element, Step.run_bind, run_view hw, Step.run_pure]
      refine ⟨_, u, hrun', hgrown, hu, ?_⟩
      rw [hfact']
      cases hslot : u.root.toSlot.along (path ++ [i]) with
      | absent =>
          obtain ⟨w', hw', hparent, -⟩ := hfinds
          obtain ⟨-, _, -, hunder, -⟩ := hu.child hw' hparent
          have hpresent := hunder.present
          rw [hw] at hw'
          cases hw'
          rw [hfact', hslot] at hpresent
          cases hpresent
      | token head leading => exact .token (k := ⟨c⟩) hat hslot
      | node head slots => exact .node (n := ⟨c⟩) hat (by rw [hslot]; rfl)

theorem Linked.run_node (ht : t.Linked) {h : NodeRef} {path : List Nat} (hplace : At t h.id path)
    (hnode : (t.root.toSlot.along path).isNode = true) :
    ∃ n : Node, t.root.toSlot.along path = n.toSlot ∧ h.node.run t = (.ok n, t) := by
  obtain ⟨n, hn⟩ := Slot.eq_node_of_isNode hnode
  obtain ⟨v, hv, hfact, -⟩ := ht.view_along hplace
  refine ⟨n, hn, ?_⟩
  unfold NodeRef.node
  rw [Step.run_bind, run_view hv]
  simp only [hfact, hn]
  rfl

/-- A view below another one stands in a slot of a node. -/
theorem Linked.parent_isNode (ht : t.Linked) {p id : Nat} {v : View} {path : List Nat} (hplace : At t p path)
    (hv : t.views[id]? = some v) (hparent : v.parent = some p) :
    (t.root.toSlot.along path).isNode = true ∧ v.index < (t.root.toSlot.along path).count := by
  obtain ⟨-, w, hw, hunder, -⟩ := ht.child hv hparent
  obtain ⟨w', hw', hfact, -⟩ := ht.view_along hplace
  rw [hw] at hw'
  cases hw'
  have hslot := hunder.fact
  rw [hfact] at hslot
  cases hnode : t.root.toSlot.along path with
  | absent =>
      rw [hnode] at hslot
      cases hslot
  | token head leading =>
      rw [hnode] at hslot
      cases hslot
  | node head slots =>
      rw [hnode] at hslot
      exact ⟨rfl, List.getElem?_eq_some_iff.1 hslot |>.1⟩

theorem Linked.run_count (ht : t.Linked) {h : NodeRef} {path : List Nat} (hplace : At t h.id path) :
    h.count.run t = (.ok (t.root.toSlot.along path).count, t) := by
  obtain ⟨v, hv, hfact, -⟩ := ht.view_along hplace
  unfold NodeRef.count
  rw [Step.run_bind, run_view hv, ← hfact, ← ht.slots hv]
  rfl

theorem Linked.run_elementSpan (ht : t.Linked) {e : ElementRef} {path : List Nat} (hplace : At t e.id path) :
    e.fullSpan.run t = (.ok (t.root.toSlot.rangeAlong 0 path), t) := by
  obtain ⟨v, hv, -, hrange⟩ := ht.view_along hplace
  rw [← hrange]
  exact ht.run_fullSpan hv

theorem Linked.run_nodeSpan (ht : t.Linked) {h : NodeRef} {path : List Nat} (hplace : At t h.id path) :
    h.fullSpan.run t = (.ok (t.root.toSlot.rangeAlong 0 path), t) :=
  ht.run_elementSpan (e := .node h) hplace

/-- A view of a node tells where it stands, whatever has been asked before. -/
theorem Reaches.span_eq {root : Node} (ht : (ofRoot root).Reaches t) (hroot : root.toSlot.Obtainable) {h : NodeRef}
    {path : List Nat} (hplace : At t h.id path) {full : Range} (hfull : h.fullSpan.run t = (.ok full, t)) :
    t.Linked ∧ t.root = root ∧ t.root.toSlot.rangeAlong 0 path = full := by
  obtain ⟨hlinked, hgrown⟩ := ht.linked (linked_ofRoot (Slot.obtainable_iff_made.1 hroot))
  refine ⟨hlinked, hgrown.root, ?_⟩
  rw [hlinked.run_nodeSpan hplace] at hfull
  exact Except.ok.inj (Prod.mk.inj hfull).1

theorem Linked.run_tokenSpan (ht : t.Linked) {k : TokenRef} {path : List Nat} (hplace : At t k.id path) :
    k.fullSpan.run t = (.ok (t.root.toSlot.rangeAlong 0 path), t) :=
  ht.run_elementSpan (e := .token k) hplace

end SyntaxTree

end LosslessSyntax
