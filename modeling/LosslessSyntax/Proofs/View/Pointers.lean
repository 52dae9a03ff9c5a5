import Mathlib.Data.List.Flatten
import LosslessSyntax.Proofs.View.Walks
import LosslessSyntax.View.Pointer

/-!
# Pointers to nodes

A pointer names a node by its kind and its range without the trivia in front. The search for it keeps a stack, and goes
only into nodes whose full range covers the range that is wanted. That loses nothing: a node lies inside all nodes above
it, with all its trivia. So the search finds what a plain look through all nodes in preorder would find first.

* `Slot.preorder` : the nodes in the order in which a walk enters them;
* `NodePointer.points` : a pointer means the node at a place;
* `NodePointer.find?_pruned` : nodes that do not cover the range can be left out;
* `Linked.run_search` : the search finds the first match in preorder;
* `pointer_resolves` : what pointers lead to.
-/

set_option autoImplicit false

namespace LosslessSyntax

/-! ## Nodes in preorder -/

namespace Slot

/-- The nodes at the end of a path and under it, in the order in which a walk enters them. -/
def preorder (s : Slot) (path : List Nat) : List (List Nat) :=
  ((s.along path).visits (fun _ => false) path).filterMap Visit.entered?

theorem preorder_eq_nil {s : Slot} {path : List Nat} (h : (s.along path).isNode = false) : s.preorder path = [] := by
  unfold preorder
  cases hfact : s.along path with
  | absent => rfl
  | token head leading => rfl
  | node head slots =>
      rw [hfact] at h
      cases h

/-- A node comes first, and then what is under it, slot by slot. -/
theorem preorder_node {s : Slot} {path : List Nat} (h : (s.along path).isNode = true) :
    s.preorder path = path :: (List.range (s.along path).count).flatMap fun i => s.preorder (path ++ [i]) := by
  have hvisits := s.visits_append_visitsLeft (fun _ => false) [] h
  rw [if_neg Bool.false_ne_true, visitsLeft, visitsLeft, List.append_nil, Nat.sub_zero,
    ← List.range_eq_range'] at hvisits
  unfold preorder
  rw [hvisits]
  show path :: List.filterMap Visit.entered? (_ ++ [.leave path]) = _
  rw [List.filterMap_append, visitsIn, List.filterMap_flatMap]
  exact congrArg _ (List.append_nil _)

theorem length_preorder_le (s : Slot) (path : List Nat) : (s.preorder path).length ≤ (s.along path).size :=
  length_filterMap_visits_le (fun _ => rfl) _ path _

/-- What is under a node stands behind its path. -/
theorem append_of_mem_preorder {s : Slot} {path other : List Nat} (h : other ∈ s.preorder path) :
    (s.along other).isNode = true ∧ ∃ rest, other = path ++ rest := by
  induction hheight : (s.along path).height using Nat.strongRecOn generalizing path with
  | ind height ih =>
      cases hnode : (s.along path).isNode with
      | false =>
          rw [preorder_eq_nil hnode] at h
          exact absurd h List.not_mem_nil
      | true =>
          rw [preorder_node hnode, List.mem_cons, List.mem_flatMap] at h
          rcases h with rfl | ⟨i, -, h⟩
          · exact ⟨hnode, [], (List.append_nil _).symm⟩
          · have hlt := height_along_lt hnode i
            rw [← along_append, hheight] at hlt
            obtain ⟨hother, rest, rfl⟩ := ih _ hlt h rfl
            exact ⟨hother, i :: rest, by rw [List.append_assoc, List.singleton_append]⟩

theorem append_mem_preorder {s : Slot} {path rest : List Nat} (h : (s.along (path ++ rest)).isNode = true) :
    path ++ rest ∈ s.preorder path := by
  induction rest generalizing path with
  | nil =>
      rw [List.append_nil] at h ⊢
      rw [preorder_node h]
      exact List.mem_cons_self
  | cons i rest ih =>
      have hsplit : path ++ i :: rest = (path ++ [i]) ++ rest := by rw [List.append_assoc, List.singleton_append]
      have hnode : (s.along path).isNode = true := by
        rw [along_append] at h
        exact isNode_of_along h
      rw [hsplit] at h ⊢
      have hcount : i < (s.along path).count := by
        rw [along_append, along_append] at h
        exact lt_count_of_isPresent (isPresent_of_isNode (isNode_of_along h))
      rw [preorder_node hnode]
      exact List.mem_cons_of_mem _ (List.mem_flatMap.2 ⟨i, List.mem_range.2 hcount, ih h⟩)

theorem mem_preorder_root {s : Slot} {path : List Nat} : path ∈ s.preorder [] ↔ (s.along path).isNode = true :=
  ⟨fun h => (append_of_mem_preorder h).1, fun h => append_mem_preorder h⟩

/-- The range of what stands at the end of a path, without the trivia in front of its first token. -/
def spanAlong (s : Slot) (path : List Nat) : Range :=
  ⟨s.offsetAlong path + (s.along path).leadingExtent, s.offsetAlong path + (s.along path).extent⟩

theorem rangeAlong_contains_span (s : Slot) (path : List Nat) :
    (s.rangeAlong 0 path).containsRange (s.spanAlong path) = true := by
  rw [Range.containsRange_iff]
  simp only [rangeAlong_start, rangeAlong_stop, spanAlong]
  omega

end Slot

/-! ## Matches -/

namespace NodePointer

/-- The pointer means the node at the end of the path, if there is no other one. -/
def points (p : NodePointer) (s : Slot) (path : List Nat) : Bool :=
  (s.along path).kind? == some p.kind && s.spanAlong path == p.range

theorem points_iff {p : NodePointer} {s : Slot} {path : List Nat} :
    p.points s path = true ↔ (s.along path).kind? = some p.kind ∧ s.spanAlong path = p.range := by
  simp [points]

/-- All that is meant under a node is covered by it. -/
theorem covers_of_points {p : NodePointer} {s : Slot} {path other : List Nat} (hmem : other ∈ s.preorder path)
    (h : p.points s other = true) : (s.rangeAlong 0 path).containsRange p.range = true := by
  obtain ⟨-, rest, rfl⟩ := Slot.append_of_mem_preorder hmem
  rw [← (points_iff.1 h).2]
  exact Range.containsRange_trans (s.rangeAlong_contains 0 path rest) (s.rangeAlong_contains_span _)

def coveringPaths (p : NodePointer) (s : Slot) (path : List Nat) (indices : List Nat) : List (List Nat) :=
  (indices.map fun i => path ++ [i]).filter fun other =>
    (s.along other).isNode && (s.rangeAlong 0 other).containsRange p.range

/-- Nothing that is meant is lost with the others. -/
theorem find?_pruned (p : NodePointer) (s : Slot) (path : List Nat) (indices : List Nat) :
    ((p.coveringPaths s path indices).flatMap s.preorder).find? (p.points s) =
      (indices.flatMap fun i => s.preorder (path ++ [i])).find? (p.points s) := by
  unfold coveringPaths
  induction indices with
  | nil => rfl
  | cons i rest ih =>
      rw [List.flatMap_cons, List.find?_append, ← ih, List.map_cons, List.filter_cons]
      split
      · rw [List.flatMap_cons, List.find?_append]
      · next hskip =>
          have hnone : (s.preorder (path ++ [i])).find? (p.points s) = none := by
            refine List.find?_eq_none.2 fun other hmem hpoints => hskip ?_
            rw [Bool.and_eq_true_iff]
            refine ⟨?_, covers_of_points hmem hpoints⟩
            cases hnode : (s.along (path ++ [i])).isNode with
            | true => rfl
            | false =>
                rw [Slot.preorder_eq_nil hnode] at hmem
                exact absurd hmem List.not_mem_nil
          rw [hnone, Option.none_or]

theorem length_coveringPaths_le (p : NodePointer) (s : Slot) (path : List Nat) (indices : List Nat) :
    ((p.coveringPaths s path indices).flatMap s.preorder).length ≤
      (indices.flatMap fun i => s.preorder (path ++ [i])).length := by
  have hsublist : (p.coveringPaths s path indices).Sublist (indices.map fun i => path ++ [i]) := List.filter_sublist
  have hle := (hsublist.flatMap s.preorder).length_le
  rw [List.flatMap_map] at hle
  exact hle

end NodePointer

/-! ## The search -/

namespace SyntaxTree

variable {t : SyntaxTree}

theorem Linked.run_pointer (ht : t.Linked) {h : NodeRef} {path : List Nat} {node : Node} (hplace : At t h.id path)
    (hnode : t.root.toSlot.along path = node.toSlot) :
    h.kind.run t = (.ok node.kind, t) ∧ h.span.run t = (.ok (t.root.toSlot.spanAlong path), t) := by
  obtain ⟨v, hv, hfact, hrange⟩ := ht.view_along hplace
  refine ⟨?_, ?_⟩
  · obtain ⟨n, hn, hrun⟩ := ht.run_node hplace (by rw [hnode]; rfl)
    have hkind : n.kind = node.kind := Option.some.inj (congrArg Slot.kind? (hn.symm.trans hnode))
    simp only [NodeRef.kind, Step.run_bind, hrun, Step.run_pure, hkind]
  · have hspan := (ht.spans hv).1.span
    rw [hrange, hfact] at hspan
    simp only [NodeRef.span, Step.run_bind, run_view hv, hspan, Step.run_lift]
    simp [Slot.spanAlong]

theorem Linked.run_ofNode (ht : t.Linked) {h : NodeRef} {path : List Nat} {node : Node} (hplace : At t h.id path)
    (hnode : t.root.toSlot.along path = node.toSlot) :
    (NodePointer.ofNode h).run t = (.ok ⟨node.kind, t.root.toSlot.spanAlong path⟩, t) := by
  obtain ⟨hkind, hspan⟩ := ht.run_pointer hplace hnode
  simp only [NodePointer.ofNode, Step.run_bind, hkind, hspan, Step.run_pure]

/-- The pointer to a node that is meant is the pointer itself. -/
theorem Linked.run_ofNode_of_points (ht : t.Linked) {p : NodePointer} {h : NodeRef} {path : List Nat}
    (hat : NodeAt t h path) (hpoints : p.points t.root.toSlot path = true) :
    (NodePointer.ofNode h).run t = (.ok p, t) := by
  obtain ⟨node, hnode⟩ := Slot.eq_node_of_isNode hat.isNode
  obtain ⟨hkind, hspan⟩ := NodePointer.points_iff.1 hpoints
  rw [hnode] at hkind
  rw [ht.run_ofNode hat.place hnode, hspan, show node.kind = p.kind from Option.some.inj hkind]

theorem Linked.run_childAt_each (ht : t.Linked) {h : NodeRef} {path : List Nat} (hplace : At t h.id path)
    (indices : List Nat) :
    ∃ answers u, (indices.mapM' h.childAt).run t = (.ok answers, u) ∧ Grown t u ∧ u.Linked ∧
      List.Forall₂ (fun i answer => Shows u (path ++ [i]) answer) indices answers := by
  induction indices generalizing t with
  | nil => exact ⟨[], t, rfl, .refl t, ht, .nil⟩
  | cons i rest ih =>
      obtain ⟨answer, u, hrun, hgrown, hu, hshows⟩ := ht.run_child hplace i
      obtain ⟨answers, u', hrest, hgrown', hu', hall⟩ := ih hu (hplace.grown hgrown)
      refine ⟨answer :: answers, u', ?_, hgrown.trans hgrown', hu', .cons (hshows.grown hgrown') hall⟩
      simp only [List.mapM', Step.run_bind, hrun, hrest, Step.run_pure]

theorem Linked.run_covering (ht : t.Linked) (p : NodePointer) {path : List Nat} {indices : List Nat}
    {answers : List (Option ElementRef)}
    (hshows : List.Forall₂ (fun i answer => Shows t (path ++ [i]) answer) indices answers) :
    ∃ nodes, (p.covering (answers.filterMap fun child => child)).run t = (.ok nodes, t) ∧
      List.Forall₂ (NodeAt t) nodes (p.coveringPaths t.root.toSlot path indices) := by
  induction hshows with
  | nil => exact ⟨[], rfl, .nil⟩
  | @cons i answer indices answers hfirst _ ih =>
      obtain ⟨nodes, hrun, hat⟩ := ih
      unfold NodePointer.coveringPaths at hat ⊢
      rw [List.map_cons, List.filter_cons]
      cases hfirst with
      | none habsent =>
          rw [habsent]
          exact ⟨nodes, hrun, hat⟩
      | token _ htoken =>
          rw [htoken]
          exact ⟨nodes, hrun, hat⟩
      | @node n hplace hnode =>
          have hspan := ht.run_nodeSpan hplace
          rw [hnode, Bool.true_and]
          refine ⟨if (t.root.toSlot.rangeAlong 0 (path ++ [i])).containsRange p.range then n :: nodes else nodes, ?_,
            ?_⟩
          · show (p.covering (.node n :: answers.filterMap fun child => child)).run t = _
            simp only [NodePointer.covering, Step.run_bind, hspan, hrun, Step.run_pure]
          · split
            · exact .cons ⟨hplace, hnode⟩ hat
            · exact hat

/-- **The search** finds the first one in preorder that is meant. -/
theorem Linked.run_search (ht : t.Linked) (p : NodePointer) {stack : List NodeRef} {places : List (List Nat)}
    (hstack : List.Forall₂ (NodeAt t) stack places) {fuel : Nat}
    (hfuel : (places.flatMap t.root.toSlot.preorder).length < fuel) :
    ∃ answer u, (p.search fuel stack).run t = (.ok answer, u) ∧ Grown t u ∧ u.Linked ∧
      Option.Rel (NodeAt u) answer ((places.flatMap t.root.toSlot.preorder).find? (p.points t.root.toSlot)) := by
  induction fuel generalizing t stack places with
  | zero => exact absurd hfuel (Nat.not_lt_zero _)
  | succ fuel ih =>
      cases hstack with
      | nil => exact ⟨none, t, rfl, .refl t, ht, .none⟩
      | @cons h path stack places hfirst hrest =>
          obtain ⟨hplace, hnode⟩ := hfirst
          obtain ⟨node, hfact⟩ := Slot.eq_node_of_isNode hnode
          obtain ⟨hkind, hspan⟩ := ht.run_pointer hplace hfact
          have htest : p.points t.root.toSlot path =
              (node.kind == p.kind && t.root.toSlot.spanAlong path == p.range) := by
            rw [NodePointer.points, hfact]
            rfl
          rw [List.flatMap_cons, Slot.preorder_node hnode, List.cons_append] at hfuel ⊢
          by_cases hpoints : p.points t.root.toSlot path = true
          · rw [List.find?_cons_of_pos hpoints]
            refine ⟨some h, t, ?_, .refl t, ht, .some ⟨hplace, hnode⟩⟩
            rw [htest] at hpoints
            simp only [NodePointer.search, Step.run_bind, hkind, hspan, hpoints, if_true, Step.run_pure]
          · obtain ⟨answers, u, hchildren, hgrown, hu, hshows⟩ :=
              ht.run_childAt_each hplace (List.range (t.root.toSlot.along path).count)
            obtain ⟨nodes, hcovering, hnodes⟩ := hu.run_covering p hshows
            rw [List.find?_cons_of_neg hpoints, List.find?_append, ← p.find?_pruned, ← List.find?_append,
              ← List.flatMap_append]
            have hstack' : List.Forall₂ (NodeAt u) (nodes ++ stack)
                (p.coveringPaths u.root.toSlot path (List.range (t.root.toSlot.along path).count) ++ places) :=
              List.rel_append hnodes (hrest.imp fun _ _ hat => hat.grown hgrown)
            have hle := p.length_coveringPaths_le t.root.toSlot path (List.range (t.root.toSlot.along path).count)
            rw [hgrown.root] at hstack'
            obtain ⟨answer, w, hrun, hgrown', hw, hrel⟩ := ih hu hstack' (by
              rw [List.length_cons, List.length_append] at hfuel
              rw [hgrown.root, List.flatMap_append, List.length_append]
              omega)
            rw [hgrown.root] at hrel
            refine ⟨answer, w, ?_, hgrown.trans hgrown', hw, hrel⟩
            rw [htest] at hpoints
            simp only [NodePointer.search, Step.run_bind, hkind, hspan, hpoints, if_false, NodeRef.children,
              NodeRef.childrenIn, ht.run_count hplace, hchildren, Step.run_pure, hcovering, Bool.false_eq_true]
            exact hrun

theorem Linked.run_resolve? (ht : t.Linked) (p : NodePointer) :
    ∃ answer u, (p.resolve? rootRef).run t = (.ok answer, u) ∧ Grown t u ∧ u.Linked ∧
      Option.Rel (NodeAt u) answer ((t.root.toSlot.preorder []).find? (p.points t.root.toSlot)) := by
  obtain ⟨v, hv, hparent, -⟩ := ht.root
  have hplace := ht.place_root
  have hspan := ht.run_nodeSpan hplace
  obtain ⟨n, hn, hrun⟩ := ht.run_node hplace rfl
  have hview : (view rootRef.id).run t = (.ok v, t) := run_view hv
  have hup : rootRef.parent.run t = (.ok none, t) := by
    simp only [NodeRef.parent, Step.run_bind, hview, hparent, Step.run_pure, Option.map_none]
  cases hcovers : (t.root.toSlot.rangeAlong 0 []).containsRange p.range with
  | false =>
      have hnone : (t.root.toSlot.preorder []).find? (p.points t.root.toSlot) = none := by
        refine List.find?_eq_none.2 fun path hmem hpoints => ?_
        rw [NodePointer.covers_of_points hmem hpoints] at hcovers
        cases hcovers
      rw [hnone]
      refine ⟨none, t, ?_, .refl t, ht, .none⟩
      simp only [NodePointer.resolve?, Step.run_bind, hup, hspan, hcovers, Option.isSome_none, Bool.not_false,
        Bool.or_true, if_true, Step.run_pure]
  | true =>
      have hlength := t.root.toSlot.length_preorder_le []
      have hsearch := ht.run_search p (.cons ht.nodeAt_root .nil : List.Forall₂ (NodeAt t) [rootRef] [[]])
        (by rw [List.flatMap_singleton]; exact Nat.lt_succ_of_le hlength)
      rw [List.flatMap_singleton, hn] at hsearch
      obtain ⟨answer, u, hfound, h⟩ := hsearch
      refine ⟨answer, u, ?_, h⟩
      simp only [NodePointer.resolve?, Step.run_bind, hup, hspan, hcovers, hrun, Option.isSome_none, Bool.not_true,
        Bool.or_false, Bool.false_eq_true, if_false]
      exact hfound

/-- A node that is not the root leads nowhere. -/
theorem Linked.run_resolve?_below (ht : t.Linked) (p : NodePointer) {h : NodeRef} {path : List Nat}
    (hplace : At t h.id path) (hbelow : path ≠ []) : (p.resolve? h).run t = (.ok none, t) := by
  have hspan := ht.run_nodeSpan hplace
  cases hplace with
  | root => exact absurd rfl hbelow
  | @child _ above v _ _ hv hparent =>
      have hup : h.parent.run t = (.ok (some ⟨above⟩), t) := by
        simp only [NodeRef.parent, Step.run_bind, run_view hv, hparent, Step.run_pure, Option.map_some]
      simp only [NodePointer.resolve?, Step.run_bind, hup, hspan, Option.isSome_some, Bool.true_or, if_true,
        Step.run_pure]

end SyntaxTree

open SyntaxTree (At)

/-- **Pointers lead to the first node in preorder** with their kind and range, and nowhere iff there is none. Preorder
is the order in which a walk enters the nodes. So the pointer to a node leads back to it, unless a node in front of it
has the same kind and range. From a node that is not the root they lead nowhere. -/
theorem pointer_resolves {root : Node} (hroot : root.toSlot.Obtainable) {t : SyntaxTree}
    (ht : (SyntaxTree.ofRoot root).Reaches t) :
    (∃ (events : List WalkEvent) (u : SyntaxTree),
      SyntaxTree.rootRef.wholeWalk.run t = (.ok (events.map Walk.Item.event), u) ∧
      List.Forall₂ (fun (n : NodeRef) path => At u n.id path) (events.filterMap WalkEvent.entered?)
        (root.toSlot.preorder [])) ∧
    (∀ {h : NodeRef} {path : List Nat} {node : Node}, At t h.id path → root.toSlot.along path = node.toSlot →
      ∃ (p : NodePointer) (m : NodeRef) (u : SyntaxTree) (place : List Nat) (earlier later : List (List Nat)),
        (NodePointer.ofNode h).run t = (.ok p, t) ∧ p = ⟨node.kind, root.toSlot.spanAlong path⟩ ∧
        (p.resolve? SyntaxTree.rootRef).run t = (.ok (some m), u) ∧ (NodePointer.ofNode m).run u = (.ok p, u) ∧
        At u m.id place ∧ root.toSlot.preorder [] = earlier ++ place :: later ∧ p.points root.toSlot place = true ∧
        (∀ other ∈ earlier, p.points root.toSlot other = false) ∧ (m = h ∨ path ∈ later)) ∧
    (∀ p : NodePointer, ∃ answer u, (p.resolve? SyntaxTree.rootRef).run t = (.ok answer, u) ∧
      (answer = none ↔ ∀ path, (root.toSlot.along path).isNode = true → p.points root.toSlot path = false)) ∧
    ∀ (p : NodePointer) {h : NodeRef} {path : List Nat}, At t h.id path → path ≠ [] →
      (p.resolve? h).run t = (.ok none, t) := by
  obtain ⟨hlinked, hgrown⟩ := ht.linked (SyntaxTree.linked_ofRoot (Slot.obtainable_iff_made.1 hroot))
  obtain rfl : t.root = root := hgrown.root
  refine ⟨?_, ?_, ?_, ?_⟩
  · obtain ⟨events, u, hrun, -, -, hall⟩ := hlinked.run_wholeWalk hlinked.nodeAt_root
    exact ⟨events, u, hrun, (SyntaxTree.Happens.nodes hall).imp fun _ _ hat => hat.place⟩
  · intro h path node hplace hnode
    have hmem : path ∈ t.root.toSlot.preorder [] := Slot.mem_preorder_root.2 (by rw [hnode]; rfl)
    have hself : NodePointer.points ⟨node.kind, t.root.toSlot.spanAlong path⟩ t.root.toSlot path = true :=
      NodePointer.points_iff.2 ⟨by rw [hnode]; rfl, rfl⟩
    obtain ⟨answer, u, hrun, hgrown', hu, hrel⟩ := hlinked.run_resolve? ⟨node.kind, t.root.toSlot.spanAlong path⟩
    generalize hfound : (t.root.toSlot.preorder []).find? _ = found at hrel
    cases hrel with
    | none => exact absurd hself (List.find?_eq_none.1 hfound path hmem)
    | @some m place hat =>
        obtain ⟨hpoints, earlier, later, hsplit, hbefore⟩ := List.find?_eq_some_iff_append.1 hfound
        have hearlier : ∀ other ∈ earlier,
            NodePointer.points ⟨node.kind, t.root.toSlot.spanAlong path⟩ t.root.toSlot other = false := by
          simpa using hbefore
        refine ⟨_, m, u, place, earlier, later, hlinked.run_ofNode hplace hnode, rfl, hrun,
          hu.run_ofNode_of_points hat (hgrown'.root ▸ hpoints), hat.place, hsplit, hpoints, hearlier, ?_⟩
        rw [hsplit, List.mem_append, List.mem_cons] at hmem
        rcases hmem with hmem | rfl | hmem
        · rw [hearlier path hmem] at hself
          cases hself
        · obtain ⟨a⟩ := m
          obtain ⟨b⟩ := h
          exact .inl (congrArg NodeRef.mk (hu.at_injective hat.place (hplace.grown hgrown')))
        · exact .inr hmem
  · intro p
    obtain ⟨answer, u, hrun, -, -, hrel⟩ := hlinked.run_resolve? p
    have hnone : (t.root.toSlot.preorder []).find? (p.points t.root.toSlot) = none ↔
        ∀ path, (t.root.toSlot.along path).isNode = true → p.points t.root.toSlot path = false := by
      simp only [List.find?_eq_none, Slot.mem_preorder_root, Bool.not_eq_true]
    refine ⟨answer, u, hrun, ?_⟩
    rw [← hnone]
    generalize (t.root.toSlot.preorder []).find? _ = found at hrel
    cases hrel with
    | none => simp
    | some _ => simp
  · intro p h path hplace hbelow
    exact hlinked.run_resolve?_below p hplace hbelow

/-- A list around a list of the same range, with trivia in front. -/
def doubledList : Except Fault Node := do
  let inner ← Node.make 2 .list [.absent, (indentedName 1 3).toSlot]
  let outer ← Node.make 3 .list [inner.toSlot]
  Node.make 5 .list [outer.toSlot, (indentedName 4 2).toSlot]

theorem doubledList_obtainable {root : Node} (h : doubledList = .ok root) : root.toSlot.Obtainable := by
  obtain ⟨inner, hinner, h⟩ := bind_eq_ok_iff.1 h
  obtain ⟨outer, houter, h⟩ := bind_eq_ok_iff.1 h
  have hin : inner.toSlot.Obtainable := by
    refine .node ?_ hinner
    simp only [List.mem_cons, List.not_mem_nil, or_false, forall_eq_or_imp, forall_eq]
    exact ⟨.absent, indentedName_obtainable 1 3⟩
  have hout : outer.toSlot.Obtainable := .node (by simpa using hin) houter
  refine .node ?_ h
  simp only [List.mem_cons, List.not_mem_nil, or_false, forall_eq_or_imp, forall_eq]
  exact ⟨hout, indentedName_obtainable 4 2⟩

/-- The pointer to the inner list leads to the outer one, which is in front of it. A pointer of another kind leads
nowhere. -/
theorem doubledList_resolves : ∃ (root : Node) (t : SyntaxTree) (h m : NodeRef) (u : SyntaxTree),
    doubledList = .ok root ∧ root.toSlot.Obtainable ∧ (SyntaxTree.ofRoot root).Reaches t ∧ At t h.id [0, 0] ∧
    (NodePointer.ofNode h).run t = (.ok ⟨.list, ⟨2, 5⟩⟩, t) ∧
    (NodePointer.resolve? ⟨.list, ⟨2, 5⟩⟩ SyntaxTree.rootRef).run t = (.ok (some m), u) ∧ At u m.id [0] ∧
    (NodePointer.resolve? ⟨.list, ⟨2, 5⟩⟩ h).run t = (.ok none, t) ∧
    ∃ w, (NodePointer.resolve? ⟨.nameRef, ⟨2, 5⟩⟩ SyntaxTree.rootRef).run t = (.ok none, w) := by
  obtain ⟨root, inner, hn, hinner, hpresent, hkind, hspan, horder, hroot, houter, hothers⟩ :
      ∃ (root inner : Node), doubledList = .ok root ∧ root.toSlot.along [0, 0] = inner.toSlot ∧
        (root.toSlot.along [0, 0]).isPresent = true ∧ inner.kind = .list ∧ root.toSlot.spanAlong [0, 0] = ⟨2, 5⟩ ∧
        root.toSlot.preorder [] = [[], [0], [0, 0]] ∧
        NodePointer.points ⟨.list, ⟨2, 5⟩⟩ root.toSlot [] = false ∧
        NodePointer.points ⟨.list, ⟨2, 5⟩⟩ root.toSlot [0] = true ∧
        ∀ path ∈ [[], [0], [0, 0]], NodePointer.points ⟨.nameRef, ⟨2, 5⟩⟩ root.toSlot path = false :=
    ⟨_, _, rfl, rfl, rfl, rfl, rfl, rfl, rfl, rfl, by decide +kernel⟩
  have hobtainable := doubledList_obtainable hn
  have hlinked := SyntaxTree.linked_ofRoot (Slot.obtainable_iff_made.1 hobtainable)
  obtain ⟨top, htop, hparent, hfact, -⟩ := hlinked.root
  rw [show root.toSlot = top.fact from hfact.symm] at hpresent
  obtain ⟨t, c, hreach, hat⟩ := hlinked.exists_view_below htop (.root htop hparent) hpresent
  replace hat : At t c [0, 0] := hat
  obtain ⟨-, hback, hnone, hbelow⟩ := pointer_resolves hobtainable hreach
  obtain ⟨p, m, u, place, earlier, later, hptr, rfl, hrun, -, hplace, hsplit, hpoints, hbefore, -⟩ :=
    hback (h := ⟨c⟩) hat hinner
  rw [hkind, hspan] at hptr hrun hpoints hbefore
  obtain rfl : place = [0] := by
    rw [horder] at hsplit
    rcases earlier with - | ⟨first, - | ⟨second, earlier⟩⟩
    · rw [← (List.cons.inj hsplit).1, hroot] at hpoints
      cases hpoints
    · exact (List.cons.inj (List.cons.inj hsplit).2).1.symm
    · have hsecond := hbefore second (by simp)
      rw [← (List.cons.inj (List.cons.inj hsplit).2).1, houter] at hsecond
      cases hsecond
  obtain ⟨answer, w, hmiss, hiff⟩ := hnone ⟨.nameRef, ⟨2, 5⟩⟩
  have hall : answer = none := hiff.2 fun path hpath => hothers path (horder ▸ Slot.mem_preorder_root.2 hpath)
  exact ⟨root, t, ⟨c⟩, m, u, hn, hobtainable, hreach, hat, hptr, hrun, hplace,
    hbelow _ hat (List.cons_ne_nil _ _), w, hall ▸ hmiss⟩

end LosslessSyntax
