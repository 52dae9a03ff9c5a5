import Mathlib.Data.List.Induction
import LosslessSyntax.Proofs.View.NodeLookup

/-!
# The nodes around a stretch of text

The slots of a node do not overlap, so at most one of them lies around a stretch of text, and at every node on its way
down the lookup chooses that one. So it passes all the nodes around the stretch, and the last of them is the deepest.
From there it may go up again through nodes of the same range. Ranges do not shrink on the way up, so the node where it
stops is the outermost one of that range.

* `Slot.NodeAround` : a node below that lies around a span;
* `Slot.Descends.deepest` : the way down passes all of them, if the span has text;
* `Slot.Outermost` : the first place on a way with the range of its end; `Linked.run_climbTo` : the way up leads there;
* `nodeAt_deepest` : what the lookup finds, and when it fails.
-/

set_option autoImplicit false

namespace LosslessSyntax

theorem Range.containsRange_antisymm {a b : Range} (h : a.containsRange b = true) (h' : b.containsRange a = true) :
    a = b := by
  obtain ⟨start, stop⟩ := a
  obtain ⟨start', stop'⟩ := b
  simp only [Range.containsRange_iff, Range.mk.injEq] at *
  omega

namespace Slot

/-! ## The way down -/

/-- The node at the end of the path lies around the span, where the fact starts at `start`. -/
def NodeAround (s : Slot) (start : Nat) (span : Range) (path : List Nat) : Prop :=
  (s.along path).isNode = true ∧ (s.rangeAlong start path).containsRange span = true

theorem NodeAround.below {s : Slot} {start i : Nat} {span : Range} {rest : List Nat}
    (h : s.NodeAround start span (i :: rest)) :
    (s.along [i]).NodeAround (start + s.offsetAlong [i]) span rest := by
  have hrange := rangeAlong_append s start [i] rest
  unfold NodeAround at *
  rw [← hrange]
  exact h

theorem NodeAround.slot {s : Slot} {start i : Nat} {span : Range} {rest : List Nat}
    (h : s.NodeAround start span (i :: rest)) : s.NodeAround start span [i] :=
  ⟨isNode_of_along h.below.1, Range.containsRange_trans (s.rangeAlong_contains start [i] rest) h.2⟩

/-- For a span with text the slot over its start is chosen. -/
theorem Choice.of_over {s : Slot} {offset i : Nat} {choice : Option Nat} (h : s.Choice offset false choice)
    (hstart : s.offsetAlong [i] ≤ offset) (hstop : offset < s.offsetAlong [i] + (s.along [i]).extent) :
    choice = some i := by
  have hle := s.extent_along_le [i]
  cases h with
  | blocked hspan _ _ _ => exact absurd hspan (by decide)
  | next hnext _ _ => rw [hnext.eq hstart hstop]
  | last hnext _ hend => rcases hnext with ⟨hlt, -⟩ | ⟨-, hstop'⟩ <;> omega

/-- At each node the way down goes on towards the nodes around a span with text. -/
theorem Choice.of_around {s : Slot} {start i : Nat} {span : Range} {choice : Option Nat}
    (h : s.Choice (span.start - start) span.isEmpty choice) (hspan : span.start < span.stop)
    (haround : s.NodeAround start span [i]) : choice = some i := by
  have hin := Range.containsRange_iff.1 haround.2
  simp only [rangeAlong_start, rangeAlong_stop] at hin
  have htext : span.isEmpty = false := by
    simp only [Range.isEmpty, beq_eq_false_iff_ne]
    omega
  rw [htext] at h
  exact h.of_over (by omega) (by omega)

/-- **The way down passes all the nodes around a span with text.** -/
theorem Descends.deepest {span : Range} {s : Slot} {start : Nat} {q : List Nat} (h : Descends span s start q)
    (hspan : span.start < span.stop) {inner : List Nat} (haround : s.NodeAround start span inner) : inner <+: q := by
  induction h generalizing inner with
  | stop hchoice hend =>
      rcases inner with - | ⟨k, rest⟩
      · exact List.nil_prefix
      · -- the way would have gone on into the slot `k`
        have hout := hend k (hchoice.of_around hspan haround.slot) haround.slot.1
        exact absurd (haround.slot.2.symm.trans hout) (by decide)
  | down hchoice _ _ _ ih =>
      rcases inner with - | ⟨k, rest⟩
      · exact List.nil_prefix
      · obtain rfl := Option.some.inj (hchoice.of_around hspan haround.slot)
        rw [List.cons_prefix_cons]
        exact ⟨rfl, ih haround.below⟩

/-! ## The way up -/

/-- Of the places on the way along `q`, the end of `top` is the first one with the range of the last. -/
structure Outermost (s : Slot) (start : Nat) (top q : List Nat) : Prop where
  above : top <+: q
  range : s.rangeAlong start top = s.rangeAlong start q
  first : ∀ p, p <+: q → s.rangeAlong start p = s.rangeAlong start q → top <+: p

theorem outermost_nil (s : Slot) (start : Nat) : s.Outermost start [] [] :=
  ⟨List.nil_prefix, rfl, fun _ _ _ => List.nil_prefix⟩

/-- A place with the range of the one above it changes nothing. -/
theorem Outermost.snoc {s : Slot} {start i : Nat} {top q : List Nat} (h : s.Outermost start top q)
    (hsame : s.rangeAlong start q = s.rangeAlong start (q ++ [i])) : s.Outermost start top (q ++ [i]) := by
  refine ⟨h.above.trans (List.prefix_append q [i]), h.range.trans hsame, ?_⟩
  intro p hp hrange
  rcases List.prefix_concat_iff.1 hp with rfl | hp
  · exact h.above.trans (List.prefix_append q [i])
  · exact h.first p hp (hrange.trans hsame.symm)

/-- A place with another range than the one above it is the first one with its range. -/
theorem outermost_self {s : Slot} {start i : Nat} {q : List Nat}
    (hdiff : s.rangeAlong start q ≠ s.rangeAlong start (q ++ [i])) : s.Outermost start (q ++ [i]) (q ++ [i]) := by
  refine ⟨List.prefix_refl _, rfl, ?_⟩
  intro p hp hrange
  rcases List.prefix_concat_iff.1 hp with rfl | ⟨rest, rfl⟩
  · exact List.prefix_refl _
  · -- what lies between two places of one range has that range
    have hinside := s.rangeAlong_contains start p rest
    rw [hrange] at hinside
    exact absurd (Range.containsRange_antisymm (s.rangeAlong_contains start (p ++ rest) [i]) hinside) hdiff

end Slot

namespace SyntaxTree

variable {t : SyntaxTree}

/-- The way up ends at the outermost node of the same range, and not above the node where the lookup began. -/
theorem Linked.run_climbTo (ht : t.Linked) {top h : NodeRef} {path q : List Nat} (htop : At t top.id path)
    (hplace : At t h.id (path ++ q)) {fuel : Nat} (hfuel : q.length < fuel) :
    ∃ r p, (NodeRef.climbTo top fuel h).run t = (.ok r, t) ∧ At t r.id (path ++ p) ∧
      (t.root.toSlot.along path).Outermost (t.root.toSlot.rangeAlong 0 path).start p q := by
  induction q using List.reverseRecOn generalizing h fuel with
  | nil =>
      obtain ⟨fuel, rfl⟩ := Nat.exists_eq_succ_of_ne_zero (Nat.ne_of_gt hfuel)
      rw [List.append_nil] at hplace
      have hsame : h = top := congrArg NodeRef.mk (ht.at_injective hplace htop)
      refine ⟨top, [], ?_, ?_, Slot.outermost_nil _ _⟩
      · simp only [NodeRef.climbTo, hsame, beq_self_eq_true, if_true, Step.run_pure]
      · rw [List.append_nil]
        exact htop
  | append_singleton q i ih =>
      obtain ⟨fuel, rfl⟩ := Nat.exists_eq_succ_of_ne_zero (Nat.ne_of_gt (Nat.zero_lt_of_lt hfuel))
      rw [List.length_append, List.length_singleton] at hfuel
      have hother : (h == top) = false := by
        rw [beq_eq_false_iff_ne]
        rintro rfl
        have heq := hplace.unique htop
        simp at heq
      obtain ⟨v, hv, ⟨-, hnil⟩ | ⟨p, front, hparent, hp, hsnoc⟩⟩ := hplace.view
      · simp at hnil
      · rw [← List.append_assoc] at hsnoc
        obtain ⟨rfl, -⟩ := List.append_inj' hsnoc rfl
        have hup : h.parent.run t = (.ok (some ⟨p⟩), t) := by
          simp only [NodeRef.parent, Step.run_bind, run_view hv, Step.run_pure, hparent, Option.map_some]
        have hspan := ht.run_nodeSpan hplace
        have hspan' := ht.run_nodeSpan (h := ⟨p⟩) hp
        rw [Slot.rangeAlong_append] at hspan hspan'
        by_cases hsame : (t.root.toSlot.along path).rangeAlong (0 + t.root.toSlot.offsetAlong path) q =
            (t.root.toSlot.along path).rangeAlong (0 + t.root.toSlot.offsetAlong path) (q ++ [i])
        · obtain ⟨r, p', hrun, hat, houter⟩ := ih (h := ⟨p⟩) hp (Nat.lt_of_succ_lt_succ hfuel)
          refine ⟨r, p', ?_, hat, houter.snoc hsame⟩
          simp only [NodeRef.climbTo, hother, Bool.false_eq_true, if_false, Step.run_bind, hup, hspan, hspan', hsame,
            beq_self_eq_true, if_true]
          exact hrun
        · refine ⟨h, q ++ [i], ?_, hplace, Slot.outermost_self hsame⟩
          simp only [NodeRef.climbTo, hother, Bool.false_eq_true, if_false, Step.run_bind, hup, hspan, hspan',
            beq_iff_eq, hsame, Step.run_pure]

end SyntaxTree

open SyntaxTree (At)

/-- **The deepest node around a span.** Inside the text of a node the lookup finds a node around the span. If the span
has text, all nodes around it lie above the one found. The outermost of the nodes with the same range as that one, up to
the node where the lookup began, is found if the innermost is not asked for. Outside of the node, and only there, the
lookup fails. -/
theorem nodeAt_deepest {root : Node} (hroot : root.toSlot.Obtainable) {t : SyntaxTree}
    (ht : (SyntaxTree.ofRoot root).Reaches t) {h : NodeRef} {path : List Nat} (hplace : At t h.id path)
    (hnode : (root.toSlot.along path).isNode = true) {full : Range} (hfull : h.fullSpan.run t = (.ok full, t))
    {span : Range} (hspan : span.start ≤ span.stop) :
    (full.containsRange span = false →
      ∀ innermost, (h.nodeAt span innermost).run t = (.error (.spanOutside span full), t)) ∧
    (full.containsRange span = true → ∃ r u q range, (h.nodeAt span true).run t = (.ok r, u) ∧
      At u r.id (path ++ q) ∧ (root.toSlot.along (path ++ q)).isNode = true ∧
      r.fullSpan.run u = (.ok range, u) ∧ range.containsRange span = true ∧
      (span.start < span.stop →
        ∀ inner, (root.toSlot.along path).NodeAround full.start span inner → inner <+: q) ∧
      ∃ r' u' top, (h.nodeAt span false).run t = (.ok r', u') ∧ At u' r'.id (path ++ top) ∧
        r'.fullSpan.run u' = (.ok range, u') ∧ (root.toSlot.along path).Outermost full.start top q) := by
  obtain ⟨hlinked, rfl, rfl⟩ := ht.span_eq hroot hplace hfull
  constructor
  · intro hout innermost
    simp only [NodeRef.nodeAt, Step.run_bind, hfull, hout, Bool.false_eq_true, if_false, Step.run_fail]
  · intro hin
    obtain ⟨r, u, q, hrun, hrun', hgrown, hu, hat, hdown⟩ := hlinked.run_nodeAt hplace hnode hspan hin
    obtain ⟨hnode', hin'⟩ := hdown.around hnode hin
    rw [← Slot.along_append] at hnode'
    -- the number of a view bounds its depth
    obtain ⟨v, hv, -⟩ := hat.view
    obtain ⟨_, hlocated⟩ := hu.located hv
    have hdepth := hlocated.depth
    rw [hlocated.place.unique hat, List.length_append] at hdepth
    have hfuel : q.length < r.id + 1 := by omega
    obtain ⟨r', top, hclimb, hat', houter⟩ := hu.run_climbTo (hplace.grown hgrown) hat hfuel
    have hspan' := hu.run_nodeSpan hat
    have hspan'' := hu.run_nodeSpan hat'
    rw [hgrown.root, Slot.rangeAlong_append] at hspan' hspan''
    rw [hgrown.root] at houter
    refine ⟨r, u, q, _, hrun, hat, hnode', hspan', hin', fun htext inner => hdown.deepest htext, r', u, top,
      hrun'.trans hclimb, hat', ?_, houter⟩
    rw [hspan'']
    exact congrArg (fun range => (Except.ok range, u)) houter.range

/-- A node around another one of the same range, between a node without width and a name. -/
def wrappedName : Except Fault Node := do
  let empty ← Node.make 0 .list []
  let inner ← Node.make 2 .nameRef [.absent, (Token.plain 1 .name 3).toSlot, empty.toSlot]
  let outer ← Node.make 3 .list [inner.toSlot]
  Node.make 5 .list [empty.toSlot, outer.toSlot, (Token.plain 4 .name 2).toSlot]

theorem wrappedName_obtainable {root : Node} (h : wrappedName = .ok root) : root.toSlot.Obtainable := by
  obtain ⟨empty, hempty, h⟩ := bind_eq_ok_iff.1 h
  obtain ⟨inner, hinner, h⟩ := bind_eq_ok_iff.1 h
  obtain ⟨outer, houter, h⟩ := bind_eq_ok_iff.1 h
  have hnone : empty.toSlot.Obtainable := .node (by simp) hempty
  have hin : inner.toSlot.Obtainable := by
    refine .node ?_ hinner
    simp only [List.mem_cons, List.not_mem_nil, or_false, forall_eq_or_imp, forall_eq]
    exact ⟨.absent, .plain 1 .name 3, hnone⟩
  refine .node ?_ h
  simp only [List.mem_cons, List.not_mem_nil, or_false, forall_eq_or_imp, forall_eq]
  refine ⟨hnone, .node ?_ houter, .plain 4 .name 2⟩
  simpa using hin

theorem wrappedName_deepest : ∃ (root : Node) (r r' : NodeRef) (u u' : SyntaxTree) (q top : List Nat),
    wrappedName = .ok root ∧ root.toSlot.Obtainable ∧
    (SyntaxTree.rootRef.nodeAt ⟨1, 2⟩ true).run (SyntaxTree.ofRoot root) = (.ok r, u) ∧ At u r.id q ∧ [1, 0] <+: q ∧
    (SyntaxTree.rootRef.nodeAt ⟨1, 2⟩ false).run (SyntaxTree.ofRoot root) = (.ok r', u') ∧ At u' r'.id top ∧
    root.toSlot.Outermost 0 top q ∧
    (SyntaxTree.rootRef.nodeAt ⟨4, 6⟩ true).run (SyntaxTree.ofRoot root) =
      (.error (.spanOutside ⟨4, 6⟩ ⟨0, 5⟩), SyntaxTree.ofRoot root) := by
  obtain ⟨root, hn, hnode, hfull, haround⟩ : ∃ root : Node, wrappedName = .ok root ∧
      (root.toSlot.along []).isNode = true ∧
      SyntaxTree.rootRef.fullSpan.run (SyntaxTree.ofRoot root) = (.ok ⟨0, 5⟩, SyntaxTree.ofRoot root) ∧
      root.toSlot.NodeAround 0 ⟨1, 2⟩ [1, 0] :=
    ⟨_, rfl, rfl, rfl, rfl, rfl⟩
  have hobtainable := wrappedName_obtainable hn
  have hplace : At (SyntaxTree.ofRoot root) SyntaxTree.rootRef.id [] := .root rfl rfl
  have hspan : (⟨1, 2⟩ : Range).start ≤ (⟨1, 2⟩ : Range).stop := by decide
  have hspan' : (⟨4, 6⟩ : Range).start ≤ (⟨4, 6⟩ : Range).stop := by decide
  obtain ⟨-, hfound⟩ := nodeAt_deepest hobtainable .refl hplace hnode hfull hspan
  obtain ⟨hfails, -⟩ := nodeAt_deepest hobtainable .refl hplace hnode hfull hspan'
  obtain ⟨r, u, q, _, hrun, hat, -, -, -, hpassed, r', u', top, hrun', hat', -, houter⟩ := hfound rfl
  exact ⟨root, r, r', u, u', q, top, hn, hobtainable, hrun, hat, hpassed (by decide) _ haround, hrun', hat', houter,
    hfails rfl true⟩

end LosslessSyntax
