import LosslessSyntax.Proofs.Fact.Obtainable
import LosslessSyntax.Proofs.View.Queries

/-!
# Views stand for paths

Whatever has been asked of a tree, in whatever order, its views stand for paths of slots from the root: a view has
the fact at the end of its path, and starts behind the widths of all that lies in front of it along the path. So
nothing that is asked next can depend on what was asked before.

* `SyntaxTree.Reaches` : the trees after any number of queries;
* `SyntaxTree.Stands` : a view is the fact at its path;
* `views_refine_paths` : what holds after any queries, and that no query can tell them apart.
-/

set_option autoImplicit false

namespace LosslessSyntax

open Placed (Same)
open SyntaxTree (At)

namespace SyntaxTree

/-- What the value names are views of the tree. -/
def Holds {α : Type} [Placed α] (t : SyntaxTree) (x : α) : Prop := Same ⟨t, t⟩ x x

/-- The trees after any number of queries about views that there are. -/
inductive Reaches (t : SyntaxTree) : SyntaxTree → Prop
  | refl : Reaches t t
  | ask {u : SyntaxTree} (h : Reaches t u) (q : Query) {x : q.Handle} (hx : u.Holds x) :
    Reaches t ((q.run x).run u).2

/-- One query keeps the links right, and what is known of the slots. -/
theorem Linked.ask {u : SyntaxTree} (h : u.Linked) (q : Query) {x : q.Handle} (hx : u.Holds x) :
    ((q.run x).run u).2.Linked ∧ Grown u ((q.run x).run u).2 := by
  obtain ⟨hgrown, hlinked, -⟩ := q.alike hx ⟨h, h, rfl⟩
  exact ⟨hlinked.left, hgrown.left⟩

theorem Reaches.linked {t u : SyntaxTree} (h : Reaches t u) (ht : t.Linked) : u.Linked ∧ Grown t u := by
  induction h with
  | refl => exact ⟨ht, .refl t⟩
  | ask _ q hx ih =>
      obtain ⟨hlinked, hgrown⟩ := ih.1.ask q hx
      exact ⟨hlinked, ih.2.trans hgrown⟩

/-- The view is the fact at the end of a path of slots from the root, and its only path is this one. -/
structure Stands (root : Node) (t : SyntaxTree) (id : Nat) (v : View) (path : List Nat) : Prop where
  place : At t id path
  only : ∀ other, At t id other → other = path
  fact : descend root.toSlot path = .ok v.fact
  offset : v.offset = root.toSlot.offsetAlong path
  parent : v.parent = none ∧ path = [] ∨
    ∃ p front, v.parent = some p ∧ At t p front ∧ path = front ++ [v.index]
  /-- A slot is known to be empty only if it is. -/
  empty : ∀ {i : Nat}, v.slots[i]? = some .absent → v.fact.slots[i]? = some .absent
  /-- A child is known in a slot iff it is the view one step further. -/
  known : ∀ {i c : Nat}, v.slots[i]? = some (.present c) ↔ At t c (path ++ [i])
  /-- The fact that is found from the root is the one that the view holds. -/
  found : (factAt id).run t = (.ok v.fact, t)
  /-- Asking for a child finds the view one step further, or that there is nothing. -/
  child : ∀ i : Nat, ∃ answer u, (childView id i).run t = (.ok answer, u) ∧
    (answer = none ↔ (v.fact.slots[i]?.getD .absent).isPresent = false) ∧
    ∀ c, answer = some c → At u c (path ++ [i])

theorem Linked.stands {t : SyntaxTree} (h : t.Linked) {id : Nat} {v : View} (hv : t.views[id]? = some v) :
    ∃ path, Stands t.root t id v path := by
  obtain ⟨path, hlocated⟩ := h.located hv
  have hplace := hlocated.place
  refine ⟨path, hplace, fun other hother => hother.unique hplace, hlocated.fact, hlocated.offset, ?_, h.empty hv, ?_,
    h.run_factAt hv, fun i => ?_⟩
  · obtain ⟨v', hv', hpath⟩ := hplace.view
    rw [hv] at hv'
    cases hv'
    exact hpath
  · intro i c
    constructor
    · intro hslot
      obtain ⟨x, hx, hparent, hindex⟩ := h.known hv hslot
      rw [← hindex]
      exact .child hplace hx hparent
    · intro hc
      obtain ⟨x, hx, ⟨-, hnil⟩ | ⟨p, front, hparent, hp, hsnoc⟩⟩ := hc.view
      · exact absurd hnil (List.append_ne_nil_of_right_ne_nil _ (List.cons_ne_nil _ _))
      · obtain ⟨rfl, hindex⟩ := List.append_inj' hsnoc rfl
        obtain rfl := h.at_injective hp hplace
        obtain ⟨-, v', hv', -, hslot⟩ := h.child hx hparent
        rw [hv] at hv'
        cases hv'
        rw [List.head_eq_of_cons_eq hindex]
        exact hslot
  · obtain ⟨answer, u, hrun, hgrown, hu, hfinds⟩ := h.childView hv i
    refine ⟨answer, u, hrun, hfinds.eq_none_iff hu hgrown hv, ?_⟩
    rintro c rfl
    exact hfinds.at (hplace.grown hgrown)

end SyntaxTree

open SyntaxTree (Stands)

/-- **Views stand for paths**, whatever has been asked. Each view has one path, and different views have different
paths. Later queries add to what is known and change none of it, and no query can tell what was asked before. -/
theorem views_refine_paths {root : Node} (hroot : root.toSlot.Obtainable) {t : SyntaxTree}
    (ht : (SyntaxTree.ofRoot root).Reaches t) :
    (∀ {id : Nat} {v : View}, t.views[id]? = some v → ∃ path, Stands root t id v path) ∧
    (∀ {a b : Nat} {path other : List Nat}, At t a path → At t b other → (a = b ↔ path = other)) ∧
    (∀ {u : SyntaxTree}, t.Reaches u → t.Grown u) ∧
    ∀ {u : SyntaxTree}, (SyntaxTree.ofRoot root).Reaches u → ∀ (q : Query) {x y : q.Handle}, Same ⟨t, u⟩ x y →
      SameOutcome (TreePair.after ⟨t, u⟩ (q.run x) (q.run y)) ((q.run x).run t).1 ((q.run y).run u).1 := by
  have hstart := SyntaxTree.linked_ofRoot (Slot.obtainable_iff_made.1 hroot)
  obtain ⟨hlinked, hgrown⟩ := ht.linked hstart
  refine ⟨fun hv => ?_, fun ha hb => ⟨?_, ?_⟩, fun hu => (hu.linked hlinked).2, fun hu q x y hsame => ?_⟩
  · obtain ⟨path, hpath⟩ := hlinked.stands hv
    rw [hgrown.root] at hpath
    exact ⟨path, hpath⟩
  · rintro rfl
    exact ha.unique hb
  · rintro rfl
    exact hlinked.at_injective ha hb
  · obtain ⟨hlinked', hgrown'⟩ := hu.linked hstart
    exact (q.alike hsame ⟨hlinked, hlinked', hgrown'.root.trans hgrown.root.symm⟩).outcome

/-- Two nodes with an empty slot between them. -/
def sparseList : Except Fault Node := do
  let first ← Node.make 2 .nameRef [(Token.assemble 0 .absent .name 3 false []).toSlot]
  let second ← Node.make 3 .nameRef [.absent, (Token.assemble 1 .absent .name 4 false []).toSlot]
  Node.make 4 .list [first.toSlot, .absent, second.toSlot]

theorem sparseList_obtainable {root : Node} (h : sparseList = .ok root) : root.toSlot.Obtainable := by
  obtain ⟨first, hfirst, h⟩ := bind_eq_ok_iff.1 h
  obtain ⟨second, hsecond, h⟩ := bind_eq_ok_iff.1 h
  refine .node ?_ h
  simp only [List.mem_cons, List.not_mem_nil, or_false, forall_eq_or_imp, forall_eq]
  refine ⟨.node ?_ hfirst, .absent, .node ?_ hsecond⟩
  · simp only [List.mem_singleton, forall_eq]
    exact .plain 0 .name 3
  · simp only [List.mem_cons, List.not_mem_nil, or_false, forall_eq_or_imp, forall_eq]
    exact ⟨.absent, .plain 1 .name 4⟩

theorem SyntaxTree.at_below_root {t : SyntaxTree} {id i : Nat} (htop : t.views[0]?.map (·.parent) = some none)
    (hview : t.views[id]?.map (fun v => (v.parent, v.index)) = some (some 0, i)) :
    ∃ v, t.views[id]? = some v ∧ At t id [i] := by
  obtain ⟨top, htop, hnone⟩ := Option.map_eq_some_iff.1 htop
  obtain ⟨v, hv, hlink⟩ := Option.map_eq_some_iff.1 hview
  obtain ⟨hparent, rfl⟩ := Prod.mk.inj hlink
  exact ⟨v, hv, .child (.root htop hnone) hv hparent⟩

/-- The second of the nodes is the third view if the children are asked for in order, and the second view if it is
asked for at once. No query about it can tell. -/
theorem sparseList_in_two_orders : ∃ (root : Node) (t u : SyntaxTree), sparseList = .ok root ∧
    root.toSlot.Obtainable ∧ (SyntaxTree.ofRoot root).Reaches t ∧ (SyntaxTree.ofRoot root).Reaches u ∧
    (∃ v, Stands root t 2 v [2]) ∧ (∃ v, Stands root u 1 v [2]) ∧
    ∀ q : NodeRef.Query, SameOutcome (TreePair.after ⟨t, u⟩ (q.run ⟨2⟩) (q.run ⟨1⟩)) ((q.run ⟨2⟩).run t).1
      ((q.run ⟨1⟩).run u).1 := by
  have hstart : ∀ root, (SyntaxTree.ofRoot root).Holds SyntaxTree.rootRef :=
    fun root => ⟨[], .root rfl rfl, .root rfl rfl⟩
  obtain ⟨root, t, u, hroot, ht, hu, htop, hthird, htop', hsecond⟩ : ∃ (root : Node) (t u : SyntaxTree),
      sparseList = .ok root ∧ (SyntaxTree.ofRoot root).Reaches t ∧ (SyntaxTree.ofRoot root).Reaches u ∧
      t.views[0]?.map (·.parent) = some none ∧ t.views[2]?.map (fun v => (v.parent, v.index)) = some (some 0, 2) ∧
      u.views[0]?.map (·.parent) = some none ∧ u.views[1]?.map (fun v => (v.parent, v.index)) = some (some 0, 2) :=
    ⟨_, _, _, rfl, .ask .refl (.node .children) (hstart _), .ask .refl (.node (.childAt 2)) (hstart _), rfl, rfl, rfl,
      rfl⟩
  have hobtainable := sparseList_obtainable hroot
  obtain ⟨v, hv, hat⟩ := SyntaxTree.at_below_root htop hthird
  obtain ⟨v', hv', hat'⟩ := SyntaxTree.at_below_root htop' hsecond
  obtain ⟨hstands, -, -, hquery⟩ := views_refine_paths hobtainable ht
  obtain ⟨hstands', -⟩ := views_refine_paths hobtainable hu
  obtain ⟨path, hpath⟩ := hstands hv
  obtain ⟨path', hpath'⟩ := hstands' hv'
  obtain rfl := hpath.only _ hat
  obtain rfl := hpath'.only _ hat'
  exact ⟨root, t, u, hroot, hobtainable, ht, hu, ⟨v, hpath⟩, ⟨v', hpath'⟩,
    fun q => hquery hu (.node q) ⟨[2], hat, hat'⟩⟩

end LosslessSyntax
