import LosslessSyntax.Proofs.View.Refinement
import LosslessSyntax.Proofs.View.Walks

/-!
# Walks to their end

Whatever nodes are skipped on it, a walk makes the visits of the recursion and ends. A walk over nodes alone makes the
same visits but for those to tokens. What a walk that skips nothing meets under a node is everything there, each once,
in document order.

* `Precedes` : document order of places, and `Slot.pairwise_met` : a walk meets places in that order;
* `Slot.mem_met` : it meets all that is present;
* `Walk.skipsAt` : the nodes at chosen places are skipped;
* `Linked.run_descendants` : what there is under a node;
* `walks_follow_recursion` : walks with skips, and what is under a node.
-/

set_option autoImplicit false

namespace LosslessSyntax

/-! ## Document order -/

/-- A place comes before what stands under it, and so does all that is in an earlier slot of the node where two ways
part. -/
inductive Precedes : List Nat → List Nat → Prop
  | above (path : List Nat) {rest : List Nat} (hrest : rest ≠ []) : Precedes path (path ++ rest)
  | aside (path : List Nat) {i j : Nat} (hij : i < j) (rest rest' : List Nat) :
      Precedes (path ++ i :: rest) (path ++ j :: rest')

theorem Precedes.ne {p q : List Nat} (h : Precedes p q) : p ≠ q := by
  cases h with
  | above path hrest => exact fun heq => hrest (List.self_eq_append_right.1 heq)
  | aside path hij rest rest' =>
      intro heq
      have hsame := (List.cons.inj (List.append_cancel_left heq)).1
      omega

namespace Slot

/-- The places that a walk without skips meets, from what stands at the end of a path. -/
def met (path : List Nat) (s : Slot) : List (List Nat) := (s.visits (fun _ => false) path).filterMap Visit.met?

def metFrom (path : List Nat) (i : Nat) (slots : List Slot) : List (List Nat) :=
  (visitsFrom (fun _ => false) path i slots).filterMap Visit.met?

theorem met_node (path : List Nat) (head : NodeHead) (slots : List Slot) :
    met path (.node head slots) = path :: metFrom path 0 slots := by
  rw [met, visits, if_neg Bool.false_ne_true]
  show path :: List.filterMap Visit.met? (_ ++ [.leave path]) = _
  rw [List.filterMap_append]
  exact congrArg _ (List.append_nil _)

theorem metFrom_cons (path : List Nat) (i : Nat) (s : Slot) (rest : List Slot) :
    metFrom path i (s :: rest) = s.met (path ++ [i]) ++ metFrom path (i + 1) rest := by
  rw [metFrom, visitsFrom, List.filterMap_append]
  rfl

mutual

theorem mem_met {path other : List Nat} (s : Slot) :
    other ∈ s.met path ↔ ∃ rest, other = path ++ rest ∧ (s.along rest).isPresent = true := by
  cases s with
  | absent =>
      refine iff_of_false List.not_mem_nil ?_
      rintro ⟨rest, -, hpresent⟩
      exact Bool.false_ne_true (isPresent_of_along hpresent)
  | token head leading =>
      constructor
      · intro hmem
        obtain rfl := List.mem_singleton.1 hmem
        exact ⟨[], (List.append_nil _).symm, rfl⟩
      · rintro ⟨rest, rfl, hpresent⟩
        cases rest with
        | nil => exact List.mem_singleton.2 (List.append_nil _)
        | cons i rest => exact absurd (isPresent_of_along (s := .absent) hpresent) Bool.false_ne_true
  | node head slots =>
      rw [met_node, List.mem_cons, mem_metFrom 0 slots]
      constructor
      · rintro (rfl | ⟨k, rest, rfl, hpresent⟩)
        · exact ⟨[], (List.append_nil _).symm, rfl⟩
        · exact ⟨k :: rest, by rw [Nat.zero_add], hpresent⟩
      · rintro ⟨rest, rfl, hpresent⟩
        cases rest with
        | nil => exact .inl (List.append_nil _)
        | cons k rest => exact .inr ⟨k, rest, by rw [Nat.zero_add], hpresent⟩

theorem mem_metFrom {path other : List Nat} (i : Nat) (slots : List Slot) :
    other ∈ metFrom path i slots ↔
      ∃ k rest, other = path ++ (i + k) :: rest ∧ ((slots[k]?.getD .absent).along rest).isPresent = true := by
  cases slots with
  | nil =>
      refine iff_of_false List.not_mem_nil ?_
      rintro ⟨k, rest, -, hpresent⟩
      exact Bool.false_ne_true (isPresent_of_along hpresent)
  | cons s slots =>
      rw [metFrom_cons, List.mem_append, mem_met s, mem_metFrom (i + 1) slots]
      constructor
      · rintro (⟨rest, rfl, hpresent⟩ | ⟨k, rest, rfl, hpresent⟩)
        · exact ⟨0, rest, by rw [List.append_assoc, List.singleton_append, Nat.add_zero], hpresent⟩
        · exact ⟨k + 1, rest, by rw [Nat.add_assoc, Nat.add_comm 1], hpresent⟩
      · rintro ⟨k, rest, rfl, hpresent⟩
        cases k with
        | zero => exact .inl ⟨rest, by rw [List.append_assoc, List.singleton_append, Nat.add_zero], hpresent⟩
        | succ k => exact .inr ⟨k, rest, by rw [Nat.add_assoc, Nat.add_comm 1], hpresent⟩

end

mutual

theorem pairwise_met (path : List Nat) (s : Slot) : (s.met path).Pairwise Precedes := by
  cases s with
  | absent => exact .nil
  | token head leading => exact List.pairwise_singleton _ _
  | node head slots =>
      rw [met_node, List.pairwise_cons]
      refine ⟨fun other hother => ?_, pairwise_metFrom path 0 slots⟩
      obtain ⟨k, rest, rfl, -⟩ := (mem_metFrom 0 slots).1 hother
      exact .above path (List.cons_ne_nil _ _)

theorem pairwise_metFrom (path : List Nat) (i : Nat) (slots : List Slot) :
    (metFrom path i slots).Pairwise Precedes := by
  cases slots with
  | nil => exact .nil
  | cons s rest =>
      rw [metFrom_cons, List.pairwise_append]
      refine ⟨pairwise_met (path ++ [i]) s, pairwise_metFrom path (i + 1) rest, fun p hp q hq => ?_⟩
      obtain ⟨below, rfl, -⟩ := (mem_met s).1 hp
      obtain ⟨k, below', rfl, -⟩ := (mem_metFrom (i + 1) rest).1 hq
      rw [List.append_assoc, List.singleton_append]
      exact .aside path (by omega) below below'

end

/-- The places under a node: all that is present there, each once, in document order. -/
theorem below_met {s : Slot} (hnode : s.isNode = true) (path : List Nat) :
    ∃ below, s.met path = path :: below ∧ below.Nodup ∧ below.Pairwise Precedes ∧
      ∀ other, other ∈ below ↔ ∃ rest, rest ≠ [] ∧ other = path ++ rest ∧ (s.along rest).isPresent = true := by
  obtain ⟨n, rfl⟩ := eq_node_of_isNode hnode
  have hmet : n.toSlot.met path = path :: metFrom path 0 n.slots := met_node path n.head n.slots
  have hordered := pairwise_metFrom path 0 n.slots
  refine ⟨_, hmet, hordered.imp Precedes.ne, hordered, fun other => ?_⟩
  rw [mem_metFrom]
  constructor
  · rintro ⟨k, rest, rfl, hpresent⟩
    exact ⟨k :: rest, List.cons_ne_nil _ _, by rw [Nat.zero_add], hpresent⟩
  · rintro ⟨rest, hrest, rfl, hpresent⟩
    obtain ⟨k, rest, rfl⟩ := List.exists_cons_of_ne_nil hrest
    exact ⟨k, rest, by rw [Nat.zero_add], hpresent⟩

end Slot

/-! ## Walks -/

/-- Skips a node that has just been entered if its place is chosen. -/
def Walk.skipsAt (chosen : List Nat → Bool) (_number : Nat) : WalkEvent → Nav Bool
  | .enter n => return chosen (← SyntaxTree.pathWithin (n.id + 1) n.id)
  | _ => return false

/-- What a walk collects are the elements that its events meet. -/
theorem Walk.Drains.run_collect {number : Nat} {t u : SyntaxTree} {w : Walk} {events : List WalkEvent}
    (h : Drains next (fun _ _ => return false) number t w events u) {fuel : Nat} (hfuel : events.length ≤ fuel) :
    (collect fuel w).run t = (.ok (events.filterMap WalkEvent.met?), u) := by
  induction h generalizing fuel with
  | done hend =>
      cases fuel with
      | zero => rfl
      | succ fuel => simp only [collect, Step.run_bind, hend, Step.run_pure, List.filterMap_nil]
  | @step number t u v x w w' next e events skip hstep hskips hnext hrest ih =>
      obtain ⟨fuel, rfl⟩ : ∃ n, fuel = n + 1 := ⟨fuel - 1, by rw [List.length_cons] at hfuel; omega⟩
      cases hskips
      obtain rfl : w' = next := Except.ok.inj hnext
      simp only [collect, Step.run_bind, hstep, ih (Nat.le_of_succ_le_succ hfuel), Step.run_pure]
      cases e <;> rfl

namespace SyntaxTree

variable {t : SyntaxTree}

theorem chooses_skipsAt (t : SyntaxTree) (chosen : List Nat → Bool) : Chooses t chosen (Walk.skipsAt chosen) := by
  intro u number e visit _ hu hhappens
  refine ⟨u, ?_, .refl u, hu⟩
  cases hhappens with
  | @enter n path hat =>
      obtain ⟨v, hv, -⟩ := hu.view_along hat.place
      obtain ⟨other, hlocated⟩ := hu.located hv
      obtain rfl := hlocated.place.unique hat.place
      simp only [Walk.skipsAt, Step.run_bind, run_pathWithin hat.place (Nat.lt_succ_of_le hlocated.depth),
        Step.run_pure]
      rfl
  | leave _ => rfl
  | token _ => rfl

/-- A place shows one element, and an element is shown for one place. -/
theorem Linked.biUnique_shown (ht : t.Linked) :
    Relator.BiUnique fun (e : ElementRef) (path : List Nat) => Shows t path (some e) := by
  refine ⟨?_, ?_⟩
  · intro e e' path hshows hshows'
    cases hshows with
    | @node n hplace hnode =>
        cases hshows' with
        | @node n' hplace' _ =>
            exact congrArg (fun id => NodeOrToken.node (NodeRef.mk id)) (ht.at_injective hplace hplace')
        | token _ htoken =>
            rw [htoken] at hnode
            cases hnode
    | @token k head leading hplace htoken =>
        cases hshows' with
        | node _ hnode =>
            rw [htoken] at hnode
            cases hnode
        | @token k' head' leading' hplace' _ =>
            exact congrArg (fun id => NodeOrToken.token (TokenRef.mk id)) (ht.at_injective hplace hplace')
  · intro e path other hshows hother
    exact hshows.place.unique hother.place

/-- The views of nodes are as different as their places. -/
theorem Linked.leftUnique_nodeAt (ht : t.Linked) : Relator.LeftUnique (NodeAt t) := by
  rintro ⟨a⟩ ⟨b⟩ path ha hb
  exact congrArg NodeRef.mk (ht.at_injective ha.place hb.place)

theorem filterMap_entered_isNode (visits : List Visit) :
    (visits.filter Visit.isNode).filterMap Visit.entered? = visits.filterMap Visit.entered? := by
  rw [List.filterMap_filter]
  refine List.filterMap_congr fun visit _ => ?_
  cases visit <;> rfl

theorem filterMap_met_node (events : List WalkEvent) :
    (events.filterMap WalkEvent.met?).filterMap NodeOrToken.node? = events.filterMap WalkEvent.entered? := by
  rw [List.filterMap_filterMap]
  refine List.filterMap_congr fun e _ => ?_
  cases e <;> rfl

/-- **What is under a node** is what a walk through it meets, the node itself left out. The nodes among it are those
that a walk over nodes alone enters. -/
theorem Linked.run_descendants (ht : t.Linked) {h : NodeRef} {path : List Nat} (hat : NodeAt t h path) :
    ∃ elements u, h.descendants.run t = (.ok elements, u) ∧ Grown t u ∧ u.Linked ∧
      List.Forall₂ (fun e other => Shows u other (some e)) elements (((t.root.toSlot.along path).met path).drop 1) ∧
      ∀ fuel, 2 * (t.root.toSlot.along path).size < fuel → ∃ events v,
        Walk.Drains (Walk.nextNode fuel) (fun _ _ => return false) 0 u (.ofNode h) events v ∧
        (events.filterMap WalkEvent.entered?).drop 1 = elements.filterMap NodeOrToken.node? := by
  obtain ⟨n, hn, hrun⟩ := ht.run_node hat.place hat.isNode
  obtain ⟨events, u, hdrains, hgrown, hu, hall⟩ := ht.drains_next (.start hat) (chooses_never t) 0
  have hlength := Slot.length_visits_le (fun _ => false) path (t.root.toSlot.along path)
  have hcollect : (Walk.collect (2 * n.toSlot.size + 1) (.ofNode h)).run t =
      (.ok (events.filterMap WalkEvent.met?), u) := by
    refine hdrains.run_collect ?_
    rw [hall.length_eq, ← hn]
    exact Nat.le_succ_of_le hlength
  refine ⟨(events.filterMap WalkEvent.met?).drop 1, u, ?_, hgrown, hu, ?_, fun fuel hfuel => ?_⟩
  · simp only [NodeRef.descendants, NodeRef.walkLength, Step.run_bind, hrun, Step.run_pure, hcollect]
  · exact List.forall₂_drop 1 (Happens.met hall)
  · have hahead : Ahead u (fun _ => false) (.ofNode h) _ := .start (hat.grown hgrown)
    rw [hgrown.root] at hahead
    obtain ⟨others, v, hdrains', hgrown', hv, hall'⟩ :=
      hu.drains_nextNode hahead (chooses_never u) (Nat.lt_of_le_of_lt hlength hfuel) 0
    have hothers := Happens.nodes hall'
    rw [filterMap_entered_isNode] at hothers
    have hsame := List.left_unique_forall₂' hv.leftUnique_nodeAt hothers
      ((Happens.nodes hall).imp fun _ _ hat => hat.grown hgrown')
    refine ⟨others, v, hdrains', ?_⟩
    rw [hsame]
    -- the first event enters the node, so both lists lose the same entry
    rw [hn] at hall
    replace hall : List.Forall₂ (Happens u) events (.enter path :: _) := hall
    cases hall with
    | @cons _ _ events _ hfirst _ =>
        cases hfirst with
        | enter _ => exact (filterMap_met_node events).symm

end SyntaxTree

open SyntaxTree (At Happens Shows)

/-- **Walks follow the recursion**, whatever nodes are skipped. A walk from a node on enters it, visits what is in its
slots, one after the other, and leaves it; of a node that is skipped there is the entry alone. Then the walk has ended
for good. A walk over nodes alone makes the same visits but for those to tokens. What there is under the node is listed
completely, each once, in document order, and the nodes among it are those that a walk over nodes alone enters. -/
theorem walks_follow_recursion {root : Node} (hroot : root.toSlot.Obtainable) {t : SyntaxTree}
    (ht : (SyntaxTree.ofRoot root).Reaches t) {h : NodeRef} {path : List Nat} {node : Node} (hplace : At t h.id path)
    (hnode : root.toSlot.along path = node.toSlot) :
    (∀ chosen : List Nat → Bool,
      (∃ events u, Walk.Drains Walk.next (Walk.skipsAt chosen) 0 t (.ofNode h) events u ∧
        List.Forall₂ (Happens u) events (node.toSlot.visits chosen path)) ∧
      ∀ fuel, 2 * node.toSlot.size < fuel →
        ∃ events u, Walk.Drains (Walk.nextNode fuel) (Walk.skipsAt chosen) 0 t (.ofNode h) events u ∧
          List.Forall₂ (Happens u) events ((node.toSlot.visits chosen path).filter Visit.isNode)) ∧
    ∃ (elements : List ElementRef) (u : SyntaxTree) (below : List (List Nat)),
      h.descendants.run t = (.ok elements, u) ∧ elements.Nodup ∧ node.toSlot.met path = path :: below ∧
      List.Forall₂ (fun e other => Shows u other (some e)) elements below ∧
      (∀ other, other ∈ below ↔
        ∃ rest, rest ≠ [] ∧ other = path ++ rest ∧ (root.toSlot.along other).isPresent = true) ∧
      below.Pairwise Precedes ∧
      ∀ fuel, 2 * node.toSlot.size < fuel → ∃ events v,
        Walk.Drains (Walk.nextNode fuel) (fun _ _ => return false) 0 u (.ofNode h) events v ∧
        (events.filterMap WalkEvent.entered?).drop 1 = elements.filterMap NodeOrToken.node? := by
  obtain ⟨hlinked, hgrown⟩ := ht.linked (SyntaxTree.linked_ofRoot (Slot.obtainable_iff_made.1 hroot))
  obtain rfl : t.root = root := hgrown.root
  have hat : SyntaxTree.NodeAt t h path := ⟨hplace, by rw [hnode]; rfl⟩
  refine ⟨fun chosen => ⟨?_, fun fuel hfuel => ?_⟩, ?_⟩
  · obtain ⟨events, u, hdrains, -, -, hall⟩ := hlinked.drains_next (.start hat) (t.chooses_skipsAt chosen) 0
    rw [hnode] at hall
    exact ⟨events, u, hdrains, hall⟩
  · have hlength := Slot.length_visits_le chosen path (t.root.toSlot.along path)
    rw [← hnode] at hfuel
    obtain ⟨events, u, hdrains, -, -, hall⟩ := hlinked.drains_nextNode (.start hat) (t.chooses_skipsAt chosen)
      (Nat.lt_of_le_of_lt hlength hfuel) 0
    rw [hnode] at hall
    exact ⟨events, u, hdrains, hall⟩
  · obtain ⟨elements, u, hrun, -, hu, hshown, hnodes⟩ := hlinked.run_descendants hat
    obtain ⟨below, hmet, hnodup, hordered, hmem⟩ := Slot.below_met hat.isNode path
    rw [hmet] at hshown
    replace hshown : List.Forall₂ (fun e other => Shows u other (some e)) elements below := hshown
    rw [hnode] at hmet hnodes
    refine ⟨elements, u, below, hrun, (List.rel_nodup hu.biUnique_shown hshown).2 hnodup, hmet, hshown, ?_, hordered,
      hnodes⟩
    intro other
    rw [hmem]
    refine exists_congr fun rest => and_congr_right fun _ => and_congr_right fun hother => ?_
    rw [hother, Slot.along_append]

/-- The first of two nodes is skipped: it is entered, but neither its token is met nor is it left. Without skips all
four elements under the list are found. -/
theorem sparseList_walks : ∃ (root : Node) (t : SyntaxTree), sparseList = .ok root ∧ root.toSlot.Obtainable ∧
    (SyntaxTree.ofRoot root).Reaches t ∧
    (∃ events u, Walk.Drains Walk.next (Walk.skipsAt (· == [0])) 0 t (.ofNode SyntaxTree.rootRef) events u ∧
      List.Forall₂ (Happens u) events
        [.enter [], .enter [0], .enter [2], .token [2, 1], .leave [2], .leave []]) ∧
    (∃ events u, Walk.Drains (Walk.nextNode 20) (Walk.skipsAt (· == [0])) 0 t (.ofNode SyntaxTree.rootRef) events u ∧
      List.Forall₂ (Happens u) events [.enter [], .enter [0], .enter [2], .leave [2], .leave []]) ∧
    ∃ elements u, SyntaxTree.rootRef.descendants.run t = (.ok elements, u) ∧
      List.Forall₂ (fun e other => Shows u other (some e)) elements [[0], [0, 0], [2], [2, 1]] := by
  obtain ⟨root, hn, hsize, hvisits, hnodes, hmet⟩ : ∃ root : Node, sparseList = .ok root ∧ root.toSlot.size = 7 ∧
      root.toSlot.visits (· == [0]) [] =
        [.enter [], .enter [0], .enter [2], .token [2, 1], .leave [2], .leave []] ∧
      (root.toSlot.visits (· == [0]) []).filter Visit.isNode =
        [.enter [], .enter [0], .enter [2], .leave [2], .leave []] ∧
      root.toSlot.met [] = [[], [0], [0, 0], [2], [2, 1]] := ⟨_, rfl, rfl, rfl, rfl, rfl⟩
  have hobtainable := sparseList_obtainable hn
  have hlinked := SyntaxTree.linked_ofRoot (Slot.obtainable_iff_made.1 hobtainable)
  obtain ⟨hwalks, elements, u, below, hrun, -, hbelow, hshown, -⟩ :=
    walks_follow_recursion hobtainable .refl hlinked.place_root (show root.toSlot.along [] = root.toSlot from rfl)
  obtain ⟨⟨events, v, hdrains, hall⟩, halone⟩ := hwalks (· == [0])
  obtain ⟨others, v', hdrains', hall'⟩ := halone 20 (by omega)
  rw [hvisits] at hall
  rw [hnodes] at hall'
  rw [hmet] at hbelow
  obtain rfl := (List.cons.inj hbelow).2
  exact ⟨root, _, hn, hobtainable, .refl, ⟨events, v, hdrains, hall⟩, ⟨others, v', hdrains', hall'⟩, elements, u, hrun,
    hshown⟩

end LosslessSyntax
