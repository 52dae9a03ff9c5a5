import Mathlib.Data.List.TakeWhile
import LosslessSyntax.Proofs.View.TokenOrder
import LosslessSyntax.View.Walk

/-!
# Walks against the recursion

A walk keeps a stack of open nodes, each with its next slot. The plain way to visit everything under a node is a
recursion: enter the node, visit what stands in its slots, leave it; a node that is chosen to be skipped is only
entered. The stack of a walk holds just what the recursion has still to do, so each step takes the first visit off that
list, and a whole walk is the list.

* `Visit`, `Slot.visits` : the visits of the recursion;
* `Slot.visitsLeft` : what is left of them when nodes are open;
* `SyntaxTree.Ahead`, `Linked.run_walk_next` : a walk has visits ahead, and a step makes the first one;
* `Walk.Drains` : the events of a walk to its end, and `Linked.drains` : they are the visits ahead of it, or those to
  nodes alone;
* `Slot.length_visits_le`, `Slot.length_filterMap_visits_le` : how many these are;
* `Slot.filterMap_visits_token` : the tokens among them are all tokens in document order.
-/

set_option autoImplicit false

namespace LosslessSyntax

def WalkEvent.token? : WalkEvent → Option TokenRef
  | token k => some k
  | _ => none

inductive Visit where
  | enter (path : List Nat)
  | leave (path : List Nat)
  | token (path : List Nat)

namespace Visit

def token? : Visit → Option (List Nat)
  | token path => some path
  | _ => none

def entered? : Visit → Option (List Nat)
  | enter path => some path
  | _ => none

def met? : Visit → Option (List Nat)
  | enter path => some path
  | leave _ => none
  | token path => some path

def isNode : Visit → Bool
  | token _ => false
  | _ => true

/-- A node is entered that is chosen to be skipped. -/
def isSkipped (chosen : List Nat → Bool) : Visit → Bool
  | enter path => chosen path
  | _ => false

end Visit

namespace Slot

/-! ## The recursion -/

mutual

def visits (chosen : List Nat → Bool) (path : List Nat) : Slot → List Visit
  | .absent => []
  | .token _ _ => [.token path]
  | .node _ slots => .enter path :: if chosen path then [] else visitsFrom chosen path 0 slots ++ [.leave path]

/-- The visits to slots from a number on, one after the other. -/
def visitsFrom (chosen : List Nat → Bool) (path : List Nat) (i : Nat) : List Slot → List Visit
  | [] => []
  | s :: rest => s.visits chosen (path ++ [i]) ++ visitsFrom chosen path (i + 1) rest

end

def visitsIn (s : Slot) (chosen : List Nat → Bool) (path : List Nat) (indices : List Nat) : List Visit :=
  indices.flatMap fun i => (s.along (path ++ [i])).visits chosen (path ++ [i])

theorem visitsFrom_eq (chosen : List Nat → Bool) (path : List Nat) (i : Nat) (slots : List Slot) :
    visitsFrom chosen path i slots =
      (List.range slots.length).flatMap fun j => (slots[j]?.getD .absent).visits chosen (path ++ [i + j]) := by
  induction slots generalizing i with
  | nil => rfl
  | cons s rest ih =>
      rw [visitsFrom, ih, List.length_cons, List.range_succ_eq_map, List.flatMap_cons, List.flatMap_map]
      simp only [Nat.add_zero, List.getElem?_cons_zero, List.getElem?_cons_succ, Option.getD_some, Nat.add_assoc,
        Nat.add_comm 1, Nat.succ_eq_add_one]

mutual

/-- A node is entered and left, and a token is met once. -/
theorem length_visits_le (chosen : List Nat → Bool) (path : List Nat) (s : Slot) :
    (s.visits chosen path).length ≤ 2 * s.size := by
  cases s with
  | absent => exact Nat.zero_le _
  | token head leading => exact Nat.le_succ 1
  | node head slots =>
      have hslots := length_visitsFrom_le chosen path 0 slots
      rw [visits, size]
      split
      · simp only [List.length_singleton]
        omega
      · simp only [List.length_cons, List.length_append, List.length_nil]
        omega

theorem length_visitsFrom_le (chosen : List Nat → Bool) (path : List Nat) (i : Nat) (slots : List Slot) :
    (visitsFrom chosen path i slots).length ≤ 2 * sizes slots := by
  cases slots with
  | nil => exact Nat.zero_le _
  | cons s rest =>
      have hfirst := length_visits_le chosen (path ++ [i]) s
      have hrest := length_visitsFrom_le chosen path (i + 1) rest
      rw [visitsFrom, sizes, List.length_append]
      omega

end

mutual

/-- Nodes that are entered and tokens that are met stand in slots of their own. -/
theorem length_filterMap_visits_le {f : Visit → Option (List Nat)} (hleave : ∀ path, f (.leave path) = none)
    (chosen : List Nat → Bool) (path : List Nat) (s : Slot) : ((s.visits chosen path).filterMap f).length ≤ s.size := by
  cases s with
  | absent => exact Nat.zero_le _
  | token head leading => exact List.length_filterMap_le _ _
  | node head slots =>
      have hslots := length_filterMap_visitsFrom_le hleave chosen path 0 slots
      have henter : ([Visit.enter path].filterMap f).length ≤ 1 := List.length_filterMap_le _ _
      rw [visits, size, ← List.singleton_append, List.filterMap_append, List.length_append]
      split
      · rw [List.filterMap_nil, List.length_nil]
        omega
      · rw [List.filterMap_append, List.filterMap_cons_none (hleave path), List.filterMap_nil, List.append_nil]
        omega

theorem length_filterMap_visitsFrom_le {f : Visit → Option (List Nat)} (hleave : ∀ path, f (.leave path) = none)
    (chosen : List Nat → Bool) (path : List Nat) (i : Nat) (slots : List Slot) :
    ((visitsFrom chosen path i slots).filterMap f).length ≤ sizes slots := by
  cases slots with
  | nil => exact Nat.zero_le _
  | cons s rest =>
      have hfirst := length_filterMap_visits_le hleave chosen (path ++ [i]) s
      have hrest := length_filterMap_visitsFrom_le hleave chosen path (i + 1) rest
      rw [visitsFrom, sizes, List.filterMap_append, List.length_append]
      omega

end

mutual

/-- Without skips, the tokens are met in document order. -/
theorem filterMap_visits_token (path : List Nat) (s : Slot) :
    (s.visits (fun _ => false) path).filterMap Visit.token? = s.tokenPaths.map (path ++ ·) := by
  cases s with
  | absent => rfl
  | token head leading =>
      show [path] = [path ++ []]
      rw [List.append_nil]
  | node head slots =>
      rw [visits, if_neg Bool.false_ne_true, tokenPaths, ← filterMap_visitsFrom_token, List.filterMap_cons_none rfl,
        List.filterMap_append]
      exact List.append_nil _

theorem filterMap_visitsFrom_token (path : List Nat) (i : Nat) (slots : List Slot) :
    (visitsFrom (fun _ => false) path i slots).filterMap Visit.token? = (tokenPathsFrom i slots).map (path ++ ·) := by
  cases slots with
  | nil => rfl
  | cons s rest =>
      rw [visitsFrom, List.filterMap_append, filterMap_visits_token, filterMap_visitsFrom_token, tokenPathsFrom,
        List.map_append, List.map_map]
      simp only [Function.comp_def, List.append_assoc, List.singleton_append]

end

theorem length_tokenPaths_le (s : Slot) : s.tokenPaths.length ≤ s.size := by
  have hle := length_filterMap_visits_le (f := Visit.token?) (fun _ => rfl) (fun _ => false) [] s
  rw [filterMap_visits_token, List.length_map] at hle
  exact hle

/-! ## What is left -/

/-- What is left to visit when nodes are open, the innermost first, each with its next slot. -/
def visitsLeft (s : Slot) (chosen : List Nat → Bool) : List (List Nat × Nat) → List Visit
  | [] => []
  | (path, i) :: outer =>
    s.visitsIn chosen path (List.range' i ((s.along path).count - i)) ++ .leave path :: s.visitsLeft chosen outer

theorem visitsIn_of_absent (s : Slot) (chosen : List Nat → Bool) (path : List Nat) {indices : List Nat}
    (h : ∀ i ∈ indices, s.along (path ++ [i]) = .absent) : s.visitsIn chosen path indices = [] := by
  refine List.flatMap_eq_nil_iff.2 fun i hi => ?_
  rw [h i hi]
  rfl

/-- Absent slots are passed over. -/
theorem visitsLeft_of_split (s : Slot) (chosen : List Nat → Bool) (outer : List (List Nat × Nat)) {path : List Nat}
    {i k : Nat} {front rest : List Nat} (hsplit : List.range' i ((s.along path).count - i) = front ++ k :: rest)
    (habsent : ∀ j ∈ front, s.along (path ++ [j]) = .absent) :
    s.visitsLeft chosen ((path, i) :: outer) =
      (s.along (path ++ [k])).visits chosen (path ++ [k]) ++ s.visitsLeft chosen ((path, k + 1) :: outer) := by
  obtain ⟨n, hn, -, hbehind⟩ := List.range'_eq_append_iff.1 hsplit
  obtain ⟨hk, hpos, hrest⟩ := List.range'_eq_cons_iff.1 hbehind.symm
  have hcount : (s.along path).count - i - n - 1 = (s.along path).count - (k + 1) := by omega
  have hvisits : s.visitsIn chosen path (List.range' i ((s.along path).count - i)) =
      s.visitsIn chosen path front ++ ((s.along (path ++ [k])).visits chosen (path ++ [k]) ++
        s.visitsIn chosen path (List.range' (k + 1) ((s.along path).count - (k + 1)))) := by
    rw [hsplit, hrest, hcount]
    simp only [visitsIn, List.flatMap_append, List.flatMap_cons]
  rw [visitsLeft, hvisits, s.visitsIn_of_absent chosen path habsent, List.nil_append, List.append_assoc, visitsLeft]

/-- A node is entered, and then there is the rest of it, or what stands outside if it is skipped. -/
theorem visits_append_visitsLeft (s : Slot) (chosen : List Nat → Bool) (outer : List (List Nat × Nat)) {path : List Nat}
    (hnode : (s.along path).isNode = true) :
    (s.along path).visits chosen path ++ s.visitsLeft chosen outer =
      .enter path :: s.visitsLeft chosen (if chosen path then outer else (path, 0) :: outer) := by
  obtain ⟨n, hn⟩ := eq_node_of_isNode hnode
  have hslots : visitsFrom chosen path 0 n.slots =
      s.visitsIn chosen path (List.range' 0 ((s.along path).count - 0)) := by
    rw [visitsFrom_eq, visitsIn, hn, Nat.sub_zero, ← List.range_eq_range']
    refine List.flatMap_congr fun i _ => ?_
    rw [Nat.zero_add, along_append, hn]
    rfl
  rw [hn]
  show .enter path :: (if chosen path then [] else visitsFrom chosen path 0 n.slots ++ [.leave path]) ++ _ = _
  split
  · rfl
  · rw [hslots, visitsLeft, List.cons_append, List.append_assoc, List.singleton_append]

end Slot

/-! ## Walks -/

/-- The items of a walk through a node that skips nothing. -/
def NodeRef.wholeWalk (h : NodeRef) : Nav (List Walk.Item) := do
  Walk.trace Walk.next (fun _ _ => return false) (← h.walkLength) 0 (.ofNode h)

namespace Walk

/-- Going on by `step`, a walk brings the events forth one after the other, and from then on nothing more. After each
event `skips` decides whether to skip the innermost open node. -/
inductive Drains (step : Walk → Nav (Option (WalkEvent × Walk))) (skips : Nat → WalkEvent → Nav Bool) :
    Nat → SyntaxTree → Walk → List WalkEvent → SyntaxTree → Prop
  | done {number : Nat} {t : SyntaxTree} {w : Walk} (hend : ∀ u : SyntaxTree, (step w).run u = (.ok none, u)) :
      Drains step skips number t w [] t
  | step {number : Nat} {t u v x : SyntaxTree} {w w' next : Walk} {e : WalkEvent} {events : List WalkEvent}
      {skip : Bool} (hstep : (step w).run t = (.ok (some (e, w')), u)) (hskips : (skips number e).run u = (.ok skip, v))
      (hnext : (if skip then w'.skipSubtree else .ok w') = .ok next)
      (hrest : Drains step skips (number + 1) v next events x) : Drains step skips number t w (e :: events) x

/-- The items of a walk are its events, once there is fuel for them. -/
theorem Drains.run_trace {step : Walk → Nav (Option (WalkEvent × Walk))} {skips : Nat → WalkEvent → Nav Bool}
    {number : Nat} {t u : SyntaxTree} {w : Walk} {events : List WalkEvent} (h : Drains step skips number t w events u)
    {fuel : Nat} (hfuel : events.length ≤ fuel) :
    (trace step skips fuel number w).run t = (.ok (events.map Item.event), u) := by
  induction h generalizing fuel with
  | done hend =>
      cases fuel with
      | zero => rfl
      | succ fuel => simp only [trace, Step.run_bind, hend, Step.run_pure, List.map_nil]
  | @step number t u v x w w' next e events skip hstep hskips hnext hrest ih =>
      obtain ⟨fuel, rfl⟩ : ∃ n, fuel = n + 1 := ⟨fuel - 1, by rw [List.length_cons] at hfuel; omega⟩
      have hpair : (if skip then w'.trySkip else ([], w')) = ([], next) := by
        cases skip with
        | true =>
            rw [if_pos rfl] at hnext ⊢
            rw [trySkip, hnext]
        | false => exact congrArg (([] : List Item), ·) (Except.ok.inj hnext)
      simp only [trace, Step.run_bind, hstep, hskips, hpair, ih (Nat.le_of_succ_le_succ hfuel), Step.run_pure,
        List.map_cons, List.cons_append, List.nil_append]

end Walk

namespace SyntaxTree

variable {t : SyntaxTree}

inductive Happens (t : SyntaxTree) : WalkEvent → Visit → Prop
  | enter {n : NodeRef} {path : List Nat} (hat : NodeAt t n path) : Happens t (.enter n) (.enter path)
  | leave {n : NodeRef} {path : List Nat} (hat : NodeAt t n path) : Happens t (.leave n) (.leave path)
  | token {k : TokenRef} {path : List Nat} (hshows : Shows t path (some (.token k))) :
      Happens t (.token k) (.token path)

theorem Happens.grown {u : SyntaxTree} {e : WalkEvent} {visit : Visit} (h : Happens t e visit) (hg : Grown t u) :
    Happens u e visit := by
  cases h with
  | enter hat => exact .enter (hat.grown hg)
  | leave hat => exact .leave (hat.grown hg)
  | token hshows => exact .token (hshows.grown hg)

theorem Happens.tokens {events : List WalkEvent} {visits : List Visit} (h : List.Forall₂ (Happens t) events visits) :
    List.Forall₂ (fun token path => At t token.id path) (events.filterMap WalkEvent.token?)
      (visits.filterMap Visit.token?) := by
  induction h with
  | nil => exact .nil
  | cons hhappens _ ih =>
      cases hhappens with
      | enter _ => exact ih
      | leave _ => exact ih
      | token hshows =>
          obtain ⟨⟩ | ⟨⟩ | ⟨hplace, -⟩ := hshows
          exact .cons hplace ih

theorem Happens.nodes {events : List WalkEvent} {visits : List Visit} (h : List.Forall₂ (Happens t) events visits) :
    List.Forall₂ (NodeAt t) (events.filterMap WalkEvent.entered?) (visits.filterMap Visit.entered?) := by
  induction h with
  | nil => exact .nil
  | cons hhappens _ ih =>
      cases hhappens with
      | enter hat => exact .cons hat ih
      | leave _ => exact ih
      | token _ => exact ih

theorem Happens.met {events : List WalkEvent} {visits : List Visit} (h : List.Forall₂ (Happens t) events visits) :
    List.Forall₂ (fun e path => Shows t path (some e)) (events.filterMap WalkEvent.met?)
      (visits.filterMap Visit.met?) := by
  induction h with
  | nil => exact .nil
  | cons hhappens _ ih =>
      cases hhappens with
      | enter hat => exact .cons (.node hat.place hat.isNode) ih
      | leave _ => exact ih
      | token hshows => exact .cons hshows ih

/-- The node at a place is open, with its next slot. -/
structure Opens (t : SyntaxTree) (top : NodeRef × Nat) (spot : List Nat × Nat) : Prop where
  node : NodeAt t top.1 spot.1
  slot : top.2 = spot.2

theorem Opens.grown {u : SyntaxTree} {top : NodeRef × Nat} {spot : List Nat × Nat} (h : Opens t top spot)
    (hg : Grown t u) : Opens u top spot :=
  ⟨h.node.grown hg, h.slot⟩

inductive Ahead (t : SyntaxTree) (chosen : List Nat → Bool) : Walk → List Visit → Prop
  | start {h : NodeRef} {path : List Nat} (hat : NodeAt t h path) :
      Ahead t chosen ⟨[], some h⟩ ((t.root.toSlot.along path).visits chosen path)
  | stack {stack : List (NodeRef × Nat)} {spots : List (List Nat × Nat)}
      (hopen : List.Forall₂ (Opens t) stack spots) :
      Ahead t chosen ⟨stack, none⟩ (t.root.toSlot.visitsLeft chosen spots)

theorem Ahead.grown {u : SyntaxTree} {chosen : List Nat → Bool} {w : Walk} {visits : List Visit}
    (h : Ahead t chosen w visits) (hg : Grown t u) : Ahead u chosen w visits := by
  cases h with
  | start hat =>
      rw [← hg.root]
      exact .start (hat.grown hg)
  | stack hopen =>
      rw [← hg.root]
      exact .stack (hopen.imp fun _ _ hopens => hopens.grown hg)

/-- A walk that has not ended has a node to enter or to leave. -/
theorem Ahead.done_or_node {chosen : List Nat → Bool} {w : Walk} {visits : List Visit} (h : Ahead t chosen w visits) :
    (w = ⟨[], none⟩ ∧ visits = []) ∨ ∃ visit ∈ visits, visit.isNode = true := by
  cases h with
  | @start h path hat =>
      obtain ⟨n, hn⟩ := Slot.eq_node_of_isNode hat.isNode
      refine .inr ⟨.enter path, ?_, rfl⟩
      rw [hn]
      exact List.mem_cons_self
  | stack hopen =>
      cases hopen with
      | nil => exact .inl ⟨rfl, rfl⟩
      | @cons top spot _ _ _ _ => exact .inr ⟨.leave spot.1, List.mem_append_right _ List.mem_cons_self, rfl⟩

/-- What a step of a walk does with the visits ahead: it makes the first one, and then has the others ahead, when a node
that is chosen is skipped. -/
inductive Advances (t : SyntaxTree) (chosen : List Nat → Bool) : List Visit → Option (WalkEvent × Walk) → Prop
  | done : Advances t chosen [] none
  | step {e : WalkEvent} {w next : Walk} {visit : Visit} {rest : List Visit} (hhappens : Happens t e visit)
      (hskip : (if visit.isSkipped chosen then w.skipSubtree else .ok w) = .ok next)
      (hahead : Ahead t chosen next rest) : Advances t chosen (visit :: rest) (some (e, w))

theorem Advances.enter {chosen : List Nat → Bool} {n : NodeRef} {path : List Nat} (hat : NodeAt t n path)
    {stack : List (NodeRef × Nat)} {spots : List (List Nat × Nat)}
    (hopen : List.Forall₂ (Opens t) stack spots) :
    Advances t chosen ((t.root.toSlot.along path).visits chosen path ++ t.root.toSlot.visitsLeft chosen spots)
      (some (.enter n, ⟨(n, 0) :: stack, none⟩)) := by
  rw [Slot.visits_append_visitsLeft _ _ _ hat.isNode]
  by_cases hchosen : chosen path = true
  · rw [if_pos hchosen]
    exact .step (.enter hat) (if_pos hchosen) (.stack hopen)
  · rw [if_neg hchosen]
    exact .step (.enter hat) (if_neg hchosen) (.stack (.cons ⟨hat, rfl⟩ hopen))

/-- The first one shown of the children in slots, if there is any. -/
inductive FirstShown (t : SyntaxTree) (path : List Nat) (indices : List Nat) : Option (ElementRef × Nat) → Prop
  | none (habsent : ∀ i ∈ indices, t.root.toSlot.along (path ++ [i]) = .absent) : FirstShown t path indices none
  | some {front rest : List Nat} {i : Nat} {e : ElementRef} (hsplit : indices = front ++ i :: rest)
      (habsent : ∀ j ∈ front, t.root.toSlot.along (path ++ [j]) = .absent) (hshows : Shows t (path ++ [i]) (some e)) :
      FirstShown t path indices (some (e, i))

theorem Linked.run_findChild (ht : t.Linked) {h : NodeRef} {path : List Nat} (hplace : At t h.id path)
    (indices : List Nat) :
    ∃ answer u, (indices.findSomeM? fun index => (return (← h.childAt index).map (·, index) : Nav _)).run t =
      (.ok answer, u) ∧ Grown t u ∧ u.Linked ∧ FirstShown u path indices answer := by
  induction indices generalizing t with
  | nil => exact ⟨none, t, rfl, .refl t, ht, .none fun _ hmem => absurd hmem List.not_mem_nil⟩
  | cons i rest ih =>
      obtain ⟨answer, u, hrun, hgrown, hu, hshows⟩ := ht.run_child hplace i
      cases answer with
      | some e =>
          refine ⟨some (e, i), u, ?_, hgrown, hu, .some (List.nil_append _).symm ?_ hshows⟩
          · simp only [List.findSomeM?, Step.run_bind, hrun, Step.run_pure, Option.map_some]
          · exact fun _ hmem => absurd hmem List.not_mem_nil
      | none =>
          obtain ⟨answer, u', hrun', hgrown', hu', hfirst⟩ := ih hu (hplace.grown hgrown)
          obtain ⟨habsent⟩ := hshows
          rw [← hgrown'.root] at habsent
          refine ⟨answer, u', ?_, hgrown.trans hgrown', hu', ?_⟩
          · simp only [List.findSomeM?, Step.run_bind, hrun, Step.run_pure, Option.map_none]
            exact hrun'
          · cases hfirst with
            | none hall => exact .none (List.forall_mem_cons.2 ⟨habsent, hall⟩)
            | @some front _ k e hsplit hall hshows =>
                rw [hsplit]
                exact .some (List.cons_append ..).symm (List.forall_mem_cons.2 ⟨habsent, hall⟩) hshows

/-- **A step of a walk** makes the first visit that is ahead. -/
theorem Linked.run_walk_next (ht : t.Linked) {chosen : List Nat → Bool} {w : Walk} {visits : List Visit}
    (hahead : Ahead t chosen w visits) :
    ∃ answer u, w.next.run t = (.ok answer, u) ∧ Grown t u ∧ u.Linked ∧ Advances u chosen visits answer := by
  cases hahead with
  | @start h path hat =>
      have hadvances := (Advances.enter hat .nil : Advances t chosen _ _)
      rw [Slot.visitsLeft, List.append_nil] at hadvances
      exact ⟨_, t, rfl, .refl t, ht, hadvances⟩
  | @stack stack spots hopen =>
      cases hopen with
      | nil => exact ⟨none, t, rfl, .refl t, ht, .done⟩
      | @cons top spot outer spots htop houter =>
          obtain ⟨h, slot⟩ := top
          obtain ⟨path, i⟩ := spot
          obtain ⟨hat, rfl⟩ := htop
          obtain ⟨answer, u, hrun, hgrown, hu, hfirst⟩ :=
            ht.run_findChild hat.place (List.range' slot ((t.root.toSlot.along path).count - slot))
          have hchild : (Walk.firstChild h slot).run t = (.ok answer, u) := by
            rw [Walk.firstChild, Step.run_bind, ht.run_count hat.place]
            exact hrun
          replace houter := houter.imp fun _ _ hopens => hopens.grown hgrown
          replace hat := hat.grown hgrown
          rw [← hgrown.root] at hfirst ⊢
          cases hfirst with
          | none habsent =>
              refine ⟨some (.leave h, ⟨outer, none⟩), u, ?_, hgrown, hu, ?_⟩
              · simp only [Walk.next, Step.run_bind, hchild, Step.run_pure]
              · rw [Slot.visitsLeft, Slot.visitsIn_of_absent _ _ _ habsent]
                exact .step (.leave hat) rfl (.stack houter)
          | @some front rest k e hsplit habsent hshows =>
              rw [Slot.visitsLeft_of_split _ _ _ hsplit habsent]
              have hbehind : List.Forall₂ (Opens u) ((h, k + 1) :: outer) ((path, k + 1) :: spots) :=
                .cons ⟨hat, rfl⟩ houter
              cases hshows with
              | @token token head leading hplace htoken =>
                  refine ⟨some (.token token, ⟨(h, k + 1) :: outer, none⟩), u, ?_, hgrown, hu, ?_⟩
                  · simp only [Walk.next, Step.run_bind, hchild, Step.run_pure]
                  · rw [htoken]
                    exact .step (.token (.token hplace htoken)) rfl (.stack hbehind)
              | @node n hplace hnode =>
                  refine ⟨some (.enter n, ⟨(n, 0) :: (h, k + 1) :: outer, none⟩), u, ?_, hgrown, hu, ?_⟩
                  · simp only [Walk.next, Step.run_bind, hchild, Step.run_pure]
                  · exact .enter ⟨hplace, hnode⟩ hbehind

/-- A walk over nodes alone makes the first visit to a node, and passes over the tokens in front of it. -/
theorem Linked.run_walk_nextNode (ht : t.Linked) {chosen : List Nat → Bool} {w : Walk} {visits : List Visit}
    (hahead : Ahead t chosen w visits) {fuel : Nat} (hfuel : visits.length < fuel) :
    ∃ answer u, (w.nextNode fuel).run t = (.ok answer, u) ∧ Grown t u ∧ u.Linked ∧
      Advances u chosen (visits.dropWhile fun visit => !visit.isNode) answer := by
  induction fuel generalizing t w visits with
  | zero => exact absurd hfuel (Nat.not_lt_zero _)
  | succ fuel ih =>
      obtain ⟨answer, u, hrun, hgrown, hu, hadvances⟩ := ht.run_walk_next hahead
      cases hadvances with
      | done =>
          refine ⟨none, u, ?_, hgrown, hu, .done⟩
          simp only [Walk.nextNode, Step.run_bind, hrun, Step.run_pure]
      | @step e w' next visit rest hhappens hskip hbehind =>
          cases hhappens with
          | @enter n path hat =>
              refine ⟨some (.enter n, w'), u, ?_, hgrown, hu, .step (.enter hat) hskip hbehind⟩
              simp only [Walk.nextNode, Step.run_bind, hrun, Step.run_pure]
          | @leave n path hat =>
              refine ⟨some (.leave n, w'), u, ?_, hgrown, hu, .step (.leave hat) hskip hbehind⟩
              simp only [Walk.nextNode, Step.run_bind, hrun, Step.run_pure]
          | @token k path hplace =>
              -- a token is never skipped, so the walk goes on as it is
              obtain rfl : w' = next := Except.ok.inj hskip
              obtain ⟨answer, u', hrest, hgrown', hu', hadvances⟩ := ih hu hbehind (Nat.lt_of_succ_lt_succ hfuel)
              refine ⟨answer, u', ?_, hgrown.trans hgrown', hu', hadvances⟩
              simp only [Walk.nextNode, Step.run_bind, hrun, hrest]

/-- After an event, a node just entered is skipped iff it is chosen. The tree may be asked to find that out. -/
def Chooses (t : SyntaxTree) (chosen : List Nat → Bool) (skips : Nat → WalkEvent → Nav Bool) : Prop :=
  ∀ {u : SyntaxTree} (number : Nat) {e : WalkEvent} {visit : Visit}, Grown t u → u.Linked → Happens u e visit →
    ∃ v, (skips number e).run u = (.ok (visit.isSkipped chosen), v) ∧ Grown u v ∧ v.Linked

theorem Chooses.grown {u : SyntaxTree} {chosen : List Nat → Bool} {skips : Nat → WalkEvent → Nav Bool}
    (h : Chooses t chosen skips) (hg : Grown t u) : Chooses u chosen skips :=
  fun number _ _ hg' hv hhappens => h number (hg.trans hg') hv hhappens

theorem chooses_never (t : SyntaxTree) : Chooses t (fun _ => false) fun _ _ => return false := by
  intro u number e visit _ hu _
  refine ⟨u, ?_, .refl u, hu⟩
  cases visit <;> rfl

/-- **A walk to its end** makes the visits that are ahead, in their order, if it skips the nodes that are chosen. Of the
visits it makes those that its steps make, among them all to nodes. -/
theorem Linked.drains (ht : t.Linked) {chosen : List Nat → Bool} {w : Walk} {visits : List Visit}
    (hahead : Ahead t chosen w visits) {step : Walk → Nav (Option (WalkEvent × Walk))} {wanted : Visit → Bool}
    (hwanted : ∀ visit : Visit, visit.isNode = true → wanted visit = true)
    {bound : Nat} (hstep : ∀ {u : SyntaxTree} {w : Walk} {visits : List Visit}, u.Linked → Ahead u chosen w visits →
      visits.length ≤ bound → ∃ answer v, (step w).run u = (.ok answer, v) ∧ Grown u v ∧ v.Linked ∧
        Advances v chosen (visits.dropWhile fun visit => !wanted visit) answer)
    (hend : ∀ u : SyntaxTree, (step ⟨[], none⟩).run u = (.ok none, u)) {skips : Nat → WalkEvent → Nav Bool}
    (hskips : Chooses t chosen skips) (hbound : visits.length ≤ bound) (number : Nat) :
    ∃ events u, Walk.Drains step skips number t w events u ∧ Grown t u ∧ u.Linked ∧
      List.Forall₂ (Happens u) events (visits.filter wanted) := by
  induction hlength : visits.length using Nat.strongRecOn generalizing t w visits number with
  | ind length ih =>
      rcases hahead.done_or_node with ⟨rfl, rfl⟩ | ⟨last, hlast, hnode⟩
      · exact ⟨[], t, .done hend, .refl t, ht, .nil⟩
      · obtain ⟨answer, u, hrun, hgrown, hu, hadvances⟩ := hstep ht hahead hbound
        generalize hdrop : visits.dropWhile (fun visit => !wanted visit) = left at hadvances
        have hsplit := List.takeWhile_append_dropWhile (p := fun visit => !wanted visit) (l := visits)
        rw [hdrop] at hsplit
        have hfront : (visits.takeWhile fun visit => !wanted visit).filter wanted = [] := by
          refine List.filter_eq_nil_iff.2 fun visit hmem => ?_
          simpa using List.mem_takeWhile_imp hmem
        have hfilter : visits.filter wanted = left.filter wanted := by
          rw [← hsplit, List.filter_append, hfront, List.nil_append]
        cases hadvances with
        | done =>
            have hmem : last ∈ visits.filter wanted := List.mem_filter.2 ⟨hlast, hwanted last hnode⟩
            rw [hfilter] at hmem
            exact absurd hmem List.not_mem_nil
        | @step e w' next visit rest hhappens hskip hbehind =>
            have hvisit : wanted visit = true := by
              have hhead := List.head?_dropWhile_not (fun visit => !wanted visit) visits
              rw [hdrop] at hhead
              simpa using hhead
            have hshort : rest.length < length := by
              rw [← hlength, ← hsplit, List.length_append, List.length_cons]
              omega
            obtain ⟨u', hskipped, hgrown', hu'⟩ := hskips number hgrown hu hhappens
            have hgrown'' := hgrown.trans hgrown'
            obtain ⟨events, u'', hdrains, hrest, hlinked, hall⟩ :=
              ih rest.length hshort hu' (hbehind.grown hgrown') (hskips.grown hgrown'') (by omega) (number + 1) rfl
            refine ⟨e :: events, u'', .step hrun hskipped hskip hdrains, hgrown''.trans hrest, hlinked, ?_⟩
            rw [hfilter, List.filter_cons_of_pos hvisit]
            exact .cons (hhappens.grown (hgrown'.trans hrest)) hall

theorem Linked.drains_next (ht : t.Linked) {chosen : List Nat → Bool} {w : Walk} {visits : List Visit}
    (hahead : Ahead t chosen w visits) {skips : Nat → WalkEvent → Nav Bool} (hskips : Chooses t chosen skips)
    (number : Nat) :
    ∃ events u, Walk.Drains Walk.next skips number t w events u ∧ Grown t u ∧ u.Linked ∧
      List.Forall₂ (Happens u) events visits := by
  have hstep {u : SyntaxTree} {w : Walk} {ahead : List Visit} (hu : u.Linked) (hahead : Ahead u chosen w ahead)
      (_ : ahead.length ≤ visits.length) : ∃ answer v, w.next.run u = (.ok answer, v) ∧ Grown u v ∧ v.Linked ∧
        Advances v chosen (ahead.dropWhile fun _ => !true) answer := by
    rw [show ahead.dropWhile (fun _ => !true) = ahead by cases ahead <;> rfl]
    exact hu.run_walk_next hahead
  have h := ht.drains hahead (fun _ _ => rfl) hstep (fun _ => rfl) hskips (Nat.le_refl _) number
  rwa [List.filter_true] at h

theorem Linked.drains_nextNode (ht : t.Linked) {chosen : List Nat → Bool} {w : Walk} {visits : List Visit}
    (hahead : Ahead t chosen w visits) {skips : Nat → WalkEvent → Nav Bool} (hskips : Chooses t chosen skips)
    {fuel : Nat} (hfuel : visits.length < fuel) (number : Nat) :
    ∃ events u, Walk.Drains (Walk.nextNode fuel) skips number t w events u ∧ Grown t u ∧ u.Linked ∧
      List.Forall₂ (Happens u) events (visits.filter Visit.isNode) := by
  obtain ⟨fuel, rfl⟩ : ∃ n, fuel = n + 1 := ⟨fuel - 1, by omega⟩
  exact ht.drains hahead (fun _ hnode => hnode)
    (fun hu hahead hlength => hu.run_walk_nextNode hahead (Nat.lt_succ_of_le hlength)) (fun _ => rfl) hskips
    (Nat.le_of_lt_succ hfuel) number

theorem Linked.run_wholeWalk (ht : t.Linked) {h : NodeRef} {path : List Nat} (hat : NodeAt t h path) :
    ∃ events u, h.wholeWalk.run t = (.ok (events.map Walk.Item.event), u) ∧ Grown t u ∧ u.Linked ∧
      List.Forall₂ (Happens u) events ((t.root.toSlot.along path).visits (fun _ => false) path) := by
  obtain ⟨n, hn, hrun⟩ := ht.run_node hat.place hat.isNode
  obtain ⟨events, u, hdrains, hgrown, hu, hall⟩ := ht.drains_next (.start hat) (chooses_never t) 0
  have hlength : events.length ≤ 2 * n.toSlot.size + 1 := by
    rw [hall.length_eq, ← hn]
    exact Nat.le_succ_of_le (Slot.length_visits_le _ path _)
  refine ⟨events, u, ?_, hgrown, hu, hall⟩
  simp only [NodeRef.wholeWalk, NodeRef.walkLength, Step.run_bind, hrun, Step.run_pure]
  exact hdrains.run_trace hlength

end SyntaxTree

end LosslessSyntax
