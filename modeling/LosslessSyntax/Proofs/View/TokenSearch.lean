import LosslessSyntax.Proofs.View.TokenOrder
import LosslessSyntax.View.Token

/-!
# Searches for tokens

A search for a token goes down along the first or the last slots that have one, or up until there is something beyond
the place where it began. It goes forward or backward, and both directions follow one plan: against the list of all
tokens in document order, a search finds the first token that it meets in a stretch of that list. A slot that is flagged
as missing is left out without a look into it, which is right because none of its tokens is present.

* `Direction` : forward or backward, with the order in which things are met;
* `SyntaxTree.Locates` : a search finds the token at the end of a path;
* `Linked.locates_inSlots` : what a search through slots finds, if it is known what it finds inside them;
* `Linked.locates_firstToken`, `Linked.locates_lastToken`, `Linked.locates_next`, `Linked.locates_prev` : what the
  searches find.
-/

set_option autoImplicit false

namespace LosslessSyntax

/-! ## Directions -/

/-- The two ways to go through the tokens in document order. -/
inductive Direction where
  | forward
  | backward

namespace Direction

variable {α β : Type}

def first : Direction → List α → Option α
  | forward => List.head?
  | backward => List.getLast?

def order : Direction → List α → List α
  | forward => id
  | backward => List.reverse

@[simp] theorem first_nil (d : Direction) : d.first ([] : List α) = none := by
  cases d <;> rfl

@[simp] theorem first_singleton (d : Direction) (a : α) : d.first [a] = some a := by
  cases d <;> rfl

theorem first_map (d : Direction) (f : α → β) (l : List α) : d.first (l.map f) = (d.first l).map f := by
  cases d with
  | forward => exact List.head?_map
  | backward => exact List.getLast?_map

theorem first_flatMap (d : Direction) (f : α → List β) (l : List α) :
    d.first (l.flatMap f) = (d.order l).findSome? fun a => d.first (f a) := by
  cases d with
  | forward => exact List.head?_flatMap
  | backward => exact List.getLast?_flatMap

/-- The slots, out of as many as given, that lie beyond the slot `n`. -/
def slotsBeyond : Direction → Nat → Nat → List Nat
  | forward, n, count => List.range' (n + 1) (count - (n + 1))
  | backward, n, _ => List.range n

def wantedBeyond : Direction → Slot → Bool → List Nat → List (List Nat)
  | forward => Slot.wantedAfter
  | backward => Slot.wantedBefore

/-- Beyond a slot of a node there are its slots beyond that one, and then what is beyond the node. -/
theorem first_wantedBeyond (d : Direction) (s : Slot) (withMissing : Bool) (path : List Nat) {n : Nat}
    (hn : n < (s.along path).count) :
    d.first (d.wantedBeyond s withMissing (path ++ [n])) =
      (d.first (s.wantedIn withMissing path (d.slotsBeyond n (s.along path).count))).or
        (d.first (d.wantedBeyond s withMissing path)) := by
  cases d with
  | forward =>
      show (s.wantedAfter withMissing (path ++ [n])).head? = _
      rw [Slot.wantedAfter_snoc, List.head?_append]
      rfl
  | backward =>
      show (s.wantedBefore withMissing (path ++ [n])).getLast? = _
      rw [Slot.wantedBefore_snoc _ _ _ (Nat.le_of_lt hn), List.getLast?_append]
      rfl

def tokenWithin : Direction → Bool → Nat → NodeRef → Nav (Option TokenRef)
  | forward => NodeRef.firstTokenWithin
  | backward => NodeRef.lastTokenWithin

def tokenBeyond : Direction → Bool → Nat → NodeRef → Nat → Nav (Option TokenRef)
  | forward => NodeRef.tokenBehind
  | backward => NodeRef.tokenInFront

def endToken : Direction → NodeRef → Bool → Nav (Option TokenRef)
  | forward => NodeRef.firstToken
  | backward => NodeRef.lastToken

def neighbour : Direction → TokenRef → Bool → Nav (Option TokenRef)
  | forward => TokenRef.next
  | backward => TokenRef.prev

end Direction

/-! ## Searches -/

namespace SyntaxTree

/-- The search finds the token at the end of the path, or nothing if none is given. It may make views on the way. -/
def Locates (t : SyntaxTree) (search : Nav (Option TokenRef)) (path? : Option (List Nat)) : Prop :=
  ∃ answer u, search.run t = (.ok answer, u) ∧ Grown t u ∧ u.Linked ∧
    Option.Rel (fun token path => At u token.id path) answer path?

variable {t : SyntaxTree}

theorem Locates.of_run {search other : Nav (Option TokenRef)} {path? : Option (List Nat)} (h : Locates t other path?)
    (hrun : search.run t = other.run t) : Locates t search path? := by
  obtain ⟨answer, u, hother, h⟩ := h
  exact ⟨answer, u, hrun.trans hother, h⟩

theorem Linked.locates_pure_none (h : t.Linked) : Locates t (pure none) none :=
  ⟨none, t, rfl, .refl t, h, .none⟩

/-- Trying one after the other finds what the first one does that finds anything. -/
theorem Linked.locates_findSomeM? (h : t.Linked) {search : Nat → Nav (Option TokenRef)}
    {path? : Nat → Option (List Nat)} {indices : List Nat}
    (hall : ∀ i ∈ indices, ∀ {u : SyntaxTree}, Grown t u → u.Linked → Locates u (search i) (path? i)) :
    Locates t (indices.findSomeM? search) (indices.findSome? path?) := by
  induction indices generalizing t with
  | nil => exact h.locates_pure_none
  | cons i rest ih =>
      obtain ⟨answer, u, hrun, hgrown, hu, hrel⟩ := hall i List.mem_cons_self (.refl t) h
      rw [List.findSome?_cons]
      generalize path? i = found at hrel ⊢
      cases hrel with
      | some hplace =>
          refine ⟨_, u, ?_, hgrown, hu, .some hplace⟩
          rw [List.findSomeM?, Step.run_bind, hrun]
          rfl
      | none =>
          obtain ⟨answer', u', hrun', hgrown', hu', hrel'⟩ :=
            ih hu fun j hj _ hg => hall j (List.mem_cons_of_mem _ hj) (hgrown.trans hg)
          refine ⟨answer', u', ?_, hgrown.trans hgrown', hu', hrel'⟩
          rw [List.findSomeM?, Step.run_bind, hrun]
          exact hrun'

theorem Linked.run_slotIsMissing (ht : t.Linked) {h : NodeRef} {path : List Nat} (hplace : At t h.id path)
    (hnode : (t.root.toSlot.along path).isNode = true) (i : Nat) :
    (h.slotIsMissing i).run t = (.ok ((t.root.toSlot.along (path ++ [i])).isPresent &&
      (t.root.toSlot.along (path ++ [i])).flags.isMissing), t) := by
  obtain ⟨n, hn, hrun⟩ := ht.run_node hplace hnode
  unfold NodeRef.slotIsMissing
  rw [Step.run_bind, hrun, Slot.along_append, hn]
  rfl

/-- What a search finds in a slot, if it is known what it finds inside the node there. -/
theorem Linked.locates_tokenInSlot (ht : t.Linked) (d : Direction) {h : NodeRef} {path : List Nat}
    (hplace : At t h.id path) (hnode : (t.root.toSlot.along path).isNode = true) {withMissing : Bool}
    {inside : NodeRef → Nav (Option TokenRef)} (i : Nat)
    (hinside : ∀ {u : SyntaxTree} {n : NodeRef}, Grown t u → u.Linked → At u n.id (path ++ [i]) →
      (u.root.toSlot.along (path ++ [i])).isNode = true → Locates u (inside n)
        ((d.first ((u.root.toSlot.along (path ++ [i])).wantedPaths withMissing)).map (path ++ [i] ++ ·))) :
    Locates t (h.tokenInSlot inside withMissing i)
      ((d.first ((t.root.toSlot.along (path ++ [i])).wantedPaths withMissing)).map (path ++ [i] ++ ·)) := by
  have hskip := ht.run_slotIsMissing hplace hnode i
  unfold NodeRef.tokenInSlot
  by_cases hmissing : (!withMissing && ((t.root.toSlot.along (path ++ [i])).isPresent &&
      (t.root.toSlot.along (path ++ [i])).flags.isMissing)) = true
  · obtain ⟨rfl, -, hflag⟩ : withMissing = false ∧ _ ∧ _ := by simpa using hmissing
    refine ⟨none, t, ?_, .refl t, ht, ?_⟩
    · rw [Step.run_bind, hskip]
      simp only [hmissing, if_true, Step.run_pure]
    · rw [(ht.made.along _).wantedPaths_eq_nil hflag, d.first_nil]
      exact .none
  · obtain ⟨answer, u, hrun, hgrown, hu, hanswer⟩ := ht.run_child hplace i
    rw [← hgrown.root] at hmissing ⊢
    cases hanswer with
    | none habsent =>
        refine ⟨none, u, ?_, hgrown, hu, ?_⟩
        · simp only [Step.run_bind, hskip, ← hgrown.root, hmissing, Bool.false_eq_true, if_false, hrun, Step.run_pure]
        · rw [habsent, show Slot.absent.wantedPaths withMissing = [] from rfl, d.first_nil]
          exact .none
    | @token k head leading hat htoken =>
        refine ⟨some k, u, ?_, hgrown, hu, ?_⟩
        · simp only [Step.run_bind, hskip, ← hgrown.root, hmissing, Bool.false_eq_true, if_false, hrun, Step.run_pure]
        · rw [htoken] at hmissing ⊢
          have hwanted : (Slot.token head leading).isWanted withMissing = true := by
            cases withMissing with
            | true => rfl
            | false => simpa [Slot.isWanted, Slot.isPresent] using hmissing
          have hpaths : (Slot.token head leading).wantedPaths withMissing = [[]] := List.filter_cons_of_pos hwanted
          rw [hpaths, d.first_singleton, Option.map_some, List.append_nil]
          exact .some hat
    | node hat hinner =>
        obtain ⟨answer, u', hrun', hgrown', hu', hrel⟩ := hinside hgrown hu hat hinner
        refine ⟨answer, u', ?_, hgrown.trans hgrown', hu', hrel⟩
        simp only [Step.run_bind, hskip, ← hgrown.root, hmissing, Bool.false_eq_true, if_false, hrun]
        exact hrun'

/-- A search through slots of a node finds the first token there that it meets, if it does so inside the nodes in the
slots. -/
theorem Linked.locates_inSlots (ht : t.Linked) (d : Direction) {h : NodeRef} {path : List Nat}
    (hplace : At t h.id path) (hnode : (t.root.toSlot.along path).isNode = true) (withMissing : Bool)
    (inside : NodeRef → Nav (Option TokenRef)) (indices : List Nat)
    (hinside : ∀ i, ∀ {u : SyntaxTree} {c : NodeRef}, Grown t u → u.Linked → At u c.id (path ++ [i]) →
      (u.root.toSlot.along (path ++ [i])).isNode = true → Locates u (inside c)
        ((d.first ((u.root.toSlot.along (path ++ [i])).wantedPaths withMissing)).map (path ++ [i] ++ ·))) :
    Locates t ((d.order indices).findSomeM? (h.tokenInSlot inside withMissing))
      (d.first (t.root.toSlot.wantedIn withMissing path indices)) := by
  rw [Slot.wantedIn, d.first_flatMap]
  simp only [d.first_map]
  refine ht.locates_findSomeM? fun i _ u hgrown hu => ?_
  rw [← hgrown.root] at hnode ⊢
  exact hu.locates_tokenInSlot d (hplace.grown hgrown) hnode i fun hg hw => hinside i (hgrown.trans hg) hw

theorem Linked.locates_tokenWithin (ht : t.Linked) (d : Direction) {h : NodeRef} {path : List Nat}
    (hplace : At t h.id path) (hnode : (t.root.toSlot.along path).isNode = true) (withMissing : Bool) {fuel : Nat}
    (hfuel : (t.root.toSlot.along path).height ≤ fuel) :
    Locates t (d.tokenWithin withMissing fuel h)
      ((d.first ((t.root.toSlot.along path).wantedPaths withMissing)).map (path ++ ·)) := by
  induction fuel generalizing t h path with
  | zero => exact absurd (Slot.height_along_lt hnode 0) (by omega)
  | succ fuel ih =>
      rw [← d.first_map, Slot.map_wantedPaths_node _ _ hnode]
      have hslots := ht.locates_inSlots d hplace hnode withMissing (d.tokenWithin withMissing fuel)
        (List.range (t.root.toSlot.along path).count) fun i u c hgrown hu hat hinner => by
          have hlt := Slot.height_along_lt hnode i
          refine ih hu hat hinner ?_
          rw [hgrown.root, Slot.along_append]
          omega
      refine hslots.of_run ?_
      cases d with
      | forward =>
          show (NodeRef.firstTokenWithin withMissing (fuel + 1) h).run t = _
          rw [NodeRef.firstTokenWithin, Step.run_bind, ht.run_count hplace]
          rfl
      | backward =>
          show (NodeRef.lastTokenWithin withMissing (fuel + 1) h).run t = _
          rw [NodeRef.lastTokenWithin, Step.run_bind, ht.run_count hplace]
          rfl

theorem Linked.locates_endToken (ht : t.Linked) (d : Direction) {h : NodeRef} {path : List Nat}
    (hplace : At t h.id path) (hnode : (t.root.toSlot.along path).isNode = true) (withMissing : Bool) :
    Locates t (d.endToken h withMissing)
      ((d.first ((t.root.toSlot.along path).wantedPaths withMissing)).map (path ++ ·)) := by
  obtain ⟨n, hn, hrun⟩ := ht.run_node hplace hnode
  refine (ht.locates_tokenWithin d hplace hnode withMissing (Nat.le_of_eq (congrArg _ hn))).of_run ?_
  cases d with
  | forward =>
      show (h.firstToken withMissing).run t = _
      rw [NodeRef.firstToken, Step.run_bind, hrun]
      rfl
  | backward =>
      show (h.lastToken withMissing).run t = _
      rw [NodeRef.lastToken, Step.run_bind, hrun]
      rfl

/-- **The first token under a node** is the first one in document order, of those that are asked for. -/
theorem Linked.locates_firstToken (ht : t.Linked) {h : NodeRef} {path : List Nat} (hplace : At t h.id path)
    (hnode : (t.root.toSlot.along path).isNode = true) (withMissing : Bool) :
    Locates t (h.firstToken withMissing)
      (((t.root.toSlot.along path).wantedPaths withMissing).head?.map (path ++ ·)) :=
  ht.locates_endToken .forward hplace hnode withMissing

/-- **The last token under a node** is the last one in document order, of those that are asked for. -/
theorem Linked.locates_lastToken (ht : t.Linked) {h : NodeRef} {path : List Nat} (hplace : At t h.id path)
    (hnode : (t.root.toSlot.along path).isNode = true) (withMissing : Bool) :
    Locates t (h.lastToken withMissing)
      (((t.root.toSlot.along path).wantedPaths withMissing).getLast?.map (path ++ ·)) :=
  ht.locates_endToken .backward hplace hnode withMissing

/-- One step of the search beyond a slot: through the slots beyond it, and then, if there is nothing, up. -/
theorem Linked.run_tokenBeyond (ht : t.Linked) (d : Direction) {h : NodeRef} {path : List Nat} (hplace : At t h.id path)
    (hnode : (t.root.toSlot.along path).isNode = true) (withMissing : Bool) (fuel n : Nat) :
    (d.tokenBeyond withMissing (fuel + 1) h n).run t =
      (do
        let inside := d.tokenWithin withMissing (t.root.toSlot.along path).height
        let beyond := d.order (d.slotsBeyond n (t.root.toSlot.along path).count)
        match ← beyond.findSomeM? (h.tokenInSlot inside withMissing) with
        | some k => return some k
        | none =>
          match ← h.index, ← h.parent with
          | some index, some parent => d.tokenBeyond withMissing fuel parent index
          | _, _ => return none : Nav (Option TokenRef)).run t := by
  obtain ⟨node, hfact, hrun⟩ := ht.run_node hplace hnode
  have hcount := ht.run_count hplace
  rw [hfact] at hcount ⊢
  cases d with
  | forward =>
      show (NodeRef.tokenBehind withMissing (fuel + 1) h n).run t = _
      rw [NodeRef.tokenBehind, Step.run_bind, hrun]
      show Step.run (h.count >>= _) t = _
      rw [Step.run_bind, hcount]
      rfl
  | backward =>
      show (NodeRef.tokenInFront withMissing (fuel + 1) h n).run t = _
      rw [NodeRef.tokenInFront, Step.run_bind, hrun]
      rfl

/-- The search beyond a slot, and then beyond the nodes above, finds the first token there that it meets. -/
theorem Linked.locates_tokenBeyond (ht : t.Linked) (d : Direction) {h : NodeRef} {path : List Nat}
    (hplace : At t h.id path) (hnode : (t.root.toSlot.along path).isNode = true) (withMissing : Bool) {fuel n : Nat}
    (hfuel : path.length < fuel) (hn : n < (t.root.toSlot.along path).count) :
    Locates t (d.tokenBeyond withMissing fuel h n)
      (d.first (d.wantedBeyond t.root.toSlot withMissing (path ++ [n]))) := by
  induction fuel generalizing t h path n with
  | zero => exact absurd hfuel (Nat.not_lt_zero _)
  | succ fuel ih =>
      have hstep := ht.run_tokenBeyond d hplace hnode withMissing fuel n
      have hslots := ht.locates_inSlots d hplace hnode withMissing
        (d.tokenWithin withMissing (t.root.toSlot.along path).height)
        (d.slotsBeyond n (t.root.toSlot.along path).count) fun i u c hgrown hu hat hinner => by
          have hlt := Slot.height_along_lt hnode i
          refine hu.locates_tokenWithin d hat hinner withMissing ?_
          rw [hgrown.root, Slot.along_append]
          omega
      rw [d.first_wantedBeyond _ _ _ hn]
      obtain ⟨answer, u, hrun, hgrown, hu, hrel⟩ := hslots
      generalize d.first (t.root.toSlot.wantedIn withMissing path _) = found at hrel ⊢
      cases hrel with
      | some hat =>
          refine ⟨_, u, ?_, hgrown, hu, .some hat⟩
          simp only [hstep, Step.run_bind, hrun, Step.run_pure]
      | none =>
          rw [Option.none_or]
          cases hplace.grown hgrown with
          | root hv hparent =>
              refine ⟨none, u, ?_, hgrown, hu, ?_⟩
              · simp only [hstep, NodeRef.index, NodeRef.parent, Step.run_bind, hrun, run_view hv, Step.run_pure,
                  hparent, Option.map_none]
              · cases d <;> exact .none
          | @child _ p v path hp hv hparent =>
              obtain ⟨hinner, hindex⟩ := hu.parent_isNode hp hv hparent
              rw [List.length_append, List.length_singleton] at hfuel
              obtain ⟨answer, u', hrun', hgrown', hu', hrel⟩ :=
                ih (h := ⟨p⟩) hu hp hinner (Nat.lt_of_succ_lt_succ hfuel) hindex
              rw [hgrown.root] at hrel
              refine ⟨answer, u', ?_, hgrown.trans hgrown', hu', hrel⟩
              simp only [hstep, NodeRef.index, NodeRef.parent, Step.run_bind, hrun, run_view hv, Step.run_pure,
                hparent, Option.map_some]
              exact hrun'

theorem Linked.locates_neighbour (ht : t.Linked) (d : Direction) {h : TokenRef} {path : List Nat}
    (hplace : At t h.id path) (hbelow : path ≠ []) (withMissing : Bool) :
    Locates t (d.neighbour h withMissing) (d.first (d.wantedBeyond t.root.toSlot withMissing path)) := by
  cases hplace with
  | root hv hparent => exact absurd rfl hbelow
  | @child _ p v path hp hv hparent =>
      obtain ⟨hinner, hindex⟩ := ht.parent_isNode hp hv hparent
      obtain ⟨w, hw, -⟩ := hp.view
      obtain ⟨other, hlocated⟩ := ht.located hw
      have hdepth := hlocated.depth
      rw [hlocated.place.unique hp] at hdepth
      have hbeyond := ht.locates_tokenBeyond d (h := ⟨p⟩) hp hinner withMissing (Nat.lt_succ_of_le hdepth) hindex
      refine hbeyond.of_run ?_
      cases d <;>
        simp only [Direction.neighbour, Direction.tokenBeyond, TokenRef.next, TokenRef.prev, TokenRef.parent,
          TokenRef.index, Step.run_bind, run_view hv, hparent, Step.run_pure]

/-- **The token after another one** is the first one behind it in document order, of those that are asked for. -/
theorem Linked.locates_next (ht : t.Linked) {h : TokenRef} {path : List Nat} (hplace : At t h.id path)
    (hbelow : path ≠ []) (withMissing : Bool) :
    Locates t (h.next withMissing) (t.root.toSlot.wantedAfter withMissing path).head? :=
  ht.locates_neighbour .forward hplace hbelow withMissing

/-- **The token before another one** is the last one in front of it in document order, of those that are asked for. -/
theorem Linked.locates_prev (ht : t.Linked) {h : TokenRef} {path : List Nat} (hplace : At t h.id path)
    (hbelow : path ≠ []) (withMissing : Bool) :
    Locates t (h.prev withMissing) (t.root.toSlot.wantedBefore withMissing path).getLast? :=
  ht.locates_neighbour .backward hplace hbelow withMissing

end SyntaxTree

end LosslessSyntax
