import LosslessSyntax.Proofs.View.TokenLookup
import LosslessSyntax.Proofs.View.Walks

/-!
# From token to token

The search for the neighbour of a token climbs and descends through the tree, and prunes by flags. On the list of the
tokens in document order it is a step to the next one. So the two directions undo each other, and going on from the
first token until nothing is found lists all tokens, as a walk does and as the facts have them.

* `Direction.first_wantedBeyond_of_split` : the next token is the one that follows in the list;
* `Linked.undo_neighbour` : a step is undone by one in the other direction;
* `Linked.run_follow` : step after step lists the tokens that are left;
* `token_steps_in_order` : what all searches find, in one statement.
-/

set_option autoImplicit false

namespace LosslessSyntax

namespace Slot

/-! ## Places of tokens -/

theorem mem_tokenPaths_of_token {s : Slot} {path : List Nat} {token : Token} (h : s.along path = token.toSlot) :
    path ∈ s.tokenPaths := by
  rw [← List.append_nil path, append_mem_tokenPaths, h]
  exact List.mem_singleton_self []

theorem wantedPaths_true (s : Slot) : s.wantedPaths true = s.tokenPaths := List.filter_true _

/-- A token that is asked for stands between the others. -/
theorem wanted_sides {s : Slot} {withMissing : Bool} {front rest : List (List Nat)} {path : List Nat}
    (h : s.wantedPaths withMissing = front ++ path :: rest) :
    s.wantedBefore withMissing path = front ∧ s.wantedAfter withMissing path = rest := by
  have hmem : path ∈ s.wantedPaths withMissing := by
    rw [h]
    exact List.mem_append_right _ List.mem_cons_self
  obtain ⟨hpath, hwanted⟩ := List.mem_filter.1 hmem
  have hsides : s.wantedPaths withMissing =
      s.wantedBefore withMissing path ++ path :: s.wantedAfter withMissing path := by
    have hfilter := List.filter_cons_of_pos (l := s.tokenPathsAfter path)
      (p := fun other => (s.along other).isWanted withMissing) hwanted
    unfold wantedPaths
    rw [tokenPaths_split hpath, List.filter_append, hfilter]
    rfl
  have hnodup : (s.wantedPaths withMissing).Nodup := (nodup_tokenPaths s).filter _
  rw [hsides, List.nodup_middle, List.nodup_cons, List.mem_append, not_or] at hnodup
  rw [hsides] at h
  obtain ⟨hbefore, -, hafter⟩ := (List.append_cons_inj_of_notMem hnodup.1.1 hnodup.1.2).1 h
  exact ⟨hbefore, hafter⟩

end Slot

/-! ## Steps on the list -/

namespace Direction

def opposite : Direction → Direction
  | forward => backward
  | backward => forward

theorem order_opposite {α : Type} (d : Direction) (l : List α) : d.opposite.order l = (d.order l).reverse := by
  cases d with
  | forward => rfl
  | backward => exact (List.reverse_reverse l).symm

theorem first_eq_head? {α : Type} (d : Direction) (l : List α) : d.first l = (d.order l).head? := by
  cases d with
  | forward => rfl
  | backward => exact List.head?_reverse.symm

theorem length_order {α : Type} (d : Direction) (l : List α) : (d.order l).length = l.length := by
  cases d with
  | forward => rfl
  | backward => exact List.length_reverse

theorem mem_order {α : Type} (d : Direction) {l : List α} {a : α} : a ∈ d.order l ↔ a ∈ l := by
  cases d with
  | forward => exact Iff.rfl
  | backward => exact List.mem_reverse

/-- Beyond a token there are those that follow in the list. -/
theorem first_wantedBeyond_of_split (d : Direction) {s : Slot} {withMissing : Bool} {front rest : List (List Nat)}
    {path : List Nat} (h : d.order (s.wantedPaths withMissing) = front ++ path :: rest) :
    d.first (d.wantedBeyond s withMissing path) = rest.head? := by
  cases d with
  | forward => exact congrArg List.head? (Slot.wanted_sides h).2
  | backward =>
      have hback : s.wantedPaths withMissing = rest.reverse ++ path :: front.reverse := by
        rw [List.reverse_eq_iff.1 h]
        simp
      show (s.wantedBefore withMissing path).getLast? = _
      rw [(Slot.wanted_sides hback).1, List.getLast?_reverse]

/-- Where a token is the next one of another, that one is the next one of it on the way back. -/
theorem first_wantedBeyond_opposite (d : Direction) {s : Slot} {withMissing : Bool} {path other : List Nat}
    (hpath : path ∈ s.wantedPaths withMissing) (h : d.first (d.wantedBeyond s withMissing path) = some other) :
    other ∈ s.wantedPaths withMissing ∧ d.opposite.first (d.opposite.wantedBeyond s withMissing other) = some path := by
  obtain ⟨front, rest, hsplit⟩ := List.append_of_mem (d.mem_order.2 hpath)
  rw [d.first_wantedBeyond_of_split hsplit] at h
  obtain ⟨rest, rfl⟩ := List.head?_eq_some_iff.1 h
  have hback : d.opposite.order (s.wantedPaths withMissing) = rest.reverse ++ other :: path :: front.reverse := by
    rw [order_opposite, hsplit]
    simp
  refine ⟨d.mem_order.1 ?_, d.opposite.first_wantedBeyond_of_split hback⟩
  rw [hsplit]
  simp

def tokensAlong : Direction → NodeRef → Bool → Nav (List TokenRef)
  | forward => NodeRef.tokensOnward
  | backward => NodeRef.tokensBackward

end Direction

/-! ## Steps on the tree -/

namespace SyntaxTree

variable {t : SyntaxTree}

theorem ne_nil_of_mem_tokenPaths {path : List Nat} (h : path ∈ t.root.toSlot.tokenPaths) : path ≠ [] := by
  rintro rfl
  exact Slot.nil_notMem_tokenPaths rfl h

/-- A place has one view, and a view has one place. -/
theorem Linked.biUnique_tokens (ht : t.Linked) :
    Relator.BiUnique fun (token : TokenRef) (path : List Nat) => At t token.id path := by
  refine ⟨?_, ?_⟩
  · rintro ⟨a⟩ ⟨b⟩ path ha hb
    exact congrArg TokenRef.mk (ht.at_injective ha hb)
  · intro token path other hpath hother
    exact hpath.unique hother

/-- **A step is undone** by one in the other direction. -/
theorem Linked.undo_neighbour (ht : t.Linked) (d : Direction) {withMissing : Bool} {k k' : TokenRef} {path : List Nat}
    {u : SyntaxTree} (hplace : At t k.id path) (hpath : path ∈ t.root.toSlot.wantedPaths withMissing)
    (hstep : (d.neighbour k withMissing).run t = (.ok (some k'), u)) :
    ∃ w, (d.opposite.neighbour k' withMissing).run u = (.ok (some k), w) := by
  have hbelow := ne_nil_of_mem_tokenPaths (List.mem_of_mem_filter hpath)
  obtain ⟨answer, u', hrun, hgrown, hu, hrel⟩ := ht.locates_neighbour d hplace hbelow withMissing
  obtain ⟨hanswer, rfl⟩ := Prod.mk.inj (hstep.symm.trans hrun)
  cases hanswer
  generalize hfound : d.first (d.wantedBeyond t.root.toSlot withMissing path) = found at hrel
  cases hrel with
  | @some _ other hother =>
      obtain ⟨hmem, hback⟩ := d.first_wantedBeyond_opposite hpath hfound
      rw [← hgrown.root] at hmem hback
      have hbelow' := ne_nil_of_mem_tokenPaths (List.mem_of_mem_filter hmem)
      obtain ⟨answer, w, hrun', hgrown', hw, hrel'⟩ := hu.locates_neighbour d.opposite hother hbelow' withMissing
      rw [hback] at hrel'
      cases hrel' with
      | @some back _ hat =>
          refine ⟨w, ?_⟩
          rw [hrun', hw.biUnique_tokens.1 hat (hplace.grown (hgrown.trans hgrown'))]

/-- **Step after step** lists the tokens that are left. -/
theorem Linked.run_follow (ht : t.Linked) (d : Direction) {withMissing : Bool} {front rest : List (List Nat)}
    (hsplit : d.order (t.root.toSlot.wantedPaths withMissing) = front ++ rest) {start : Option TokenRef}
    (hstart : Option.Rel (fun token path => At t token.id path) start rest.head?) {fuel : Nat}
    (hfuel : rest.length ≤ fuel) :
    ∃ tokens u, (TokenRef.follow (d.neighbour · withMissing) fuel start).run t = (.ok tokens, u) ∧ Grown t u ∧
      u.Linked ∧ List.Forall₂ (fun token path => At u token.id path) tokens rest := by
  induction fuel generalizing t front rest start with
  | zero =>
      obtain rfl := List.length_eq_zero_iff.1 (Nat.le_zero.1 hfuel)
      exact ⟨[], t, rfl, .refl t, ht, .nil⟩
  | succ fuel ih =>
      cases rest with
      | nil =>
          cases hstart
          exact ⟨[], t, rfl, .refl t, ht, .nil⟩
      | cons path rest =>
          cases hstart with
          | @some k _ hplace =>
              have hmem : path ∈ t.root.toSlot.wantedPaths withMissing := by
                rw [← d.mem_order, hsplit]
                simp
              have hbelow := ne_nil_of_mem_tokenPaths (List.mem_of_mem_filter hmem)
              obtain ⟨answer, u, hrun, hgrown, hu, hrel⟩ := ht.locates_neighbour d hplace hbelow withMissing
              rw [d.first_wantedBeyond_of_split hsplit] at hrel
              have hsplit' : d.order (u.root.toSlot.wantedPaths withMissing) = (front ++ [path]) ++ rest := by
                rw [hgrown.root, hsplit, List.append_assoc]
                rfl
              obtain ⟨tokens, w, hrest, hgrown', hw, hplaces⟩ := ih hu hsplit' hrel (Nat.le_of_succ_le_succ hfuel)
              refine ⟨k :: tokens, w, ?_, hgrown.trans hgrown', hw, .cons (hplace.grown (hgrown.trans hgrown')) hplaces⟩
              simp only [TokenRef.follow, Step.run_bind, hrun, hrest, Step.run_pure]

/-- From one end of the tree to the other all tokens are listed. -/
theorem Linked.run_tokensAlong (ht : t.Linked) (d : Direction) (withMissing : Bool) :
    ∃ tokens u, (d.tokensAlong rootRef withMissing).run t = (.ok tokens, u) ∧ Grown t u ∧ u.Linked ∧
      List.Forall₂ (fun token path => At u token.id path) tokens (d.order (t.root.toSlot.wantedPaths withMissing)) := by
  obtain ⟨start, u, hrun, hgrown, hu, hrel⟩ := ht.locates_endToken d ht.place_root rfl withMissing
  have hstart : Option.Rel (fun token path => At u token.id path) start
      (d.order (u.root.toSlot.wantedPaths withMissing)).head? := by
    rw [hgrown.root, ← d.first_eq_head?]
    simpa using hrel
  have hfuel : (d.order (u.root.toSlot.wantedPaths withMissing)).length ≤ t.root.toSlot.size := by
    have hall := Slot.length_tokenPaths_le t.root.toSlot
    have hsome : (t.root.toSlot.wantedPaths withMissing).length ≤ t.root.toSlot.tokenPaths.length :=
      List.length_filter_le _ _
    rw [hgrown.root, d.length_order]
    omega
  obtain ⟨tokens, w, hfollow, hgrown', hw, hplaces⟩ := hu.run_follow d (List.nil_append _).symm hstart hfuel
  rw [hgrown.root] at hplaces
  refine ⟨tokens, w, ?_, hgrown.trans hgrown', hw, hplaces⟩
  cases d with
  | forward =>
      show (NodeRef.tokensOnward rootRef withMissing).run t = _
      replace hrun : (rootRef.firstToken withMissing).run t = (.ok start, u) := hrun
      simp only [NodeRef.tokensOnward, Step.run_bind, Step.run_get, hrun]
      exact hfollow
  | backward =>
      show (NodeRef.tokensBackward rootRef withMissing).run t = _
      replace hrun : (rootRef.lastToken withMissing).run t = (.ok start, u) := hrun
      simp only [NodeRef.tokensBackward, Step.run_bind, Step.run_get, hrun]
      exact hfollow

theorem Linked.run_tokenFacts (ht : t.Linked) {tokens : List TokenRef} {paths : List (List Nat)} {facts : List Token}
    (hplaces : List.Forall₂ (fun token path => At t token.id path) tokens paths)
    (hfacts : paths.map t.root.toSlot.along = facts.map Token.toSlot) :
    (tokens.mapM' TokenRef.token).run t = (.ok facts, t) := by
  induction hplaces generalizing facts with
  | nil =>
      obtain rfl := List.map_eq_nil_iff.1 hfacts.symm
      rfl
  | @cons token path _ _ hplace _ ih =>
      obtain ⟨fact, facts, rfl, hfact, hrest⟩ := List.map_eq_cons_iff.1 hfacts.symm
      obtain ⟨v, hv, hview, -⟩ := ht.view_along hplace
      have hrun : token.token.run t = (.ok fact, t) := by
        simp only [TokenRef.token, Step.run_bind, run_view hv, hview, ← hfact]
        rfl
      simp only [List.mapM', Step.run_bind, hrun, ih hrest.symm, Step.run_pure]

end SyntaxTree

open SyntaxTree (At Locates)

/-- **Searches for tokens follow the document order.** The neighbours of a token are the nearest ones on either side of
it, of those that are asked for, and the first and the last token of a node are those of its tokens. Going on from the
first token lists each token once, as the facts have them and as a walk meets them; and a step is undone by one in the
other direction. -/
theorem token_steps_in_order {root : Node} (hroot : root.toSlot.Obtainable) {t : SyntaxTree}
    (ht : (SyntaxTree.ofRoot root).Reaches t) (withMissing : Bool) :
    (∀ {k : TokenRef} {path : List Nat} {token : Token}, At t k.id path → root.toSlot.along path = token.toSlot →
      ∃ before after, root.toSlot.tokenPaths = before ++ path :: after ∧
        Locates t (k.next withMissing) (after.find? fun other => (root.toSlot.along other).isWanted withMissing) ∧
        Locates t (k.prev withMissing)
          (before.reverse.find? fun other => (root.toSlot.along other).isWanted withMissing)) ∧
    (∀ {h : NodeRef} {path : List Nat} {node : Node}, At t h.id path → root.toSlot.along path = node.toSlot →
      Locates t (h.firstToken withMissing)
        ((node.toSlot.tokenPaths.find? fun other => (node.toSlot.along other).isWanted withMissing).map (path ++ ·)) ∧
      Locates t (h.lastToken withMissing)
        ((node.toSlot.tokenPaths.reverse.find? fun other =>
          (node.toSlot.along other).isWanted withMissing).map (path ++ ·))) ∧
    (∃ (tokens : List TokenRef) (u : SyntaxTree),
      (SyntaxTree.rootRef.tokensOnward true).run t = (.ok tokens, u) ∧ tokens.Nodup ∧
      List.Forall₂ (fun (k : TokenRef) path => At u k.id path) tokens root.toSlot.tokenPaths ∧
      (tokens.mapM' TokenRef.token).run u = (.ok root.toSlot.tokens, u) ∧
      (∃ w, (SyntaxTree.rootRef.tokensBackward true).run u = (.ok tokens.reverse, w)) ∧
      ∃ (events : List WalkEvent) (w : SyntaxTree),
        SyntaxTree.rootRef.wholeWalk.run u = (.ok (events.map Walk.Item.event), w) ∧
        events.filterMap WalkEvent.token? = tokens) ∧
    (∀ {k k' : TokenRef} {path : List Nat} {token : Token} {u : SyntaxTree}, At t k.id path →
      root.toSlot.along path = token.toSlot → token.toSlot.isWanted withMissing = true →
      ((k.next withMissing).run t = (.ok (some k'), u) → ∃ w, (k'.prev withMissing).run u = (.ok (some k), w)) ∧
      ((k.prev withMissing).run t = (.ok (some k'), u) → ∃ w, (k'.next withMissing).run u = (.ok (some k), w))) := by
  obtain ⟨hlinked, hgrown⟩ := ht.linked (SyntaxTree.linked_ofRoot (Slot.obtainable_iff_made.1 hroot))
  obtain rfl : t.root = root := hgrown.root
  refine ⟨?_, ?_, ?_, ?_⟩
  · intro k path token hplace htoken
    have hmem := Slot.mem_tokenPaths_of_token htoken
    have hbelow := SyntaxTree.ne_nil_of_mem_tokenPaths hmem
    have hnext := hlinked.locates_next hplace hbelow withMissing
    have hprev := hlinked.locates_prev hplace hbelow withMissing
    rw [Slot.wantedAfter, List.head?_filter] at hnext
    rw [Slot.wantedBefore, List.getLast?_filter] at hprev
    exact ⟨_, _, Slot.tokenPaths_split hmem, hnext, hprev⟩
  · intro h path node hplace hnode
    have hfirst := hlinked.locates_firstToken hplace (by rw [hnode]; rfl) withMissing
    have hlast := hlinked.locates_lastToken hplace (by rw [hnode]; rfl) withMissing
    rw [hnode, Slot.wantedPaths, List.head?_filter] at hfirst
    rw [hnode, Slot.wantedPaths, List.getLast?_filter] at hlast
    exact ⟨hfirst, hlast⟩
  · obtain ⟨tokens, u, hrun, hgrown', hu, hplaces⟩ := hlinked.run_tokensAlong .forward true
    replace hplaces : List.Forall₂ (fun (k : TokenRef) path => At u k.id path) tokens t.root.toSlot.tokenPaths := by
      rw [← Slot.wantedPaths_true]
      exact hplaces
    have hnodup := (List.rel_nodup hu.biUnique_tokens hplaces).2 (Slot.nodup_tokenPaths _)
    have hfacts := hu.run_tokenFacts hplaces (by rw [hgrown'.root]; exact Slot.map_along_tokenPaths _)
    refine ⟨tokens, u, hrun, hnodup, hplaces, hfacts, ?_, ?_⟩
    · obtain ⟨others, w, hback, hgrown'', hw, hothers⟩ := hu.run_tokensAlong .backward true
      replace hothers : List.Forall₂ (fun (k : TokenRef) path => At w k.id path) others
          t.root.toSlot.tokenPaths.reverse := by
        rw [← Slot.wantedPaths_true, ← hgrown'.root]
        exact hothers
      have hsame := List.left_unique_forall₂' hw.biUnique_tokens.1 hothers
        (List.forall₂_reverse_iff.2 (hplaces.imp fun _ _ hplace => hplace.grown hgrown''))
      exact ⟨w, hsame ▸ hback⟩
    · obtain ⟨events, w, hwalk, hgrown'', hw, hall⟩ := hu.run_wholeWalk hu.nodeAt_root
      have htokens := SyntaxTree.Happens.tokens hall
      rw [Slot.filterMap_visits_token, hgrown'.root] at htokens
      replace htokens : List.Forall₂ (fun (k : TokenRef) path => At w k.id path)
          (events.filterMap WalkEvent.token?) t.root.toSlot.tokenPaths := by
        simpa using htokens
      exact ⟨events, w, hwalk, List.left_unique_forall₂' hw.biUnique_tokens.1 htokens
        (hplaces.imp fun _ _ hplace => hplace.grown hgrown'')⟩
  · intro k k' path token u hplace htoken hwanted
    have hmem : path ∈ t.root.toSlot.wantedPaths withMissing :=
      List.mem_filter.2 ⟨Slot.mem_tokenPaths_of_token htoken, htoken ▸ hwanted⟩
    exact ⟨hlinked.undo_neighbour .forward hplace hmem, hlinked.undo_neighbour .backward hplace hmem⟩

/-- From the first name on: the missing semicolon behind it is passed over unless it is asked for. -/
theorem tornList_steps : ∃ (root : Node) (t : SyntaxTree) (k : TokenRef), tornList 2 = .ok root ∧
    root.toSlot.Obtainable ∧ (SyntaxTree.ofRoot root).Reaches t ∧ At t k.id [0] ∧
    Locates t (k.next false) (some [2, 1]) ∧ Locates t (k.next true) (some [1]) ∧ Locates t (k.prev true) none ∧
    Locates t (SyntaxTree.rootRef.lastToken false) (some [2, 1]) ∧
    ∃ (tokens : List TokenRef) (u : SyntaxTree), (SyntaxTree.rootRef.tokensOnward true).run t = (.ok tokens, u) ∧
      List.Forall₂ (fun (token : TokenRef) path => At u token.id path) tokens [[0], [1], [2, 1], [3]] := by
  obtain ⟨root, hn, hpresent, hfirst, hpaths, hpresentNext, hpresentLast⟩ : ∃ root : Node, tornList 2 = .ok root ∧
      (root.toSlot.along [0]).isPresent = true ∧ root.toSlot.along [0] = (Token.plain 0 .name 2).toSlot ∧
      root.toSlot.tokenPaths = [[0], [1], [2, 1], [3]] ∧
      ([[1], [2, 1], [3]].find? fun other => (root.toSlot.along other).isWanted false) = some [2, 1] ∧
      ([[3], [2, 1], [1], [0]].find? fun other => (root.toSlot.along other).isWanted false) = some [2, 1] :=
    ⟨_, rfl, rfl, rfl, rfl, rfl, rfl⟩
  have hobtainable := tornList_obtainable hn
  have hlinked := SyntaxTree.linked_ofRoot (Slot.obtainable_iff_made.1 hobtainable)
  obtain ⟨top, htop, hparent, hfact, -⟩ := hlinked.root
  rw [show root.toSlot = top.fact from hfact.symm] at hpresent
  obtain ⟨t, c, hreach, hat⟩ := hlinked.exists_view_below htop (.root htop hparent) hpresent
  have hsides : ∀ {before after : List (List Nat)}, root.toSlot.tokenPaths = before ++ [0] :: after →
      before = [] ∧ after = [[1], [2, 1], [3]] := by
    intro before after h
    rw [hpaths, ← List.nil_append [_, _, _, _]] at h
    obtain ⟨hbefore, -, hafter⟩ := (List.append_cons_inj_of_notMem List.not_mem_nil (by decide)).1 h
    exact ⟨hbefore.symm, hafter.symm⟩
  obtain ⟨hneighbours, hends, -⟩ := token_steps_in_order hobtainable hreach false
  obtain ⟨hneighbours', -, ⟨tokens, u, hrun, -, hplaces, -⟩, -⟩ := token_steps_in_order hobtainable hreach true
  obtain ⟨before, after, hsplit, hnext, -⟩ := hneighbours (k := ⟨c⟩) hat hfirst
  obtain ⟨before', after', hsplit', hnext', hprev'⟩ := hneighbours' (k := ⟨c⟩) hat hfirst
  obtain ⟨-, rfl⟩ := hsides hsplit
  obtain ⟨rfl, rfl⟩ := hsides hsplit'
  obtain ⟨-, hlast⟩ := hends (hreach.linked hlinked).1.place_root (show root.toSlot.along [] = root.toSlot from rfl)
  rw [hpaths] at hplaces hlast
  refine ⟨root, t, ⟨c⟩, hn, hobtainable, hreach, hat, ?_, hnext', hprev', ?_, tokens, u, hrun, hplaces⟩
  · rw [hpresentNext] at hnext
    exact hnext
  · have hsame : ([[0], [1], [2, 1], [3]] : List (List Nat)).reverse = [[3], [2, 1], [1], [0]] := rfl
    rw [hsame, hpresentLast] at hlast
    exact hlast

end LosslessSyntax
