import LosslessSyntax.Proofs.Fact.Terminals
import LosslessSyntax.Proofs.View.Refinement

/-!
# The spans of views

A token is made without a look at its width, but a node is made only if the widths of all its children fit together.
So below a node nothing is too wide, at whatever depth: a view never starts behind the end of the root, and all that
is computed from its offset fits as well.

* `Range.Tile` : ranges that lie one behind the other, without gap or overlap;
* `Slot.tokenPaths` : the paths of the tokens of a fact in document order, and `Slot.tile_tokenPaths` : their ranges
  tile the fact;
* `Linked.spans` : the ranges of a view as plain numbers;
* `Linked.run_children` : asking for the children of a node finds those in its present slots, in order;
* `Linked.exists_views` : every place can be reached by questions;
* `spans_tile_text` : the ranges of views are defined, and tile those of their parents and the text.
-/

set_option autoImplicit false

namespace LosslessSyntax

namespace Range

/-- The ranges lie one behind the other from `start` to `stop`, without gap or overlap. -/
def Tile : Nat → List Range → Nat → Prop
  | start, [], stop => start = stop
  | start, r :: rest, stop => r.start = start ∧ r.start ≤ r.stop ∧ Tile r.stop rest stop

theorem Tile.append {rs qs : List Range} {start mid stop : Nat} (h : Tile start rs mid) (h' : Tile mid qs stop) :
    Tile start (rs ++ qs) stop := by
  induction rs generalizing start with
  | nil =>
      obtain rfl : start = mid := h
      exact h'
  | cons r rest ih => exact ⟨h.1, h.2.1, ih h.2.2⟩

theorem ofWidth_eq_ok {start width : Nat} (h : start + width < Size.limit) :
    ofWidth start width = .ok ⟨start, start + width⟩ := by
  unfold ofWidth
  rw [Size.add_eq_ofNat, Size.ofNat_eq_ok h]
  rfl

theorem containsRange_iff {r inner : Range} :
    r.containsRange inner = true ↔ r.start ≤ inner.start ∧ inner.stop ≤ r.stop := by
  simp [containsRange]

end Range

/-! ## The tokens of a fact in document order -/

namespace Slot

mutual

/-- The paths of slots that lead to the tokens of a fact, in document order. -/
def tokenPaths : Slot → List (List Nat)
  | .absent => []
  | .token _ _ => [[]]
  | .node _ slots => tokenPathsFrom 0 slots

/-- The paths of the tokens of some slots, the first of which has the number `i`. -/
def tokenPathsFrom (i : Nat) : List Slot → List (List Nat)
  | [] => []
  | s :: rest => s.tokenPaths.map (i :: ·) ++ tokenPathsFrom (i + 1) rest

end

/-- The fact at the end of a path; absent if the path leads nowhere. -/
def along : Slot → List Nat → Slot
  | s, [] => s
  | s, i :: rest => (s.slots[i]?.getD .absent).along rest

def rangeAlong (s : Slot) (start : Nat) (path : List Nat) : Range :=
  ⟨start + s.offsetAlong path, start + s.offsetAlong path + (s.along path).extent⟩

/-- A path through a slot goes on in the fact of that slot, behind all that lies in front of it. -/
theorem rangeAlong_node (head : NodeHead) (front : List Slot) (s : Slot) (rest : List Slot) (start : Nat)
    (path : List Nat) :
    (Slot.node head (front ++ s :: rest)).rangeAlong start (front.length :: path) =
      s.rangeAlong (start + extents front) path := by
  have hfront : (Slot.node head (front ++ s :: rest)).slots.take front.length = front := List.take_left
  have hslot : (Slot.node head (front ++ s :: rest)).slots[front.length]?.getD .absent = s := getD_behind front s rest
  unfold rangeAlong
  rw [offsetAlong, along, hslot, hfront, ← Nat.add_assoc start]

mutual

theorem tile_tokenPaths (s : Slot) (start : Nat) :
    Range.Tile start (s.tokenPaths.map (s.rangeAlong start)) (start + s.extent) := by
  cases s with
  | absent => rfl
  | token head leading => exact ⟨rfl, Nat.le_add_right _ _, rfl⟩
  | node head slots => exact tile_tokenPathsFrom head [] slots start

theorem tile_tokenPathsFrom (head : NodeHead) (front slots : List Slot) (start : Nat) :
    Range.Tile (start + extents front)
      ((tokenPathsFrom front.length slots).map ((Slot.node head (front ++ slots)).rangeAlong start))
      (start + extents (front ++ slots)) := by
  cases slots with
  | nil =>
      rw [List.append_nil]
      rfl
  | cons s rest =>
      have hfirst := tile_tokenPaths s (start + extents front)
      have hrest := tile_tokenPathsFrom head (front ++ [s]) rest start
      rw [List.length_append, List.length_singleton, List.append_assoc, List.singleton_append, extents_append front [s],
        extents, extents, Nat.add_zero, ← Nat.add_assoc] at hrest
      rw [tokenPathsFrom, List.map_append, List.map_map]
      refine Range.Tile.append ?_ hrest
      have hsame : (Slot.node head (front ++ s :: rest)).rangeAlong start ∘ (front.length :: ·) =
          s.rangeAlong (start + extents front) := funext (rangeAlong_node head front s rest start)
      rw [hsame]
      exact hfirst

end

mutual

/-- The facts at these paths are the tokens that a walk over the fact finds, in the same order. -/
theorem map_along_tokenPaths (s : Slot) : s.tokenPaths.map s.along = s.tokens.map Token.toSlot := by
  cases s with
  | absent =>
      rw [tokens_absent]
      rfl
  | token head leading =>
      rw [tokens_token]
      rfl
  | node head slots =>
      rw [tokens_node]
      exact map_along_tokenPathsFrom head [] slots

theorem map_along_tokenPathsFrom (head : NodeHead) (front slots : List Slot) :
    (tokenPathsFrom front.length slots).map (Slot.node head (front ++ slots)).along =
      (walkTokens slots).map Token.toSlot := by
  cases slots with
  | nil =>
      rw [walkTokens]
      rfl
  | cons s rest =>
      have hfirst := map_along_tokenPaths s
      have hrest := map_along_tokenPathsFrom head (front ++ [s]) rest
      rw [List.length_append, List.length_singleton, List.append_assoc, List.singleton_append] at hrest
      have hsame : (Slot.node head (front ++ s :: rest)).along ∘ (front.length :: ·) = s.along := by
        funext path
        show ((front ++ s :: rest)[front.length]?.getD .absent).along path = s.along path
        rw [getD_behind]
      rw [tokenPathsFrom, List.map_append, List.map_map, hsame, hfirst, hrest, walkTokens_cons, List.map_append]

end

theorem isPresent_of_along {s : Slot} {path : List Nat} (h : (s.along path).isPresent = true) : s.isPresent = true := by
  induction path generalizing s with
  | nil => exact h
  | cons i rest ih =>
      have hchild := ih h
      cases s with
      | absent => exact hchild
      | token head leading => rfl
      | node head slots => rfl

/-- A way down from view to view ends at the fact of its path. -/
theorem along_of_descend {s f : Slot} {path : List Nat} (h : SyntaxTree.descend s path = .ok f) : s.along path = f := by
  induction path generalizing s with
  | nil => exact Except.ok.inj h
  | cons i rest ih =>
      cases s with
      | absent => cases h
      | token head leading => cases h
      | node head slots =>
          simp only [SyntaxTree.descend] at h
          split at h
          · exact ih h
          · cases h

theorem isPresent_along_of_mem {s : Slot} {path : List Nat} (h : path ∈ s.tokenPaths) :
    (s.along path).isPresent = true := by
  have hmem : s.along path ∈ s.tokens.map Token.toSlot := by
    rw [← map_along_tokenPaths]
    exact List.mem_map_of_mem h
  obtain ⟨t, -, ht⟩ := List.mem_map.1 hmem
  rw [← ht]
  rfl

theorem Made.width_eq {s : Slot} (h : s.Made) (hfits : s.extent < Size.limit) :
    s.width = .ok (s.extent - s.leadingExtent) := by
  cases s with
  | absent => rfl
  | token head leading =>
      show Except.ok head.width = .ok (leading.extent + head.width - leading.extent)
      rw [Nat.add_sub_cancel_left]
  | node head slots =>
      have hle := leadingExtent_le (.node head slots)
      show ((Slot.node head slots).leadingWidth >>= fun w => Size.sub head.fullWidth w) = _
      rw [h.leadingWidth_eq, Size.ofNat_eq_ok (by omega), h.node_width.1]
      exact Size.sub_eq_ok_iff.2 ⟨hle, rfl⟩

end Slot

/-! ## The ranges of a view -/

/-- The ranges of a view: the whole of it, and without the trivia of `w` in front. -/
structure View.Spans (v : View) (full : Range) (w : Nat) : Prop where
  fullSpan : v.fullSpan = .ok full
  leadingSpan : v.leadingSpan = .ok ⟨full.start, full.start + w⟩
  span : v.span = .ok ⟨full.start + w, full.stop⟩
  /-- The trivia in front of the view is that of its first token in document order. -/
  leading : v.fact.tokens.head?.elim (.ok 0) Token.leadingWidth = .ok w
  inside : full.start + w ≤ full.stop

namespace SyntaxTree

/-- The range of a view with all its trivia, as plain numbers. -/
def fullRange (v : View) : Range := ⟨v.offset, v.offset + v.fact.extent⟩

theorem Linked.spans {t : SyntaxTree} (h : t.Linked) {id : Nat} {v : View} (hv : t.views[id]? = some v) :
    v.Spans (fullRange v) v.fact.leadingExtent ∧ (fullRange v).stop ≤ t.root.fullWidth ∧
      t.root.fullWidth < Size.limit := by
  obtain ⟨path, hlocated⟩ := h.located hv
  have hmade := hlocated.made
  have hle := v.fact.leadingExtent_le
  obtain ⟨hwidth, hlimit⟩ : t.root.fullWidth = t.root.toSlot.extent ∧ t.root.toSlot.extent < Size.limit :=
    h.made.node_width
  have hfits : v.offset + v.fact.extent ≤ t.root.toSlot.extent := hlocated.fits
  have hleading : v.fact.leadingWidth = .ok v.fact.leadingExtent := by
    rw [hmade.leadingWidth_eq, Size.ofNat_eq_ok (by omega)]
  refine ⟨⟨?_, ?_, ?_, ?_, ?_⟩, ?_, by omega⟩
  · unfold View.fullSpan
    rw [hmade.fullWidth_eq, Size.ofNat_eq_ok (by omega)]
    exact Range.ofWidth_eq_ok (by omega)
  · unfold View.leadingSpan
    rw [hleading]
    exact Range.ofWidth_eq_ok (by omega)
  · unfold View.span
    rw [hleading, hmade.width_eq (by omega)]
    show (Size.add v.offset v.fact.leadingExtent >>= _) = _
    rw [Size.add_eq_ofNat, Size.ofNat_eq_ok (by omega)]
    show Range.ofWidth _ (v.fact.extent - v.fact.leadingExtent) = _
    rw [Range.ofWidth_eq_ok (by omega), Nat.add_assoc, Nat.add_sub_cancel' hle]
    rfl
  · rw [← Slot.firstToken?_eq_head?, ← hleading]
    unfold Slot.leadingWidth
    cases v.fact.firstToken? <;> rfl
  · show v.offset + v.fact.leadingExtent ≤ v.offset + v.fact.extent
    omega
  · show v.offset + v.fact.extent ≤ t.root.fullWidth
    omega

theorem Linked.run_fullSpan {t : SyntaxTree} (h : t.Linked) {e : ElementRef} {v : View}
    (hv : t.views[e.id]? = some v) : e.fullSpan.run t = (.ok (fullRange v), t) := by
  unfold ElementRef.fullSpan
  rw [Step.run_bind, run_view hv]
  show (v.fullSpan, t) = _
  rw [(h.spans hv).1.fullSpan]

/-! ## The children of a node -/

theorem Finds.grown {t u : SyntaxTree} {p i : Nat} {fact : Slot} {answer : Option Nat} (h : Finds t p i fact answer)
    (hg : Grown t u) : Finds u p i fact answer := by
  cases answer with
  | none => exact h
  | some c =>
      obtain ⟨w, hw, hparent, hindex⟩ := h
      obtain ⟨w', hw', -, hparent', hindex', -⟩ := hg.views hw
      exact ⟨w', hw', hparent'.trans hparent, hindex'.trans hindex⟩

/-- The view that is found in a slot has the fact there, and stands behind all that lies in front of the slot. -/
theorem Finds.view {t u : SyntaxTree} {p i c : Nat} {v : View} (h : Finds u p i v.fact (some c)) (hu : u.Linked)
    (hgrown : Grown t u) (hv : t.views[p]? = some v) :
    ∃ w : View, u.views[c]? = some w ∧ v.fact.slots[i]? = some w.fact ∧
      w.offset = v.offset + Slot.extents (v.fact.slots.take i) := by
  obtain ⟨w, hw, hparent, rfl⟩ := h
  obtain ⟨-, v', hv', hunder, -⟩ := hu.child hw hparent
  obtain ⟨v'', hv'', hfact, -, -, hoffset, -⟩ := hgrown.views hv
  rw [hv'] at hv''
  cases hv''
  rw [← hfact, ← hoffset]
  exact ⟨w, hw, hunder.fact, hunder.offset⟩

theorem Linked.run_childAt {t : SyntaxTree} (h : t.Linked) {p : NodeRef} {v : View} (hv : t.views[p.id]? = some v)
    (i : Nat) : ∃ answer u, (p.childAt i).run t = (.ok answer, u) ∧ Grown t u ∧ u.Linked ∧
      Finds u p.id i v.fact (answer.map ElementRef.id) := by
  obtain ⟨answer, u, hrun, hgrown, hlinked, hfinds⟩ := h.childView hv i
  unfold NodeRef.childAt
  rw [Step.run_bind, hrun]
  cases answer with
  | none => exact ⟨none, u, rfl, hgrown, hlinked, hfinds⟩
  | some c =>
      obtain ⟨w, hw, hparent, hindex⟩ := hfinds
      refine ⟨some (if w.fact.isNode then .node ⟨c⟩ else .token ⟨c⟩), u, ?_, hgrown, hlinked, w, ?_, hparent, hindex⟩
      · simp only [element, Step.run_bind, run_view hw, Step.run_pure]
      · cases w.fact.isNode <;> exact hw

theorem Linked.run_childAt_all {t : SyntaxTree} (h : t.Linked) {p : NodeRef} {v : View}
    (hv : t.views[p.id]? = some v) (indices : List Nat) :
    ∃ answers u, (indices.mapM' p.childAt).run t = (.ok answers, u) ∧ Grown t u ∧ u.Linked ∧
      List.Forall₂ (fun i answer => Finds u p.id i v.fact (answer.map ElementRef.id)) indices answers := by
  induction indices generalizing t v with
  | nil => exact ⟨[], t, rfl, .refl t, h, .nil⟩
  | cons i rest ih =>
      obtain ⟨answer, u, hrun, hgrown, hlinked, hfinds⟩ := h.run_childAt hv i
      obtain ⟨w, hw, hfact, -⟩ := hgrown.views hv
      obtain ⟨answers, u', hrun', hgrown', hlinked', hfinds'⟩ := ih hlinked hw
      rw [hfact] at hfinds'
      refine ⟨answer :: answers, u', ?_, hgrown.trans hgrown', hlinked', .cons (hfinds.grown hgrown') hfinds'⟩
      simp only [List.mapM', Step.run_bind, hrun, hrun', Step.run_pure]

def presentSlots (fact : Slot) : List Nat :=
  (List.range fact.count).filter fun i => (fact.slots[i]?.getD .absent).isPresent

/-- The ranges of the slots that are not absent, when the first one starts at `start`. -/
def tiles (start : Nat) : List Slot → List Range
  | [] => []
  | s :: rest => if s.isPresent then ⟨start, start + s.extent⟩ :: tiles (start + s.extent) rest else tiles start rest

/-- An absent slot has no text, so the others tile the whole. -/
theorem tile_tiles (start : Nat) (slots : List Slot) :
    Range.Tile start (tiles start slots) (start + Slot.extents slots) := by
  induction slots generalizing start with
  | nil => rfl
  | cons s rest ih =>
      cases s with
      | absent =>
          show Range.Tile start (tiles start rest) (start + (0 + Slot.extents rest))
          rw [Nat.zero_add]
          exact ih start
      | token head leading =>
          rw [Slot.extents, ← Nat.add_assoc]
          exact ⟨rfl, Nat.le_add_right _ _, ih _⟩
      | node head slots =>
          rw [Slot.extents, ← Nat.add_assoc]
          exact ⟨rfl, Nat.le_add_right _ _, ih _⟩

/-- The children that are found, asked for their ranges, answer with the tiles of the node. -/
theorem Linked.run_fullSpans {t u : SyntaxTree} (hu : u.Linked) (hgrown : Grown t u) {p : Nat} {v : View}
    (hv : t.views[p]? = some v) {front slots : List Slot} (hslots : v.fact.slots = front ++ slots)
    {answers : List (Option ElementRef)}
    (hfinds : List.Forall₂ (fun i answer => Finds u p i v.fact (answer.map ElementRef.id))
      (List.range' front.length slots.length) answers) :
    ((answers.filterMap fun child => child).mapM' ElementRef.fullSpan).run u =
      (.ok (tiles (v.offset + Slot.extents front) slots), u) := by
  induction slots generalizing front answers with
  | nil =>
      cases hfinds
      rfl
  | cons s rest ih =>
      rw [List.length_cons, List.range'_succ] at hfinds
      obtain ⟨answer, others, hfirst, hothers, rfl⟩ := List.forall₂_cons_left_iff.1 hfinds
      have hfront : (front ++ [s]).length = front.length + 1 := by simp
      rw [← hfront] at hothers
      have hslots' : v.fact.slots = (front ++ [s]) ++ rest := by rw [hslots, List.append_assoc, List.singleton_append]
      have hrest := ih hslots' hothers
      rw [Slot.extents_append, Slot.extents, Slot.extents, Nat.add_zero, ← Nat.add_assoc] at hrest
      have hget : v.fact.slots[front.length]? = some s := by
        rw [hslots, List.getElem?_append_right (Nat.le_refl _), Nat.sub_self]
        rfl
      have hnone := hfirst.eq_none_iff hu hgrown hv
      rw [hget] at hnone
      cases answer with
      | none =>
          have habsent : s = .absent := by
            cases s with
            | absent => rfl
            | token _ _ => cases hnone.1 rfl
            | node _ _ => cases hnone.1 rfl
          rw [habsent] at hrest ⊢
          exact hrest
      | some e =>
          have hpresent : s.isPresent = true := by
            cases hs : s.isPresent with
            | true => rfl
            | false => cases hnone.2 hs
          obtain ⟨w, hw, hfact, hstart⟩ := hfirst.view hu hgrown hv
          obtain rfl : s = w.fact := Option.some.inj (hget.symm.trans hfact)
          rw [hslots, List.take_left] at hstart
          have hrun : e.fullSpan.run u =
              (.ok ⟨v.offset + Slot.extents front, v.offset + Slot.extents front + w.fact.extent⟩, u) := by
            rw [hu.run_fullSpan hw, fullRange, hstart]
          rw [tiles, if_pos hpresent]
          simp only [List.filterMap_cons, List.mapM', Step.run_bind, hrun, hrest, Step.run_pure]

/-- The children that are found stand in the slots that are not absent, in order. -/
theorem Linked.children_at {t u : SyntaxTree} (hu : u.Linked) (hgrown : Grown t u) {p : Nat} {v : View}
    (hv : t.views[p]? = some v) {path : List Nat} (hplace : At u p path) {indices : List Nat}
    {answers : List (Option ElementRef)}
    (hfinds : List.Forall₂ (fun i answer => Finds u p i v.fact (answer.map ElementRef.id)) indices answers) :
    List.Forall₂ (fun e i => At u e.id (path ++ [i])) (answers.filterMap fun child => child)
      (indices.filter fun i => (v.fact.slots[i]?.getD .absent).isPresent) := by
  induction hfinds with
  | nil => exact .nil
  | @cons i answer indices answers hfirst _ ih =>
      have hnone := hfirst.eq_none_iff hu hgrown hv
      cases answer with
      | none =>
          rw [List.filterMap_cons_none rfl, List.filter_cons_of_neg (by rw [hnone.1 rfl]; decide)]
          exact ih
      | some e =>
          have hpresent : (v.fact.slots[i]?.getD .absent).isPresent = true := by
            cases hs : (v.fact.slots[i]?.getD .absent).isPresent with
            | true => rfl
            | false => cases hnone.2 hs
          rw [List.filter_cons, if_pos hpresent]
          exact .cons (hfirst.at hplace) ih

/-- Asking a node for its children finds those in its present slots, in order, and their ranges tile that of the
node. -/
theorem Linked.run_children {t : SyntaxTree} (h : t.Linked) {p : NodeRef} {v : View} (hv : t.views[p.id]? = some v)
    (hnode : v.fact.isNode = true) {path : List Nat} (hplace : At t p.id path) :
    ∃ children u spans, p.children.run t = (.ok children, u) ∧
      List.Forall₂ (fun e i => At u e.id (path ++ [i])) children (presentSlots v.fact) ∧
      (children.mapM' ElementRef.fullSpan).run u = (.ok spans, u) ∧
      Range.Tile (fullRange v).start spans (fullRange v).stop := by
  obtain ⟨answers, u, hrun, hgrown, hu, hfinds⟩ := h.run_childAt_all hv (List.range v.fact.count)
  have hcount : p.count.run t = (.ok v.fact.count, t) := by
    unfold NodeRef.count
    rw [Step.run_bind, run_view hv, ← h.slots hv]
    rfl
  have hspans : ((answers.filterMap fun child => child).mapM' ElementRef.fullSpan).run u =
      (.ok (tiles v.offset v.fact.slots), u) := by
    refine hu.run_fullSpans hgrown hv (List.nil_append v.fact.slots).symm ?_
    rw [List.range_eq_range'] at hfinds
    exact hfinds
  refine ⟨_, u, _, ?_, hu.children_at hgrown hv (hplace.grown hgrown) hfinds, hspans, ?_⟩
  · simp only [NodeRef.children, NodeRef.childrenIn, Step.run_bind, hcount, hrun, Step.run_pure]
  · have htile := tile_tiles v.offset v.fact.slots
    cases hfact : v.fact with
    | absent =>
        rw [hfact] at hnode
        cases hnode
    | token _ _ =>
        rw [hfact] at hnode
        cases hnode
    | node head slots =>
        rw [hfact] at htile
        rw [fullRange, hfact]
        exact htile

/-! ## Reaching every place -/

theorem Reaches.trans {t u w : SyntaxTree} (h : Reaches t u) (h' : Reaches u w) : Reaches t w := by
  induction h' with
  | refl => exact h
  | ask _ q hx ih => exact .ask ih q hx

/-- The view at a path has the fact there, and its range. -/
theorem Linked.view_along {t : SyntaxTree} (h : t.Linked) {id : Nat} {path : List Nat} (hplace : At t id path) :
    ∃ v, t.views[id]? = some v ∧ v.fact = t.root.toSlot.along path ∧
      fullRange v = t.root.toSlot.rangeAlong 0 path := by
  obtain ⟨v, hv, -⟩ := hplace.view
  obtain ⟨other, hlocated⟩ := h.located hv
  obtain rfl := hlocated.place.unique hplace
  have hfact := Slot.along_of_descend hlocated.fact
  refine ⟨v, hv, hfact.symm, ?_⟩
  rw [fullRange, Slot.rangeAlong, hlocated.offset, hfact, Nat.zero_add]

/-- Every place below a view can be asked for, one child after the other. -/
theorem Linked.exists_view_below {t : SyntaxTree} (h : t.Linked) {id : Nat} {v : View} (hv : t.views[id]? = some v)
    {front path : List Nat} (hplace : At t id front) (hpresent : (v.fact.along path).isPresent = true) :
    ∃ u c, t.Reaches u ∧ At u c (front ++ path) := by
  induction path generalizing t id v front with
  | nil =>
      rw [List.append_nil]
      exact ⟨t, id, .refl, hplace⟩
  | cons i rest ih =>
      obtain ⟨answer, u, hrun, hgrown, hu, hfinds⟩ := h.run_childAt (p := ⟨id⟩) hv i
      have hreach : t.Reaches u := by
        have hask := Reaches.ask .refl (.node (.childAt i)) (x := (⟨id⟩ : NodeRef)) ⟨front, hplace, hplace⟩
        rw [show (((Query.node (.childAt i)).run (⟨id⟩ : NodeRef)).run t).2 = u from congrArg Prod.snd hrun] at hask
        exact hask
      cases answer with
      | none =>
          have hnone : (v.fact.slots[i]?.getD .absent).isPresent = false := hfinds
          have hsome : (v.fact.slots[i]?.getD .absent).isPresent = true := Slot.isPresent_of_along hpresent
          exact absurd (hsome.symm.trans hnone) (by decide)
      | some e =>
          obtain ⟨w, hw, hfact, -⟩ := hfinds.view hu hgrown hv
          have hbelow : (w.fact.along rest).isPresent = true := by
            rw [Slot.along, hfact] at hpresent
            exact hpresent
          obtain ⟨u', c, hreach', hc⟩ := ih hu hw (hfinds.at (hplace.grown hgrown)) hbelow
          rw [List.append_assoc] at hc
          exact ⟨u', c, hreach.trans hreach', hc⟩

theorem Linked.exists_views {t : SyntaxTree} (h : t.Linked) {paths : List (List Nat)}
    (hpresent : ∀ path ∈ paths, (t.root.toSlot.along path).isPresent = true) :
    ∃ u ids, t.Reaches u ∧ List.Forall₂ (At u) ids paths := by
  induction paths with
  | nil => exact ⟨t, [], .refl, .nil⟩
  | cons path rest ih =>
      obtain ⟨u, ids, hreach, hids⟩ := ih fun other hother => hpresent other (List.mem_cons_of_mem _ hother)
      obtain ⟨hu, hgrown⟩ := hreach.linked h
      obtain ⟨top, htop, hparent, hfact, -⟩ := hu.root
      have hfirst := hpresent path List.mem_cons_self
      rw [← hgrown.root, ← hfact] at hfirst
      obtain ⟨w, id, hreach', hid⟩ := hu.exists_view_below htop (.root htop hparent) hfirst
      obtain ⟨-, hgrown'⟩ := hreach'.linked hu
      exact ⟨w, id :: ids, hreach.trans hreach', .cons hid (hids.imp fun _ _ hplace => hplace.grown hgrown')⟩

/-- Tokens at given places answer with the ranges of these places. -/
theorem Linked.run_tokenSpans {t : SyntaxTree} (h : t.Linked) {tokens : List TokenRef} {paths : List (List Nat)}
    (hplaces : List.Forall₂ (fun token path => At t token.id path) tokens paths) :
    (tokens.mapM' TokenRef.fullSpan).run t = (.ok (paths.map (t.root.toSlot.rangeAlong 0)), t) := by
  induction hplaces with
  | nil => rfl
  | @cons token path _ _ hplace _ ih =>
      obtain ⟨v, hv, -, hrange⟩ := h.view_along hplace
      have hspan : token.fullSpan.run t = (.ok (fullRange v), t) := h.run_fullSpan (e := .token token) hv
      simp only [List.mapM', Step.run_bind, hspan, ih, Step.run_pure, List.map_cons, hrange]

end SyntaxTree

open SyntaxTree (At presentSlots)

/-- **Positions tile the text.** The ranges of all views are defined. Those of the children tile that of their parent,
those of the tokens tile the text, and a range without leading trivia is the rest of the full one. -/
theorem spans_tile_text {root : Node} (hroot : root.toSlot.Obtainable) {t : SyntaxTree}
    (ht : (SyntaxTree.ofRoot root).Reaches t) :
    (∀ {id : Nat} {v : View}, t.views[id]? = some v → ∃ full w, v.Spans full w ∧ full.stop ≤ root.fullWidth ∧
      ∀ p, v.parent = some p → ∃ above outer, t.views[p]? = some above ∧ above.fullSpan = .ok outer ∧
        outer.containsRange full = true) ∧
    (∀ {h : NodeRef} {v : View} {path : List Nat} {full : Range}, t.views[h.id]? = some v → v.fact.isNode = true →
      At t h.id path → v.fullSpan = .ok full → ∃ children u spans, h.children.run t = (.ok children, u) ∧
        List.Forall₂ (fun e i => At u e.id (path ++ [i])) children (presentSlots v.fact) ∧
        (children.mapM' ElementRef.fullSpan).run u = (.ok spans, u) ∧ Range.Tile full.start spans full.stop) ∧
    root.toSlot.tokenPaths.map root.toSlot.along = root.toSlot.tokens.map Token.toSlot ∧
    (∃ u tokens, t.Reaches u ∧
      List.Forall₂ (fun (token : TokenRef) path => At u token.id path) tokens root.toSlot.tokenPaths) ∧
    ∀ {tokens : List TokenRef}, List.Forall₂ (fun token path => At t token.id path) tokens root.toSlot.tokenPaths →
      ∃ spans, (tokens.mapM' TokenRef.fullSpan).run t = (.ok spans, t) ∧ Range.Tile 0 spans root.fullWidth := by
  obtain ⟨hlinked, hgrown⟩ := ht.linked (SyntaxTree.linked_ofRoot (Slot.obtainable_iff_made.1 hroot))
  obtain rfl : t.root = root := hgrown.root
  refine ⟨fun {id v} hv => ?_, fun {h v path full} hv hnode hplace hfull => ?_, Slot.map_along_tokenPaths _, ?_,
    fun {tokens} htokens => ?_⟩
  · obtain ⟨hspans, hstop, -⟩ := hlinked.spans hv
    refine ⟨_, _, hspans, hstop, fun p hparent => ?_⟩
    obtain ⟨-, above, habove, hunder, -⟩ := hlinked.child hv hparent
    refine ⟨above, _, habove, (hlinked.spans habove).1.fullSpan, Range.containsRange_iff.2 ?_⟩
    have hin := Slot.extents_take_add_le hunder.fact
    have hwithin := above.fact.extents_slots_le
    have hoffset := hunder.offset
    simp only [SyntaxTree.fullRange]
    omega
  · obtain rfl : SyntaxTree.fullRange v = full := Except.ok.inj ((hlinked.spans hv).1.fullSpan.symm.trans hfull)
    exact hlinked.run_children hv hnode hplace
  · obtain ⟨u, ids, hreach, hids⟩ := hlinked.exists_views fun path hpath => Slot.isPresent_along_of_mem hpath
    exact ⟨u, ids.map (⟨·⟩), hreach, List.forall₂_map_left_iff.2 hids⟩
  · have htile := Slot.tile_tokenPaths t.root.toSlot 0
    have hwidth : t.root.fullWidth = t.root.toSlot.extent := hlinked.made.node_width.1
    rw [Nat.zero_add, ← hwidth] at htile
    exact ⟨_, hlinked.run_tokenSpans htokens, htile⟩

def indentedName (id width : Nat) : Token := Token.assemble id (Token.plain 0 .whitespace 2).toSlot .name width false []

theorem indentedName_obtainable (id width : Nat) : (indentedName id width).toSlot.Obtainable := by
  refine .token (.plain 0 .whitespace 2) (Token.assembleChecked_eq_ok_iff.2 ⟨?_, rfl⟩)
  show (Slot.token _ _).tokens.all _ = true
  rw [Slot.tokens_token]
  rfl

/-- A node and a token with an empty slot between them; both start with the same blank. -/
def indentedPair : Except Fault Node := do
  let inner ← Node.make 2 .nameRef [.absent, (indentedName 1 3).toSlot]
  Node.make 4 .list [inner.toSlot, .absent, (indentedName 3 4).toSlot]

theorem indentedPair_obtainable {root : Node} (h : indentedPair = .ok root) : root.toSlot.Obtainable := by
  obtain ⟨inner, hinner, h⟩ := bind_eq_ok_iff.1 h
  have hin : inner.toSlot.Obtainable := by
    refine .node ?_ hinner
    simp only [List.mem_cons, List.not_mem_nil, or_false, forall_eq_or_imp, forall_eq]
    exact ⟨.absent, indentedName_obtainable 1 3⟩
  refine .node ?_ h
  simp only [List.mem_cons, List.not_mem_nil, or_false, forall_eq_or_imp, forall_eq]
  exact ⟨hin, .absent, indentedName_obtainable 3 4⟩

theorem indentedPair_spans : ∃ (root : Node) (t : SyntaxTree), indentedPair = .ok root ∧ root.toSlot.Obtainable ∧
    (SyntaxTree.ofRoot root).Reaches t ∧ root.fullWidth = 11 ∧
    (∃ v w, t.views[2]? = some v ∧ v.Spans ⟨5, 11⟩ w ∧ v.leadingSpan = .ok ⟨5, 7⟩) ∧
    (∃ children u spans, SyntaxTree.rootRef.children.run t = (.ok children, u) ∧
      (children.mapM' ElementRef.fullSpan).run u = (.ok spans, u) ∧ Range.Tile 0 spans 11) ∧
    ∃ u tokens, t.Reaches u ∧
      List.Forall₂ (fun (token : TokenRef) path => At u token.id path) tokens [[0, 1], [2]] := by
  obtain ⟨root, t, hroot, ht, hwidth, htokens, htop, hlast⟩ : ∃ (root : Node) (t : SyntaxTree),
      indentedPair = .ok root ∧ (SyntaxTree.ofRoot root).Reaches t ∧ root.fullWidth = 11 ∧
      root.toSlot.tokenPaths = [[0, 1], [2]] ∧
      t.views[0]?.map (fun v => (v.parent, v.fact.isNode, v.fullSpan)) = some (none, true, .ok ⟨0, 11⟩) ∧
      t.views[2]?.map (fun v => (v.fullSpan, v.leadingSpan)) = some (.ok ⟨5, 11⟩, .ok ⟨5, 7⟩) :=
    ⟨_, _, rfl, .ask .refl (.node .children) (x := SyntaxTree.rootRef) ⟨[], .root rfl rfl, .root rfl rfl⟩, rfl, rfl,
      rfl, rfl⟩
  obtain ⟨top, htop, heq⟩ := Option.map_eq_some_iff.1 htop
  obtain ⟨hparent, heq⟩ := Prod.mk.inj heq
  obtain ⟨hnode, hfull⟩ := Prod.mk.inj heq
  obtain ⟨last, hlast, heq⟩ := Option.map_eq_some_iff.1 hlast
  obtain ⟨hspan, hleading⟩ := Prod.mk.inj heq
  have hobtainable := indentedPair_obtainable hroot
  obtain ⟨hviews, hchildren, -, hreach, -⟩ := spans_tile_text hobtainable ht
  obtain ⟨full, w, hspans, -⟩ := hviews hlast
  obtain rfl : full = ⟨5, 11⟩ := Except.ok.inj (hspans.fullSpan.symm.trans hspan)
  obtain ⟨children, u, spans, hrun, -, hrun', htile⟩ :=
    hchildren (h := SyntaxTree.rootRef) htop hnode (.root htop hparent) hfull
  rw [htokens] at hreach
  exact ⟨root, t, hroot, hobtainable, ht, hwidth, ⟨last, w, hlast, hspans, hleading⟩,
    ⟨children, u, spans, hrun, hrun', htile⟩, hreach⟩

end LosslessSyntax
