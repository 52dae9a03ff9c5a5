import LosslessSyntax.Proofs.Fact.Positions
import LosslessSyntax.View.Tree

/-!
# Views as paths

A view is a place in the tree of facts, and a place is a path of slots from the root. The views are made one by
one, in the order in which they are asked for, and linked in both directions. That the links fit together is a
property of each view and its parent alone, and all that is said about paths follows from it.

* `SyntaxTree.At` : the path of a view, read off the links to the parents;
* `Slot.offsetAlong` : where the end of a path starts, from the widths of the siblings in front of it;
* `SyntaxTree.Linked` : every view fits to its parent, and every slot that has been looked at to its child;
* `SyntaxTree.Grown` : views are never changed, only added, and what is known of a slot is known for good;
* `Linked.childView` : asking for a child keeps the links right, and finds the one view of its place.
-/

set_option autoImplicit false

namespace LosslessSyntax

/-- The start of the end of a path, relative to the start of the fact: the widths of all that lies in front. -/
def Slot.offsetAlong : Slot → List Nat → Nat
  | _, [] => 0
  | s, i :: rest => extents (s.slots.take i) + (s.slots[i]?.getD .absent).offsetAlong rest

/-- The view `v` stands in its slot of the fact of `w`, behind all that lies in front of it there. -/
structure View.Under (w v : View) : Prop where
  present : v.fact.isPresent = true
  fact : w.fact.slots[v.index]? = some v.fact
  offset : v.offset = w.offset + Slot.extents (w.fact.slots.take v.index)

namespace SyntaxTree

/-- The path of slots that leads from the root to a view. -/
inductive At (t : SyntaxTree) : Nat → List Nat → Prop
  | root {id : Nat} {v : View} (hv : t.views[id]? = some v) (hparent : v.parent = none) : At t id []
  | child {id p : Nat} {v : View} {path : List Nat} (hp : At t p path) (hv : t.views[id]? = some v)
      (hparent : v.parent = some p) : At t id (path ++ [v.index])

/-- The links between the views fit together. -/
structure Linked (t : SyntaxTree) : Prop where
  made : t.root.toSlot.Made
  root : ∃ v, t.views[0]? = some v ∧ v.parent = none ∧ v.fact = t.root.toSlot ∧ v.offset = 0 ∧ v.index = 0
  top : ∀ {id : Nat} {v : View}, t.views[id]? = some v → v.parent = none → id = 0
  child : ∀ {id p : Nat} {v : View}, t.views[id]? = some v → v.parent = some p →
    p < id ∧ ∃ w : View, t.views[p]? = some w ∧ w.Under v ∧ w.slots[v.index]? = some (.present id)
  slots : ∀ {id : Nat} {v : View}, t.views[id]? = some v → v.slots.length = v.fact.count
  known : ∀ {id i c : Nat} {v : View}, t.views[id]? = some v → v.slots[i]? = some (.present c) →
    ∃ w : View, t.views[c]? = some w ∧ w.parent = some id ∧ w.index = i
  empty : ∀ {id i : Nat} {v : View}, t.views[id]? = some v → v.slots[i]? = some .absent →
    v.fact.slots[i]? = some .absent

/-- The views of `t` are still there in `u`, and what is known of their slots is known still. -/
structure Grown (t u : SyntaxTree) : Prop where
  root : u.root = t.root
  views : ∀ {id : Nat} {v : View}, t.views[id]? = some v → ∃ w : View, u.views[id]? = some w ∧ w.fact = v.fact ∧
    w.parent = v.parent ∧ w.index = v.index ∧ w.offset = v.offset ∧
    ∀ {i : Nat} {k : ChildView}, v.slots[i]? = some k → k ≠ .unseen → w.slots[i]? = some k

theorem Grown.refl (t : SyntaxTree) : Grown t t :=
  ⟨rfl, fun hv => ⟨_, hv, rfl, rfl, rfl, rfl, fun hk _ => hk⟩⟩

theorem Grown.trans {t u w : SyntaxTree} (h : Grown t u) (h' : Grown u w) : Grown t w := by
  refine ⟨h'.root.trans h.root, fun hv => ?_⟩
  obtain ⟨v', hv', hfact, hparent, hindex, hoffset, hslots⟩ := h.views hv
  obtain ⟨v'', hv'', hfact', hparent', hindex', hoffset', hslots'⟩ := h'.views hv'
  exact ⟨v'', hv'', hfact'.trans hfact, hparent'.trans hparent, hindex'.trans hindex, hoffset'.trans hoffset,
    fun hk hne => hslots' (hslots hk hne) hne⟩

theorem At.grown {t u : SyntaxTree} {id : Nat} {path : List Nat} (h : At t id path) (hg : Grown t u) :
    At u id path := by
  induction h with
  | root hv hparent =>
      obtain ⟨w, hw, -, hp, -⟩ := hg.views hv
      exact .root hw (hp.trans hparent)
  | child _ hv hparent ih =>
      obtain ⟨w, hw, -, hp, hindex, -⟩ := hg.views hv
      rw [← hindex]
      exact .child ih hw (hp.trans hparent)

/-! ## What follows from the links -/

theorem At.unique {t : SyntaxTree} {id : Nat} {path other : List Nat} (h : At t id path) (h' : At t id other) :
    path = other := by
  induction h generalizing other with
  | root hv hparent =>
      cases h' with
      | root => rfl
      | child _ hv' hparent' =>
          rw [hv] at hv'
          cases hv'
          rw [hparent] at hparent'
          cases hparent'
  | child _ hv hparent ih =>
      cases h' with
      | root hv' hparent' =>
          rw [hv] at hv'
          cases hv'
          rw [hparent] at hparent'
          cases hparent'
      | child hp' hv' hparent' =>
          rw [hv] at hv'
          cases hv'
          rw [hparent] at hparent'
          cases hparent'
          rw [ih hp']

theorem Linked.at_injective {t : SyntaxTree} (h : t.Linked) {a b : Nat} {path : List Nat} (ha : At t a path)
    (hb : At t b path) : a = b := by
  induction ha generalizing b with
  | root hv hparent =>
      generalize hpath : ([] : List Nat) = path at hb
      cases hb with
      | root hv' hparent' => rw [h.top hv hparent, h.top hv' hparent']
      | child _ _ _ => exact absurd hpath (List.append_ne_nil_of_right_ne_nil _ (List.cons_ne_nil _ _)).symm
  | @child a p v path hp hv hparent ih =>
      generalize hpath : path ++ [v.index] = path' at hb
      cases hb with
      | root _ _ => exact absurd hpath (List.append_ne_nil_of_right_ne_nil _ (List.cons_ne_nil _ _))
      | @child _ p' v' path'' hp' hv' hparent' =>
          obtain ⟨hpath, hindex⟩ := List.append_inj' hpath rfl
          subst hpath
          obtain rfl := ih hp'
          -- both are in the same slot of the same view
          obtain ⟨-, w, hw, -, hslot⟩ := h.child hv hparent
          obtain ⟨-, w', hw', -, hslot'⟩ := h.child hv' hparent'
          rw [hw] at hw'
          cases hw'
          rw [List.head_eq_of_cons_eq hindex, hslot'] at hslot
          cases hslot
          rfl

theorem descend_append {s f : Slot} {path : List Nat} (h : descend s path = .ok f) (rest : List Nat) :
    descend s (path ++ rest) = descend f rest := by
  induction path generalizing s with
  | nil =>
      cases h
      rfl
  | cons i path ih =>
      rw [List.cons_append]
      cases s with
      | node head slots =>
          simp only [descend] at h ⊢
          split at h
          · next hpresent =>
            rw [if_pos hpresent]
            exact ih h
          · cases h
      | absent => cases h
      | token head leading => cases h

theorem offsetAlong_append {s f : Slot} {path : List Nat} (h : descend s path = .ok f) (rest : List Nat) :
    s.offsetAlong (path ++ rest) = s.offsetAlong path + f.offsetAlong rest := by
  induction path generalizing s with
  | nil =>
      cases h
      exact (Nat.zero_add _).symm
  | cons i path ih =>
      rw [List.cons_append, Slot.offsetAlong, Slot.offsetAlong]
      cases s with
      | node head slots =>
          simp only [descend] at h
          split at h
          · rw [Nat.add_assoc]
            exact congrArg (Slot.extents (slots.take i) + ·) (ih h)
          · cases h
      | absent => cases h
      | token head leading => cases h

theorem descend_slot {f g : Slot} {i : Nat} (h : f.slots[i]? = some g) (hpresent : g.isPresent = true) :
    descend f [i] = .ok g := by
  cases f with
  | node head slots =>
      have hchild : (⟨head, slots⟩ : Node).childAt i = g := congrArg (·.getD .absent) h
      simp only [descend, hchild, if_pos hpresent]
  | absent => cases h
  | token head leading => cases h

/-- What is known of a view: its fact is the one at the end of its path, and it starts behind all that lies in
front of the path. -/
structure Located (t : SyntaxTree) (id : Nat) (v : View) (path : List Nat) : Prop where
  place : At t id path
  fact : descend t.root.toSlot path = .ok v.fact
  offset : v.offset = t.root.toSlot.offsetAlong path
  depth : path.length ≤ id
  made : v.fact.Made
  fits : v.offset + v.fact.extent ≤ t.root.toSlot.extent

theorem Linked.located {t : SyntaxTree} (h : t.Linked) {id : Nat} {v : View} (hv : t.views[id]? = some v) :
    ∃ path, Located t id v path := by
  induction id using Nat.strongRecOn generalizing v with
  | ind id ih =>
      cases hparent : v.parent with
      | none =>
          obtain ⟨w, hw, -, hfact, hoffset, -⟩ := h.root
          obtain rfl := h.top hv hparent
          rw [hv] at hw
          cases hw
          refine ⟨[], .root hv hparent, ?_, hoffset, Nat.le_refl _, ?_, ?_⟩
          · rw [hfact]
            rfl
          · rw [hfact]
            exact h.made
          · exact Nat.le_of_eq (by rw [hfact, hoffset, Nat.zero_add])
      | some p =>
          obtain ⟨hlt, w, hw, hunder, -⟩ := h.child hv hparent
          obtain ⟨path, hpath⟩ := ih p hlt hw
          have hin := Slot.extents_take_add_le hunder.fact
          have hwithin := w.fact.extents_slots_le
          refine ⟨path ++ [v.index], .child hpath.place hv hparent, ?_, ?_, ?_, ?_, ?_⟩
          · rw [descend_append hpath.fact]
            exact descend_slot hunder.fact hunder.present
          · rw [offsetAlong_append hpath.fact, ← hpath.offset]
            exact hunder.offset
          · have := hpath.depth
            rw [List.length_append, List.length_singleton]
            omega
          · exact hpath.made.slot (List.mem_of_getElem? hunder.fact)
          · have := hpath.fits
            have := hunder.offset
            omega

theorem Linked.index_root {t : SyntaxTree} (h : t.Linked) {id : Nat} {v : View} (hv : t.views[id]? = some v)
    (hparent : v.parent = none) : v.index = 0 := by
  obtain ⟨w, hw, -, -, -, hindex⟩ := h.root
  rw [h.top hv hparent, hw] at hv
  cases hv
  exact hindex

/-! ## Asking for a child -/

/-- In `u` it is known what is in a slot that had not been looked at in `t`; the views of `t` are else unchanged. -/
structure Learned (t u : SyntaxTree) (p i : Nat) (known : ChildView) : Prop where
  root : u.root = t.root
  old : ∀ {id : Nat} {v : View}, t.views[id]? = some v →
    u.views[id]? = some (if id = p then { v with slots := v.slots.set i known } else v)
  unseen : ∃ v : View, t.views[p]? = some v ∧ v.slots[i]? = some .unseen

theorem Learned.setSlot {t : SyntaxTree} {p i : Nat} {v : View} (hv : t.views[p]? = some v)
    (hslot : v.slots[i]? = some .unseen) (known : ChildView) : Learned t (t.setSlot p i known) p i known := by
  refine ⟨rfl, fun {id w} hw => ?_, v, hv, hslot⟩
  show (t.views.modify p _)[id]? = _
  rw [Array.getElem?_modify, hw]
  by_cases hid : id = p
  · rw [if_pos hid.symm, if_pos hid]
    rfl
  · rw [if_neg (fun he => hid he.symm), if_neg hid]

theorem Learned.addView {t : SyntaxTree} {p i : Nat} {v : View} (hv : t.views[p]? = some v)
    (hslot : v.slots[i]? = some .unseen) (fact : Slot) (offset : Nat) :
    Learned t (t.addView fact p i offset) p i (.present t.views.size) := by
  have hset := Learned.setSlot hv hslot (.present t.views.size)
  refine ⟨rfl, fun {id w} hw => ?_, hset.unseen⟩
  show ((t.setSlot p i (.present t.views.size)).views.push _)[id]? = _
  have hold := hset.old hw
  obtain ⟨hlt, -⟩ := Array.getElem?_eq_some_iff.1 hold
  rw [Array.getElem?_push_lt hlt, ← Array.getElem?_eq_getElem hlt]
  exact hold

section Learned

variable {t u : SyntaxTree} {p i : Nat} {known : ChildView}

/-- The view `w` is the view `v` of that number after the slot has been looked at. -/
structure Revised (p i : Nat) (known : ChildView) (id : Nat) (v w : View) : Prop where
  fact : w.fact = v.fact
  parent : w.parent = v.parent
  index : w.index = v.index
  offset : w.offset = v.offset
  length : w.slots.length = v.slots.length
  slots : ∀ j, w.slots[j]? = if id = p ∧ j = i then some known else v.slots[j]?

/-- The view stands in the slot that has been looked at, and nothing is known of its own slots. -/
structure Fresh (t : SyntaxTree) (p i : Nat) (w : View) : Prop where
  parent : w.parent = some p
  index : w.index = i
  slots : w.slots = List.replicate w.fact.count .unseen
  under : ∀ {v : View}, t.views[p]? = some v → v.Under w

theorem Fresh.unseen {w : View} (h : Fresh t p i w) {j : Nat} {k : ChildView} (hslot : w.slots[j]? = some k) :
    k = .unseen := by
  rw [h.slots] at hslot
  exact List.eq_of_mem_replicate (List.mem_of_getElem? hslot)

/-- What has been learned is true: an absent slot is empty, a present one has its view, and a view is new only if it
is the one in that slot. -/
structure Truthful (t u : SyntaxTree) (p i : Nat) (known : ChildView) : Prop where
  absent : known = .absent → ∀ {v : View}, t.views[p]? = some v → v.fact.slots[i]? = some .absent
  present : ∀ {c : Nat}, known = .present c → ∃ w : View, u.views[c]? = some w ∧ w.parent = some p ∧ w.index = i
  new : ∀ {id : Nat} {w : View}, u.views[id]? = some w → t.views[id]? = none → known = .present id ∧ Fresh t p i w

namespace Learned

theorem revised (h : Learned t u p i known) {id : Nat} {v : View} (hv : t.views[id]? = some v) :
    ∃ w : View, u.views[id]? = some w ∧ Revised p i known id v w := by
  refine ⟨_, h.old hv, ?_⟩
  by_cases hid : id = p
  · rw [if_pos hid]
    refine ⟨rfl, rfl, rfl, rfl, List.length_set, fun j => ?_⟩
    obtain ⟨w, hw, hunseen⟩ := h.unseen
    rw [hid, hw] at hv
    cases hv
    obtain ⟨hlt, -⟩ := List.getElem?_eq_some_iff.1 hunseen
    show (v.slots.set i known)[j]? = _
    rw [List.getElem?_set]
    by_cases hj : j = i
    · rw [if_pos hj.symm, if_pos hlt, if_pos ⟨hid, hj⟩]
    · rw [if_neg (fun he => hj he.symm), if_neg (fun he => hj he.2)]
  · rw [if_neg hid]
    exact ⟨rfl, rfl, rfl, rfl, rfl, fun j => by rw [if_neg (fun he => hid he.1)]⟩

theorem old_or_new (h : Learned t u p i known) {id : Nat} {w : View} (hw : u.views[id]? = some w) :
    (∃ v, t.views[id]? = some v ∧ Revised p i known id v w) ∨ t.views[id]? = none := by
  cases hv : t.views[id]? with
  | none => exact .inr rfl
  | some v =>
      obtain ⟨w', hw', hrevised⟩ := h.revised hv
      rw [hw] at hw'
      cases hw'
      exact .inl ⟨v, rfl, hrevised⟩

/-- What was known of a slot is known still. -/
theorem keeps (h : Learned t u p i known) {id j : Nat} {v w : View} (hv : t.views[id]? = some v)
    (hrevised : Revised p i known id v w) {k : ChildView} (hk : v.slots[j]? = some k) (hne : k ≠ .unseen) :
    w.slots[j]? = some k := by
  rw [hrevised.slots]
  split
  · next hj =>
    obtain ⟨v', hv', hunseen⟩ := h.unseen
    rw [hj.1, hv'] at hv
    cases hv
    rw [hj.2, hunseen] at hk
    cases hk
    exact absurd rfl hne
  · exact hk

theorem grown (h : Learned t u p i known) : Grown t u := by
  refine ⟨h.root, fun {id v} hv => ?_⟩
  obtain ⟨w, hw, hrevised⟩ := h.revised hv
  exact ⟨w, hw, hrevised.fact, hrevised.parent, hrevised.index, hrevised.offset,
    fun hk hne => h.keeps hv hrevised hk hne⟩

/-- An old view still fits to its parent. -/
theorem child_old (hl : Learned t u p i known) (h : t.Linked) {id q : Nat} {v w : View} (hv : t.views[id]? = some v)
    (hrevised : Revised p i known id v w) (hparent : w.parent = some q) :
    q < id ∧ ∃ y : View, u.views[q]? = some y ∧ y.Under w ∧ y.slots[w.index]? = some (.present id) := by
  obtain ⟨hlt, x, hx, hunder, hslot⟩ := h.child hv (hrevised.parent.symm.trans hparent)
  obtain ⟨y, hy, hrevised'⟩ := hl.revised hx
  refine ⟨hlt, y, hy, ⟨?_, ?_, ?_⟩, ?_⟩
  · rw [hrevised.fact]
    exact hunder.present
  · rw [hrevised.fact, hrevised'.fact, hrevised.index]
    exact hunder.fact
  · rw [hrevised.offset, hrevised'.offset, hrevised'.fact, hrevised.index]
    exact hunder.offset
  · rw [hrevised.index]
    exact hl.keeps hx hrevised' hslot (nomatch ·)

/-- The new view fits to its parent. -/
theorem child_new (hl : Learned t u p i known) {id : Nat} {w : View} (hnone : t.views[id]? = none)
    (hknown : known = .present id) (hfresh : Fresh t p i w) :
    p < id ∧ ∃ y : View, u.views[p]? = some y ∧ y.Under w ∧ y.slots[w.index]? = some (.present id) := by
  obtain ⟨v, hv, -⟩ := hl.unseen
  obtain ⟨y, hy, hrevised⟩ := hl.revised hv
  have hunder := hfresh.under hv
  have hlt := (Array.getElem?_eq_some_iff.1 hv).1
  have hge := Array.getElem?_eq_none_iff.1 hnone
  refine ⟨Nat.lt_of_lt_of_le hlt hge, y, hy, ⟨hunder.present, ?_, ?_⟩, ?_⟩
  · rw [hrevised.fact]
    exact hunder.fact
  · rw [hrevised.fact, hrevised.offset]
    exact hunder.offset
  · rw [hfresh.index, hrevised.slots, if_pos ⟨rfl, rfl⟩, hknown]

theorem known_child (hl : Learned t u p i known) (h : t.Linked) (htrue : Truthful t u p i known) {id j c : Nat}
    {v w : View} (hv : t.views[id]? = some v) (hrevised : Revised p i known id v w)
    (hslot : w.slots[j]? = some (.present c)) :
    ∃ y : View, u.views[c]? = some y ∧ y.parent = some id ∧ y.index = j := by
  rw [hrevised.slots] at hslot
  split at hslot
  · next hj =>
    rw [hj.1, hj.2]
    exact htrue.present (Option.some.inj hslot)
  · obtain ⟨x, hx, hparent, hindex⟩ := h.known hv hslot
    obtain ⟨y, hy, hrevised'⟩ := hl.revised hx
    exact ⟨y, hy, hrevised'.parent.trans hparent, hrevised'.index.trans hindex⟩

theorem known_absent (h : t.Linked) (htrue : Truthful t u p i known) {id j : Nat} {v w : View}
    (hv : t.views[id]? = some v) (hrevised : Revised p i known id v w) (hslot : w.slots[j]? = some .absent) :
    w.fact.slots[j]? = some .absent := by
  rw [hrevised.fact]
  rw [hrevised.slots] at hslot
  split at hslot
  · next hj =>
    rw [hj.2]
    exact htrue.absent (Option.some.inj hslot) (by rw [← hj.1]; exact hv)
  · exact h.empty hv hslot

/-- What has been learned keeps the links right, if it is true. -/
theorem linked (hl : Learned t u p i known) (h : t.Linked) (htrue : Truthful t u p i known) : u.Linked := by
  refine ⟨by rw [hl.root]; exact h.made, ?_, ?_, ?_, ?_, ?_, ?_⟩
  · obtain ⟨v, hv, hparent, hfact, hoffset, hindex⟩ := h.root
    obtain ⟨w, hw, hrevised⟩ := hl.revised hv
    refine ⟨w, hw, hrevised.parent.trans hparent, ?_, hrevised.offset.trans hoffset, hrevised.index.trans hindex⟩
    rw [hrevised.fact, hfact, hl.root]
  · intro id w hw hparent
    rcases hl.old_or_new hw with ⟨v, hv, hrevised⟩ | hnone
    · exact h.top hv (hrevised.parent.symm.trans hparent)
    · rw [(htrue.new hw hnone).2.parent] at hparent
      cases hparent
  · intro id q w hw hparent
    rcases hl.old_or_new hw with ⟨v, hv, hrevised⟩ | hnone
    · exact hl.child_old h hv hrevised hparent
    · obtain ⟨hknown, hfresh⟩ := htrue.new hw hnone
      rw [hfresh.parent] at hparent
      cases hparent
      exact hl.child_new hnone hknown hfresh
  · intro id w hw
    rcases hl.old_or_new hw with ⟨v, hv, hrevised⟩ | hnone
    · rw [hrevised.length, hrevised.fact]
      exact h.slots hv
    · rw [(htrue.new hw hnone).2.slots, List.length_replicate]
  · intro id j c w hw hslot
    rcases hl.old_or_new hw with ⟨v, hv, hrevised⟩ | hnone
    · exact hl.known_child h htrue hv hrevised hslot
    · exact nomatch (htrue.new hw hnone).2.unseen hslot
  · intro id j w hw hslot
    rcases hl.old_or_new hw with ⟨v, hv, hrevised⟩ | hnone
    · exact known_absent h htrue hv hrevised hslot
    · exact nomatch (htrue.new hw hnone).2.unseen hslot

end Learned

end Learned

theorem run_view {t : SyntaxTree} {id : Nat} {v : View} (hv : t.views[id]? = some v) :
    (view id).run t = (.ok v, t) := by
  unfold view
  rw [Step.run_bind, Step.run_get]
  dsimp only
  rw [hv]
  rfl

/-- The child is not in the tree yet. -/
theorem run_childView_unseen {t : SyntaxTree} (h : t.Linked) {p i : Nat} {v : View} (hv : t.views[p]? = some v)
    (hslot : v.slots[i]? = some .unseen) :
    ∃ fact, v.fact.slots[i]? = some fact ∧ (childView p i).run t =
      if fact.isPresent then
        (.ok (some t.views.size), t.addView fact p i (v.offset + Slot.extents (v.fact.slots.take i)))
      else (.ok none, t.setSlot p i .absent) := by
  obtain ⟨path, hpath⟩ := h.located hv
  have hcount : i < v.fact.count := by
    rw [← h.slots hv]
    exact (List.getElem?_eq_some_iff.1 hslot).1
  obtain ⟨fact, hfact⟩ : ∃ fact, v.fact.slots[i]? = some fact := ⟨_, List.getElem?_eq_getElem hcount⟩
  have hmade := hpath.made
  have hsum : Size.add v.offset (Slot.extents (v.fact.slots.take i)) =
      .ok (v.offset + Slot.extents (v.fact.slots.take i)) := by
    refine Size.add_eq_ok_iff.2 ⟨rfl, ?_⟩
    have hlimit : t.root.toSlot.extent < Size.limit := h.made.node_width.2
    have hfits := hpath.fits
    have hin := Slot.extents_take_add_le hfact
    have hwithin := v.fact.extents_slots_le
    omega
  refine ⟨fact, hfact, ?_⟩
  unfold childView
  rw [Step.run_bind, run_view hv]
  simp only [hslot]
  cases hnode : v.fact with
  | absent =>
      rw [hnode] at hcount
      exact absurd hcount (Nat.not_lt_zero _)
  | token head leading =>
      rw [hnode] at hcount
      exact absurd hcount (Nat.not_lt_zero _)
  | node head slots =>
      rw [hnode] at hcount hmade hfact hsum
      have hoffset : (⟨head, slots⟩ : Node).offsetAt i = .ok (Slot.extents (slots.take i)) :=
        Node.offsetAt_eq (n := ⟨head, slots⟩) hmade hcount
      have hchild : (⟨head, slots⟩ : Node).childAt i = fact := congrArg (·.getD .absent) hfact
      have hstart : ((⟨head, slots⟩ : Node).offsetAt i >>= fun start => Size.add v.offset start) =
          .ok (v.offset + Slot.extents (slots.take i)) := by
        rw [hoffset]
        exact hsum
      simp only [Step.run_bind, Step.run_lift, Step.run_get, hstart, hchild]
      cases fact.isPresent <;> rfl

theorem getElem?_addView (t : SyntaxTree) (fact : Slot) (p i offset id : Nat) :
    (t.addView fact p i offset).views[id]? =
      if id = t.views.size then some (newView fact (some p) i offset)
      else (t.setSlot p i (.present t.views.size)).views[id]? := by
  show ((t.setSlot p i (.present t.views.size)).views.push (newView fact (some p) i offset))[id]? = _
  rw [Array.getElem?_push]
  have hsize : (t.setSlot p i (.present t.views.size)).views.size = t.views.size := Array.size_modify
  rw [hsize]

theorem getElem?_setSlot_none {t : SyntaxTree} {p i id : Nat} {known : ChildView} (h : t.views[id]? = none) :
    (t.setSlot p i known).views[id]? = none := by
  rw [Array.getElem?_eq_none_iff] at h ⊢
  show (t.views.modify p _).size ≤ id
  rw [Array.size_modify]
  exact h

/-- The answer to a question for a child: the view in that slot, or none if the slot is empty or past the end. -/
def Finds (u : SyntaxTree) (p i : Nat) (fact : Slot) : Option Nat → Prop
  | none => (fact.slots[i]?.getD .absent).isPresent = false
  | some c => ∃ w : View, u.views[c]? = some w ∧ w.parent = some p ∧ w.index = i

theorem Linked.addView {t : SyntaxTree} (h : t.Linked) {p i : Nat} {v : View} (hv : t.views[p]? = some v)
    (hslot : v.slots[i]? = some .unseen) {fact : Slot} (hfact : v.fact.slots[i]? = some fact)
    (hpresent : fact.isPresent = true) :
    (t.addView fact p i (v.offset + Slot.extents (v.fact.slots.take i))).Linked := by
  refine (Learned.addView hv hslot fact _).linked h ⟨?_, ?_, ?_⟩
  · intro he
    cases he
  · intro c hc
    cases hc
    exact ⟨_, by rw [getElem?_addView, if_pos rfl], rfl, rfl⟩
  · intro id w hw hnone
    rw [getElem?_addView] at hw
    split at hw
    · next hid =>
      cases hw
      refine ⟨by rw [hid], rfl, rfl, rfl, fun {v'} hv' => ?_⟩
      rw [hv] at hv'
      cases hv'
      exact ⟨hpresent, hfact, rfl⟩
    · rw [getElem?_setSlot_none hnone] at hw
      cases hw

theorem Linked.setAbsent {t : SyntaxTree} (h : t.Linked) {p i : Nat} {v : View} (hv : t.views[p]? = some v)
    (hslot : v.slots[i]? = some .unseen) (hfact : v.fact.slots[i]? = some .absent) :
    (t.setSlot p i .absent).Linked := by
  refine (Learned.setSlot hv hslot .absent).linked h ⟨?_, ?_, ?_⟩
  · intro _ v' hv'
    rw [hv] at hv'
    cases hv'
    exact hfact
  · intro c hc
    cases hc
  · intro id w hw hnone
    rw [getElem?_setSlot_none hnone] at hw
    cases hw

/-- Asking for a child never faults, keeps the links right and gives the one view of that place. -/
theorem Linked.childView {t : SyntaxTree} (h : t.Linked) {p : Nat} {v : View} (hv : t.views[p]? = some v) (i : Nat) :
    ∃ answer u, (SyntaxTree.childView p i).run t = (.ok answer, u) ∧ Grown t u ∧ u.Linked ∧
      Finds u p i v.fact answer := by
  cases hslot : v.slots[i]? with
  | none =>
      refine ⟨none, t, ?_, .refl t, h, ?_⟩
      · unfold SyntaxTree.childView
        rw [Step.run_bind, run_view hv]
        simp only [hslot]
        rfl
      · rw [List.getElem?_eq_none_iff, h.slots hv] at hslot
        rw [Finds, List.getElem?_eq_none hslot]
        rfl
  | some known =>
      cases known with
      | present c =>
          refine ⟨some c, t, ?_, .refl t, h, h.known hv hslot⟩
          unfold SyntaxTree.childView
          rw [Step.run_bind, run_view hv]
          simp only [hslot]
          rfl
      | absent =>
          refine ⟨none, t, ?_, .refl t, h, ?_⟩
          · unfold SyntaxTree.childView
            rw [Step.run_bind, run_view hv]
            simp only [hslot]
            rfl
          · rw [Finds, h.empty hv hslot]
            rfl
      | unseen =>
          obtain ⟨fact, hfact, hrun⟩ := run_childView_unseen h hv hslot
          by_cases hpresent : fact.isPresent = true
          · rw [if_pos hpresent] at hrun
            refine ⟨_, _, hrun, (Learned.addView hv hslot fact _).grown, h.addView hv hslot hfact hpresent, ?_⟩
            exact ⟨_, by rw [getElem?_addView, if_pos rfl], rfl, rfl⟩
          · rw [if_neg hpresent] at hrun
            have habsent : fact = .absent := by
              cases fact with
              | absent => rfl
              | token _ _ => exact absurd rfl hpresent
              | node _ _ => exact absurd rfl hpresent
            rw [habsent] at hfact
            refine ⟨_, _, hrun, (Learned.setSlot hv hslot .absent).grown, h.setAbsent hv hslot hfact, ?_⟩
            rw [Finds, hfact]
            rfl

/-- The view that is found in a slot is the one at the path through that slot. -/
theorem Finds.at {u : SyntaxTree} {p i c : Nat} {fact : Slot} {path : List Nat} (h : Finds u p i fact (some c))
    (hp : At u p path) : At u c (path ++ [i]) := by
  obtain ⟨w, hw, hparent, hindex⟩ := h
  rw [← hindex]
  exact .child hp hw hparent

/-- Nothing is found exactly in a slot that is empty. -/
theorem Finds.eq_none_iff {t u : SyntaxTree} {p i : Nat} {v : View} {answer : Option Nat}
    (h : Finds u p i v.fact answer) (hu : u.Linked) (hgrown : Grown t u) (hv : t.views[p]? = some v) :
    answer = none ↔ (v.fact.slots[i]?.getD .absent).isPresent = false := by
  cases answer with
  | none => exact iff_of_true rfl h
  | some c =>
      obtain ⟨w, hw, hparent, hindex⟩ := h
      obtain ⟨v', hv', hfact, -⟩ := hgrown.views hv
      obtain ⟨-, v'', hv'', hunder, -⟩ := hu.child hw hparent
      rw [hv'] at hv''
      cases hv''
      have hslot := hunder.fact
      rw [hfact, hindex] at hslot
      rw [hslot]
      exact iff_of_false (nomatch ·) fun hempty => absurd (hunder.present.symm.trans hempty) (by decide)

theorem linked_ofRoot {root : Node} (hroot : root.toSlot.Made) : (ofRoot root).Linked := by
  have honly : ∀ {id : Nat} {v : View}, (ofRoot root).views[id]? = some v →
      id = 0 ∧ v = newView root.toSlot none 0 0 := by
    intro id v hv
    obtain ⟨hlt, rfl⟩ := Array.getElem?_eq_some_iff.1 hv
    obtain rfl : id = 0 := Nat.lt_one_iff.1 hlt
    exact ⟨rfl, rfl⟩
  have hunseen : ∀ {i : Nat} {known : ChildView},
      (newView root.toSlot none 0 0).slots[i]? = some known → known = .unseen :=
    fun hknown => List.eq_of_mem_replicate (List.mem_of_getElem? hknown)
  refine ⟨hroot, ⟨_, rfl, rfl, rfl, rfl, rfl⟩, fun hv _ => (honly hv).1, ?_, ?_, ?_, ?_⟩
  · intro id p v hv hparent
    obtain ⟨-, rfl⟩ := honly hv
    cases hparent
  · intro id v hv
    obtain ⟨-, rfl⟩ := honly hv
    exact List.length_replicate
  · intro id i c v hv hslot
    obtain ⟨-, rfl⟩ := honly hv
    cases hunseen hslot
  · intro id i v hv hslot
    obtain ⟨-, rfl⟩ := honly hv
    cases hunseen hslot

/-! ## From a view back to its fact -/

theorem run_pathWithin {t : SyntaxTree} {id fuel : Nat} {path : List Nat} (h : At t id path)
    (hfuel : path.length < fuel) : (pathWithin fuel id).run t = (.ok path, t) := by
  induction h generalizing fuel with
  | root hv hparent =>
      cases fuel with
      | zero => exact absurd hfuel (Nat.not_lt_zero _)
      | succ fuel =>
          rw [pathWithin, Step.run_bind, run_view hv]
          simp only [hparent]
          rfl
  | child hp hv hparent ih =>
      cases fuel with
      | zero => exact absurd hfuel (Nat.not_lt_zero _)
      | succ fuel =>
          rw [List.length_append, List.length_singleton] at hfuel
          rw [pathWithin, Step.run_bind, run_view hv]
          simp only [hparent, Step.run_bind, ih (Nat.lt_of_succ_lt_succ hfuel)]
          rfl

/-- The fact found from the root is the one stored in the view. -/
theorem Linked.run_factAt {t : SyntaxTree} (h : t.Linked) {id : Nat} {v : View} (hv : t.views[id]? = some v) :
    (factAt id).run t = (.ok v.fact, t) := by
  obtain ⟨path, hpath⟩ := h.located hv
  unfold factAt
  rw [Step.run_bind, run_pathWithin hpath.place (Nat.lt_succ_of_le hpath.depth)]
  simp only [Step.run_bind, Step.run_get, Step.run_lift, hpath.fact]

/-- A view reports what its fact does, from where the view starts. -/
theorem Linked.run_reportAt {t : SyntaxTree} (h : t.Linked) {id : Nat} {v : View} (hv : t.views[id]? = some v) :
    (reportAt id).run t = (.ok (v.fact.report v.offset), t) := by
  unfold reportAt
  simp only [Step.run_bind, h.run_factAt hv, run_view hv, Step.run_pure]

end SyntaxTree

end LosslessSyntax
