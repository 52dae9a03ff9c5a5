import LosslessSyntax.Proofs.View.Answers
import LosslessSyntax.View.Lookup
import LosslessSyntax.View.Pointer
import LosslessSyntax.View.Walk

/-!
# Traversals and lookups answer alike

What goes through a tree, from token to token, along a walk or down to a position, makes views on its way. It finds
the same places in two trees over the same facts, whatever views there were before.

* `TokenRef.next_alike`, `TokenRef.prev_alike` : the neighbours of a token;
* `Walk.next_alike`, `Walk.trace_alike` : the events of a walk;
* `NodeRef.tokenAt_alike`, `NodeRef.nodeAt_alike`, `NodePointer.resolve?_alike` : lookups.
-/

set_option autoImplicit false

namespace LosslessSyntax

open Placed (Same)

variable {w : TreePair}

/-! ## From token to token -/

namespace NodeRef

theorem slotIsMissing_alike {h k : NodeRef} (hsame : Same w h k) (index : Nat) :
    Alike w (h.slotIsMissing index) (k.slotIsMissing index) := (node_alike hsame).map_eq

theorem tokenInSlot_alike {inside : NodeRef → Nav (Option TokenRef)}
    (hinside : ∀ {w' : TreePair} {n m : NodeRef}, Same w' n m → Alike w' (inside n) (inside m)) (withMissing : Bool)
    {h k : NodeRef} (hsame : Same w h k) (index : Nat) :
    Alike w (tokenInSlot inside withMissing h index) (tokenInSlot inside withMissing k index) := by
  refine (slotIsMissing_alike hsame index).bind_eq fun w₁ hle₁ missing => ?_
  split
  · exact .pure .none
  · refine (childAt_alike (hsame.mono hle₁) index).bind fun w₂ hle₂ a b hab => ?_
    cases hab with
    | none => exact .pure .none
    | some hab =>
        cases hab with
        | node hn => exact hinside hn
        | token ht => exact .pure (.some ht)

/-- The slots of a node are searched in an order that depends on their number alone. -/
theorem searchSlots_alike {inside : NodeRef → Nav (Option TokenRef)}
    (hinside : ∀ {w' : TreePair} {n m : NodeRef}, Same w' n m → Alike w' (inside n) (inside m)) (withMissing : Bool)
    (order : Nat → List Nat) {h k : NodeRef} (hsame : Same w h k) :
    Alike w (do (order (← h.count)).findSomeM? (tokenInSlot inside withMissing h))
      (do (order (← k.count)).findSomeM? (tokenInSlot inside withMissing k)) := by
  refine (count_alike hsame).bind_eq fun w₁ hle₁ count => ?_
  exact findSomeM?_alike _ fun w₂ hle₂ =>
    tokenInSlot_alike hinside withMissing (hsame.mono (TreePair.le_trans hle₁ hle₂))

theorem firstTokenWithin_alike (withMissing : Bool) (fuel : Nat) {h k : NodeRef} (hsame : Same w h k) :
    Alike w (firstTokenWithin withMissing fuel h) (firstTokenWithin withMissing fuel k) := by
  induction fuel generalizing w h k with
  | zero => exact .pure .none
  | succ fuel ih => exact searchSlots_alike ih withMissing List.range hsame

theorem lastTokenWithin_alike (withMissing : Bool) (fuel : Nat) {h k : NodeRef} (hsame : Same w h k) :
    Alike w (lastTokenWithin withMissing fuel h) (lastTokenWithin withMissing fuel k) := by
  induction fuel generalizing w h k with
  | zero => exact .pure .none
  | succ fuel ih => exact searchSlots_alike ih withMissing (fun count => (List.range count).reverse) hsame

theorem firstToken_alike {h k : NodeRef} (hsame : Same w h k) (withMissing : Bool) :
    Alike w (h.firstToken withMissing) (k.firstToken withMissing) :=
  (node_alike hsame).bind_eq fun _ hle _ => firstTokenWithin_alike _ _ (hsame.mono hle)

theorem lastToken_alike {h k : NodeRef} (hsame : Same w h k) (withMissing : Bool) :
    Alike w (h.lastToken withMissing) (k.lastToken withMissing) :=
  (node_alike hsame).bind_eq fun _ hle _ => lastTokenWithin_alike _ _ (hsame.mono hle)

/-- The parent is looked up, and may be asked next. -/
theorem parent_then_alike {α : Type} [Placed α] {depth : Nat} {h k : NodeRef} (hdepth : AtDepth w depth h.id k.id)
    {f g : Option NodeRef → Nav α} (hnone : Alike w (f none) (g none))
    (hsome : ∀ p q : NodeRef, OneUp w depth p.id q.id → Alike w (f (some p)) (g (some q))) :
    Alike w (h.parent >>= f) (k.parent >>= g) := by
  have hrun : ∀ {x : NodeRef} {t : SyntaxTree} {v : View}, t.views[x.id]? = some v →
      x.parent.run t = (.ok (v.parent.map (⟨·⟩)), t) := by
    intro x t v hv
    unfold NodeRef.parent
    rw [Step.run_bind, SyntaxTree.run_view hv]
    rfl
  intro hw
  obtain ⟨v, v', hv, hv', -, hparents⟩ := hdepth.parents hw
  refine .bind_run (hrun hv) (hrun hv') w.le_refl ?_
  generalize v.parent = p, v'.parent = q at hparents ⊢
  cases hparents with
  | none => exact hnone hw
  | some h => exact hsome _ _ h hw

/-- What is found in a node, or else further up, beyond the slot of the node. -/
theorem orAbove_alike {depth : Nat} {h k : NodeRef} (hdepth : AtDepth w depth h.id k.id)
    {inside inside' : Nav (Option TokenRef)} (hinside : Alike w inside inside')
    {above above' : NodeRef → Nat → Nav (Option TokenRef)}
    (habove : ∀ {w' : TreePair} {p q : Nat} (index : Nat), w ≤ w' → OneUp w' depth p q →
      Alike w' (above ⟨p⟩ index) (above' ⟨q⟩ index)) :
    Alike w
      (do match ← inside with
          | some t => return some t
          | none =>
            match ← h.index, ← h.parent with
            | some index, some parent => above parent index
            | _, _ => return none)
      (do match ← inside' with
          | some t => return some t
          | none =>
            match ← k.index, ← k.parent with
            | some index, some parent => above' parent index
            | _, _ => return none) := by
  refine hinside.bind fun w₁ hle₁ a b hab => ?_
  cases hab with
  | some hab => exact .pure (.some hab)
  | none =>
      refine (index_alike (hdepth.sameId.mono hle₁)).bind fun w₂ hle₂ i i' hi => ?_
      have hle := TreePair.le_trans hle₁ hle₂
      refine parent_then_alike (hdepth.mono hle) ?_ fun p q hpq => ?_
      · cases hi with
        | none => exact .pure .none
        | some _ => exact .pure .none
      · cases hi with
        | none => exact .pure .none
        | some hi =>
            cases hi
            exact habove _ hle hpq

theorem tokenBehind_alike (withMissing : Bool) {depth m n : Nat} {h k : NodeRef} (hdepth : AtDepth w depth h.id k.id)
    (hm : depth < m) (hn : depth < n) (index : Nat) :
    Alike w (tokenBehind withMissing m h index) (tokenBehind withMissing n k index) := by
  refine climb_alike (f := fun m a => tokenBehind withMissing m ⟨a⟩) (g := fun n b => tokenBehind withMissing n ⟨b⟩)
    ?_ hdepth hm hn index
  intro w' depth m n a b index _ hdepth hrest
  refine (node_alike hdepth.sameId).bind_eq fun w₁ hle₁ node => ?_
  have hdepth₁ := hdepth.mono hle₁
  refine (count_alike hdepth₁.sameId).bind_eq fun w₂ hle₂ count => ?_
  have hdepth₂ := hdepth₁.mono hle₂
  refine orAbove_alike hdepth₂ ?_ fun i hle₃ => hrest i (TreePair.le_trans hle₁ (TreePair.le_trans hle₂ hle₃))
  exact findSomeM?_alike _ fun w₃ hle₃ =>
    tokenInSlot_alike (firstTokenWithin_alike _ _) withMissing (hdepth₂.sameId.mono hle₃)

theorem tokenInFront_alike (withMissing : Bool) {depth m n : Nat} {h k : NodeRef} (hdepth : AtDepth w depth h.id k.id)
    (hm : depth < m) (hn : depth < n) (index : Nat) :
    Alike w (tokenInFront withMissing m h index) (tokenInFront withMissing n k index) := by
  refine climb_alike (f := fun m a => tokenInFront withMissing m ⟨a⟩) (g := fun n b => tokenInFront withMissing n ⟨b⟩)
    ?_ hdepth hm hn index
  intro w' depth m n a b index _ hdepth hrest
  refine (node_alike hdepth.sameId).bind_eq fun w₁ hle₁ node => ?_
  have hdepth₁ := hdepth.mono hle₁
  refine orAbove_alike hdepth₁ ?_ fun i hle₂ => hrest i (TreePair.le_trans hle₁ hle₂)
  exact findSomeM?_alike _ fun w₂ hle₂ =>
    tokenInSlot_alike (lastTokenWithin_alike _ _) withMissing (hdepth₁.sameId.mono hle₂)

end NodeRef

namespace TokenRef

/-- The parent of a token is looked up, and bounds the way up by its number. -/
theorem parent_index_alike {α : Type} [Placed α] {h k : TokenRef} (hsame : Same w h k)
    {f : Nat → NodeRef → Nat → Nav α}
    (hf : ∀ {w' : TreePair} {depth m n : Nat} {p q : NodeRef}, AtDepth w' depth p.id q.id → depth < m → depth < n →
      ∀ index, Alike w' (f m p index) (f n q index)) :
    Alike w (do let parent ← h.parent; f (parent.id + 1) parent (← h.index))
      (do let parent ← k.parent; f (parent.id + 1) parent (← k.index)) := by
  refine (parent_alike hsame).bind fun w₁ hle₁ p q hpq => ?_
  refine (index_alike (hsame.mono hle₁)).bind_eq fun w₂ hle₂ index hw => ?_
  obtain ⟨depth, hdepth, hp, hq⟩ := (hpq.mono hle₂).bounded hw
  exact hf hdepth hp hq index hw

theorem next_alike {h k : TokenRef} (hsame : Same w h k) (withMissing : Bool) :
    Alike w (h.next withMissing) (k.next withMissing) :=
  parent_index_alike hsame (NodeRef.tokenBehind_alike withMissing)

theorem prev_alike {h k : TokenRef} (hsame : Same w h k) (withMissing : Bool) :
    Alike w (h.prev withMissing) (k.prev withMissing) :=
  parent_index_alike hsame (NodeRef.tokenInFront_alike withMissing)

theorem follow_alike {step : TokenRef → Nav (Option TokenRef)}
    (hstep : ∀ {w' : TreePair} {s t : TokenRef}, Same w' s t → Alike w' (step s) (step t)) (fuel : Nat)
    {a b : Option TokenRef} (hab : Same w a b) : Alike w (follow step fuel a) (follow step fuel b) := by
  induction fuel generalizing w a b with
  | zero => exact .pure .nil
  | succ fuel ih =>
      cases hab with
      | none => exact .pure .nil
      | some hab =>
          refine (hstep hab).bind fun w₁ hle₁ s t hst => ?_
          refine (ih hst).map fun w₂ hle₂ _ _ hrest => ?_
          exact .cons (hab.mono (TreePair.le_trans hle₁ hle₂)) hrest

end TokenRef

/-- What is read off the tree depends on its facts alone. -/
theorem root_alike {α : Type} [Placed α] {f g : Node → Nav α} (h : ∀ root, Alike w (f root) (g root)) :
    Alike w (.get >>= fun t => f t.root) (.get >>= fun t => g t.root) := by
  intro hw
  refine .bind_run rfl rfl w.le_refl ?_
  rw [hw.root]
  exact h _ hw

namespace NodeRef

variable {h k : NodeRef} (hsame : Same w h k)
include hsame

theorem tokensOnward_alike (withMissing : Bool) : Alike w (h.tokensOnward withMissing) (k.tokensOnward withMissing) :=
  root_alike fun root => (firstToken_alike hsame withMissing).bind fun _ _ _ _ hab =>
    TokenRef.follow_alike (fun hst => TokenRef.next_alike hst withMissing) root.toSlot.size hab

theorem tokensBackward_alike (withMissing : Bool) :
    Alike w (h.tokensBackward withMissing) (k.tokensBackward withMissing) :=
  root_alike fun root => (lastToken_alike hsame withMissing).bind fun _ _ _ _ hab =>
    TokenRef.follow_alike (fun hst => TokenRef.prev_alike hst withMissing) root.toSlot.size hab

end NodeRef

/-! ## Walks -/

inductive SameEvent (w : TreePair) : WalkEvent → WalkEvent → Prop
  | enter {n m : NodeRef} (h : Same w n m) : SameEvent w (.enter n) (.enter m)
  | leave {n m : NodeRef} (h : Same w n m) : SameEvent w (.leave n) (.leave m)
  | token {s t : TokenRef} (h : Same w s t) : SameEvent w (.token s) (.token t)

instance : Placed WalkEvent where
  Same := SameEvent
  mono hle h := by
    cases h with
    | enter h => exact .enter (h.mono hle)
    | leave h => exact .leave (h.mono hle)
    | token h => exact .token (h.mono hle)

/-- The same nodes are open, each at the same slot. -/
structure SameWalk (w : TreePair) (a b : Walk) : Prop where
  stack : Same w a.stack b.stack
  start : Same w a.start b.start

instance : Placed Walk := ⟨SameWalk, fun hle h => ⟨Placed.mono hle h.stack, Placed.mono hle h.start⟩⟩

inductive SameItem (w : TreePair) : Walk.Item → Walk.Item → Prop
  | event {d e : WalkEvent} (h : Same w d e) : SameItem w (.event d) (.event e)
  | fault (f : Fault) : SameItem w (.fault f) (.fault f)

instance : Placed Walk.Item where
  Same := SameItem
  mono hle h := by
    cases h with
    | event h => exact .event (Placed.mono hle h)
    | fault f => exact .fault f

theorem SameEvent.met? {d e : WalkEvent} (h : SameEvent w d e) : Same w d.met? e.met? := by
  cases h with
  | enter h => exact .some (.node h)
  | leave _ => exact .none
  | token h => exact .some (.token h)

theorem SameEvent.text_alike {d e : WalkEvent} (h : SameEvent w d e) : Alike w d.text e.text := by
  cases h with
  | enter h => exact (NodeRef.text_alike h).map_eq
  | leave h => exact (NodeRef.text_alike h).map_eq
  | token h => exact (TokenRef.text_alike h).map_eq

theorem SameEvent.nodeText_alike {d e : WalkEvent} (h : SameEvent w d e) : Alike w d.nodeText e.nodeText := by
  cases h with
  | enter h => exact (NodeRef.text_alike h).map_eq
  | leave h => exact (NodeRef.text_alike h).map_eq
  | token h => exact (TokenRef.text_alike h).map_eq

namespace Walk

theorem same_ofNode {h k : NodeRef} (hsame : Same w h k) : Same w (ofNode h) (ofNode k) := ⟨.nil, .some hsame⟩

theorem firstChild_alike {h k : NodeRef} (hsame : Same w h k) (slot : Nat) :
    Alike w (firstChild h slot) (firstChild k slot) := by
  refine (NodeRef.count_alike hsame).bind_eq fun w₁ hle₁ count => ?_
  refine findSomeM?_alike _ fun w₂ hle₂ index => ?_
  refine (NodeRef.childAt_alike (hsame.mono (TreePair.le_trans hle₁ hle₂)) index).map fun w₃ hle₃ a b hab => ?_
  cases hab with
  | none => exact .none
  | some hab => exact .some ⟨hab, rfl⟩

theorem next_alike {a b : Walk} (h : Same w a b) : Alike w a.next b.next := by
  obtain ⟨stack, start⟩ := a
  obtain ⟨stack', start'⟩ := b
  obtain ⟨hstack, hstart⟩ := h
  cases hstack with
  | nil =>
      cases hstart with
      | none => exact .pure .none
      | some h => exact .pure (.some ⟨.enter h, ⟨.cons ⟨h, rfl⟩ .nil, .none⟩⟩)
  | @cons top top' outer outer' htop houter =>
      obtain ⟨h, slot⟩ := top
      obtain ⟨k, slot'⟩ := top'
      obtain ⟨hsame, hslot⟩ := htop
      cases hslot
      refine (firstChild_alike hsame slot).bind fun w₁ hle x y hxy => ?_
      have hsame₁ : Same w₁ h k := Placed.mono hle hsame
      have houter₁ : Same w₁ outer outer' := Placed.mono hle houter
      have hstart₁ : Same w₁ start start' := Placed.mono hle hstart
      cases hxy with
      | none => exact .pure (.some ⟨.leave hsame₁, ⟨houter₁, hstart₁⟩⟩)
      | @some x y hxy =>
          obtain ⟨child, index⟩ := x
          obtain ⟨child', index'⟩ := y
          obtain ⟨hchild, hindex⟩ := hxy
          cases hindex
          cases hchild with
          | node hn =>
              exact .pure (.some ⟨.enter hn, ⟨.cons ⟨hn, rfl⟩ (.cons ⟨hsame₁, rfl⟩ houter₁), hstart₁⟩⟩)
          | token ht => exact .pure (.some ⟨.token ht, ⟨.cons ⟨hsame₁, rfl⟩ houter₁, hstart₁⟩⟩)

theorem nextNode_alike (fuel : Nat) {a b : Walk} (h : Same w a b) : Alike w (nextNode fuel a) (nextNode fuel b) := by
  induction fuel generalizing w a b with
  | zero => exact .pure .none
  | succ fuel ih =>
      refine (next_alike h).bind fun w₁ hle x y hxy => ?_
      cases hxy with
      | none => exact .pure .none
      | @some x y hxy =>
          obtain ⟨e, a'⟩ := x
          obtain ⟨e', b'⟩ := y
          obtain ⟨hevent, hwalk⟩ := hxy
          cases hevent with
          | enter h => exact .pure (.some ⟨.enter h, hwalk⟩)
          | leave h => exact .pure (.some ⟨.leave h, hwalk⟩)
          | token _ => exact ih hwalk

theorem same_trySkip {a b : Walk} (h : Same w a b) : Same w a.trySkip b.trySkip := by
  obtain ⟨stack, start⟩ := a
  obtain ⟨stack', start'⟩ := b
  obtain ⟨hstack, hstart⟩ := h
  cases hstack with
  | nil => exact ⟨.cons (.fault _) .nil, ⟨.nil, hstart⟩⟩
  | cons _ houter => exact ⟨.nil, ⟨houter, hstart⟩⟩

theorem trace_alike {step : Walk → Nav (Option (WalkEvent × Walk))} {skips : Nat → WalkEvent → Nav Bool}
    (hstep : ∀ {w' : TreePair} {a b : Walk}, Same w' a b → Alike w' (step a) (step b))
    (hskips : ∀ {w' : TreePair} (number : Nat) {d e : WalkEvent}, Same w' d e →
      Alike w' (skips number d) (skips number e))
    (fuel number : Nat) {a b : Walk} (h : Same w a b) :
    Alike w (trace step skips fuel number a) (trace step skips fuel number b) := by
  induction fuel generalizing w number a b with
  | zero => exact .pure .nil
  | succ fuel ih =>
      refine (hstep h).bind fun w₁ hle₁ x y hxy => ?_
      cases hxy with
      | none => exact .pure .nil
      | @some x y hxy =>
          obtain ⟨d, a'⟩ := x
          obtain ⟨e, b'⟩ := y
          obtain ⟨hevent, hwalk⟩ := hxy
          refine (hskips number hevent).bind_eq fun w₂ hle₂ skip => ?_
          have hwalk₂ : Same w₂ a' b' := Placed.mono hle₂ hwalk
          have hpair : Same w₂ (if skip = true then a'.trySkip else ([], a'))
              (if skip = true then b'.trySkip else ([], b')) := by
            split
            · exact same_trySkip hwalk₂
            · exact ⟨.nil, hwalk₂⟩
          refine (ih (number + 1) hpair.2).map fun w₃ hle₃ _ _ hrest => ?_
          have hitem : SameItem w₃ (.event d) (.event e) := .event (Placed.mono (TreePair.le_trans hle₂ hle₃) hevent)
          exact List.rel_append (.cons hitem (Placed.mono hle₃ hpair.1)) hrest

theorem collect_alike (fuel : Nat) {a b : Walk} (h : Same w a b) : Alike w (collect fuel a) (collect fuel b) := by
  induction fuel generalizing w a b with
  | zero => exact .pure .nil
  | succ fuel ih =>
      refine (next_alike h).bind fun w₁ hle₁ x y hxy => ?_
      cases hxy with
      | none => exact .pure .nil
      | some hxy =>
          refine (ih hxy.2).map fun w₂ hle₂ _ _ hrest => ?_
          exact List.rel_append (same_toList (Placed.mono hle₂ (SameEvent.met? hxy.1))) hrest

theorem nthMet_alike (fuel n : Nat) {a b : Walk} (h : Same w a b) : Alike w (nthMet fuel n a) (nthMet fuel n b) := by
  induction fuel generalizing w n a b with
  | zero => exact .pure .none
  | succ fuel ih =>
      refine (next_alike h).bind fun w₁ hle₁ x y hxy => ?_
      cases hxy with
      | none => exact .pure .none
      | @some x y hxy =>
          obtain ⟨d, a'⟩ := x
          obtain ⟨e, b'⟩ := y
          obtain ⟨hevent, hwalk⟩ := hxy
          have hmet : Same w₁ d.met? e.met? := SameEvent.met? hevent
          generalize hp : d.met? = p at hmet
          generalize hq : e.met? = q at hmet
          dsimp only
          rw [hp, hq]
          cases hmet with
          | none => exact ih n hwalk
          | some hmet =>
              cases n with
              | zero => exact .pure (.some hmet)
              | succ n => exact ih n hwalk

end Walk

namespace NodeRef

variable {h k : NodeRef} (hsame : Same w h k)
include hsame

theorem walkLength_alike : Alike w h.walkLength k.walkLength := (node_alike hsame).map_eq

theorem descendants_alike : Alike w h.descendants k.descendants := by
  refine (walkLength_alike hsame).bind_eq fun w₁ hle length => ?_
  have hall := Walk.collect_alike length (Walk.same_ofNode (hsame.mono hle))
  exact hall.map fun _ _ _ _ => List.forall₂_drop 1

theorem descendant?_alike (n : Nat) : Alike w (h.descendant? n) (k.descendant? n) :=
  (walkLength_alike hsame).bind_eq fun _ hle _ => Walk.nthMet_alike _ _ (Walk.same_ofNode (hsame.mono hle))

end NodeRef

/-! ## Lookups -/

inductive SameAtOffset {α : Type} [Placed α] (w : TreePair) : TokenAtOffset α → TokenAtOffset α → Prop
  | none : SameAtOffset w .none .none
  | single {s t : α} (h : Same w s t) : SameAtOffset w (.single s) (.single t)
  | between {s s' t t' : α} (hleft : Same w s s') (hright : Same w t t') :
    SameAtOffset w (.between s t) (.between s' t')

instance {α : Type} [Placed α] : Placed (TokenAtOffset α) where
  Same := SameAtOffset
  mono hle h := by
    cases h with
    | none => exact .none
    | single h => exact .single (Placed.mono hle h)
    | between hleft hright => exact .between (Placed.mono hle hleft) (Placed.mono hle hright)

/-- Numbers of places are equal in both trees or in neither. -/
theorem SameId.eq_iff (hw : w.Linked) {a b c d : Nat} (h : SameId w a b) (h' : SameId w c d) : a = c ↔ b = d := by
  obtain ⟨path, ha, hb⟩ := h
  obtain ⟨path', hc, hd⟩ := h'
  constructor
  · rintro rfl
    obtain rfl := ha.unique hc
    exact hw.right.at_injective hb hd
  · rintro rfl
    obtain rfl := hb.unique hd
    exact hw.left.at_injective ha hc

namespace NodeRef

theorem eq_iff (hw : w.Linked) {h k top top' : NodeRef} (hsame : Same w h k) (htop : Same w top top') :
    h = top ↔ k = top' := by
  obtain ⟨a⟩ := h
  obtain ⟨b⟩ := k
  obtain ⟨c⟩ := top
  obtain ⟨d⟩ := top'
  rw [NodeRef.mk.injEq, NodeRef.mk.injEq]
  exact SameId.eq_iff hw hsame htop

theorem tokenOver_alike (offset fuel : Nat) {h k : NodeRef} (hsame : Same w h k) :
    Alike w (tokenOver offset fuel h) (tokenOver offset fuel k) := by
  induction fuel generalizing w h k with
  | zero => exact .fail _
  | succ fuel ih =>
      refine lookup_alike hsame fun v v' hv => ?_
      rw [hv.offset]
      refine (Alike.lift_eq _).bind_eq fun w₁ hle₁ relative => ?_
      have hsame₁ : Same w₁ h k := Placed.mono hle₁ hsame
      refine (node_alike hsame₁).bind_eq fun w₂ hle₂ node => ?_
      have hsame₂ : Same w₂ h k := Placed.mono hle₂ hsame₁
      refine (Alike.lift_eq _).bind_eq fun w₃ hle₃ index => ?_
      refine (childAt_alike (hsame₂.mono hle₃) index).bind fun w₄ hle₄ a b hab => ?_
      cases hab with
      | none => exact .fail _
      | some hab =>
          cases hab with
          | node hn => exact ih hn
          | token ht => exact .pure ht

theorem leftNeighbour_alike (offset : Nat) (range : Range) {s t : TokenRef} (hsame : Same w s t) :
    Alike w (leftNeighbour offset range s) (leftNeighbour offset range t) := by
  refine lookup_alike hsame fun v v' hv => ?_
  rw [hv.offset]
  split
  · refine (TokenRef.prev_alike hsame false).bind fun w₁ hle₁ a b hab => ?_
    cases hab with
    | none => exact .pure .none
    | some hab =>
        refine (TokenRef.fullSpan_alike hab).bind_eq fun w₂ hle₂ full => .pure ?_
        split
        · exact .some (hab.mono hle₂)
        · exact .none
  · exact .pure .none

theorem tokenAt_alike {h k : NodeRef} (hsame : Same w h k) (offset : Nat) :
    Alike w (h.tokenAt offset) (k.tokenAt offset) := by
  refine (fullSpan_alike hsame).bind_eq fun w₁ hle₁ range => ?_
  have hsame₁ : Same w₁ h k := Placed.mono hle₁ hsame
  split
  · exact .pure .none
  · split
    · refine (lastToken_alike hsame₁ false).bind fun w₂ hle₂ a b hab => ?_
      cases hab with
      | none => exact .pure .none
      | some hab => exact .pure (.single hab)
    · refine (node_alike hsame₁).bind_eq fun w₂ hle₂ node => ?_
      refine (tokenOver_alike offset _ (hsame₁.mono hle₂)).bind fun w₃ hle₃ s t hst => ?_
      refine (leftNeighbour_alike offset range hst).bind fun w₄ hle₄ a b hab => ?_
      cases hab with
      | none => exact .pure (.single (hst.mono hle₄))
      | some hab => exact .pure (.between hab (hst.mono hle₄))

theorem childAround_alike (span : Range) {h k : NodeRef} (hsame : Same w h k) :
    Alike w (h.childAround span) (k.childAround span) := by
  refine (fullSpan_alike hsame).bind_eq fun w₁ hle₁ full => ?_
  refine (Alike.lift_eq _).bind_eq fun w₂ hle₂ start => ?_
  have hsame₂ : Same w₂ h k := Placed.mono (TreePair.le_trans hle₁ hle₂) hsame
  refine (node_alike hsame₂).bind_eq fun w₃ hle₃ node => ?_
  refine (Alike.lift_eq _).bind_eq fun w₄ hle₄ slot => ?_
  cases slot with
  | none => exact .pure .none
  | some index =>
      refine (childAt_alike (hsame₂.mono (TreePair.le_trans hle₃ hle₄)) index).bind fun w₅ hle₅ a b hab => ?_
      cases hab with
      | none => exact .pure .none
      | some hab =>
          refine (ElementRef.fullSpan_alike hab).bind_eq fun w₆ hle₆ range => .pure ?_
          split
          · exact .some (Placed.mono hle₆ hab)
          · exact .none

theorem descendTo_alike (span : Range) (fuel : Nat) {h k : NodeRef} (hsame : Same w h k) :
    Alike w (descendTo span fuel h) (descendTo span fuel k) := by
  induction fuel generalizing w h k with
  | zero => exact .pure hsame
  | succ fuel ih =>
      refine (childAround_alike span hsame).bind fun w₁ hle₁ a b hab => ?_
      cases hab with
      | none => exact .pure (hsame.mono hle₁)
      | some hab =>
          cases hab with
          | node hn => exact ih hn
          | token _ => exact .pure (hsame.mono hle₁)

theorem climbTo_alike {top top' : NodeRef} (htop : Same w top top') {depth m n : Nat} {h k : NodeRef}
    (hdepth : AtDepth w depth h.id k.id) (hm : depth < m) (hn : depth < n) :
    Alike w (climbTo top m h) (climbTo top' n k) := by
  refine climb_alike (f := fun m a (_ : Unit) => climbTo top m ⟨a⟩) (g := fun n b _ => climbTo top' n ⟨b⟩) ?_ hdepth hm
    hn ()
  intro w' depth m n a b _ hle hdepth hrest hw
  have hsame : Same w' (⟨a⟩ : NodeRef) ⟨b⟩ := hdepth.sameId
  have htest : ((⟨b⟩ : NodeRef) == top') = ((⟨a⟩ : NodeRef) == top) := by
    rw [beq_eq_decide, beq_eq_decide, decide_eq_decide]
    exact (eq_iff hw hsame (htop.mono hle)).symm
  unfold climbTo
  rw [htest]
  refine (?_ : Alike w' _ _) hw
  split
  · exact .pure hsame
  · refine parent_then_alike hdepth (.pure hsame) fun p q hup => ?_
    refine (fullSpan_alike hup.sameId).bind_eq fun w₁ hle₁ outer => ?_
    refine (fullSpan_alike (hsame.mono hle₁)).bind_eq fun w₂ hle₂ inner => ?_
    have hle₃ := TreePair.le_trans hle₁ hle₂
    split
    · exact hrest () hle₃ (hup.mono hle₃)
    · exact .pure (hsame.mono hle₃)

theorem nodeAt_alike {h k : NodeRef} (hsame : Same w h k) (span : Range) (innermost : Bool) :
    Alike w (h.nodeAt span innermost) (k.nodeAt span innermost) := by
  refine (fullSpan_alike hsame).bind_eq fun w₁ hle₁ full => ?_
  have hsame₁ : Same w₁ h k := Placed.mono hle₁ hsame
  split
  · refine (node_alike hsame₁).bind_eq fun w₂ hle₂ node => ?_
    have hsame₂ : Same w₂ h k := Placed.mono hle₂ hsame₁
    refine (descendTo_alike span _ hsame₂).bind fun w₃ hle₃ d e hde => ?_
    split
    · exact .pure hde
    · intro hw
      obtain ⟨depth, hdepth, hd, he⟩ := SameId.bounded hw hde
      exact climbTo_alike (hsame₂.mono hle₃) hdepth hd he hw
  · exact .fail _

end NodeRef

namespace NodePointer

theorem ofNode_alike {h k : NodeRef} (hsame : Same w h k) : Alike w (ofNode h) (ofNode k) :=
  (NodeRef.kind_alike hsame).bind_eq fun _ hle _ => (NodeRef.span_alike (hsame.mono hle)).map_eq

theorem covering_alike (p : NodePointer) {l l' : List ElementRef} (h : Same w l l') :
    Alike w (p.covering l) (p.covering l') := by
  induction l generalizing w l' with
  | nil =>
      cases h with
      | nil => exact .pure .nil
  | cons d rest ih =>
      cases h with
      | @cons _ _ _ rest' hde hrest =>
          cases hde with
          | token _ =>
              show Alike w (p.covering rest) (p.covering rest')
              exact ih hrest
          | node hn =>
              refine (NodeRef.fullSpan_alike hn).bind_eq fun w₁ hle₁ full => ?_
              refine (ih (Placed.mono hle₁ hrest)).map fun w₂ hle₂ _ _ hothers => ?_
              split
              · exact .cons (hn.mono (TreePair.le_trans hle₁ hle₂)) hothers
              · exact hothers

theorem search_alike (p : NodePointer) (fuel : Nat) {stack stack' : List NodeRef} (h : Same w stack stack') :
    Alike w (p.search fuel stack) (p.search fuel stack') := by
  induction fuel generalizing w stack stack' with
  | zero => exact .pure .none
  | succ fuel ih =>
      cases h with
      | nil => exact .pure .none
      | @cons _ _ rest rest' hsame hrest =>
          refine (NodeRef.kind_alike hsame).bind_eq fun w₁ hle₁ kind => ?_
          refine (NodeRef.span_alike (hsame.mono hle₁)).bind_eq fun w₂ hle₂ span => ?_
          have hle := TreePair.le_trans hle₁ hle₂
          split
          · exact .pure (.some (hsame.mono hle))
          · refine (NodeRef.children_alike (hsame.mono hle)).bind fun w₃ hle₃ l l' hl => ?_
            refine (covering_alike p hl).bind fun w₄ hle₄ found found' hfound => ?_
            have hrest₄ : Same w₄ rest rest' := Placed.mono (TreePair.le_trans hle (TreePair.le_trans hle₃ hle₄)) hrest
            exact ih (List.rel_append hfound hrest₄)

theorem resolve?_alike (p : NodePointer) {h k : NodeRef} (hsame : Same w h k) :
    Alike w (p.resolve? h) (p.resolve? k) := by
  refine (NodeRef.parent_alike hsame).bind fun w₁ hle₁ a b hab => ?_
  refine (NodeRef.fullSpan_alike (hsame.mono hle₁)).bind_eq fun w₂ hle₂ full => ?_
  have htest : b.isSome = a.isSome := by
    cases hab with
    | none => rfl
    | some _ => rfl
  have hsame₂ : Same w₂ h k := Placed.mono (TreePair.le_trans hle₁ hle₂) hsame
  rw [htest]
  split
  · exact .pure .none
  · refine (NodeRef.node_alike hsame₂).bind_eq fun w₃ hle₃ node => ?_
    exact search_alike p _ (.cons (hsame₂.mono hle₃) .nil)

theorem resolve_alike (p : NodePointer) {h k : NodeRef} (hsame : Same w h k) :
    Alike w (p.resolve h) (p.resolve k) := by
  refine (resolve?_alike p hsame).bind fun w₁ hle₁ a b hab => ?_
  cases hab with
  | none => exact .fail _
  | some hab => exact .pure hab

end NodePointer

end LosslessSyntax
