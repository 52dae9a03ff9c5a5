import Mathlib.Data.List.Forall2
import LosslessSyntax.Proofs.View.Arena
import LosslessSyntax.View.Lookup
import LosslessSyntax.View.Pointer
import LosslessSyntax.View.Walk

/-!
# Two trees over the same facts

Two trees with the same root may have different views, made in different orders and so under different numbers.
Numbers that lead to the same path name the same place, and a computation that is given the same places in both
trees ends alike in both.

* `TreePair.Linked` : two trees over the same facts, each with its links right;
* `Placed.Same` : values that agree up to the numbers of views;
* `Alike` : computations that end alike in two such trees; `Alike.bind` puts them together;
* `view_alike`, `NodeRef.childAt_alike` : the operations from which all others are made;
* `climb_alike` : computations that go up from view to view.
-/

set_option autoImplicit false

namespace LosslessSyntax

open SyntaxTree (At)

structure TreePair where
  left : SyntaxTree
  right : SyntaxTree

namespace TreePair

structure Linked (w : TreePair) : Prop where
  left : w.left.Linked
  right : w.right.Linked
  root : w.right.root = w.left.root

structure Grown (w w' : TreePair) : Prop where
  left : SyntaxTree.Grown w.left w'.left
  right : SyntaxTree.Grown w.right w'.right

instance : LE TreePair := ⟨Grown⟩

theorem le_refl (w : TreePair) : w ≤ w := ⟨.refl _, .refl _⟩

theorem le_trans {w w' w'' : TreePair} (h : w ≤ w') (h' : w' ≤ w'') : w ≤ w'' :=
  ⟨h.left.trans h'.left, h.right.trans h'.right⟩

def after {α β : Type} (w : TreePair) (x : Nav α) (y : Nav β) : TreePair := ⟨(x.run w.left).2, (y.run w.right).2⟩

end TreePair

/-- The numbers name the same place. -/
def SameId (w : TreePair) (a b : Nat) : Prop := ∃ path, At w.left a path ∧ At w.right b path

theorem SameId.mono {w w' : TreePair} {a b : Nat} (hle : w ≤ w') (h : SameId w a b) : SameId w' a b := by
  obtain ⟨path, ha, hb⟩ := h
  exact ⟨path, ha.grown hle.left, hb.grown hle.right⟩

/-- Values that may hold the numbers of views, and when they are the same up to these. -/
class Placed (α : Type) where
  Same : TreePair → α → α → Prop
  mono : ∀ {w w' : TreePair} {a b : α}, w ≤ w' → Same w a b → Same w' a b

open Placed (Same)

/-- Values without numbers of views. -/
@[reducible] def Placed.ofEq (α : Type) : Placed α := ⟨fun _ a b => b = a, fun _ h => h⟩

instance : Placed Nat := .ofEq Nat
instance : Placed Bool := .ofEq Bool
instance : Placed String := .ofEq String
instance : Placed Kind := .ofEq Kind
instance : Placed Range := .ofEq Range
instance : Placed Slot := .ofEq Slot
instance : Placed Node := .ofEq Node
instance : Placed Token := .ofEq Token
instance : Placed Report := .ofEq Report
instance : Placed NodePointer := .ofEq NodePointer

instance : Placed NodeRef := ⟨fun w h k => SameId w h.id k.id, fun hle h => h.mono hle⟩

instance : Placed TokenRef := ⟨fun w h k => SameId w h.id k.id, fun hle h => h.mono hle⟩

section

variable {α β : Type} [Placed α] [Placed β]

instance : Placed (Option α) where
  Same w := Option.Rel (Same w)
  mono hle h := by
    cases h with
    | none => exact .none
    | some h => exact .some (Placed.mono hle h)

instance : Placed (List α) where
  Same w := List.Forall₂ (Same w)
  mono hle h := h.imp fun _ _ => Placed.mono hle

instance : Placed (α × β) where
  Same w a b := Same w a.1 b.1 ∧ Same w a.2 b.2
  mono hle h := ⟨Placed.mono hle h.1, Placed.mono hle h.2⟩

/-- Both are nodes or both are tokens, and they are the same. -/
inductive SameElement (w : TreePair) : NodeOrToken α β → NodeOrToken α β → Prop
  | node {a b : α} (h : Same w a b) : SameElement w (.node a) (.node b)
  | token {a b : β} (h : Same w a b) : SameElement w (.token a) (.token b)

instance : Placed (NodeOrToken α β) where
  Same := SameElement
  mono hle h := by
    cases h with
    | node h => exact .node (Placed.mono hle h)
    | token h => exact .token (Placed.mono hle h)

end

/-- Views of the same place; how many of their slots have been looked at does not matter. -/
structure SameView (w : TreePair) (v v' : View) : Prop where
  fact : v'.fact = v.fact
  parent : Option.Rel (SameId w) v.parent v'.parent
  index : v'.index = v.index
  offset : v'.offset = v.offset
  slots : v'.slots.length = v.slots.length

instance : Placed View where
  Same := SameView
  mono hle h := by
    refine ⟨h.fact, ?_, h.index, h.offset, h.slots⟩
    have hparent := h.parent
    revert hparent
    generalize View.parent _ = p, View.parent _ = q
    intro hparent
    cases hparent with
    | none => exact .none
    | some h => exact .some (h.mono hle)

/-! ## Computations that end alike -/

section

variable {α β : Type} [Placed α] [Placed β]

/-- Both faults are the same, or both results are. -/
inductive SameOutcome (w : TreePair) : Except Fault α → Except Fault α → Prop
  | ok {a b : α} (h : Same w a b) : SameOutcome w (.ok a) (.ok b)
  | error (f : Fault) : SameOutcome w (.error f) (.error f)

/-- The computations end alike in the two trees, with their links right. -/
structure Ends (w : TreePair) (x y : Nav α) : Prop where
  grown : w ≤ w.after x y
  linked : (w.after x y).Linked
  outcome : SameOutcome (w.after x y) (x.run w.left).1 (y.run w.right).1

namespace Ends

variable {w : TreePair} {t u : SyntaxTree}

theorem of_run {x y : Nav α} {a b : Except Fault α} (hx : x.run w.left = (a, t)) (hy : y.run w.right = (b, u))
    (hgrown : w ≤ ⟨t, u⟩) (hlinked : TreePair.Linked ⟨t, u⟩) (h : SameOutcome ⟨t, u⟩ a b) : Ends w x y := by
  have hafter : w.after x y = ⟨t, u⟩ := by
    unfold TreePair.after
    rw [hx, hy]
  refine ⟨?_, ?_, ?_⟩
  · rwa [hafter]
  · rwa [hafter]
  · rwa [hafter, hx, hy]

/-- A step in each tree, and then computations that end alike. -/
theorem bind_run {γ δ : Type} {x : Nav γ} {y : Nav δ} {f : γ → Nav β} {g : δ → Nav β} {a : γ} {b : δ}
    (hx : x.run w.left = (.ok a, t)) (hy : y.run w.right = (.ok b, u)) (hgrown : w ≤ ⟨t, u⟩)
    (h : Ends ⟨t, u⟩ (f a) (g b)) : Ends w (x >>= f) (y >>= g) := by
  have hx' : (x >>= f).run w.left = (f a).run t := by rw [Step.run_bind, hx]
  have hy' : (y >>= g).run w.right = (g b).run u := by rw [Step.run_bind, hy]
  exact of_run hx' hy' (TreePair.le_trans hgrown h.grown) h.linked h.outcome

end Ends

/-- In two trees over the same facts the computations end alike. -/
def Alike (w : TreePair) (x y : Nav α) : Prop := w.Linked → Ends w x y

namespace Alike

variable {w : TreePair}

/-- The trees stay as they are. -/
theorem quiet {x y : Nav α} {a b : Except Fault α} (hx : x.run w.left = (a, w.left))
    (hy : y.run w.right = (b, w.right)) (h : SameOutcome w a b) : Alike w x y := fun hw => .of_run hx hy w.le_refl hw h

theorem pure {a b : α} (h : Same w a b) : Alike w (Pure.pure a) (Pure.pure b) := quiet rfl rfl (.ok h)

theorem fail (f : Fault) : Alike w (.fail f : Nav α) (.fail f) := quiet rfl rfl (.error f)

theorem bind {x y : Nav α} {f g : α → Nav β} (hx : Alike w x y)
    (hf : ∀ w', w ≤ w' → ∀ a b, Same w' a b → Alike w' (f a) (g b)) : Alike w (x >>= f) (y >>= g) := by
  intro hw
  obtain ⟨hgrown, hlinked, houtcome⟩ := hx hw
  cases hp : x.run w.left with
  | mk a t =>
      cases hq : y.run w.right with
      | mk b u =>
          have hafter : w.after x y = ⟨t, u⟩ := by
            unfold TreePair.after
            rw [hp, hq]
          rw [hafter] at hgrown hlinked houtcome
          rw [hp, hq] at houtcome
          cases houtcome with
          | error e =>
              have hx' : (x >>= f).run w.left = (.error e, t) := by rw [Step.run_bind, hp]
              have hy' : (y >>= g).run w.right = (.error e, u) := by rw [Step.run_bind, hq]
              exact .of_run hx' hy' hgrown hlinked (.error e)
          | ok h => exact .bind_run hp hq hgrown (hf _ hgrown _ _ h hlinked)

/-- A step whose result is looked at no further. -/
theorem map {x y : Nav α} {f g : α → β} (hx : Alike w x y)
    (hf : ∀ w', w ≤ w' → ∀ a b, Same w' a b → Same w' (f a) (g b)) :
    Alike w (x >>= fun a => Pure.pure (f a)) (y >>= fun b => Pure.pure (g b)) :=
  hx.bind fun w' hle a b h => .pure (hf w' hle a b h)

end Alike

end

namespace Alike

variable {w : TreePair} {α β : Type}

/-- A step whose result holds no number of a view is the same in both trees. -/
theorem bind_eq [Placed β] {x y : Nav α} {f g : α → Nav β} (hx : @Alike α (.ofEq α) w x y)
    (hf : ∀ w', w ≤ w' → ∀ a, Alike w' (f a) (g a)) : Alike w (x >>= f) (y >>= g) := by
  refine @Alike.bind _ _ (.ofEq α) _ _ _ _ _ _ hx ?_
  rintro w' hle _ a rfl
  exact hf w' hle a

theorem lift_eq (x : Except Fault α) : @Alike α (.ofEq α) w (.lift x) (.lift x) := by
  refine @quiet _ (.ofEq α) _ _ _ _ _ rfl rfl ?_
  cases x with
  | ok a => exact @SameOutcome.ok _ (.ofEq α) _ _ _ rfl
  | error f => exact @SameOutcome.error _ (.ofEq α) _ f

theorem map_eq {x y : Nav α} {f : α → β} (hx : @Alike α (.ofEq α) w x y) :
    @Alike β (.ofEq β) w (x >>= fun a => Pure.pure (f a)) (y >>= fun a => Pure.pure (f a)) :=
  @Alike.bind_eq _ _ _ (.ofEq β) _ _ _ _ hx fun _ _ _ => @Alike.pure _ (.ofEq β) _ _ _ rfl

end Alike

/-! ## Views and children -/

namespace SyntaxTree

/-- A path ends at a view, either the root or the child of the view at the rest of the path. -/
theorem At.view {t : SyntaxTree} {id : Nat} {path : List Nat} (h : At t id path) :
    ∃ v, t.views[id]? = some v ∧ ((v.parent = none ∧ path = []) ∨
      ∃ p front, v.parent = some p ∧ At t p front ∧ path = front ++ [v.index]) := by
  cases h with
  | root hv hparent => exact ⟨_, hv, .inl ⟨hparent, rfl⟩⟩
  | child hp hv hparent => exact ⟨_, hv, .inr ⟨_, _, hparent, hp, rfl⟩⟩

end SyntaxTree

variable {w : TreePair}

/-- The numbers name the same place, `k` steps below the root. -/
def AtDepth (w : TreePair) (k a b : Nat) : Prop := ∃ path, path.length = k ∧ At w.left a path ∧ At w.right b path

theorem AtDepth.sameId {k a b : Nat} (h : AtDepth w k a b) : SameId w a b := by
  obtain ⟨path, -, ha, hb⟩ := h
  exact ⟨path, ha, hb⟩

theorem AtDepth.mono {w' : TreePair} {k a b : Nat} (hle : w ≤ w') (h : AtDepth w k a b) : AtDepth w' k a b := by
  obtain ⟨path, hk, ha, hb⟩ := h
  exact ⟨path, hk, ha.grown hle.left, hb.grown hle.right⟩

/-- The numbers name the same place, one step less deep than `k`. -/
def OneUp (w : TreePair) (k p q : Nat) : Prop := ∃ j, k = j + 1 ∧ AtDepth w j p q

theorem OneUp.sameId {k p q : Nat} (h : OneUp w k p q) : SameId w p q := by
  obtain ⟨j, -, hj⟩ := h
  exact hj.sameId

theorem OneUp.mono {w' : TreePair} {k p q : Nat} (hle : w ≤ w') (h : OneUp w k p q) : OneUp w' k p q := by
  obtain ⟨j, hj, hat⟩ := h
  exact ⟨j, hj, hat.mono hle⟩

/-- The parents of the same place are the same place, one step less deep. -/
theorem AtDepth.parents (hw : w.Linked) {k a b : Nat} (h : AtDepth w k a b) :
    ∃ v v', w.left.views[a]? = some v ∧ w.right.views[b]? = some v' ∧ v'.index = v.index ∧
      Option.Rel (OneUp w k) v.parent v'.parent := by
  obtain ⟨path, hk, ha, hb⟩ := h
  obtain ⟨v, hv, hpath⟩ := ha.view
  obtain ⟨v', hv', hpath'⟩ := hb.view
  refine ⟨v, v', hv, hv', ?_⟩
  rcases hpath with ⟨hparent, hnil⟩ | ⟨p, front, hparent, hp, hsnoc⟩
  · rcases hpath' with ⟨hparent', -⟩ | ⟨p', front', -, -, hsnoc'⟩
    · rw [hparent, hparent', hw.left.index_root hv hparent, hw.right.index_root hv' hparent']
      exact ⟨rfl, .none⟩
    · rw [hnil] at hsnoc'
      exact absurd hsnoc'.symm (List.append_ne_nil_of_right_ne_nil _ (List.cons_ne_nil _ _))
  · rcases hpath' with ⟨-, hnil'⟩ | ⟨p', front', hparent', hp', hsnoc'⟩
    · rw [hnil'] at hsnoc
      exact absurd hsnoc.symm (List.append_ne_nil_of_right_ne_nil _ (List.cons_ne_nil _ _))
    · rw [hsnoc] at hsnoc' hk
      obtain ⟨hfront, hindex⟩ := List.append_inj' hsnoc' rfl
      rw [← hfront] at hp'
      rw [hparent, hparent']
      refine ⟨(List.head_eq_of_cons_eq hindex).symm, .some ⟨front.length, ?_, front, rfl, hp, hp'⟩⟩
      rw [← hk, List.length_append, List.length_singleton]

theorem AtDepth.views (hw : w.Linked) {k a b : Nat} (h : AtDepth w k a b) :
    ∃ v v', w.left.views[a]? = some v ∧ w.right.views[b]? = some v' ∧ SameView w v v' ∧
      Option.Rel (OneUp w k) v.parent v'.parent := by
  obtain ⟨v, v', hv, hv', hindex, hparents⟩ := h.parents hw
  obtain ⟨path, -, ha, hb⟩ := h
  obtain ⟨path₁, hl⟩ := hw.left.located hv
  obtain ⟨path₂, hr⟩ := hw.right.located hv'
  obtain rfl := hl.place.unique ha
  obtain rfl := hr.place.unique hb
  have hfact : v'.fact = v.fact := by
    have := hr.fact
    rw [hw.root, hl.fact] at this
    exact (Except.ok.inj this).symm
  refine ⟨v, v', hv, hv', ⟨hfact, ?_, hindex, ?_, ?_⟩, hparents⟩
  · generalize v.parent = p, v'.parent = q at hparents
    cases hparents with
    | none => exact .none
    | some h => exact .some h.sameId
  · rw [hl.offset, hr.offset, hw.root]
  · rw [hw.left.slots hv, hw.right.slots hv', hfact]

theorem SameId.atDepth {a b : Nat} (h : SameId w a b) : ∃ k, AtDepth w k a b := by
  obtain ⟨path, ha, hb⟩ := h
  exact ⟨path.length, path, rfl, ha, hb⟩

/-- A view is made after its parent, so its number bounds the way up. -/
theorem SameId.bounded (hw : w.Linked) {a b : Nat} (h : SameId w a b) :
    ∃ depth, AtDepth w depth a b ∧ depth < a + 1 ∧ depth < b + 1 := by
  obtain ⟨path, ha, hb⟩ := h
  obtain ⟨v, hv, -⟩ := ha.view
  obtain ⟨v', hv', -⟩ := hb.view
  obtain ⟨path₁, hl⟩ := hw.left.located hv
  obtain ⟨path₂, hr⟩ := hw.right.located hv'
  have hdepth := hl.depth
  have hdepth' := hr.depth
  rw [hl.place.unique ha] at hdepth
  rw [hr.place.unique hb] at hdepth'
  exact ⟨path.length, ⟨path, rfl, ha, hb⟩, Nat.lt_succ_of_le hdepth, Nat.lt_succ_of_le hdepth'⟩

theorem SameId.views (hw : w.Linked) {a b : Nat} (h : SameId w a b) :
    ∃ v v', w.left.views[a]? = some v ∧ w.right.views[b]? = some v' ∧ SameView w v v' := by
  obtain ⟨k, hk⟩ := h.atDepth
  obtain ⟨v, v', hv, hv', hsame, -⟩ := hk.views hw
  exact ⟨v, v', hv, hv', hsame⟩

theorem view_alike {a b : Nat} (h : SameId w a b) : Alike w (SyntaxTree.view a) (SyntaxTree.view b) := by
  intro hw
  obtain ⟨v, v', hv, hv', hsame⟩ := h.views hw
  exact Alike.quiet (SyntaxTree.run_view hv) (SyntaxTree.run_view hv') (.ok hsame) hw

theorem factAt_alike {a b : Nat} (h : SameId w a b) : Alike w (SyntaxTree.factAt a) (SyntaxTree.factAt b) := by
  intro hw
  obtain ⟨v, v', hv, hv', hsame⟩ := h.views hw
  exact Alike.quiet (hw.left.run_factAt hv) (hw.right.run_factAt hv') (.ok hsame.fact) hw

/-- Asked for the same child, both trees find it or neither does. -/
theorem childView_pair (hw : w.Linked) {p q : Nat} (h : SameId w p q) (i : Nat) :
    ∃ t u answer answer', (SyntaxTree.childView p i).run w.left = (.ok answer, t) ∧
      (SyntaxTree.childView q i).run w.right = (.ok answer', u) ∧ w ≤ ⟨t, u⟩ ∧ TreePair.Linked ⟨t, u⟩ ∧
      Option.Rel (SameId ⟨t, u⟩) answer answer' := by
  obtain ⟨v, v', hv, hv', hsame⟩ := h.views hw
  obtain ⟨answer, t, hrun, hgrown, hlinked, hfinds⟩ := hw.left.childView hv i
  obtain ⟨answer', u, hrun', hgrown', hlinked', hfinds'⟩ := hw.right.childView hv' i
  have hle : w ≤ ⟨t, u⟩ := ⟨hgrown, hgrown'⟩
  have hroot : u.root = t.root := by rw [hgrown'.root, hw.root, hgrown.root]
  refine ⟨t, u, answer, answer', hrun, hrun', hle, ⟨hlinked, hlinked', hroot⟩, ?_⟩
  have hnone : answer = none ↔ answer' = none := by
    rw [hfinds.eq_none_iff hlinked hgrown hv, hfinds'.eq_none_iff hlinked' hgrown' hv', hsame.fact]
  obtain ⟨path, hp, hq⟩ := h.mono hle
  cases answer with
  | none =>
      rw [hnone.1 rfl]
      exact .none
  | some c =>
      cases answer' with
      | none => exact nomatch hnone.2 rfl
      | some d => exact .some ⟨path ++ [i], hfinds.at hp, hfinds'.at hq⟩

/-- An element of the same number is a node in both trees or a token in both. -/
theorem element_alike {a b : Nat} (h : SameId w a b) : Alike w (SyntaxTree.element a) (SyntaxTree.element b) := by
  refine (view_alike h).map fun w' hle v v' hv => ?_
  rw [SameView.fact hv]
  split
  · exact .node (h.mono hle)
  · exact .token (h.mono hle)

theorem NodeRef.childAt_alike {h k : NodeRef} (hsame : Same w h k) (i : Nat) :
    Alike w (h.childAt i) (k.childAt i) := by
  intro hw
  obtain ⟨t, u, answer, answer', hrun, hrun', hle, hlinked, hrel⟩ := childView_pair hw hsame i
  refine .bind_run hrun hrun' hle ?_
  cases hrel with
  | none => exact Alike.pure .none hlinked
  | some hid => exact (element_alike hid).map (fun _ _ _ _ he => .some he) hlinked

/-! ## Lists of computations -/

section

variable {ι α : Type} [Placed α]

theorem mapM'_alike {f g : ι → Nav α} (l : List ι) (h : ∀ w', w ≤ w' → ∀ i, Alike w' (f i) (g i)) :
    Alike w (l.mapM' f) (l.mapM' g) := by
  induction l generalizing w with
  | nil => exact .pure .nil
  | cons i rest ih =>
      refine (h w w.le_refl i).bind fun w' hle a b hab => ?_
      refine (ih fun w'' hle' => h w'' (TreePair.le_trans hle hle')).map fun w'' hle' as bs hrest => ?_
      exact .cons (Placed.mono hle' hab) hrest

/-- Results without numbers of views, put together. -/
theorem mapM'_alike_eq {α : Type} {f g : ι → Nav α} (l : List ι)
    (h : ∀ w', w ≤ w' → ∀ i, @Alike α (.ofEq α) w' (f i) (g i)) :
    @Alike (List α) (.ofEq (List α)) w (l.mapM' f) (l.mapM' g) := by
  induction l generalizing w with
  | nil => exact @Alike.pure _ (.ofEq _) _ _ _ rfl
  | cons i rest ih =>
      refine @Alike.bind_eq _ _ _ (.ofEq _) _ _ _ _ (h w w.le_refl i) fun w' hle a => ?_
      exact (ih fun w'' hle' => h w'' (TreePair.le_trans hle hle')).map_eq

theorem findSomeM?_alike {f g : ι → Nav (Option α)} (l : List ι) (h : ∀ w', w ≤ w' → ∀ i, Alike w' (f i) (g i)) :
    Alike w (l.findSomeM? f) (l.findSomeM? g) := by
  induction l generalizing w with
  | nil => exact .pure .none
  | cons i rest ih =>
      refine (h w w.le_refl i).bind fun w' hle a b hab => ?_
      cases hab with
      | none => exact ih fun w'' hle' => h w'' (TreePair.le_trans hle hle')
      | some hab => exact .pure (.some hab)

end

/-! ## Going up

The steps up are counted down from the number of the view where they begin. These numbers differ between the trees,
but both exceed the length of the path. -/

/-- A computation that goes up one view at a time ends alike with any numbers of steps that reach the root, if each
step does when the rest of the way does. -/
theorem climb_alike {ι α : Type} [Placed α] {f g : Nat → Nat → ι → Nav α}
    (hstep : ∀ {w' : TreePair} {depth m n a b : Nat} (i : ι), w ≤ w' → AtDepth w' depth a b →
      (∀ {w'' : TreePair} {p q : Nat} (j : ι), w' ≤ w'' → OneUp w'' depth p q → Alike w'' (f m p j) (g n q j)) →
      Alike w' (f (m + 1) a i) (g (n + 1) b i))
    {depth m n a b : Nat} (h : AtDepth w depth a b) (hm : depth < m) (hn : depth < n) (i : ι) :
    Alike w (f m a i) (g n b i) := by
  suffices hall : ∀ m {w' : TreePair} {depth n a b : Nat} (i : ι), w ≤ w' → AtDepth w' depth a b → depth < m →
      depth < n → Alike w' (f m a i) (g n b i) from hall m i w.le_refl h hm hn
  intro m
  induction m with
  | zero => exact fun _ _ _ hm _ => absurd hm (Nat.not_lt_zero _)
  | succ m ih =>
      intro w' depth n a b i hle h hm hn
      cases n with
      | zero => exact absurd hn (Nat.not_lt_zero _)
      | succ n =>
          refine hstep i hle h fun j hle' hup => ?_
          obtain ⟨above, rfl, habove⟩ := hup
          exact ih j (TreePair.le_trans hle hle') habove (Nat.lt_of_succ_lt_succ hm) (Nat.lt_of_succ_lt_succ hn)

end LosslessSyntax
