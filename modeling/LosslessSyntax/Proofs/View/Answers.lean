import LosslessSyntax.Proofs.View.Alike
import LosslessSyntax.View.Delimited
import LosslessSyntax.View.Dump

/-!
# Views, children and ancestors answer alike

Every operation on views is made from `view` and `childAt`, and so ends alike in two trees over the same facts.
The way up is the one place where numbers of views are counted with: they bound the steps, and differ between the
trees, but both are bounds.

* `NodeRef.node_alike`, …, `NodeRef.childrenIn_alike` : what a node is, where it is, and what it holds;
* `ancestorsWithin_alike` : the way up, with any number of steps that is enough;
* `NodeRef.dump_alike`, `NodePointer.resolve?_alike`, `DelimitedList.pairs_alike` : what is made from these.
-/

set_option autoImplicit false

namespace LosslessSyntax

open Placed (Same)

variable {w : TreePair}

namespace SameView

variable {v v' : View} (h : SameView w v v')
include h

theorem fullSpan : v'.fullSpan = v.fullSpan := by
  unfold View.fullSpan
  rw [h.offset, h.fact]

theorem span : v'.span = v.span := by
  unfold View.span
  rw [h.offset, h.fact]

theorem leadingSpan : v'.leadingSpan = v.leadingSpan := by
  unfold View.leadingSpan
  rw [h.offset, h.fact]

end SameView

/-- The view is looked up, and its parent may be asked next. -/
theorem lookup_parent_alike {α : Type} [Placed α] {k a b : Nat} {f g : View → Nav α} (h : AtDepth w k a b)
    (hf : ∀ v v', SameView w v v' → Option.Rel (OneUp w k) v.parent v'.parent → Alike w (f v) (g v')) :
    Alike w (SyntaxTree.view a >>= f) (SyntaxTree.view b >>= g) := by
  intro hw
  obtain ⟨v, v', hv, hv', hsame, hparents⟩ := h.views hw
  exact .bind_run (SyntaxTree.run_view hv) (SyntaxTree.run_view hv') w.le_refl (hf v v' hsame hparents hw)

theorem lookup_alike {α : Type} [Placed α] {a b : Nat} {f g : View → Nav α} (h : SameId w a b)
    (hf : ∀ v v', SameView w v v' → Alike w (f v) (g v')) :
    Alike w (SyntaxTree.view a >>= f) (SyntaxTree.view b >>= g) := by
  obtain ⟨k, hk⟩ := h.atDepth
  exact lookup_parent_alike hk fun v v' hv _ => hf v v' hv

/-- A range that is read off the view. -/
theorem range_alike {f : View → Except Fault Range} {a b : Nat} (h : SameId w a b)
    (hf : ∀ v v', SameView w v v' → f v' = f v) :
    Alike w (SyntaxTree.view a >>= fun v => .lift (f v)) (SyntaxTree.view b >>= fun v => .lift (f v)) := by
  refine lookup_alike h fun v v' hv => ?_
  rw [hf v v' hv]
  exact .lift_eq _

theorem reportAt_alike {a b : Nat} (h : SameId w a b) : Alike w (SyntaxTree.reportAt a) (SyntaxTree.reportAt b) := by
  refine (factAt_alike h).bind_eq fun w' hle fact => ?_
  refine lookup_alike (h.mono hle) fun v v' hv => .pure ?_
  rw [hv.offset]
  rfl

/-- The way up, with any numbers of steps that reach the root. -/
theorem ancestorsWithin_alike {depth m n a b : Nat} (h : AtDepth w depth a b) (hm : depth < m) (hn : depth < n) :
    Alike w (SyntaxTree.ancestorsWithin m a) (SyntaxTree.ancestorsWithin n b) := by
  refine climb_alike (f := fun m a (_ : Unit) => SyntaxTree.ancestorsWithin m a)
    (g := fun n b _ => SyntaxTree.ancestorsWithin n b) ?_ h hm hn ()
  intro w' depth m n a b _ _ hdepth hrest
  refine lookup_parent_alike hdepth fun v v' _ hparents => ?_
  generalize v.parent = p, v'.parent = q at hparents ⊢
  cases hparents with
  | none => exact .pure .nil
  | some hup =>
      refine (hrest () w'.le_refl hup).map fun w'' hle _ _ hothers => ?_
      exact .cons (hup.sameId.mono hle) hothers

theorem ancestors_alike {a b : Nat} (h : SameId w a b) :
    Alike w (SyntaxTree.ancestorsWithin (a + 1) a) (SyntaxTree.ancestorsWithin (b + 1) b) := by
  intro hw
  obtain ⟨depth, hdepth, ha, hb⟩ := h.bounded hw
  exact ancestorsWithin_alike hdepth ha hb hw

namespace NodeRef

variable {h k : NodeRef} (hsame : Same w h k)
include hsame

theorem node_alike : Alike w h.node k.node := by
  refine lookup_alike hsame fun v v' hv => ?_
  rw [hv.fact]
  cases v.fact with
  | node head slots => exact .pure rfl
  | token head leading => exact .fail _
  | absent => exact .fail _

theorem kind_alike : Alike w h.kind k.kind := (node_alike hsame).map_eq

theorem count_alike : Alike w h.count k.count := lookup_alike hsame fun _ _ hv => .pure hv.slots

theorem fullSpan_alike : Alike w h.fullSpan k.fullSpan := range_alike hsame fun _ _ => SameView.fullSpan

theorem span_alike : Alike w h.span k.span := range_alike hsame fun _ _ => SameView.span

theorem parent_alike : Alike w h.parent k.parent := by
  refine lookup_alike hsame fun v v' hv => .pure ?_
  have hparent := hv.parent
  generalize v.parent = p, v'.parent = q at hparent ⊢
  cases hparent with
  | none => exact .none
  | some hp => exact .some hp

theorem index_alike : Alike w h.index k.index := by
  refine lookup_alike hsame fun v v' hv => .pure ?_
  have hparent := hv.parent
  generalize v.parent = p, v'.parent = q at hparent ⊢
  cases hparent with
  | none => exact .none
  | some _ => exact .some hv.index

theorem ancestorsAndSelf_alike : Alike w h.ancestorsAndSelf k.ancestorsAndSelf :=
  (ancestors_alike hsame).map fun _ hle _ _ hrest => .cons (hsame.mono hle) hrest

theorem text_alike : Alike w h.text k.text :=
  (kind_alike hsame).bind_eq fun _ hle _ => (fullSpan_alike (hsame.mono hle)).map_eq

end NodeRef

namespace TokenRef

variable {h k : TokenRef} (hsame : Same w h k)
include hsame

theorem token_alike : Alike w h.token k.token := by
  refine lookup_alike hsame fun v v' hv => ?_
  rw [hv.fact]
  cases v.fact with
  | token head leading => exact .pure rfl
  | node head slots => exact .fail _
  | absent => exact .fail _

theorem kind_alike : Alike w h.kind k.kind := (token_alike hsame).map_eq

theorem fullSpan_alike : Alike w h.fullSpan k.fullSpan := range_alike hsame fun _ _ => SameView.fullSpan

theorem span_alike : Alike w h.span k.span := range_alike hsame fun _ _ => SameView.span

theorem leadingSpan_alike : Alike w h.leadingSpan k.leadingSpan := range_alike hsame fun _ _ => SameView.leadingSpan

theorem parent_alike : Alike w h.parent k.parent := by
  refine lookup_alike hsame fun v v' hv => ?_
  have hparent := hv.parent
  generalize v.parent = p, v'.parent = q at hparent ⊢
  cases hparent with
  | none => exact .fail _
  | some hp => exact .pure hp

theorem index_alike : Alike w h.index k.index := lookup_alike hsame fun _ _ hv => .pure hv.index

theorem text_alike : Alike w h.text k.text :=
  (kind_alike hsame).bind_eq fun _ hle _ => (span_alike (hsame.mono hle)).map_eq

end TokenRef

/-! ## Children -/

section

variable {α β : Type} [Placed α] [Placed β]

theorem SameElement.node? {a b : NodeOrToken α β} (h : SameElement w a b) : Same w a.node? b.node? := by
  cases h with
  | node h => exact .some h
  | token _ => exact .none

theorem SameElement.token? {a b : NodeOrToken α β} (h : SameElement w a b) : Same w a.token? b.token? := by
  cases h with
  | node _ => exact .none
  | token h => exact .some h

theorem same_toList {a b : Option α} (h : Same w a b) : Same w a.toList b.toList := by
  cases h with
  | none => exact .nil
  | some h => exact .cons h .nil

theorem same_present {as bs : List (Option α)} (h : Same w as bs) :
    Same w (as.filterMap fun a => a) (bs.filterMap fun b => b) := by
  induction h with
  | nil => exact .nil
  | cons hab _ ih =>
      cases hab with
      | none => exact ih
      | some hab => exact .cons hab ih

end

theorem ElementRef.fullSpan_alike {d e : ElementRef} (h : Same w d e) :
    Alike w (ElementRef.fullSpan d) (ElementRef.fullSpan e) := by
  cases h with
  | node h => exact NodeRef.fullSpan_alike h
  | token h => exact TokenRef.fullSpan_alike h

namespace NodeRef

theorem firstOfKind?_alike (kind : Kind) {l l' : List NodeRef} (h : Same w l l') :
    Alike w (firstOfKind? kind l) (firstOfKind? kind l') := by
  induction l generalizing w l' with
  | nil =>
      cases h with
      | nil => exact .pure .none
  | cons a rest ih =>
      cases h with
      | cons hab hrest =>
          refine (kind_alike hab).bind_eq fun w' hle found => ?_
          split
          · exact .pure (.some (hab.mono hle))
          · exact ih (Placed.mono hle hrest)

variable {h k : NodeRef} (hsame : Same w h k)
include hsame

theorem childNodeAt_alike (index : Nat) : Alike w (h.childNodeAt index) (k.childNodeAt index) := by
  refine (childAt_alike hsame index).map fun w' hle a b hab => ?_
  cases hab with
  | none => exact .none
  | some hab => exact hab.node?

theorem childrenIn_alike (indices : List Nat) : Alike w (h.childrenIn indices) (k.childrenIn indices) :=
  (mapM'_alike indices fun _ hle i => childAt_alike (hsame.mono hle) i).map fun _ _ _ _ => same_present

theorem children_alike : Alike w h.children k.children :=
  (count_alike hsame).bind_eq fun _ hle _ => childrenIn_alike (hsame.mono hle) _

theorem childrenRev_alike : Alike w h.childrenRev k.childrenRev :=
  (count_alike hsame).bind_eq fun _ hle _ => childrenIn_alike (hsame.mono hle) _

end NodeRef

namespace DelimitedList

variable {h k : NodeRef} (hsame : Same w h k)
include hsame

theorem itemCount_alike : Alike w (itemCount ⟨h⟩) (itemCount ⟨k⟩) := (NodeRef.count_alike hsame).map_eq

theorem separatorCount_alike : Alike w (separatorCount ⟨h⟩) (separatorCount ⟨k⟩) := (NodeRef.count_alike hsame).map_eq

theorem item_alike (number : Nat) : Alike w (item ⟨h⟩ number) (item ⟨k⟩ number) := NodeRef.childAt_alike hsame _

theorem separator_alike (number : Nat) : Alike w (separator ⟨h⟩ number) (separator ⟨k⟩ number) := by
  refine (NodeRef.childAt_alike hsame _).map fun w' hle a b hab => ?_
  cases hab with
  | none => exact .none
  | some hab => exact hab.token?

theorem itemsIn_alike (numbers : List Nat) : Alike w (itemsIn ⟨h⟩ numbers) (itemsIn ⟨k⟩ numbers) :=
  (mapM'_alike numbers fun _ hle => item_alike (hsame.mono hle)).map fun _ _ _ _ => same_present

theorem separatorsIn_alike (numbers : List Nat) : Alike w (separatorsIn ⟨h⟩ numbers) (separatorsIn ⟨k⟩ numbers) :=
  (mapM'_alike numbers fun _ hle => separator_alike (hsame.mono hle)).map fun _ _ _ _ => same_present

theorem items_alike : Alike w (items ⟨h⟩) (items ⟨k⟩) :=
  (itemCount_alike hsame).bind_eq fun _ hle _ => itemsIn_alike (hsame.mono hle) _

theorem itemsRev_alike : Alike w (itemsRev ⟨h⟩) (itemsRev ⟨k⟩) :=
  (itemCount_alike hsame).bind_eq fun _ hle _ => itemsIn_alike (hsame.mono hle) _

theorem separators_alike : Alike w (separators ⟨h⟩) (separators ⟨k⟩) :=
  (separatorCount_alike hsame).bind_eq fun _ hle _ => separatorsIn_alike (hsame.mono hle) _

theorem separatorsRev_alike : Alike w (separatorsRev ⟨h⟩) (separatorsRev ⟨k⟩) :=
  (separatorCount_alike hsame).bind_eq fun _ hle _ => separatorsIn_alike (hsame.mono hle) _

theorem hasTrailingSeparator_alike : Alike w (hasTrailingSeparator ⟨h⟩) (hasTrailingSeparator ⟨k⟩) :=
  (NodeRef.count_alike hsame).map_eq

theorem pairs_alike : Alike w (pairs ⟨h⟩) (pairs ⟨k⟩) := by
  refine (itemCount_alike hsame).bind_eq fun w' hle n => ?_
  refine mapM'_alike _ fun w'' hle' number => ?_
  have hsame' : Same w'' h k := Placed.mono (TreePair.le_trans hle hle') hsame
  refine (item_alike hsame' number).bind fun w₁ hle₁ a b hab => ?_
  refine (separator_alike (hsame'.mono hle₁) number).map fun w₂ hle₂ s t hst => ?_
  exact ⟨Placed.mono hle₂ hab, hst⟩

theorem text_alike : Alike w (text ⟨h⟩) (text ⟨k⟩) := (NodeRef.text_alike hsame).map_eq

end DelimitedList

/-! ## Dumps -/

theorem TokenRef.dumpLine_alike {h k : TokenRef} (hsame : Same w h k) (depth : Nat) :
    Alike w (h.dumpLine depth) (k.dumpLine depth) := by
  refine lookup_alike hsame fun v v' hv => ?_
  refine (token_alike hsame).bind_eq fun w₁ hle₁ token => ?_
  refine (span_alike (hsame.mono hle₁)).bind_eq fun w₂ _ span => ?_
  -- what is left asks for no more views
  rw [hv.offset]
  dsimp only
  split
  · exact (Alike.lift_eq _).bind_eq fun _ _ trivia => (Alike.lift_eq _).map_eq
  · exact (Alike.lift_eq _).map_eq

namespace NodeRef

theorem dumpWithin_alike (fuel depth : Nat) {h k : NodeRef} (hsame : Same w h k) :
    Alike w (dumpWithin fuel depth h) (dumpWithin fuel depth k) := by
  induction fuel generalizing w depth h k with
  | zero => exact .pure rfl
  | succ fuel ih =>
      refine (node_alike hsame).bind_eq fun w₁ hle₁ node => ?_
      have hsame₁ : Same w₁ h k := Placed.mono hle₁ hsame
      refine (fullSpan_alike hsame₁).bind_eq fun w₂ hle₂ full => ?_
      have hsame₂ : Same w₂ h k := Placed.mono hle₂ hsame₁
      refine (span_alike hsame₂).bind_eq fun w₃ hle₃ span => ?_
      have hsame₃ : Same w₃ h k := Placed.mono hle₃ hsame₂
      refine (Alike.lift_eq _).bind_eq fun w₄ hle₄ places => ?_
      have hsame₄ : Same w₄ h k := Placed.mono hle₄ hsame₃
      refine (count_alike hsame₄).bind_eq fun w₅ hle₅ count => ?_
      refine (mapM'_alike_eq _ fun w₆ hle₆ index => ?_).map_eq
      have hsame₆ : Same w₆ h k := Placed.mono (TreePair.le_trans hle₅ hle₆) hsame₄
      refine (childAt_alike hsame₆ index).bind fun w₇ hle₇ a b hab => ?_
      cases hab with
      | none => exact .pure rfl
      | some hab =>
          cases hab with
          | node hn => exact ih _ hn
          | token ht => exact TokenRef.dumpLine_alike ht _

theorem dump_alike {h k : NodeRef} (hsame : Same w h k) : Alike w h.dump k.dump :=
  (node_alike hsame).bind_eq fun _ hle _ => dumpWithin_alike _ _ (hsame.mono hle)

end NodeRef

end LosslessSyntax
