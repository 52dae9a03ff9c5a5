import LosslessSyntax.Proofs.Fact.Positions
import LosslessSyntax.Proofs.Fact.Summary

/-!
# Constructions that succeed

A construction gives up for two reasons: widths that do not fit together, and a leading token that is no trivia. From
made parts that fit there is always a node, and there is always a token behind trivia.

* `Node.exists_make`, `Node.exists_makeList`, `exists_packTrivia` : widths that fit are enough;
* `Slot.OnlyTrivia` : what may stand in front of a token, and `Token.assembleChecked_eq_ok` : that it may.
-/

set_option autoImplicit false

namespace LosslessSyntax

/-! ## Nodes -/

theorem Shape.forCount_short_or_long (n : Nat) : forCount (n + 3) = .short ∨ forCount (n + 3) = .long := by
  have hcount : forCount (n + 3) = if n + 3 ≤ longThreshold then .short else .long := rfl
  rw [hcount]
  split
  · exact .inl rfl
  · exact .inr rfl

/-- The cheapest shape can hold the slots, and has its table if the widths fit. -/
theorem Layout.exists_forSlots_forCount {slots : List Slot} {ws : List Nat} (hws : Slot.Widths slots ws)
    (hfits : Size.total ws < Size.limit) : ∃ layout, forSlots (.forCount slots.length) slots = .ok layout := by
  rcases slots with _ | ⟨a, _ | ⟨b, _ | ⟨c, rest⟩⟩⟩
  · exact ⟨.empty, rfl⟩
  · exact ⟨.one, rfl⟩
  · exact ⟨.two, rfl⟩
  · exact exists_forSlots (Shape.forCount_short_or_long rest.length) (Nat.le_add_left 3 rest.length) hws hfits

theorem Node.exists_make {slots : List Slot} (h : ∀ s ∈ slots, s.Made) (hfits : Slot.extents slots < Size.limit)
    (id : Nat) (kind : Kind) : ∃ n, make id kind slots = .ok n := by
  have hws := Slot.widths_made h hfits
  rw [← Slot.total_map_extent] at hfits
  obtain ⟨layout, hlayout⟩ := Layout.exists_forSlots_forCount hws hfits
  exact ⟨_, Node.makeShaped_eq_ok_iff.2 ⟨layout, _, hlayout, hws, hfits, rfl⟩⟩

theorem Node.exists_makeList {slots : List Slot} (h : ∀ s ∈ slots, s.Made) (hfits : Slot.extents slots < Size.limit)
    (id : Nat) : ∃ s, makeList id slots = .ok s := by
  obtain ⟨n, hn⟩ := exists_make h hfits id .list
  unfold makeList
  split
  · exact ⟨.absent, rfl⟩
  · exact ⟨n.toSlot, by rw [hn]; rfl⟩

theorem exists_packTrivia {trivia : List Slot} (h : ∀ s ∈ trivia, s.Made) (hfits : Slot.extents trivia < Size.limit)
    (id : Nat) : ∃ s, packTrivia id trivia = .ok s := by
  unfold packTrivia
  split
  · exact ⟨.absent, rfl⟩
  · exact ⟨_, rfl⟩
  · exact Node.exists_makeList h hfits id

/-! ## Tokens behind trivia -/

def Slot.OnlyTrivia (s : Slot) : Prop := ∀ t ∈ s.tokens, t.kind.isTrivia = true

theorem Slot.onlyTrivia_absent : Slot.absent.OnlyTrivia := by
  intro t ht
  rw [tokens_absent] at ht
  cases ht

theorem Token.onlyTrivia {t : Token} (h : t.kind.isTrivia = true) : t.toSlot.OnlyTrivia := by
  intro u hu
  replace hu : u ∈ (Slot.token t.head t.leading).tokens := hu
  rw [Slot.tokens_token, List.mem_singleton] at hu
  rw [hu]
  exact h

theorem Node.onlyTrivia_makeList {id : Nat} {slots : List Slot} {s : Slot} (hs : makeList id slots = .ok s)
    (h : ∀ t ∈ slots, t.OnlyTrivia) : s.OnlyTrivia := by
  rcases makeList_eq_ok hs with ⟨-, rfl⟩ | ⟨n, hn, rfl⟩
  · exact Slot.onlyTrivia_absent
  · intro t ht
    obtain ⟨u, hu, htu⟩ := Slot.mem_tokens_node.1 ht
    rw [slots_make hn] at hu
    exact h u hu t htu

theorem onlyTrivia_packTrivia {id : Nat} {trivia : List Slot} {s : Slot} (hs : packTrivia id trivia = .ok s)
    (h : ∀ t ∈ trivia, t.OnlyTrivia) : s.OnlyTrivia := by
  unfold packTrivia at hs
  split at hs
  · cases hs
    exact Slot.onlyTrivia_absent
  · cases hs
    exact h _ List.mem_cons_self
  · exact Node.onlyTrivia_makeList hs h

theorem TriviaPiece.onlyTrivia_toSlots (id : Nat) (pieces : List TriviaPiece) :
    ∀ s ∈ toSlots id pieces, s.OnlyTrivia := by
  induction pieces generalizing id with
  | nil => exact fun s hs => absurd hs List.not_mem_nil
  | cons p rest ih =>
      intro s hs
      rcases List.mem_cons.1 hs with rfl | hs
      · apply Token.onlyTrivia
        show p.kind.kind.isTrivia = true
        cases p.kind <;> rfl
      · exact ih (id + 1) s hs

theorem Token.assembleChecked_eq_ok {leading : Slot} (h : leading.OnlyTrivia) (id : Nat) (kind : Kind) (width : Nat)
    (missing : Bool) (diagnostics : List Diagnostic) :
    assembleChecked id leading kind width missing diagnostics =
      .ok (assemble id leading kind width missing diagnostics) :=
  assembleChecked_eq_ok_iff.2 ⟨List.all_eq_true.2 h, rfl⟩

end LosslessSyntax
