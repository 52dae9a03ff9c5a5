import LosslessSyntax.Fact.Trivia

/-!
# Facts as they are made

`Slot.Made` holds of the facts that the constructions and the edits bring forth: tokens with their flags
summed up and their trivia checked, nodes with the width, the flags and the table of starts that belong to
their slots.

* `Slot.extent` : the width of all the text in a fact, as a plain number;
* `Slot.Made.fullWidth_eq`, `Slot.sumWidths_eq` : sizes are computed right, and a computation faults exactly when
  the size does not fit.
-/

set_option autoImplicit false

namespace LosslessSyntax

def Size.ofNat (n : Nat) : Except Fault Nat := if n < Size.limit then .ok n else .error .sumTooLarge

theorem Size.add_eq_ofNat (a b : Nat) : Size.add a b = Size.ofNat (a + b) := rfl

theorem Size.ofNat_eq_ok {n : Nat} (h : n < Size.limit) : Size.ofNat n = .ok n := if_pos h

theorem Size.ofNat_eq_ok_iff {n m : Nat} : Size.ofNat n = .ok m ↔ n = m ∧ n < Size.limit := by
  unfold ofNat
  split
  · next h => exact ⟨fun he => ⟨Except.ok.inj he, h⟩, fun he => congrArg _ he.1⟩
  · next h => exact ⟨fun he => (nomatch he), fun he => absurd he.2 h⟩

/-- A sum that does not fit stays so when more is added. -/
theorem Size.ofNat_bind (a b : Nat) : (Size.ofNat a >>= fun n => Size.ofNat (n + b)) = Size.ofNat (a + b) := by
  unfold ofNat
  by_cases ha : a < limit
  · rw [if_pos ha]
    rfl
  · rw [if_neg ha, if_neg (by omega)]
    rfl

namespace Slot

mutual

/-- The width of all the text in a fact. -/
def extent : Slot → Nat
  | .absent => 0
  | .token head leading => leading.extent + head.width
  | .node _ slots => extents slots

def extents : List Slot → Nat
  | [] => 0
  | s :: rest => s.extent + extents rest

end

theorem extents_append (ss ts : List Slot) : extents (ss ++ ts) = extents ss + extents ts := by
  induction ss with
  | nil => exact (Nat.zero_add _).symm
  | cons s rest ih =>
      simp only [List.cons_append, extents, ih]
      omega

theorem extents_take_add_le {ss : List Slot} {i : Nat} {s : Slot} (h : ss[i]? = some s) :
    extents (ss.take i) + s.extent ≤ extents ss := by
  obtain ⟨hi, rfl⟩ := List.getElem?_eq_some_iff.1 h
  have hsplit := extents_append (ss.take i) (ss.drop i)
  rw [List.take_append_drop, List.drop_eq_getElem_cons hi, extents] at hsplit
  omega

theorem extent_le_extents {slots : List Slot} {s : Slot} (h : s ∈ slots) : s.extent ≤ extents slots := by
  obtain ⟨i, hi, rfl⟩ := List.getElem_of_mem h
  exact Nat.le_trans (Nat.le_add_left _ _) (extents_take_add_le (List.getElem?_eq_getElem hi))

theorem extents_slots_le (s : Slot) : extents s.slots ≤ s.extent := by
  cases s with
  | node head slots => exact Nat.le_refl _
  | absent => exact Nat.zero_le _
  | token head leading => exact Nat.zero_le _

/-- The facts that constructions and edits bring forth. -/
inductive Made : Slot → Prop
  | absent : Made .absent
  | token {id : Nat} {leading : Slot} {kind : Kind} {width : Nat} {missing : Bool} {diagnostics : List Diagnostic}
      {t : Token} (hleading : Made leading) (hmissing : missing = true → width = 0 ∧ diagnostics ≠ [])
      (ht : Token.assembleChecked id leading kind width missing diagnostics = .ok t) :
      Made (.token t.head t.leading)
  | node {id : Nat} {kind : Kind} {shape : Shape} {layout : Layout} {slots : List Slot}
      {diagnostics : List Diagnostic} {n : Node} (hslots : ∀ s ∈ slots, Made s)
      (hlayout : Layout.forSlots shape slots = .ok layout)
      (hn : Node.assemble id kind layout slots diagnostics = .ok n) : Made (.node n.head n.slots)

end Slot

theorem Token.assembleChecked_eq_ok_iff {id : Nat} {leading : Slot} {kind : Kind} {width : Nat} {missing : Bool}
    {diagnostics : List Diagnostic} {t : Token} :
    assembleChecked id leading kind width missing diagnostics = .ok t ↔
      leading.tokens.all (·.kind.isTrivia) = true ∧ t = assemble id leading kind width missing diagnostics := by
  unfold assembleChecked
  split
  · next h => exact ⟨fun he => ⟨h, (Except.ok.inj he).symm⟩, fun he => congrArg _ he.2.symm⟩
  · next h => exact ⟨fun he => (nomatch he), fun he => absurd he.1 h⟩

/-- A token is missing iff it was made so: trivia never makes it present. -/
theorem Token.isMissing_assemble (id : Nat) (leading : Slot) (kind : Kind) (width : Nat) (missing : Bool)
    (diagnostics : List Diagnostic) : (assemble id leading kind width missing diagnostics).isMissing = missing := by
  cases missing
  · rfl
  · simp [assemble, summary, Flags.isMissing, Flags.union, Flags.inter, Flags.fromTrivia, isMissing]

theorem Node.assemble_eq_ok_iff {id : Nat} {kind : Kind} {layout : Layout} {slots : List Slot}
    {diagnostics : List Diagnostic} {n : Node} :
    assemble id kind layout slots diagnostics = .ok n ↔
      ∃ width, Slot.sumWidths 0 slots = .ok width ∧
        n = ⟨⟨id, kind, summary slots diagnostics, width, layout, diagnostics⟩, slots⟩ := by
  unfold assemble
  rw [bind_eq_ok_iff]
  constructor
  · rintro ⟨width, hwidth, he⟩
    exact ⟨width, hwidth, (Except.ok.inj he).symm⟩
  · rintro ⟨width, hwidth, rfl⟩
    exact ⟨width, hwidth, rfl⟩

namespace Slot

/-- Adding up the widths of slots that are right each gives the right sum, or faults if it does not fit. -/
theorem sumWidths_eq {slots : List Slot} (h : ∀ s ∈ slots, s.fullWidth = Size.ofNat s.extent) {start : Nat}
    (hstart : start < Size.limit) : sumWidths start slots = Size.ofNat (start + extents slots) := by
  induction slots generalizing start with
  | nil => exact (Size.ofNat_eq_ok hstart).symm
  | cons s rest ih =>
      have hrest : ∀ t ∈ rest, t.fullWidth = Size.ofNat t.extent := fun t ht => h t (List.mem_cons_of_mem _ ht)
      have hadd : (s.fullWidth >>= fun w => Size.add start w) = Size.ofNat (start + s.extent) := by
        rw [h s List.mem_cons_self]
        simp only [Size.add_eq_ofNat, Nat.add_comm start]
        exact Size.ofNat_bind s.extent start
      have hsplit : sumWidths start (s :: rest) =
          (s.fullWidth >>= fun w => Size.add start w) >>= fun next => sumWidths next rest := by
        rw [sumWidths]
        cases s.fullWidth <;> rfl
      rw [hsplit, hadd, extents, ← Nat.add_assoc]
      by_cases hfits : start + s.extent < Size.limit
      · rw [Size.ofNat_eq_ok hfits]
        exact ih hrest hfits
      · have hnot : ¬ start + s.extent + extents rest < Size.limit := by omega
        rw [Size.ofNat, if_neg hfits, Size.ofNat, if_neg hnot]
        rfl

/-- The full width of a made fact is computed right; it is a fault iff it does not fit. -/
theorem Made.fullWidth_eq {s : Slot} (h : s.Made) : s.fullWidth = Size.ofNat s.extent := by
  induction h with
  | absent => rfl
  | @token id leading kind width missing diagnostics t hleading hmissing ht ih =>
      obtain ⟨-, rfl⟩ := Token.assembleChecked_eq_ok_iff.1 ht
      show (leading.fullWidth >>= fun w => Size.add w width) = Size.ofNat (leading.extent + width)
      rw [ih]
      exact Size.ofNat_bind leading.extent width
  | @node id kind shape layout slots diagnostics n hslots hlayout hn ih =>
      obtain ⟨w, hw, rfl⟩ := Node.assemble_eq_ok_iff.1 hn
      show Except.ok w = Size.ofNat (extents slots)
      rw [sumWidths_eq ih (by decide), Nat.zero_add] at hw
      exact hw.symm

theorem Made.slots {head : NodeHead} {slots : List Slot} (h : (Slot.node head slots).Made) : ∀ s ∈ slots, s.Made := by
  cases h with
  | node hslots _ hn =>
      obtain ⟨_, _, rfl⟩ := Node.assemble_eq_ok_iff.1 hn
      exact hslots

theorem Made.slot {s child : Slot} (h : s.Made) (hchild : child ∈ s.slots) : child.Made := by
  cases s with
  | node head slots => exact h.slots child hchild
  | absent => cases hchild
  | token head leading => cases hchild

/-- A node has stored the width of its text. -/
theorem Made.node_width {head : NodeHead} {slots : List Slot} (h : (Slot.node head slots).Made) :
    head.fullWidth = extents slots ∧ extents slots < Size.limit := by
  have hw := h.fullWidth_eq
  rw [fullWidth, extent, eq_comm, Size.ofNat_eq_ok_iff] at hw
  exact ⟨hw.1.symm, hw.2⟩

theorem Made.layout {head : NodeHead} {slots : List Slot} (h : (Slot.node head slots).Made) :
    ∃ shape, Layout.forSlots shape slots = .ok head.layout := by
  cases h with
  | node _ hlayout hn =>
      obtain ⟨_, _, rfl⟩ := Node.assemble_eq_ok_iff.1 hn
      exact ⟨_, hlayout⟩

end Slot

/-! ## Constructions -/

/-- A token that is not missing owes nothing but made trivia and the check of it. -/
theorem Token.made_present {id : Nat} {leading : Slot} {kind : Kind} {width : Nat} {diagnostics : List Diagnostic}
    {t : Token} (h : leading.Made) (ht : assembleChecked id leading kind width false diagnostics = .ok t) :
    t.toSlot.Made := by
  refine .token h ?_ ht
  intro hmissing
  cases hmissing

theorem Token.made_make {id : Nat} {leading : Slot} {kind : Kind} {width : Nat} {t : Token} (h : leading.Made)
    (ht : make id leading kind width = .ok t) : t.toSlot.Made :=
  made_present h ht

theorem Token.made_bare (id : Nat) (kind : Kind) (width : Nat) (diagnostics : List Diagnostic) :
    (assemble id .absent kind width false diagnostics).toSlot.Made := by
  refine made_present .absent (Token.assembleChecked_eq_ok_iff.2 ⟨?_, rfl⟩)
  simp only [Slot.tokens, Slot.walkTokens, List.all_nil]

theorem Token.made_makeMissing {id : Nat} {leading : Slot} {kind : Kind} {diagnostics : List Diagnostic} {t : Token}
    (h : leading.Made) (ht : makeMissing id leading kind diagnostics = .ok t) : t.toSlot.Made := by
  unfold makeMissing at ht
  split at ht
  · cases ht
  · next hne => exact .token h (fun _ => ⟨rfl, fun he => hne (by rw [he]; rfl)⟩) ht

theorem Node.made_makeShaped {id : Nat} {kind : Kind} {shape : Shape} {slots : List Slot} {n : Node}
    (h : ∀ s ∈ slots, s.Made) (hn : makeShaped id kind shape slots = .ok n) : n.toSlot.Made := by
  obtain ⟨layout, hlayout, hn⟩ := bind_eq_ok_iff.1 hn
  exact .node h hlayout hn

theorem Node.made_make {id : Nat} {kind : Kind} {slots : List Slot} {n : Node} (h : ∀ s ∈ slots, s.Made)
    (hn : make id kind slots = .ok n) : n.toSlot.Made :=
  made_makeShaped h hn

theorem Node.slots_make {id : Nat} {kind : Kind} {slots : List Slot} {n : Node}
    (hn : make id kind slots = .ok n) : n.slots = slots := by
  obtain ⟨layout, hlayout, hn⟩ := bind_eq_ok_iff.1 hn
  obtain ⟨w, hw, rfl⟩ := Node.assemble_eq_ok_iff.1 hn
  rfl

theorem Node.makeList_eq_ok {id : Nat} {slots : List Slot} {s : Slot} (hs : makeList id slots = .ok s) :
    (slots = [] ∧ s = .absent) ∨ ∃ n, make id .list slots = .ok n ∧ s = n.toSlot := by
  unfold makeList at hs
  split at hs
  · next h => exact .inl ⟨List.isEmpty_iff.1 h, (Except.ok.inj hs).symm⟩
  · obtain ⟨n, hn, hs⟩ := bind_eq_ok_iff.1 hs
    exact .inr ⟨n, hn, (Except.ok.inj hs).symm⟩

theorem Node.made_makeList {id : Nat} {slots : List Slot} {s : Slot} (h : ∀ s ∈ slots, s.Made)
    (hs : makeList id slots = .ok s) : s.Made := by
  rcases makeList_eq_ok hs with ⟨-, rfl⟩ | ⟨n, hn, rfl⟩
  · exact .absent
  · exact made_make h hn

theorem made_packTrivia {id : Nat} {trivia : List Slot} {s : Slot} (h : ∀ t ∈ trivia, t.Made)
    (hs : packTrivia id trivia = .ok s) : s.Made := by
  unfold packTrivia at hs
  split at hs
  · cases hs
    exact .absent
  · cases hs
    exact h _ List.mem_cons_self
  · exact Node.made_makeList h hs

theorem TriviaPiece.made_toSlots (id : Nat) (pieces : List TriviaPiece) : ∀ s ∈ toSlots id pieces, s.Made := by
  induction pieces generalizing id with
  | nil => exact fun s hs => absurd hs List.not_mem_nil
  | cons p rest ih =>
      intro s hs
      rcases List.mem_cons.1 hs with rfl | hs
      · exact Token.made_bare id p.kind.kind p.width []
      · exact ih (id + 1) s hs

end LosslessSyntax
