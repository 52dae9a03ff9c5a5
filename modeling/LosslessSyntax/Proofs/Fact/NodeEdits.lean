import LosslessSyntax.Proofs.Fact.Contents
import LosslessSyntax.Proofs.Fact.Obtainable
import LosslessSyntax.Proofs.Fact.Positions

/-!
# Editing nodes

An edit of a node makes a new node of the same kind and shape: with other diagnostics, or with one slot replaced. Both
are one construction from the parts of a node, so what edits do to each other is what happens to the parts: replacing a
slot twice, or two slots, or a slot and the diagnostics.

* `Node.ofParts` : the construction, with `Node.ofParts_self` : every node is one of its parts,
  `Node.replaceChild_ofParts` and `Node.withDiagnostics_ofParts` : so is every edit;
* `Node.Replica` : two instances of one node, which are equal;
* `Node.Replaces`, `Node.Annotates` : what the two edits change and what they share;
* `Node.Untouched` : the number of the edited node still stands for it, and it is hashed as before;
* `node_edits_lawful` : the laws of the two edits.
-/

set_option autoImplicit false

namespace LosslessSyntax

/-- A layout is of the shape asked for, which takes that many slots. -/
theorem Layout.of_forSlots {shape : Shape} {slots : List Slot} {layout : Layout}
    (h : forSlots shape slots = .ok layout) : layout.shape = shape ∧ shape.accepts slots.length = true := by
  unfold forSlots at h
  split at h
  · next haccepts =>
    refine ⟨?_, haccepts⟩
    cases shape with
    | long =>
        obtain ⟨table, -, he⟩ := bind_eq_ok_iff.1 h
        cases he
        rfl
    | _ =>
        cases h
        rfl
  · cases h

/-- A shape that takes that many slots asks for no more than widths whose sum fits. -/
theorem Layout.exists_of_accepts {shape : Shape} {slots : List Slot} {ws : List Nat}
    (h : shape.accepts slots.length = true) (hws : Slot.Widths slots ws) (hfits : Size.total ws < Size.limit) :
    ∃ layout, forSlots shape slots = .ok layout := by
  cases shape with
  | long => exact exists_forSlots (.inr rfl) (of_decide_eq_true h) hws hfits
  | _ =>
      unfold forSlots
      rw [if_pos h]
      exact ⟨_, rfl⟩

theorem Slot.extents_set {slots : List Slot} {i : Nat} {old : Slot} (h : slots[i]? = some old) (new : Slot) :
    extents (slots.set i new) + old.extent = extents slots + new.extent := by
  induction slots generalizing i with
  | nil => cases h
  | cons s rest ih =>
      cases i with
      | zero =>
          obtain rfl := Option.some.inj h
          simp only [List.set_cons_zero, extents]
          omega
      | succ i =>
          have := ih h
          simp only [List.set_cons_succ, extents]
          omega

/-- The widths of made facts that fit together add up. -/
theorem Slot.sumWidths_made {slots : List Slot} (h : ∀ s ∈ slots, s.Made) (hfits : extents slots < Size.limit) :
    sumWidths 0 slots = .ok (extents slots) := by
  rw [sumWidths_eq (fun s hs => (h s hs).fullWidth_eq) (by decide), Nat.zero_add]
  exact Size.ofNat_eq_ok hfits

namespace Node

def ofParts (id : Nat) (kind : Kind) (shape : Shape) (slots : List Slot) (diagnostics : List Diagnostic) :
    Except Fault Node := do
  assemble id kind (← Layout.forSlots shape slots) slots diagnostics

def renumbered (n : Node) (id : Nat) : Node := { n with head := { n.head with id := id } }

section Parts

variable {id id' : Nat} {kind : Kind} {shape : Shape} {slots : List Slot} {diagnostics : List Diagnostic} {m m' : Node}

theorem ofParts_eq_ok_iff : ofParts id kind shape slots diagnostics = .ok m ↔
    ∃ layout width, Layout.forSlots shape slots = .ok layout ∧ Slot.sumWidths 0 slots = .ok width ∧
      m = ⟨⟨id, kind, summary slots diagnostics, width, layout, diagnostics⟩, slots⟩ := by
  unfold ofParts
  simp only [bind_eq_ok_iff, assemble_eq_ok_iff, exists_and_left]

theorem exists_ofParts (hslots : ∀ s ∈ slots, s.Made) (haccepts : shape.accepts slots.length = true)
    (hfits : Slot.extents slots < Size.limit) : ∃ m, ofParts id kind shape slots diagnostics = .ok m := by
  have hws := Slot.widths_made hslots hfits
  obtain ⟨layout, hlayout⟩ := Layout.exists_of_accepts haccepts hws (by rwa [Slot.total_map_extent])
  exact ⟨_, ofParts_eq_ok_iff.2 ⟨layout, _, hlayout, Slot.sumWidths_made hslots hfits, rfl⟩⟩

theorem replaceChild_ofParts (hm : ofParts id kind shape slots diagnostics = .ok m) {i : Nat} (hi : i < slots.length)
    (child : Slot) : m.replaceChild id' i child = ofParts id' kind shape (slots.set i child) diagnostics := by
  obtain ⟨layout, width, hlayout, -, rfl⟩ := ofParts_eq_ok_iff.1 hm
  have hshape : layout.shape = shape := (Layout.of_forSlots hlayout).1
  unfold replaceChild
  rw [if_pos hi]
  show ofParts id' kind layout.shape (slots.set i child) diagnostics = _
  rw [hshape]

theorem withDiagnostics_ofParts (hm : ofParts id kind shape slots diagnostics = .ok m) (list : List Diagnostic) :
    m.withDiagnostics id' list = ofParts id' kind shape slots list := by
  obtain ⟨layout, width, hlayout, -, rfl⟩ := ofParts_eq_ok_iff.1 hm
  unfold ofParts
  rw [hlayout]
  rfl

theorem renumbered_ofParts (hm : ofParts id kind shape slots diagnostics = .ok m) :
    ofParts id' kind shape slots diagnostics = .ok (m.renumbered id') := by
  obtain ⟨layout, width, hlayout, hwidth, rfl⟩ := ofParts_eq_ok_iff.1 hm
  exact ofParts_eq_ok_iff.2 ⟨layout, width, hlayout, hwidth, rfl⟩

end Parts

theorem ofParts_self {n : Node} (h : n.toSlot.Made) :
    ofParts n.head.id n.kind n.shape n.slots n.diagnostics = .ok n := by
  obtain ⟨shape, hlayout⟩ := h.layout
  obtain ⟨hwidth, hfits⟩ := h.node_width
  have hsum : Slot.sumWidths 0 n.slots = .ok n.fullWidth := by
    rw [Node.fullWidth, hwidth]
    exact Slot.sumWidths_made h.slots hfits
  rw [Node.shape, (Layout.of_forSlots hlayout).1]
  refine ofParts_eq_ok_iff.2 ⟨n.head.layout, n.fullWidth, hlayout, hsum, ?_⟩
  rw [← h.node_flags]

/-! ## Instances of one node -/

/-- Two instances of one node: all but the number is the same, and comparing them says so, whatever is remembered. -/
structure Replica (n m : Node) : Prop where
  same : m = n.renumbered m.head.id
  equal : ∀ stock : List Slot, Stock stock → ∀ memo : HashMemo, memo.Reached stock →
    n.toSlot ∈ stock → m.toSlot ∈ stock → memo.equal n.toSlot m.toSlot = true

theorem replica_renumbered (n : Node) (id : Nat) : n.Replica (n.renumbered id) := by
  refine ⟨rfl, fun stock hstock memo hmemo hn hm => ?_⟩
  have hcompares := HashMemo.equal_iff hstock (hmemo.right hstock) n.toSlot (List.mem_cons_of_mem _ hn)
  exact (hcompares _ (List.mem_cons_of_mem _ hm)).2 rfl

/-! ## What an edit changes -/

/-- The slot can be replaced by the fact without the node growing too wide. -/
structure Takes (n : Node) (i : Nat) (child : Slot) : Prop where
  inside : i < n.count
  obtainable : child.Obtainable
  fits : Slot.extents (n.slots.set i child) < Size.limit

/-- The second node is the first one with one slot replaced. -/
structure Replaces (n : Node) (i : Nat) (child : Slot) (m : Node) : Prop where
  kind : m.kind = n.kind
  shape : m.shape = n.shape
  diagnostics : m.diagnostics = n.diagnostics
  count : m.count = n.count
  replaced : m.childAt i = child
  /-- The same instances stand in all other slots. -/
  others : ∀ j, j ≠ i → m.childAt j = n.childAt j
  before : ∀ j, j ≤ i → ∃ start, n.offsetAt j = .ok start ∧ m.offsetAt j = .ok start
  /-- What stands behind moves by the difference of the widths. -/
  behind : ∃ old new, (n.childAt i).fullWidth = .ok old ∧ child.fullWidth = .ok new ∧
    m.fullWidth + old = n.fullWidth + new ∧
    ∀ j, i < j → j < n.count → ∃ start start', n.offsetAt j = .ok start ∧ m.offsetAt j = .ok start' ∧
      start' + old = start + new
  /-- A table of starts is complete and says the same. -/
  table : ∀ starts, m.head.layout = .long starts → starts.size = m.count ∧
    ∀ j, j < m.count → ∃ start, starts[j]? = some start ∧ m.offsetAt j = .ok start

/-- The second node is the first one with the given diagnostics. -/
structure Annotates (n : Node) (list : List Diagnostic) (m : Node) : Prop where
  kind : m.kind = n.kind
  shape : m.shape = n.shape
  fullWidth : m.fullWidth = n.fullWidth
  /-- The same instances stand in all slots. -/
  slots : m.slots = n.slots
  diagnostics : m.diagnostics = list
  /-- No other flag changes. -/
  flags : m.flags = { n.flags with diagnostics := m.flags.diagnostics }

/-- When the second node is made, the number of the first one still stands for it, and it is hashed as before. -/
structure Untouched (n m : Node) (stock : List Slot) : Prop where
  grown : Stock (m.toSlot :: stock)
  same : ∀ f ∈ m.toSlot :: stock, f.id? = n.toSlot.id? → f = n.toSlot
  hash : ∀ memo : HashMemo, memo.Reached (m.toSlot :: stock) →
    (HashMemo.hash n.toSlot memo).1 = n.toSlot.contentHash

/-- The table of starts has an entry for each slot. -/
theorem table_getElem? {n : Node} (h : n.toSlot.Made) {starts : Array Nat} (hlong : n.head.layout = .long starts) :
    starts.size = n.count ∧
      ∀ j, j < n.count → ∃ start, starts[j]? = some start ∧ n.offsetAt j = .ok start := by
  obtain ⟨shape, hlayout⟩ := h.layout
  rw [hlong] at hlayout
  have hws := Slot.widths_made h.slots h.node_width.2
  have htable := Layout.forSlots_long hlayout hws
  have hsize : starts.size = n.count := by
    rw [htable, List.size_toArray, Size.length_starts, List.length_map]
  refine ⟨hsize, fun j hj => ?_⟩
  obtain ⟨start, hstart⟩ : ∃ start, starts[j]? = some start := ⟨_, Array.getElem?_eq_getElem (hsize ▸ hj)⟩
  refine ⟨start, hstart, ?_⟩
  unfold offsetAt
  rw [if_pos hj, hlong]
  simp only [hstart, Option.getD_some]

variable {n m : Node} {id i : Nat} {child : Slot}

/-- The fact in a slot has a width, and so has one that the node takes in its place. -/
theorem Takes.fullWidth (h : n.Takes i child) : child.fullWidth = .ok child.extent := by
  rw [h.obtainable.made.fullWidth_eq]
  have hmem : child ∈ n.slots.set i child := List.mem_set h.inside child
  exact Size.ofNat_eq_ok (Nat.lt_of_le_of_lt (Slot.extent_le_extents hmem) h.fits)

theorem getElem?_eq_childAt (hi : i < n.count) : n.slots[i]? = some (n.childAt i) := by
  rw [childAt, List.getElem?_eq_getElem hi]
  rfl

theorem set_childAt (hi : i < n.count) : n.slots.set i (n.childAt i) = n.slots := by
  have hchild : n.childAt i = n.slots[i] := Option.some.inj ((getElem?_eq_childAt hi).symm.trans
    (List.getElem?_eq_getElem hi))
  rw [hchild, List.set_getElem_self]

theorem takes_childAt (hn : n.toSlot.Obtainable) (hi : i < n.count) : n.Takes i (n.childAt i) := by
  have hmem : n.childAt i ∈ n.slots := List.mem_of_getElem? (getElem?_eq_childAt hi)
  refine ⟨hi, (hn.made.slots _ hmem).obtainable, ?_⟩
  rw [set_childAt hi]
  exact hn.made.node_width.2

/-- A replacement that the node takes goes through. -/
theorem Takes.exists_replaceChild (h : n.Takes i child) (hn : n.toSlot.Obtainable) (id : Nat) :
    ∃ m, n.replaceChild id i child = .ok m := by
  obtain ⟨shape, hlayout⟩ := hn.made.layout
  obtain ⟨hshape, haccepts⟩ := Layout.of_forSlots hlayout
  rw [replaceChild_ofParts (ofParts_self hn.made) h.inside]
  refine exists_ofParts ?_ ?_ h.fits
  · intro s hs
    rcases List.mem_or_eq_of_mem_set hs with hs | rfl
    · exact hn.made.slots s hs
    · exact h.obtainable.made
  · rw [List.length_set, Node.shape, hshape]
    exact haccepts

theorem Takes.replaces (h : n.Takes i child) (hn : n.toSlot.Obtainable) (hm : n.replaceChild id i child = .ok m) :
    n.Replaces i child m := by
  have hmade : m.toSlot.Made := made_replaceChild hn.made h.obtainable.made hm
  rw [replaceChild_ofParts (ofParts_self hn.made) h.inside] at hm
  obtain ⟨layout, width, hlayout, -, rfl⟩ := ofParts_eq_ok_iff.1 hm
  have hold := getElem?_eq_childAt h.inside
  have hcount : (n.slots.set i child).length = n.count := List.length_set
  refine ⟨rfl, (Layout.of_forSlots hlayout).1, rfl, hcount, ?_, ?_, ?_, ?_, fun starts => table_getElem? hmade⟩
  · show (n.slots.set i child)[i]?.getD .absent = child
    rw [List.getElem?_set_self h.inside]
    rfl
  · intro j hj
    show (n.slots.set i child)[j]?.getD .absent = _
    rw [List.getElem?_set_ne (Ne.symm hj)]
    rfl
  · intro j hj
    have hlt : j < n.count := Nat.lt_of_le_of_lt hj h.inside
    refine ⟨_, offsetAt_eq hn.made hlt, ?_⟩
    rw [offsetAt_eq hmade (Nat.lt_of_lt_of_eq hlt hcount.symm)]
    show Except.ok (Slot.extents ((n.slots.set i child).take j)) = _
    rw [List.take_set_of_le hj]
  · refine ⟨_, _, (takes_childAt hn h.inside).fullWidth, h.fullWidth, ?_, fun j hij hj => ?_⟩
    · rw [show n.fullWidth = _ from hn.made.node_width.1, show Node.fullWidth _ = _ from hmade.node_width.1]
      exact Slot.extents_set hold child
    · refine ⟨_, _, offsetAt_eq hn.made hj, offsetAt_eq hmade (Nat.lt_of_lt_of_eq hj hcount.symm), ?_⟩
      show Slot.extents ((n.slots.set i child).take j) + _ = _
      rw [List.take_set]
      exact Slot.extents_set (by rw [List.getElem?_take_of_lt hij, hold]) child

theorem exists_withDiagnostics (hn : n.toSlot.Obtainable) (id : Nat) (list : List Diagnostic) :
    ∃ m, n.withDiagnostics id list = .ok m := by
  obtain ⟨layout, width, hlayout, hwidth, -⟩ := ofParts_eq_ok_iff.1 (ofParts_self hn.made)
  rw [withDiagnostics_ofParts (ofParts_self hn.made)]
  exact ⟨_, ofParts_eq_ok_iff.2 ⟨layout, width, hlayout, hwidth, rfl⟩⟩

theorem annotates (hn : n.toSlot.Obtainable) {list : List Diagnostic} (hm : n.withDiagnostics id list = .ok m) :
    n.Annotates list m := by
  obtain ⟨width, hwidth, rfl⟩ := assemble_eq_ok_iff.1 hm
  obtain ⟨hstored, hfits⟩ := hn.made.node_width
  have hsame : width = n.fullWidth := by
    rw [Slot.sumWidths_made hn.made.slots hfits, ← hstored] at hwidth
    exact (Except.ok.inj hwidth).symm
  refine ⟨rfl, rfl, hsame, rfl, rfl, ?_⟩
  rw [show n.flags = _ from hn.made.node_flags]
  rfl

/-- A new node under a new number leaves the others as they are. -/
theorem untouched_of_parts {stock : List Slot} (hstock : Stock stock) (hn : n.toSlot ∈ stock) {kind : Kind}
    {shape : Shape} {slots : List Slot} {list : List Diagnostic} (hslots : ∀ s ∈ slots, s ∈ Slot.absent :: stock)
    (hnew : ∀ f ∈ stock, f.id? ≠ some id) (hm : ofParts id kind shape slots list = .ok m) :
    n.Untouched m stock := by
  obtain ⟨layout, -, hm⟩ := bind_eq_ok_iff.1 hm
  have hgrown := hstock.addNode hslots hnew hm
  have hmem : n.toSlot ∈ m.toSlot :: stock := List.mem_cons_of_mem _ hn
  exact ⟨hgrown, fun f hf hid => hgrown.eq_of_id hf hmem hid, fun memo hmemo =>
    (HashMemo.hash_right hgrown _ (List.mem_cons_of_mem _ hmem) memo (hmemo.right hgrown)).1⟩

theorem Takes.untouched (h : n.Takes i child) (hn : n.toSlot.Obtainable) (hm : n.replaceChild id i child = .ok m)
    {stock : List Slot} (hstock : Stock stock) (hmem : n.toSlot ∈ stock) (hchild : child ∈ Slot.absent :: stock)
    (hnew : ∀ f ∈ stock, f.id? ≠ some id) : n.Untouched m stock := by
  rw [replaceChild_ofParts (ofParts_self hn.made) h.inside] at hm
  refine untouched_of_parts hstock hmem (fun s hs => ?_) hnew hm
  rcases List.mem_or_eq_of_mem_set hs with hs | rfl
  · exact hstock.part_mem hmem hs
  · exact hchild

/-! ## Edits one after the other -/

theorem Takes.override (h : n.Takes i child) (hn : n.toSlot.Obtainable) (hm : n.replaceChild id i child = .ok m)
    (id' : Nat) (other : Slot) : m.replaceChild id' i other = n.replaceChild id' i other := by
  rw [replaceChild_ofParts (ofParts_self hn.made) h.inside] at hm
  have hi : i < (n.slots.set i child).length := by
    rw [List.length_set]
    exact h.inside
  rw [replaceChild_ofParts hm hi, List.set_set, replaceChild_ofParts (ofParts_self hn.made) h.inside]

theorem Takes.comm (h : n.Takes i child) (hn : n.toSlot.Obtainable) (hm : n.replaceChild id i child = .ok m) {j : Nat}
    {other : Slot} (hij : j ≠ i) (hj : n.Takes j other) (hj' : m.Takes j other) (id₁ id₂ id₃ : Nat) : ∃ m' u u',
      n.replaceChild id₁ j other = .ok m' ∧ m.replaceChild id₂ j other = .ok u ∧
      m'.replaceChild id₃ i child = .ok u' ∧ u.Replica u' := by
  obtain ⟨m', hm'⟩ := hj.exists_replaceChild hn id₁
  obtain ⟨u, hu⟩ := hj'.exists_replaceChild (.replaceChild hn h.obtainable hm) id₂
  refine ⟨m', u, u.renumbered id₃, hm', hu, ?_, u.replica_renumbered id₃⟩
  have hself := ofParts_self hn.made
  rw [replaceChild_ofParts hself h.inside] at hm
  rw [replaceChild_ofParts hself hj.inside] at hm'
  rw [replaceChild_ofParts hm (by rw [List.length_set]; exact hj.inside), List.set_comm _ _ (Ne.symm hij)] at hu
  rw [replaceChild_ofParts hm' (by rw [List.length_set]; exact h.inside)]
  exact renumbered_ofParts hu

theorem Takes.comm_withDiagnostics (h : n.Takes i child) (hn : n.toSlot.Obtainable)
    (hm : n.replaceChild id i child = .ok m) (list : List Diagnostic) (id₁ id₂ id₃ : Nat) : ∃ m' u u',
      n.withDiagnostics id₁ list = .ok m' ∧ m.withDiagnostics id₂ list = .ok u ∧
      m'.replaceChild id₃ i child = .ok u' ∧ u.Replica u' := by
  obtain ⟨m', hm'⟩ := exists_withDiagnostics hn id₁ list
  obtain ⟨u, hu⟩ := exists_withDiagnostics (.replaceChild hn h.obtainable hm) id₂ list
  refine ⟨m', u, u.renumbered id₃, hm', hu, ?_, u.replica_renumbered id₃⟩
  have hself := ofParts_self hn.made
  rw [replaceChild_ofParts hself h.inside] at hm
  rw [withDiagnostics_ofParts hself] at hm'
  rw [withDiagnostics_ofParts hm] at hu
  rw [replaceChild_ofParts hm' h.inside]
  exact renumbered_ofParts hu

end Node

/-! ## The laws -/

/-- **Edits of nodes are lawful.** Each of the two gives a node that differs in what was edited only and shares all the
rest; the edited node stays what it is. Replacing a child by itself changes nothing, replacing it twice keeps the second
one, and edits of different slots, or of a slot and the diagnostics, commute. -/
theorem node_edits_lawful {n : Node} (hn : n.toSlot.Obtainable) :
    (∀ id list, ∃ m, n.withDiagnostics id list = .ok m ∧ n.Annotates list m ∧
      ∀ stock, Stock stock → n.toSlot ∈ stock → (∀ f ∈ stock, f.id? ≠ some id) → n.Untouched m stock) ∧
    (∀ id i, i < n.count → ∃ m, n.replaceChild id i (n.childAt i) = .ok m ∧ n.Replica m) ∧
    ∀ id i child, n.Takes i child → ∃ m, n.replaceChild id i child = .ok m ∧ n.Replaces i child m ∧
      (∀ stock, Stock stock → n.toSlot ∈ stock → child ∈ Slot.absent :: stock → (∀ f ∈ stock, f.id? ≠ some id) →
        n.Untouched m stock) ∧
      (∀ id' other, m.replaceChild id' i other = n.replaceChild id' i other) ∧
      (∀ id₁ id₂ id₃ j other, j ≠ i → n.Takes j other → m.Takes j other → ∃ m' u u',
        n.replaceChild id₁ j other = .ok m' ∧ m.replaceChild id₂ j other = .ok u ∧
        m'.replaceChild id₃ i child = .ok u' ∧ u.Replica u') ∧
      ∀ id₁ id₂ id₃ list, ∃ m' u u', n.withDiagnostics id₁ list = .ok m' ∧ m.withDiagnostics id₂ list = .ok u ∧
        m'.replaceChild id₃ i child = .ok u' ∧ u.Replica u' := by
  refine ⟨fun id list => ?_, fun id i hi => ?_, fun id i child h => ?_⟩
  · obtain ⟨m, hm⟩ := Node.exists_withDiagnostics hn id list
    refine ⟨m, hm, Node.annotates hn hm, fun stock hstock hmem hnew => ?_⟩
    rw [Node.withDiagnostics_ofParts (Node.ofParts_self hn.made)] at hm
    exact Node.untouched_of_parts hstock hmem (fun s hs => hstock.part_mem hmem hs) hnew hm
  · refine ⟨n.renumbered id, ?_, n.replica_renumbered id⟩
    rw [Node.replaceChild_ofParts (Node.ofParts_self hn.made) hi, Node.set_childAt hi]
    exact Node.renumbered_ofParts (Node.ofParts_self hn.made)
  · obtain ⟨m, hm⟩ := h.exists_replaceChild hn id
    exact ⟨m, hm, h.replaces hn hm, fun stock hstock hmem hchild hnew => h.untouched hn hm hstock hmem hchild hnew,
      h.override hn hm, fun id₁ id₂ id₃ j other hij hj hj' => h.comm hn hm hij hj hj' id₁ id₂ id₃,
      fun id₁ id₂ id₃ list => h.comm_withDiagnostics hn hm list id₁ id₂ id₃⟩

/-- The slots of a list of two names, with a comma between them. -/
def namePair : List Slot :=
  [(Token.plain 0 .name 1).toSlot, (Token.plain 1 .comma 1).toSlot, (Token.plain 2 .name 2).toSlot]

/-- A list with a table of starts, in which a wider separator moves the last name. -/
theorem namePair_reseparated : ∃ n m : Node, Node.makeShaped 3 .list .long namePair = .ok n ∧
    n.toSlot.Obtainable ∧ n.Takes 1 (Token.plain 4 .semicolon 5).toSlot ∧
    n.replaceChild 5 1 (Token.plain 4 .semicolon 5).toSlot = .ok m ∧ m.childAt 2 = (Token.plain 2 .name 2).toSlot ∧
    n.offsetAt 2 = .ok 2 ∧ m.offsetAt 2 = .ok 6 ∧
    ∃ starts, m.head.layout = .long starts ∧ starts[2]? = some 6 := by
  obtain ⟨n, hn, hslots, hshape, hstart⟩ : ∃ n : Node, Node.makeShaped 3 .list .long namePair = .ok n ∧
      n.slots = namePair ∧ n.shape = .long ∧ n.offsetAt 2 = .ok 2 := ⟨_, rfl, rfl, rfl, rfl⟩
  have hobtainable : n.toSlot.Obtainable := by
    refine .shaped ?_ hn
    simp only [namePair, List.mem_cons, List.not_mem_nil, or_false, forall_eq_or_imp, forall_eq]
    exact ⟨.plain 0 .name 1, .plain 1 .comma 1, .plain 2 .name 2⟩
  have htakes : n.Takes 1 (Token.plain 4 .semicolon 5).toSlot := by
    refine ⟨?_, .plain 4 .semicolon 5, ?_⟩
    · rw [Node.count, hslots]
      decide
    · rw [hslots]
      decide
  obtain ⟨m, hm, hreplaces, -⟩ := (node_edits_lawful hobtainable).2.2 5 1 _ htakes
  have hcount : 2 < n.count := by
    rw [Node.count, hslots]
    decide
  obtain ⟨old, new, hold, hnew, -, hshift⟩ := hreplaces.behind
  obtain ⟨start, start', hbefore, hafter, hmoved⟩ := hshift 2 (by decide) hcount
  have hchild : n.childAt 1 = (Token.plain 1 .comma 1).toSlot := by
    rw [Node.childAt, hslots]
    rfl
  rw [hchild] at hold
  obtain rfl : 1 = old := Except.ok.inj hold
  obtain rfl : 5 = new := Except.ok.inj hnew
  rw [hstart] at hbefore
  cases hbefore
  obtain rfl : start' = 6 := by omega
  have hlong : m.head.layout.shape = .long := hreplaces.shape.trans hshape
  cases hlayout : m.head.layout with
  | long starts =>
      obtain ⟨entry, hentry, hsame⟩ := (hreplaces.table starts hlayout).2 2 (hreplaces.count ▸ hcount)
      rw [hafter] at hsame
      cases hsame
      refine ⟨n, m, hn, hobtainable, htakes, hm, ?_, hstart, hafter, starts, hlayout, hentry⟩
      rw [hreplaces.others 2 (by decide), Node.childAt, hslots]
      rfl
  | _ =>
      rw [hlayout] at hlong
      cases hlong

end LosslessSyntax
