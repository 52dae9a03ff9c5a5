import LosslessSyntax.Proofs.Fact.Made

/-!
# Positions of children, scanned and looked up

A `long` node finds the child at an offset by binary search in its table of starts, a `short` one by adding up
widths from the left. With absent slots and facts without text the table has runs of equal entries: the search
ends behind the last entry of such a run, the scan at the first slot that is not empty, and that is the same slot.

* `Slot.Widths` : the full widths of some slots, if each of them is defined;
* `Size.Covers` : the piece of a row of widths in which an offset lies; there is exactly one inside the row;
* `countUpTo_eq`, `Slot.scanIndex_eq` : both searches end there;
* `Node.offsetAt_of_widths`, `Node.indexAt_of_covers` : what a node answers, whatever its shape;
* `Node.offsetAt_eq` : the slots of a made node lie one behind the other;
* `short_long_agree` : the two shapes for three or more slots.
-/

set_option autoImplicit false

namespace LosslessSyntax

namespace Size

def total : List Nat → Nat
  | [] => 0
  | w :: rest => w + total rest

def starts (start : Nat) : List Nat → List Nat
  | [] => []
  | w :: rest => start :: starts (start + w) rest

def Covers (ws : List Nat) (offset i : Nat) : Prop :=
  ∃ w, ws[i]? = some w ∧ total (ws.take i) ≤ offset ∧ offset < total (ws.take i) + w

theorem total_append (us ws : List Nat) : total (us ++ ws) = total us + total ws := by
  induction us with
  | nil => simp [total]
  | cons u rest ih =>
      simp only [List.cons_append, total, ih]
      omega

theorem total_take_mono (ws : List Nat) {i j : Nat} (h : i ≤ j) : total (ws.take i) ≤ total (ws.take j) := by
  have hsplit : ws.take j = ws.take i ++ (ws.drop i).take (j - i) := by
    rw [← List.take_add, Nat.add_sub_cancel' h]
  rw [hsplit, total_append]
  omega

theorem total_take_le (ws : List Nat) (i : Nat) : total (ws.take i) ≤ total ws := by
  have h := total_append (ws.take i) (ws.drop i)
  rw [List.take_append_drop] at h
  omega

theorem total_take_succ {ws : List Nat} {i w : Nat} (h : ws[i]? = some w) :
    total (ws.take (i + 1)) = total (ws.take i) + w := by
  obtain ⟨hi, rfl⟩ := List.getElem?_eq_some_iff.1 h
  rw [← List.take_append_getElem hi, total_append]
  simp [total]

theorem length_starts (start : Nat) (ws : List Nat) : (starts start ws).length = ws.length := by
  induction ws generalizing start with
  | nil => rfl
  | cons w rest ih => simp [starts, ih]

theorem starts_getElem? (start : Nat) {ws : List Nat} {i : Nat} (hi : i < ws.length) :
    (starts start ws)[i]? = some (start + total (ws.take i)) := by
  induction ws generalizing start i with
  | nil => exact absurd hi (Nat.not_lt_zero _)
  | cons w rest ih =>
      cases i with
      | zero => simp [starts, total]
      | succ i =>
          have hi' : i < rest.length := by simpa using hi
          simp only [starts, List.getElem?_cons_succ, ih _ hi', List.take_succ_cons, total]
          congr 1
          omega

theorem exists_covers {ws : List Nat} {offset : Nat} (h : offset < total ws) : ∃ i, Covers ws offset i := by
  induction ws generalizing offset with
  | nil => exact absurd h (Nat.not_lt_zero _)
  | cons w rest ih =>
      rw [total] at h
      by_cases hw : offset < w
      · exact ⟨0, w, rfl, by simp [total], by simpa [total] using hw⟩
      · have hrest : offset - w < total rest := by omega
        obtain ⟨i, v, hv, hle, hlt⟩ := ih hrest
        refine ⟨i + 1, v, hv, ?_, ?_⟩
        · rw [List.take_succ_cons, total]
          omega
        · rw [List.take_succ_cons, total]
          omega

theorem Covers.lt_total {ws : List Nat} {offset i : Nat} (h : Covers ws offset i) : offset < total ws := by
  obtain ⟨w, hw, -, hlt⟩ := h
  rw [← total_take_succ hw] at hlt
  exact Nat.lt_of_lt_of_le hlt (total_take_le ws (i + 1))

/-- No offset lies in two pieces: the later one starts at the end of the earlier one, or behind it. -/
theorem Covers.le {ws : List Nat} {offset i j : Nat} (hi : Covers ws offset i) (hj : Covers ws offset j) : i ≤ j := by
  apply Nat.le_of_not_lt
  intro hlt
  obtain ⟨v, hv, -, hend⟩ := hj
  obtain ⟨-, -, hstart, -⟩ := hi
  have hmono := total_take_mono ws (i := j + 1) (j := i) hlt
  rw [total_take_succ hv] at hmono
  omega

theorem Covers.unique {ws : List Nat} {offset i j : Nat} (hi : Covers ws offset i) (hj : Covers ws offset j) : i = j :=
  Nat.le_antisymm (hi.le hj) (hj.le hi)

end Size

/-! ## The two searches -/

/-- A binary search ends at the place before which no entry is past the offset, and behind which every one is. -/
theorem countUpTo_eq {starts : Array Nat} {offset lo hi k : Nat} (hlo : lo ≤ k) (hhi : k ≤ hi)
    (hbelow : ∀ i, i < k → starts[i]?.getD 0 ≤ offset)
    (habove : ∀ i, k ≤ i → i < hi → offset < starts[i]?.getD 0) : countUpTo starts offset lo hi = k := by
  fun_induction countUpTo starts offset lo hi with
  | case1 lo hi hlt mid hmid ih =>
      -- the entry in the middle is one of those before the place
      have hk : mid < k := by
        apply Nat.lt_of_not_le
        intro hge
        have := habove mid hge (by omega)
        omega
      exact ih hk hhi habove
  | case2 lo hi hlt mid hmid ih =>
      have hk : k ≤ mid := by
        apply Nat.le_of_not_lt
        intro hgt
        exact hmid (hbelow mid hgt)
      exact ih hlo hk fun i hki him => habove i hki (by omega)
  | case3 lo hi hge => omega

namespace Slot

/-- The full width of each of the slots is defined, and these are the widths. -/
def Widths (slots : List Slot) (ws : List Nat) : Prop := slots.map fullWidth = ws.map .ok

theorem widths_cons {s : Slot} {rest : List Slot} {ws : List Nat} :
    Widths (s :: rest) ws ↔ ∃ w us, s.fullWidth = .ok w ∧ Widths rest us ∧ ws = w :: us := by
  unfold Widths
  constructor
  · intro h
    cases ws with
    | nil => simp at h
    | cons w us =>
        rw [List.map_cons, List.map_cons, List.cons.injEq] at h
        exact ⟨w, us, h.1, h.2, rfl⟩
  · rintro ⟨w, us, hw, hus, rfl⟩
    rw [List.map_cons, List.map_cons, hw, hus]

theorem Widths.length {slots : List Slot} {ws : List Nat} (h : Widths slots ws) : ws.length = slots.length := by
  have := congrArg List.length h
  simpa using this.symm

theorem Widths.unique {slots : List Slot} {us ws : List Nat} (hus : Widths slots us) (hws : Widths slots ws) :
    us = ws :=
  (List.map_inj_right fun _ _ h => Except.ok.inj h).1 (hus.symm.trans hws)

theorem Widths.take {slots : List Slot} {ws : List Nat} (h : Widths slots ws) (n : Nat) :
    Widths (slots.take n) (ws.take n) := by
  unfold Widths at *
  rw [List.map_take, List.map_take, h]

theorem total_map_extent (slots : List Slot) : Size.total (slots.map extent) = extents slots := by
  induction slots with
  | nil => rfl
  | cons s rest ih => rw [List.map_cons, Size.total, ih, extents]

/-- Made slots have their widths defined if these fit together. -/
theorem widths_made {slots : List Slot} (h : ∀ s ∈ slots, s.Made) (hfits : extents slots < Size.limit) :
    Widths slots (slots.map extent) := by
  unfold Widths
  rw [List.map_map]
  refine List.map_congr_left fun s hs => ?_
  rw [(h s hs).fullWidth_eq]
  exact Size.ofNat_eq_ok (Nat.lt_of_le_of_lt (extent_le_extents hs) hfits)

theorem sumWidths_eq_ok_iff {slots : List Slot} {start n : Nat} (hstart : start < Size.limit) :
    sumWidths start slots = .ok n ↔
      ∃ ws, Widths slots ws ∧ start + Size.total ws < Size.limit ∧ n = start + Size.total ws := by
  induction slots generalizing start with
  | nil =>
      constructor
      · intro h
        cases h
        exact ⟨[], rfl, hstart, rfl⟩
      · rintro ⟨ws, hws, -, rfl⟩
        have hnil : ws = [] := List.eq_nil_of_length_eq_zero hws.length
        rw [hnil]
        rfl
  | cons s rest ih =>
      rw [sumWidths]
      simp only [bind_eq_ok_iff, Size.add_eq_ok_iff]
      constructor
      · rintro ⟨w, hw, next, ⟨rfl, hfits⟩, hrest⟩
        obtain ⟨us, hus, hsum, rfl⟩ := (ih hfits).1 hrest
        refine ⟨w :: us, widths_cons.2 ⟨w, us, hw, hus, rfl⟩, ?_, ?_⟩
        · rw [Size.total]
          omega
        · simp only [Size.total]
          omega
      · rintro ⟨ws, hws, hsum, rfl⟩
        obtain ⟨w, us, hw, hus, rfl⟩ := widths_cons.1 hws
        have htotal : Size.total (w :: us) = w + Size.total us := rfl
        have hfits : start + w < Size.limit := by omega
        refine ⟨w, hw, start + w, ⟨rfl, hfits⟩, (ih hfits).2 ⟨us, hus, ?_, ?_⟩⟩
        · omega
        · omega

theorem startsFrom_eq_ok_iff {slots : List Slot} {start : Nat} {table : List Nat} (hstart : start < Size.limit) :
    startsFrom start slots = .ok table ↔
      ∃ ws, Widths slots ws ∧ start + Size.total ws < Size.limit ∧ table = Size.starts start ws := by
  induction slots generalizing start table with
  | nil =>
      constructor
      · intro h
        cases h
        exact ⟨[], rfl, hstart, rfl⟩
      · rintro ⟨ws, hws, -, rfl⟩
        have hnil : ws = [] := List.eq_nil_of_length_eq_zero hws.length
        rw [hnil]
        rfl
  | cons s rest ih =>
      rw [startsFrom]
      simp only [bind_eq_ok_iff, Size.add_eq_ok_iff]
      constructor
      · rintro ⟨w, hw, next, ⟨rfl, hfits⟩, others, hothers, htable⟩
        cases htable
        obtain ⟨us, hus, hsum, rfl⟩ := (ih hfits).1 hothers
        refine ⟨w :: us, widths_cons.2 ⟨w, us, hw, hus, rfl⟩, ?_, rfl⟩
        rw [Size.total]
        omega
      · rintro ⟨ws, hws, hsum, rfl⟩
        obtain ⟨w, us, hw, hus, rfl⟩ := widths_cons.1 hws
        rw [Size.total] at hsum
        have hfits : start + w < Size.limit := by omega
        refine ⟨w, hw, start + w, ⟨rfl, hfits⟩, _, (ih hfits).2 ⟨us, hus, ?_, rfl⟩, rfl⟩
        omega

/-- A scan that starts in front of the offset ends at the slot that holds it. -/
theorem scanIndex_eq {slots : List Slot} {ws : List Nat} (hws : Widths slots ws) {start offset index i : Nat}
    (hfits : start + Size.total ws < Size.limit) (hstart : start ≤ offset)
    (hcovers : Size.Covers ws (offset - start) i) : scanIndex offset start index slots = .ok (index + i) := by
  induction slots generalizing ws start index i with
  | nil =>
      have hnil : ws = [] := List.eq_nil_of_length_eq_zero hws.length
      rw [hnil] at hcovers
      exact absurd hcovers.lt_total (Nat.not_lt_zero _)
  | cons s rest ih =>
      obtain ⟨w, us, hw, hus, rfl⟩ := widths_cons.1 hws
      rw [Size.total] at hfits
      have hstop : Size.add start w = .ok (start + w) := Size.add_eq_ok_iff.2 ⟨rfl, by omega⟩
      have hstep : scanIndex offset start index (s :: rest) =
          if offset < start + w then .ok index else scanIndex offset (start + w) (index + 1) rest := by
        rw [scanIndex, hw]
        simp only [bind, Except.bind, hstop]
        rfl
      rw [hstep]
      obtain ⟨v, hv, hle, hlt⟩ := hcovers
      cases i with
      | zero =>
          obtain rfl : w = v := by simpa using hv
          have hin : offset < start + w := by
            simp only [List.take_zero, Size.total] at hlt
            omega
          rw [if_pos hin]
          rfl
      | succ i =>
          rw [List.take_succ_cons, Size.total] at hle hlt
          have hout : ¬ offset < start + w := by omega
          rw [if_neg hout, ih hus (by omega) (by omega) ⟨v, hv, by omega, by omega⟩]
          congr 1
          omega

end Slot

/-! ## What a node answers -/

theorem Layout.forSlots_long {shape : Shape} {slots : List Slot} {table : Array Nat} {ws : List Nat}
    (h : forSlots shape slots = .ok (.long table)) (hws : Slot.Widths slots ws) :
    table = (Size.starts 0 ws).toArray := by
  unfold forSlots at h
  split at h
  · cases shape with
    | long =>
        obtain ⟨list, hlist, he⟩ := bind_eq_ok_iff.1 h
        cases he
        obtain ⟨us, hus, -, rfl⟩ := (Slot.startsFrom_eq_ok_iff (by decide)).1 hlist
        rw [hus.unique hws]
    | _ => cases h
  · cases h

namespace Node

variable {n : Node} {shape : Shape} {ws : List Nat}

theorem offsetAt_of_widths (hlayout : Layout.forSlots shape n.slots = .ok n.head.layout)
    (hws : Slot.Widths n.slots ws) (hfits : Size.total ws < Size.limit) {i : Nat} (hi : i < n.count) :
    n.offsetAt i = .ok (Size.total (ws.take i)) := by
  have hsum : Slot.sumWidths 0 (n.slots.take i) = .ok (Size.total (ws.take i)) := by
    refine (Slot.sumWidths_eq_ok_iff (by decide)).2 ⟨ws.take i, hws.take i, ?_, ?_⟩
    · have := Size.total_take_le ws i
      omega
    · omega
  unfold offsetAt
  rw [if_pos hi]
  cases hl : n.head.layout with
  | long table =>
      have hi' : i < ws.length := by
        rw [hws.length]
        exact hi
      rw [hl] at hlayout
      rw [Layout.forSlots_long hlayout hws]
      simp [Size.starts_getElem? 0 hi']
  | _ => exact hsum

/-- The slots of a made node lie one behind the other. -/
theorem offsetAt_eq (h : n.toSlot.Made) {i : Nat} (hi : i < n.count) :
    n.offsetAt i = .ok (Slot.extents (n.slots.take i)) := by
  obtain ⟨shape, hlayout⟩ := h.layout
  have hfits := h.node_width.2
  have hws := Slot.widths_made h.slots hfits
  rw [← Slot.total_map_extent] at hfits
  rw [offsetAt_of_widths hlayout hws hfits hi, ← List.map_take, Slot.total_map_extent]

/-- The child at an offset is the one that holds it. -/
theorem indexAt_of_covers (hlayout : Layout.forSlots shape n.slots = .ok n.head.layout)
    (hws : Slot.Widths n.slots ws) (hwidth : n.fullWidth = Size.total ws) (hfits : Size.total ws < Size.limit)
    {offset i : Nat} (hcovers : Size.Covers ws offset i) : n.indexAt offset = .ok i := by
  have hscan : Slot.scanIndex offset 0 0 n.slots = .ok i := by
    have h : Slot.scanIndex offset 0 0 n.slots = .ok (0 + i) :=
      Slot.scanIndex_eq hws (by omega) (Nat.zero_le offset) hcovers
    rwa [Nat.zero_add] at h
  unfold indexAt
  rw [if_pos (by rw [hwidth]; exact hcovers.lt_total)]
  cases hl : n.head.layout with
  | long table =>
      rw [hl] at hlayout
      rw [Layout.forSlots_long hlayout hws]
      have hentry : ∀ j, j < ws.length → (Size.starts 0 ws).toArray[j]?.getD 0 = Size.total (ws.take j) := by
        intro j hj
        simp [Size.starts_getElem? 0 hj]
      obtain ⟨w, hw, hle, hlt⟩ := hcovers
      have hi : i < ws.length := (List.getElem?_eq_some_iff.1 hw).1
      have hsize : (Size.starts 0 ws).toArray.size = ws.length := by
        rw [List.size_toArray, Size.length_starts]
      -- all entries up to that of the slot are at or before the offset, all others are past it
      have hcount : countUpTo (Size.starts 0 ws).toArray offset 0 (Size.starts 0 ws).toArray.size = i + 1 := by
        rw [hsize]
        apply countUpTo_eq (Nat.zero_le _) hi
        · intro j hj
          rw [hentry j (by omega)]
          have := Size.total_take_mono ws (i := j) (j := i) (by omega)
          omega
        · intro j hj hjlt
          rw [hentry j hjlt]
          have := Size.total_take_mono ws hj
          rw [Size.total_take_succ hw] at this
          omega
      show Size.sub (countUpTo (Size.starts 0 ws).toArray offset 0 (Size.starts 0 ws).toArray.size) 1 = .ok i
      rw [hcount]
      exact Size.sub_eq_ok_iff.2 ⟨by omega, by omega⟩
  | _ => exact hscan

theorem makeShaped_eq_ok_iff {id : Nat} {kind : Kind} {slots : List Slot} {n : Node} :
    makeShaped id kind shape slots = .ok n ↔
      ∃ layout ws, Layout.forSlots shape slots = .ok layout ∧ Slot.Widths slots ws ∧
        Size.total ws < Size.limit ∧ n = ⟨⟨id, kind, summary slots [], Size.total ws, layout, []⟩, slots⟩ := by
  unfold makeShaped
  simp only [bind_eq_ok_iff, assemble_eq_ok_iff]
  constructor
  · rintro ⟨layout, hlayout, width, hwidth, rfl⟩
    obtain ⟨ws, hws, hfits, rfl⟩ := (Slot.sumWidths_eq_ok_iff (by decide)).1 hwidth
    rw [Nat.zero_add] at hfits ⊢
    exact ⟨layout, ws, hlayout, hws, hfits, rfl⟩
  · rintro ⟨layout, ws, hlayout, hws, hfits, rfl⟩
    refine ⟨layout, hlayout, Size.total ws, ?_, rfl⟩
    exact (Slot.sumWidths_eq_ok_iff (by decide)).2 ⟨ws, hws, by omega, by omega⟩

end Node

theorem Node.slots_makeShaped {id : Nat} {kind : Kind} {shape : Shape} {slots : List Slot} {n : Node}
    (hn : makeShaped id kind shape slots = .ok n) : n.slots = slots := by
  obtain ⟨layout, ws, -, -, -, rfl⟩ := makeShaped_eq_ok_iff.1 hn
  rfl

/-- The layout of three or more slots, short or long, asks for no more than widths whose sum fits. -/
theorem Layout.exists_forSlots {shape : Shape} (hshape : shape = .short ∨ shape = .long) {slots : List Slot}
    {ws : List Nat} (hcount : 3 ≤ slots.length) (hws : Slot.Widths slots ws) (hfits : Size.total ws < Size.limit) :
    ∃ layout, forSlots shape slots = .ok layout := by
  have haccepts : shape.accepts slots.length = true := by
    rcases hshape with rfl | rfl <;> exact decide_eq_true hcount
  unfold forSlots
  rw [if_pos haccepts]
  rcases hshape with rfl | rfl
  · exact ⟨.short, rfl⟩
  · have htable : Slot.startsFrom 0 slots = .ok (Size.starts 0 ws) :=
      (Slot.startsFrom_eq_ok_iff (by decide)).2 ⟨ws, hws, by omega, rfl⟩
    simp only [htable]
    exact ⟨_, rfl⟩

theorem Node.exists_makeShaped_iff {shape : Shape} (hshape : shape = .short ∨ shape = .long) (id : Nat) (kind : Kind)
    {slots : List Slot} (hcount : 3 ≤ slots.length) :
    (∃ n, makeShaped id kind shape slots = .ok n) ↔
      ∃ ws, Slot.Widths slots ws ∧ Size.total ws < Size.limit := by
  constructor
  · rintro ⟨n, hn⟩
    obtain ⟨layout, ws, -, hws, hfits, -⟩ := makeShaped_eq_ok_iff.1 hn
    exact ⟨ws, hws, hfits⟩
  · rintro ⟨ws, hws, hfits⟩
    obtain ⟨layout, hlayout⟩ := Layout.exists_forSlots hshape hcount hws hfits
    exact ⟨_, makeShaped_eq_ok_iff.2 ⟨layout, ws, hlayout, hws, hfits, rfl⟩⟩

/-- The children lie where the widths say, and an offset inside the node leads to the one child that holds it. -/
structure Node.Answers (n : Node) (ws : List Nat) : Prop where
  fullWidth : n.fullWidth = Size.total ws
  offsetAt : ∀ i, i < n.count → n.offsetAt i = .ok (Size.total (ws.take i))
  indexAt : ∀ offset i, Size.Covers ws offset i → n.indexAt offset = .ok i
  /-- An offset outside is refused as such. -/
  outside : ∀ offset, n.fullWidth ≤ offset → n.indexAt offset = .error (.offsetOutside offset n.fullWidth)

theorem Node.answers_makeShaped {id : Nat} {kind : Kind} {shape : Shape} {slots : List Slot} {n : Node} {ws : List Nat}
    (hn : makeShaped id kind shape slots = .ok n) (hws : Slot.Widths slots ws) : n.Answers ws := by
  obtain ⟨layout, us, hlayout, hus, hfits, rfl⟩ := makeShaped_eq_ok_iff.1 hn
  obtain rfl := hus.unique hws
  refine ⟨rfl, fun i hi => offsetAt_of_widths hlayout hus hfits hi,
    fun offset i hcovers => indexAt_of_covers hlayout hus rfl hfits hcovers, fun offset houtside => ?_⟩
  unfold indexAt
  exact if_neg (Nat.not_lt_of_le houtside)

theorem Node.Answers.indexAt_or_outside {n : Node} {ws : List Nat} (h : n.Answers ws) (offset : Nat) :
    (∃ i, n.indexAt offset = .ok i) ∨ n.indexAt offset = .error (.offsetOutside offset n.fullWidth) := by
  by_cases hoffset : offset < n.fullWidth
  · rw [h.fullWidth] at hoffset
    obtain ⟨i, hcovers⟩ := Size.exists_covers hoffset
    exact .inl ⟨i, h.indexAt offset i hcovers⟩
  · exact .inr (h.outside offset (Nat.le_of_not_lt hoffset))

/-- **Scanned and indexed lists agree, and both are right.** Three or more slots can be stored short iff they can be
stored long, namely iff their widths are defined and fit together. Then both say that a child starts behind the widths
in front of it, and both find, for an offset inside, the one child that holds it. So neither the scan nor the search
ever runs out of its children. -/
theorem short_long_agree (id id' : Nat) (kind : Kind) {slots : List Slot} (hcount : 3 ≤ slots.length) :
    ((∃ short, Node.makeShaped id kind .short slots = .ok short) ↔
      ∃ long, Node.makeShaped id' kind .long slots = .ok long) ∧
    ((∃ short, Node.makeShaped id kind .short slots = .ok short) ↔
      ∃ ws, Slot.Widths slots ws ∧ Size.total ws < Size.limit) ∧
    ∀ {short long : Node}, Node.makeShaped id kind .short slots = .ok short →
      Node.makeShaped id' kind .long slots = .ok long →
      ∃ ws, Slot.Widths slots ws ∧ short.fullWidth = Size.total ws ∧ long.fullWidth = Size.total ws ∧
        (∀ i, i < slots.length →
          short.offsetAt i = .ok (Size.total (ws.take i)) ∧ long.offsetAt i = .ok (Size.total (ws.take i))) ∧
        (∀ offset, offset < Size.total ws → ∃ i, short.indexAt offset = .ok i ∧ long.indexAt offset = .ok i ∧
          Size.Covers ws offset i ∧ ∀ j, Size.Covers ws offset j → j = i) ∧
        ∀ offset, short.indexAt offset ≠ .error (.offsetPastLastChild offset) ∧
          long.indexAt offset ≠ .error .differenceNegative := by
  have hshort := Node.exists_makeShaped_iff (.inl rfl) id kind hcount
  have hlong := Node.exists_makeShaped_iff (.inr rfl) id' kind hcount
  refine ⟨hshort.trans hlong.symm, hshort, ?_⟩
  intro short long hs hl
  obtain ⟨ws, hws, -⟩ := hshort.1 ⟨short, hs⟩
  have hanswers := Node.answers_makeShaped hs hws
  have hanswers' := Node.answers_makeShaped hl hws
  refine ⟨ws, hws, hanswers.fullWidth, hanswers'.fullWidth, ?_, ?_, ?_⟩
  · intro i hi
    rw [← Node.slots_makeShaped hs] at hi
    have hi' : i < long.count := by rwa [Node.count, Node.slots_makeShaped hl, ← Node.slots_makeShaped hs]
    exact ⟨hanswers.offsetAt i hi, hanswers'.offsetAt i hi'⟩
  · intro offset hoffset
    obtain ⟨i, hcovers⟩ := Size.exists_covers hoffset
    exact ⟨i, hanswers.indexAt offset i hcovers, hanswers'.indexAt offset i hcovers, hcovers,
      fun j hj => hj.unique hcovers⟩
  · intro offset
    constructor
    · intro hfault
      rcases hanswers.indexAt_or_outside offset with ⟨i, hi⟩ | hout
      · rw [hi] at hfault
        cases hfault
      · rw [hout] at hfault
        cases hfault
    · intro hfault
      rcases hanswers'.indexAt_or_outside offset with ⟨i, hi⟩ | hout
      · rw [hi] at hfault
        cases hfault
      · rw [hout] at hfault
        cases hfault

/-- Four children between slots that are empty or have no text, so that starts come in runs. -/
def patchyList : List Slot :=
  [.absent, (Token.plain 0 .name 3).toSlot, .absent, (Token.plain 1 .comma 0).toSlot, (Token.plain 2 .name 2).toSlot,
    (Token.plain 3 .semicolon 0).toSlot]

theorem patchyList_stored_both_ways :
    ∃ short long, Node.makeShaped 4 .list .short patchyList = .ok short ∧
      Node.makeShaped 5 .list .long patchyList = .ok long ∧
      (short.offsetAt 4 = .ok 3 ∧ long.offsetAt 4 = .ok 3) ∧
      short.indexAt 3 = .ok 4 ∧ long.indexAt 3 = .ok 4 := by
  have hcount : 3 ≤ patchyList.length := by decide
  obtain ⟨hiff, hdefined, hagree⟩ := short_long_agree 4 5 .list hcount
  have hws : Slot.Widths patchyList [0, 3, 0, 0, 2, 0] := rfl
  obtain ⟨short, hshort⟩ := hdefined.2 ⟨_, hws, by decide⟩
  obtain ⟨long, hlong⟩ := hiff.1 ⟨short, hshort⟩
  obtain ⟨us, hus, -, -, hoffsets, hindices, -⟩ := hagree hshort hlong
  obtain rfl := hus.unique hws
  obtain ⟨i, hi, hi', -, honly⟩ := hindices 3 (by decide)
  obtain rfl := honly 4 ⟨2, rfl, by decide, by decide⟩
  exact ⟨short, long, hshort, hlong, hoffsets 4 (by decide), hi, hi'⟩

end LosslessSyntax
