import LosslessSyntax.Proofs.Fact.Occurrences

/-!
# The order of a report

A report follows the text, owner after owner, with one exception. A node that owns diagnostics starts behind the trivia
of its first token, and a report puts this trivia forward. It does not put forward what else may stand there: nodes
without a token, which have no text and so start before the trivia. If they own diagnostics, these come too late.

* `Slot.Forerunner` : a node without a token, and with diagnostics, stands in front of the trivia of the fact;
* `Slot.OwnsFrom` : nothing that owns diagnostics starts too early, and `Slot.ownsFrom_iff` : only forerunners do;
* `Report.Ascends` : steps of the walk report owners in the order of their starts, between two bounds;
* `Slot.Made.ascends_visit`, `Slot.Made.orderly_of_inOrder` : a visit does iff no owner in the fact has a forerunner;
* `report_inOrder_iff` : when a report comes in document order.
-/

set_option autoImplicit false

namespace LosslessSyntax

def Resolved.ownerStart (r : Resolved) : Nat := r.range.start - r.diagnostic.offset

theorem Diagnostic.ownerStart_placed (spanStart : Nat) (d : Diagnostic) : (d.placed spanStart).ownerStart = spanStart :=
  Nat.add_sub_cancel spanStart d.offset

namespace Slot

theorem ownerStart_of_mem_ownMarks {s : Slot} {start : Nat} {place : List Branch} {r : Resolved}
    (h : r ∈ s.ownMarks start place) :
    (s.part place).diagnostics ≠ [] ∧ r.ownerStart = start + s.partStart place + (s.part place).leadingExtent := by
  obtain ⟨d, hd, rfl⟩ := List.mem_map.1 h
  exact ⟨List.ne_nil_of_mem hd, Diagnostic.ownerStart_placed _ d⟩

/-! ## What starts before the first token -/

/-- A node without a token stands in front of the trivia of the fact, at the end of a path of slots, and owns
diagnostics. -/
def Forerunner (s : Slot) : Prop :=
  ∃ path : List Nat, (s.part (path.map .slot)).firstToken? = none ∧ (s.part (path.map .slot)).diagnostics ≠ [] ∧
    s.partStart (path.map .slot) < s.leadingExtent

/-- Whatever owns diagnostics at the end of a path of slots starts at `w` or behind it, if the fact starts at 0. -/
def OwnsFrom (s : Slot) (w : Nat) : Prop :=
  ∀ path : List Nat, (s.part (path.map .slot)).diagnostics ≠ [] →
    w ≤ s.partStart (path.map .slot) + (s.part (path.map .slot)).leadingExtent

theorem firstTokenIn?_eq_none_iff {slots : List Slot} :
    firstTokenIn? slots = none ↔ ∀ s ∈ slots, s.firstToken? = none := by
  induction slots with
  | nil => simp [firstTokenIn?]
  | cons s rest ih =>
      rw [firstTokenIn?, List.forall_mem_cons, ← ih]
      cases s.firstToken? <;> simp

theorem leadingExtent_eq_zero {s : Slot} (h : s.firstToken? = none) : s.leadingExtent = 0 := by
  rw [leadingExtent, h]

theorem firstToken?_branch {s : Slot} (h : s.firstToken? = none) (b : Branch) : (s.branch b).firstToken? = none := by
  cases s with
  | absent => cases b <;> rfl
  | token head leading => cases h
  | node head slots =>
      cases b with
      | leading => rfl
      | slot i =>
          show (slots[i]?.getD .absent).firstToken? = none
          cases hslot : slots[i]? with
          | none => rfl
          | some s => exact firstTokenIn?_eq_none_iff.1 h s (List.mem_of_getElem? hslot)

theorem firstToken?_part {s : Slot} (h : s.firstToken? = none) (place : List Branch) :
    (s.part place).firstToken? = none := by
  induction place generalizing s with
  | nil => exact h
  | cons b rest ih => exact ih (firstToken?_branch h b)

/-- Without a token there is no trivia, so every place is the end of a path of slots. -/
theorem exists_path_of_tokenless {s : Slot} (h : s.firstToken? = none) {place : List Branch}
    (hpresent : (s.part place).isPresent = true) : ∃ path : List Nat, place = path.map .slot := by
  induction place generalizing s with
  | nil => exact ⟨[], rfl⟩
  | cons b rest ih =>
      obtain ⟨path, rfl⟩ := ih (firstToken?_branch h b) hpresent
      cases b with
      | slot i => exact ⟨i :: path, rfl⟩
      | leading =>
          have habsent : s.branch .leading = .absent := by
            cases s with
            | absent => rfl
            | token head leading => cases h
            | node head slots => rfl
          rw [part, habsent, part_absent] at hpresent
          cases hpresent

/-- The first token of some slots comes no later than that of any one of them. -/
theorem leadingExtent_le_slot (head : NodeHead) {slots : List Slot} {i : Nat} {s : Slot} (hs : slots[i]? = some s)
    (htoken : s.firstToken? ≠ none) :
    (Slot.node head slots).leadingExtent ≤ extents (slots.take i) + s.leadingExtent := by
  induction slots generalizing i with
  | nil => cases hs
  | cons first rest ih =>
      cases hfirst : first.firstToken? with
      | some t =>
          have hlead : (Slot.node head (first :: rest)).leadingExtent = first.leadingExtent := by
            simp only [leadingExtent, firstToken?, firstTokenIn?, hfirst]
          rw [hlead]
          cases i with
          | zero =>
              cases hs
              exact Nat.le_add_left _ _
          | succ i =>
              have hle := leadingExtent_le first
              rw [List.take_succ_cons, extents]
              omega
      | none =>
          have hlead : (Slot.node head (first :: rest)).leadingExtent = (Slot.node head rest).leadingExtent := by
            simp only [leadingExtent, firstToken?, firstTokenIn?, hfirst]
          cases i with
          | zero =>
              cases hs
              exact absurd hfirst htoken
          | succ i =>
              have hle := ih hs
              rw [hlead, List.take_succ_cons, extents]
              omega

/-- What has a token does not start before the fact that it stands in. -/
theorem leadingExtent_le_part {s : Slot} {path : List Nat} (h : (s.part (path.map .slot)).firstToken? ≠ none) :
    s.leadingExtent ≤ s.partStart (path.map .slot) + (s.part (path.map .slot)).leadingExtent := by
  induction path generalizing s with
  | nil => exact Nat.le_add_left _ _
  | cons i rest ih =>
      have hchild := ih h
      have htoken : (s.branch (.slot i)).firstToken? ≠ none := fun hnone => h (firstToken?_part hnone _)
      cases s with
      | absent => exact absurd rfl htoken
      | token head leading => exact absurd rfl htoken
      | node head slots =>
          cases hslot : slots[i]? with
          | none =>
              simp only [branch, hslot] at htoken
              exact absurd rfl htoken
          | some c =>
              have hbranch : (Slot.node head slots).branch (.slot i) = c := by
                simp only [branch, hslot, Option.getD_some]
              rw [hbranch] at hchild htoken
              have hle := leadingExtent_le_slot head hslot htoken
              simp only [List.map_cons, part, partStart, branchStart, hbranch]
              omega

/-- Only forerunners start too early. -/
theorem ownsFrom_iff {s : Slot} : s.OwnsFrom s.leadingExtent ↔ ¬ s.Forerunner := by
  constructor
  · rintro h ⟨path, htokenless, hown, hlt⟩
    have hle := h path hown
    rw [leadingExtent_eq_zero htokenless] at hle
    omega
  · intro h path hown
    by_cases htoken : (s.part (path.map .slot)).firstToken? = none
    · by_contra hlt
      exact h ⟨path, htoken, hown, by omega⟩
    · exact leadingExtent_le_part htoken

theorem OwnsFrom.slot_zero {head : NodeHead} {s : Slot} {rest : List Slot} {w : Nat}
    (h : (Slot.node head (s :: rest)).OwnsFrom w) : s.OwnsFrom w := by
  intro path hown
  have hle := h (0 :: path) hown
  simp only [List.map_cons, part, partStart] at hle
  rw [show (Slot.node head (s :: rest)).branchStart (.slot 0) = 0 from rfl, Nat.zero_add] at hle
  exact hle

/-- Nothing changes for the other slots if the first one, without text, is left out. -/
theorem OwnsFrom.tail {head : NodeHead} {s : Slot} {rest : List Slot}
    (h : (Slot.node head (s :: rest)).OwnsFrom (Slot.node head (s :: rest)).leadingExtent) (hs : s.firstToken? = none) :
    (Slot.node head rest).OwnsFrom (Slot.node head rest).leadingExtent := by
  have hlead : (Slot.node head (s :: rest)).leadingExtent = (Slot.node head rest).leadingExtent := by
    simp only [leadingExtent, firstToken?, firstTokenIn?, hs]
  intro path hown
  cases path with
  | nil => exact Nat.le_add_left _ _
  | cons i path =>
      have hle := h ((i + 1) :: path) hown
      have hstart : (Slot.node head (s :: rest)).branchStart (.slot (i + 1)) =
          (Slot.node head rest).branchStart (.slot i) := by
        simp only [branchStart, List.take_succ_cons, extents, extent_eq_zero s hs, Nat.zero_add]
      simp only [List.map_cons, part, partStart, hstart, hlead] at hle ⊢
      exact hle

/-- No owner in the fact has a forerunner. -/
def Orderly (s : Slot) : Prop := ∀ f : Slot, f.Within s → f.diagnostics ≠ [] → ¬ f.Forerunner

theorem Orderly.leading {head : TokenHead} {leading : Slot} (h : (Slot.token head leading).Orderly) : leading.Orderly :=
  fun f hf => h f (.leading hf)

theorem Orderly.slots {head : NodeHead} {slots : List Slot} (h : (Slot.node head slots).Orderly) :
    ∀ s ∈ slots, s.Orderly :=
  fun _ hs f hf => h f (.slot hs hf)

end Slot

/-! ## Steps that report in order -/

namespace Report

def InOrder (r : Report) : Prop := (r.found.map Resolved.ownerStart).Pairwise (· ≤ ·)

/-- The steps end without a fault, and report owners that start from `lo` to `hi`, in the order of their starts. -/
structure Ascends (ws : List Work) (lo hi : Nat) : Prop where
  fault : (ofStack ws).fault = none
  inOrder : (ofStack ws).InOrder
  bounds : ∀ r ∈ (ofStack ws).found, lo ≤ r.ownerStart ∧ r.ownerStart ≤ hi

variable {ws vs : List Work} {lo mid hi : Nat}

theorem Lists.fault {s : Slot} {start : Nat} {ps : List (List Branch)} (h : Lists ws s start ps) :
    (ofStack ws).fault = none := by
  obtain ⟨order, -, hrun⟩ := h
  rw [hrun]

theorem found_append (h : (ofStack ws).fault = none) :
    (ofStack (ws ++ vs)).found = (ofStack ws).found ++ (ofStack vs).found := by
  rw [ofStack_append, andThen, h]

theorem inOrder_append (h : (ofStack ws).fault = none) :
    (ofStack (ws ++ vs)).InOrder ↔ (ofStack ws).InOrder ∧ (ofStack vs).InOrder ∧
      ∀ r ∈ (ofStack ws).found, ∀ r' ∈ (ofStack vs).found, r.ownerStart ≤ r'.ownerStart := by
  unfold InOrder
  rw [found_append h, List.map_append, List.pairwise_append]
  simp only [List.forall_mem_map]

theorem Ascends.append (h : Ascends ws lo mid) (h' : Ascends vs mid hi) (hlo : lo ≤ mid) (hhi : mid ≤ hi) :
    Ascends (ws ++ vs) lo hi := by
  refine ⟨?_, (inOrder_append h.fault).2 ⟨h.inOrder, h'.inOrder, fun r hr r' hr' => ?_⟩, fun r hr => ?_⟩
  · rw [ofStack_append, andThen, h.fault]
    exact h'.fault
  · exact Nat.le_trans (h.bounds r hr).2 (h'.bounds r' hr').1
  · rw [found_append h.fault] at hr
    rcases List.mem_append.1 hr with hr | hr
    · have := h.bounds r hr
      omega
    · have := h'.bounds r hr
      omega

theorem Ascends.mono {lo' hi' : Nat} (h : Ascends ws lo hi) (hlo : lo' ≤ lo) (hhi : hi ≤ hi') : Ascends ws lo' hi' :=
  ⟨h.fault, h.inOrder, fun r hr => ⟨Nat.le_trans hlo (h.bounds r hr).1, Nat.le_trans (h.bounds r hr).2 hhi⟩⟩

theorem Ascends.visit {fact : Slot} {fullStart : Nat} {done : Bool} (h : Ascends ws lo hi)
    (hexpand : expand fact fullStart done = .ok ws) : Ascends [.visit fact fullStart done] lo hi := by
  have hrun : ofStack [.visit fact fullStart done] = ofStack ws := by
    rw [ofStack_visit_ok hexpand, List.append_nil]
  exact ⟨hrun ▸ h.fault, hrun ▸ h.inOrder, hrun ▸ h.bounds⟩

theorem ascends_nil (lo hi : Nat) : Ascends [] lo hi := by
  refine ⟨by rw [ofStack], by rw [InOrder, ofStack]; exact .nil, fun r hr => ?_⟩
  rw [ofStack] at hr
  cases hr

theorem Ascends.of_eq (h : Ascends ws lo hi) (hrun : ofStack vs = ofStack ws) : Ascends vs lo hi :=
  ⟨hrun ▸ h.fault, hrun ▸ h.inOrder, hrun ▸ h.bounds⟩

end Report

namespace Slot

open Report (Ascends ascends_nil Lists ofStack InOrder visits visitTrivia visitFirstTrivia expand)

theorem Placeable.ofStack_emit {s : Slot} {start : Nat} (h : s.Placeable start) :
    ofStack [.emit s.diagnostics (start + s.leadingExtent)] =
      ⟨s.diagnostics.map (Diagnostic.placed (start + s.leadingExtent)), none⟩ := by
  have hplaced : ∀ d ∈ s.diagnostics, (d.placed (start + s.leadingExtent)).range.stop < Size.limit :=
    fun d hd => h [] _ (List.mem_map_of_mem hd)
  rw [ofStack, ofStack, Report.ofOwner_eq hplaced, Report.andThen, List.append_nil]

theorem Placeable.ascends_emit {s : Slot} {start : Nat} (h : s.Placeable start) :
    Ascends [.emit s.diagnostics (start + s.leadingExtent)] (start + s.leadingExtent) (start + s.leadingExtent) := by
  have hrun := h.ofStack_emit
  refine ⟨by rw [hrun], ?_, fun r hr => ?_⟩
  · rw [InOrder, hrun, List.map_map]
    refine List.pairwise_map.2 (List.pairwise_of_forall fun d d' => ?_)
    exact Nat.le_of_eq ((Diagnostic.ownerStart_placed _ d).trans (Diagnostic.ownerStart_placed _ d').symm)
  · rw [hrun] at hr
    obtain ⟨d, -, rfl⟩ := List.mem_map.1 hr
    rw [Diagnostic.ownerStart_placed]
    exact ⟨Nat.le_refl _, Nat.le_refl _⟩

/-- In a fact without a token, what is reported stands at the end of some path of slots. -/
theorem Made.le_ownerStart {s : Slot} (h : s.Made) {start : Nat} (hfits : start + s.extent < Size.limit)
    (hplaces : s.Placeable start) (htokenless : s.firstToken? = none) {w : Nat} (hfrom : s.OwnsFrom w) {r : Resolved}
    (hr : r ∈ (ofStack [.visit s start false]).found) : start + w ≤ r.ownerStart := by
  obtain ⟨order, horder, hrun⟩ := h.lists_visit hfits hplaces false
  rw [hrun] at hr
  obtain ⟨place, hplace, hr⟩ := List.mem_flatMap.1 hr
  obtain ⟨path, rfl⟩ := exists_path_of_tokenless htokenless (mem_places.1 (horder.mem_iff.1 hplace))
  obtain ⟨hown, hstart⟩ := ownerStart_of_mem_ownMarks hr
  have := hfrom path hown
  omega

/-- Each of the slots, one behind the other from `start` on, has a place for all that is owned in it. -/
def PlaceableFrom (start : Nat) : List Slot → Prop
  | [] => True
  | s :: rest => s.Placeable start ∧ PlaceableFrom (start + s.extent) rest

theorem Placeable.slotsFrom {head : NodeHead} {slots : List Slot} {start : Nat} (front : List Slot)
    (h : (Slot.node head (front ++ slots)).Placeable start) : PlaceableFrom (start + extents front) slots := by
  induction slots generalizing front with
  | nil => trivial
  | cons s rest ih =>
      have hrest : PlaceableFrom (start + extents (front ++ [s])) rest :=
        ih (front ++ [s]) (by rw [List.append_assoc]; exact h)
      rw [extents_append, extents, extents, Nat.add_zero, ← Nat.add_assoc] at hrest
      exact ⟨h.slot, hrest⟩

theorem Placeable.slots {head : NodeHead} {slots : List Slot} {start : Nat}
    (h : (Slot.node head slots).Placeable start) : PlaceableFrom start slots :=
  h.slotsFrom []

theorem visits_cons (pending : Bool) (s : Slot) (rest : List Slot) (start : Nat) :
    visits pending (s :: rest) start =
      [.visit s start (pending && s.firstToken?.isSome)] ++
        visits (pending && !s.firstToken?.isSome) rest (start + s.extent) := by
  cases pending <;> rfl

mutual

/-- Without forerunners a visit reports in order. If the trivia of the first token has been put forward, an owner that
starts behind it has been reported as well, so nothing in the fact may start before that. -/
theorem Made.ascends_visit {s : Slot} (h : s.Made) (horderly : s.Orderly) {start : Nat}
    (hfits : start + s.extent < Size.limit) (hplaces : s.Placeable start) (done : Bool)
    (hdone : done = true → s.OwnsFrom s.leadingExtent) :
    Ascends [.visit s start done] (start + if done then s.leadingExtent else 0) (start + s.extent) := by
  cases hflag : s.flags.diagnostics with
  | false => exact (ascends_nil _ _).visit (expand_pruned start done hflag)
  | true =>
      have hown := hplaces.ascends_emit
      have hle := leadingExtent_le s
      cases s with
      | absent => cases hflag
      | token head leading =>
          rw [extent] at hfits
          have hleading : Ascends [.visit leading start false] start (start + leading.extent) :=
            Made.ascends_visit h.token_parts.1 horderly.leading (by omega) hplaces.leading false (nomatch ·)
          refine Ascends.visit ?_ (h.expand_token (by omega) hflag done)
          cases done with
          | true => exact hown.mono (Nat.le_refl _) (by omega)
          | false =>
              have htrivia := hleading.of_eq (ofStack_visitTrivia leading start)
              have hall := htrivia.append hown (Nat.le_add_right _ _) (Nat.le_refl _)
              exact hall.mono (Nat.le_refl _) (by omega)
      | node head slots =>
          have hvisits := ascends_visits head h.slots horderly.slots hfits hplaces.slots
          refine Ascends.visit ?_ (h.expand_node hfits hflag done)
          cases done with
          | true =>
              exact hown.append (hvisits true hdone) (Nat.le_refl _) (by omega)
          | false =>
              by_cases hnone : head.diagnostics = []
              · -- nothing is put forward, and the first token takes its trivia along
                have hrest := hvisits false (nomatch ·)
                refine hrest.of_eq ?_
                simp [hnone, ofStack, Report.ofOwner, Report.empty_andThen]
              · have hfrom := ownsFrom_iff.2 (horderly _ .self hnone)
                have htrivia := ascends_firstTriviaIn head h.slots horderly.slots hfits hplaces.slots
                have hsome : head.diagnostics.isEmpty = false := by simpa using hnone
                simp only [hsome, Bool.not_false, Bool.and_self, Bool.or_true, if_true]
                refine htrivia.append ?_ (Nat.le_add_right _ _) (by omega)
                exact hown.append (hvisits true fun _ => hfrom) (Nat.le_refl _) (by omega)

theorem ascends_visits (head : NodeHead) {slots : List Slot} (h : ∀ s ∈ slots, s.Made)
    (horderly : ∀ s ∈ slots, s.Orderly) {start : Nat} (hfits : start + extents slots < Size.limit)
    (hplaces : PlaceableFrom start slots) (pending : Bool)
    (hpending : pending = true → (Slot.node head slots).OwnsFrom (Slot.node head slots).leadingExtent) :
    Ascends (visits pending slots start) (start + if pending then (Slot.node head slots).leadingExtent else 0)
      (start + extents slots) := by
  cases slots with
  | nil => exact ascends_nil _ _
  | cons s rest =>
      have hle := leadingExtent_le (.node head (s :: rest))
      rw [extent] at hle
      rw [extents] at hfits hle
      rw [visits_cons, extents, ← Nat.add_assoc]
      have hfirst := Made.ascends_visit (h s List.mem_cons_self) (horderly s List.mem_cons_self) (by omega) hplaces.1
      have hrest := ascends_visits head (fun t ht => h t (List.mem_cons_of_mem _ ht))
        (fun t ht => horderly t (List.mem_cons_of_mem _ ht)) (by omega) hplaces.2
      have hplain : Ascends [.visit s start false] start (start + s.extent) := hfirst false (nomatch ·)
      have hothers : Ascends (visits false rest (start + s.extent)) (start + s.extent)
          (start + s.extent + extents rest) := hrest false (nomatch ·)
      cases pending with
      | false => exact hplain.append hothers (by omega) (by omega)
      | true =>
          have hfrom := hpending rfl
          cases htoken : s.firstToken? with
          | some t =>
              -- the trivia that was put forward is that of this slot
              have hlead : (Slot.node head (s :: rest)).leadingExtent = s.leadingExtent := by
                simp only [leadingExtent, firstToken?, firstTokenIn?, htoken]
              rw [hlead] at hfrom ⊢
              have hle := leadingExtent_le s
              have hslot : Ascends [.visit s start true] (start + s.leadingExtent) (start + s.extent) :=
                hfirst true fun _ => hfrom.slot_zero
              exact hslot.append hothers (by omega) (by omega)
          | none =>
              -- the slot stands in front of that trivia, and by assumption owns nothing, or the trivia is empty
              have hlead : (Slot.node head (s :: rest)).leadingExtent = (Slot.node head rest).leadingExtent := by
                simp only [leadingExtent, firstToken?, firstTokenIn?, htoken]
              have hempty := extent_eq_zero s htoken
              have hothers' : Ascends (visits true rest (start + s.extent))
                  (start + s.extent + (Slot.node head rest).leadingExtent) (start + s.extent + extents rest) :=
                hrest true fun _ => hfrom.tail htoken
              have hslot : Ascends [.visit s start false] (start + (Slot.node head (s :: rest)).leadingExtent)
                  (start + s.extent + (Slot.node head rest).leadingExtent) := by
                refine ⟨hplain.fault, hplain.inOrder, fun r hr => ⟨?_, ?_⟩⟩
                · exact (h s List.mem_cons_self).le_ownerStart (by omega) hplaces.1 htoken hfrom.slot_zero hr
                · exact Nat.le_trans (hplain.bounds r hr).2 (Nat.le_add_right _ _)
              refine hslot.append hothers' ?_ ?_
              · omega
              · omega

theorem ascends_firstTriviaIn (head : NodeHead) {slots : List Slot} (h : ∀ s ∈ slots, s.Made)
    (horderly : ∀ s ∈ slots, s.Orderly) {start : Nat} (hfits : start + extents slots < Size.limit)
    (hplaces : PlaceableFrom start slots) :
    Ascends (visitFirstTrivia (firstTokenIn? slots) start) start (start + (Slot.node head slots).leadingExtent) := by
  cases slots with
  | nil => exact ascends_nil _ _
  | cons s rest =>
      rw [extents] at hfits
      rw [leadingExtent, firstToken?, firstTokenIn?]
      cases htoken : s.firstToken? with
      | some t =>
          have hfirst := Made.ascends_firstTrivia (h s List.mem_cons_self) (horderly s List.mem_cons_self) (by omega)
            hplaces.1
          rw [leadingExtent, htoken] at hfirst
          exact hfirst
      | none =>
          have hrest := ascends_firstTriviaIn head (fun t ht => h t (List.mem_cons_of_mem _ ht))
            (fun t ht => horderly t (List.mem_cons_of_mem _ ht)) (by omega) hplaces.2
          rw [extent_eq_zero s htoken] at hrest
          exact hrest

theorem Made.ascends_firstTrivia {s : Slot} (h : s.Made) (horderly : s.Orderly) {start : Nat}
    (hfits : start + s.extent < Size.limit) (hplaces : s.Placeable start) :
    Ascends (visitFirstTrivia s.firstToken? start) start (start + s.leadingExtent) := by
  cases s with
  | absent => exact ascends_nil _ _
  | token head leading =>
      rw [extent] at hfits
      have hleading : Ascends [.visit leading start false] start (start + leading.extent) :=
        Made.ascends_visit h.token_parts.1 horderly.leading (by omega) hplaces.leading false (nomatch ·)
      exact hleading.of_eq (ofStack_visitTrivia leading start)
  | node head slots => exact ascends_firstTriviaIn head h.slots horderly.slots hfits hplaces.slots

end

/-! ## Reports that are in order -/

theorem branch_slot_token (head : TokenHead) (leading : Slot) (i : Nat) :
    (Slot.token head leading).branch (.slot i) = .absent := rfl

theorem mem_placesFrom_of_slot {slots : List Slot} {i j : Nat} {place : List Branch}
    (h : ∀ done, place ∈ (slots[j]?.getD .absent).places done) (pending : Bool) :
    .slot (i + j) :: place ∈ placesFrom i slots pending := by
  induction slots generalizing i j pending with
  | nil => exact absurd (h false) List.not_mem_nil
  | cons s rest ih =>
      rw [placesFrom, List.mem_append]
      cases j with
      | zero => exact .inl (List.mem_map_of_mem (h _))
      | succ j =>
          have hrest := ih (i := i + 1) h (pending && !s.firstToken?.isSome)
          rw [Nat.add_assoc, Nat.add_comm 1 j] at hrest
          exact .inr hrest

/-- The ends of paths of slots are never in trivia, so no visit leaves them out. -/
theorem mem_places_of_path {s : Slot} {path : List Nat} (h : (s.part (path.map .slot)).isPresent = true) (done : Bool) :
    path.map .slot ∈ s.places done := by
  induction path generalizing s done with
  | nil =>
      cases s with
      | absent => cases h
      | token head leading => exact List.mem_append_right _ List.mem_cons_self
      | node head slots => exact List.mem_cons_self
  | cons i rest ih =>
      cases s with
      | absent =>
          rw [part_absent] at h
          cases h
      | token head leading =>
          rw [List.map_cons, part, branch_slot_token, part_absent] at h
          cases h
      | node head slots =>
          have hmem := mem_placesFrom_of_slot (i := 0) (fun done => ih h done) done
          rw [Nat.zero_add] at hmem
          exact List.mem_cons_of_mem _ hmem

theorem not_forerunner_token (head : TokenHead) (leading : Slot) : ¬ (Slot.token head leading).Forerunner := by
  rintro ⟨path, htokenless, hown, -⟩
  cases path with
  | nil => cases htokenless
  | cons i rest =>
      rw [List.map_cons, part, branch_slot_token, part_absent] at hown
      exact hown rfl

/-- An owner that is reported before all that stands in its slots has no forerunner, if the report is in order. -/
theorem not_forerunner_of_le {head : NodeHead} {slots : List Slot} {start : Nat} {pending : Bool}
    (hlists : Lists (visits pending slots start) (.node head slots) start (placesFrom 0 slots pending))
    (hle : ∀ r ∈ (ofStack (visits pending slots start)).found,
      start + (Slot.node head slots).leadingExtent ≤ r.ownerStart) : ¬ (Slot.node head slots).Forerunner := by
  refine ownsFrom_iff.1 fun path hown => ?_
  cases path with
  | nil => exact Nat.le_add_left _ _
  | cons i rest =>
      have hpresent : ((Slot.node head slots).part ((i :: rest).map .slot)).isPresent = true := by
        cases hpart : (Slot.node head slots).part ((i :: rest).map .slot) with
        | absent =>
            rw [hpart] at hown
            exact absurd rfl hown
        | token _ _ => rfl
        | node _ _ => rfl
      have hmem : (i :: rest).map .slot ∈ placesFrom 0 slots pending :=
        (List.mem_cons.1 (mem_places_of_path hpresent pending)).resolve_left (List.cons_ne_nil _ _)
      obtain ⟨d, hd⟩ := List.exists_mem_of_ne_nil _ hown
      obtain ⟨order, horder, hrun⟩ := hlists
      rw [hrun] at hle
      have hmark := hle _ (List.mem_flatMap.2 ⟨_, horder.mem_iff.2 hmem, List.mem_map_of_mem hd⟩)
      rw [Diagnostic.ownerStart_placed] at hmark
      omega

mutual

/-- A visit that reports in order finds no owner with a forerunner, in the trivia that was put forward neither. -/
theorem Made.orderly_of_inOrder {s : Slot} (h : s.Made) {start : Nat} (hfits : start + s.extent < Size.limit)
    (hplaces : s.Placeable start) (done : Bool)
    (hdone : done = true → (ofStack (visitFirstTrivia s.firstToken? start)).InOrder)
    (horder : (ofStack [.visit s start done]).InOrder) : s.Orderly := by
  cases hflag : s.flags.diagnostics with
  | false =>
      intro f hf hown
      have hset := h.diagnostics_iff.2 ⟨f, hf, hown⟩
      exact absurd (hset.symm.trans hflag) (by decide)
  | true =>
      cases s with
      | absent => cases hflag
      | token head leading =>
          rw [extent] at hfits
          have hleading : (ofStack (visitTrivia leading start)).InOrder := by
            cases done with
            | true => exact hdone rfl
            | false =>
                have hlists := lists_visitTrivia (h.token_parts.1.lists_visit (by omega) hplaces.leading false)
                rw [Report.ofStack_visit_ok (h.expand_token (by omega) hflag false), List.append_nil] at horder
                exact ((Report.inOrder_append hlists.fault).1 horder).1
          rw [ofStack_visitTrivia] at hleading
          have hinner := Made.orderly_of_inOrder h.token_parts.1 (by omega) hplaces.leading false (nomatch ·) hleading
          intro f hf hown
          cases hf with
          | self => exact not_forerunner_token head leading
          | leading hf => exact hinner f hf hown
      | node head slots =>
          have hemit := hplaces.lists_emit
          have htrivia := lists_trivia head [] rfl h.slots hfits hplaces
          have hvisits := lists_visits head [] h.slots hfits hplaces
          rw [Report.ofStack_visit_ok (h.expand_node hfits hflag done), List.append_nil] at horder
          generalize hhoist : (!done && !head.diagnostics.isEmpty) = hoist at horder
          have hfault :
              (ofStack (if hoist then visitFirstTrivia (firstTokenIn? slots) start else [])).fault = none := by
            cases hoist with
            | true => exact htrivia.fault
            | false => exact (ascends_nil 0 0).fault
          obtain ⟨hforward, hrest, -⟩ := (Report.inOrder_append hfault).1 horder
          obtain ⟨-, hinside, hle⟩ := (Report.inOrder_append hemit.fault).1 hrest
          have hslots := orderly_of_inOrder_visits h.slots hfits hplaces.slots (done || hoist) (fun hpending => by
            cases done with
            | true => exact hdone rfl
            | false =>
                obtain rfl : hoist = true := hpending
                exact hforward) hinside
          intro f hf hown
          cases hf with
          | slot hs hf => exact hslots _ hs f hf hown
          | self =>
              refine not_forerunner_of_le (hvisits (done || hoist)) fun r hr => ?_
              obtain ⟨d, hd⟩ := List.exists_mem_of_ne_nil _ hown
              rw [hplaces.ofStack_emit] at hle
              have hmark := hle _ (List.mem_map_of_mem hd) r hr
              rw [Diagnostic.ownerStart_placed] at hmark
              exact hmark

theorem orderly_of_inOrder_visits {slots : List Slot} (h : ∀ s ∈ slots, s.Made) {start : Nat}
    (hfits : start + extents slots < Size.limit) (hplaces : PlaceableFrom start slots) (pending : Bool)
    (hpending : pending = true → (ofStack (visitFirstTrivia (firstTokenIn? slots) start)).InOrder)
    (horder : (ofStack (visits pending slots start)).InOrder) : ∀ s ∈ slots, s.Orderly := by
  cases slots with
  | nil => exact fun s hs => absurd hs List.not_mem_nil
  | cons s rest =>
      rw [extents] at hfits
      rw [visits_cons] at horder
      have hlists := (h s List.mem_cons_self).lists_visit (by omega) hplaces.1 (pending && s.firstToken?.isSome)
      obtain ⟨hfirst, hothers, -⟩ := (Report.inOrder_append hlists.fault).1 horder
      have hs : s.Orderly := by
        refine Made.orderly_of_inOrder (h s List.mem_cons_self) (by omega) hplaces.1 _ (fun hdone => ?_) hfirst
        obtain ⟨hp, htoken⟩ := Bool.and_eq_true_iff.1 hdone
        have hforward := hpending hp
        obtain ⟨t, ht⟩ := Option.isSome_iff_exists.1 htoken
        rw [firstTokenIn?, ht] at hforward
        rw [ht]
        exact hforward
      have hrest : ∀ t ∈ rest, t.Orderly := by
        refine orderly_of_inOrder_visits (fun t ht => h t (List.mem_cons_of_mem _ ht)) (by omega) hplaces.2 _
          (fun hdone => ?_) hothers
        obtain ⟨hp, htokenless⟩ := Bool.and_eq_true_iff.1 hdone
        have hforward := hpending hp
        have hnone : s.firstToken? = none := by simpa using htokenless
        rw [firstTokenIn?, hnone] at hforward
        rw [extent_eq_zero s hnone]
        exact hforward
      exact List.forall_mem_cons.2 ⟨hs, hrest⟩

end

end Slot

/-- **When a report comes in document order.** If the fact and all that is owned in it have a place in the text, the
report ends without a fault. The starts of the owners never decrease iff no node or token, leading trivia at any depth
included, that owns diagnostics has a forerunner: a node without a token in front of its trivia that owns some too. -/
theorem report_inOrder_iff {e : Slot} (he : e.Obtainable) {start width : Nat} (hwidth : e.fullWidth = .ok width)
    (hfits : start + width < Size.limit)
    (hplaces : ∀ place, ∀ r ∈ e.ownMarks start place, r.range.stop < Size.limit) :
    (e.report start).fault = none ∧
    (((e.report start).found.map Resolved.ownerStart).Pairwise (· ≤ ·) ↔
      ∀ f : Slot, f.Within e → f.diagnostics ≠ [] → ¬ f.Forerunner) := by
  have hmade := Slot.obtainable_iff_made.1 he
  rw [hmade.fullWidth_eq] at hwidth
  obtain ⟨rfl, -⟩ := Size.ofNat_eq_ok_iff.1 hwidth
  refine ⟨(hmade.lists_visit hfits hplaces false).fault, ?_, ?_⟩
  · exact hmade.orderly_of_inOrder hfits hplaces false (nomatch ·)
  · intro horderly
    exact (hmade.ascends_visit horderly hfits hplaces false (nomatch ·)).inOrder

/-- A node without a token, and a name behind a blank, in a node; both nodes own a diagnostic. -/
def forerunList (blank : Nat) : Except Fault Node := do
  let gap ← Node.make 0 .nameRef []
  let gap ← gap.withDiagnostics 1 [.error Diagnostic.expectedToken 0 0]
  let name := Token.assemble 3 (Token.plain 2 .whitespace blank).toSlot .name 3 false []
  let list ← Node.make 4 .list [gap.toSlot, name.toSlot]
  list.withDiagnostics 5 [.error Diagnostic.unexpectedToken 0 3]

theorem forerunList_obtainable {blank : Nat} {n : Node} (h : forerunList blank = .ok n) : n.toSlot.Obtainable := by
  obtain ⟨bare, hbare, h⟩ := bind_eq_ok_iff.1 h
  obtain ⟨gap, hgap, h⟩ := bind_eq_ok_iff.1 h
  obtain ⟨list, hlist, h⟩ := bind_eq_ok_iff.1 h
  refine .nodeDiagnostics (.node ?_ hlist) h
  simp only [List.mem_cons, List.not_mem_nil, or_false, forall_eq_or_imp, forall_eq]
  refine ⟨.nodeDiagnostics (.node (fun s hs => absurd hs List.not_mem_nil) hbare) hgap, ?_⟩
  refine .token (.plain 2 .whitespace blank) (Token.assembleChecked_eq_ok_iff.2 ⟨?_, rfl⟩)
  show (Slot.token _ _).tokens.all _ = true
  rw [Slot.tokens_token]
  rfl

/-- Without text in front of the name both nodes start at once, and nothing comes too late. -/
theorem forerunList_in_order : ∃ n : Node, forerunList 0 = .ok n ∧ n.toSlot.Obtainable ∧
    n.toSlot.fullWidth = .ok 3 ∧ 7 + 3 < Size.limit ∧ n.toSlot.Placeable 7 ∧ (n.toSlot.report 7).fault = none ∧
    (n.toSlot.report 7).found.map Resolved.ownerStart = [7, 7] ∧
    ∀ f : Slot, f.Within n.toSlot → f.diagnostics ≠ [] → ¬ f.Forerunner := by
  have hstarts : (forerunList 0).toOption.map (fun n => (n.toSlot.report 7).found.map Resolved.ownerStart) =
      some [7, 7] := by decide +kernel
  obtain ⟨n, hn, hwidth, hplaces⟩ : ∃ n : Node, forerunList 0 = .ok n ∧ n.toSlot.fullWidth = .ok 3 ∧
      ∀ place ∈ n.toSlot.places false, ∀ r ∈ n.toSlot.ownMarks 7 place, r.range.stop < Size.limit :=
    ⟨_, rfl, rfl, by decide +kernel⟩
  rw [hn] at hstarts
  replace hstarts : (n.toSlot.report 7).found.map Resolved.ownerStart = [7, 7] := Option.some.inj hstarts
  have hplaceable := Slot.placeable_of_places hplaces
  obtain ⟨hfault, hiff⟩ := report_inOrder_iff (forerunList_obtainable hn) hwidth (by decide) hplaceable
  refine ⟨n, hn, forerunList_obtainable hn, hwidth, by decide, hplaceable, hfault, hstarts, hiff.1 ?_⟩
  rw [hstarts]
  decide

/-- With a blank in front of the name the outer node starts behind it, and the inner one comes too late. -/
theorem forerunList_out_of_order : ∃ n : Node, forerunList 2 = .ok n ∧ n.toSlot.Obtainable ∧
    n.toSlot.fullWidth = .ok 5 ∧ 0 + 5 < Size.limit ∧ n.toSlot.Placeable 0 ∧ (n.toSlot.report 0).fault = none ∧
    (n.toSlot.report 0).found.map (·.range) = [⟨2, 5⟩, ⟨0, 0⟩] ∧
    ¬ ((n.toSlot.report 0).found.map Resolved.ownerStart).Pairwise (· ≤ ·) := by
  have hreport : (forerunList 2).toOption.map (fun n => ((n.toSlot.report 0).found.map (·.range),
      (n.toSlot.report 0).found.map Resolved.ownerStart)) = some ([⟨2, 5⟩, ⟨0, 0⟩], [2, 0]) := by decide +kernel
  obtain ⟨n, hn, hwidth, hplaces⟩ : ∃ n : Node, forerunList 2 = .ok n ∧ n.toSlot.fullWidth = .ok 5 ∧
      ∀ place ∈ n.toSlot.places false, ∀ r ∈ n.toSlot.ownMarks 0 place, r.range.stop < Size.limit :=
    ⟨_, rfl, rfl, by decide +kernel⟩
  rw [hn] at hreport
  obtain ⟨hranges, hstarts⟩ := Prod.mk.inj (Option.some.inj hreport)
  have hmade := Slot.obtainable_iff_made.1 (forerunList_obtainable hn)
  have hplaceable := Slot.placeable_of_places hplaces
  rw [hmade.fullWidth_eq] at hwidth
  have hextent := (Size.ofNat_eq_ok_iff.1 hwidth).1
  have hfits : 0 + n.toSlot.extent < Size.limit := by rw [hextent]; decide
  have hlists := hmade.lists_visit hfits hplaceable false
  refine ⟨n, hn, forerunList_obtainable hn, hmade.fullWidth_eq.trans hwidth, by decide, hplaceable, hlists.fault,
    hranges, ?_⟩
  rw [hstarts]
  decide

end LosslessSyntax
