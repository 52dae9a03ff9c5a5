import Mathlib.Data.List.Nodup
import LosslessSyntax.Proofs.Fact.Report

/-!
# Every occurrence is reported once

One fact can stand in several places of a tree, and in each of them it owns its diagnostics anew. A place is a list of
branches from the top: into a slot of a node, or into the trivia of a token. A node with diagnostics of its own puts
the trivia of its first token forward, so a report does not follow the places in their order, and the flag that keeps
this trivia from a second visit goes down to that token past all slots without one.

* `Slot.part` : the fact at a place, and `Slot.ownMarks` : what it owns there;
* `Slot.places` : all places, or all but those in the trivia of the first token;
* `Slot.mem_places`, `Slot.nodup_places` : they are all there, each once;
* `Slot.places_perm` : the trivia of the first token and the rest make up the whole;
* `Report.Lists` : steps of the walk report what given places own, place by place;
* `Slot.Made.lists_visit`, `Slot.lists_trivia` : what a visit lists, and what a visit to trivia put forward does;
* `Slot.Made.report_occurrences` : a report lists every occurrence once.
-/

set_option autoImplicit false

namespace LosslessSyntax

/-- A way from a fact to one directly in it. -/
inductive Branch where
  | slot (index : Nat)
  | leading
deriving DecidableEq

namespace Slot

/-! ## Places -/

/-- The fact directly behind a branch; absent if there is none. -/
def branch : Slot → Branch → Slot
  | .token _ leading, .leading => leading
  | .node _ slots, .slot i => slots[i]?.getD .absent
  | _, _ => .absent

def branchStart : Slot → Branch → Nat
  | .node _ slots, .slot i => extents (slots.take i)
  | _, _ => 0

/-- The fact at a place; absent if there is none. -/
def part : Slot → List Branch → Slot
  | s, [] => s
  | s, b :: rest => (s.branch b).part rest

def partStart : Slot → List Branch → Nat
  | _, [] => 0
  | s, b :: rest => s.branchStart b + (s.branch b).partStart rest

/-- The diagnostics that the fact at a place owns there, when the whole starts at `start`. Its span starts behind the
widths in front of the place and its own leading trivia. -/
def ownMarks (s : Slot) (start : Nat) (place : List Branch) : List Resolved :=
  (s.part place).diagnostics.map (Diagnostic.placed (start + s.partStart place + (s.part place).leadingExtent))

theorem ownMarks_cons (s : Slot) (start : Nat) (b : Branch) (place : List Branch) :
    s.ownMarks start (b :: place) = (s.branch b).ownMarks (start + s.branchStart b) place := by
  unfold ownMarks
  rw [part, partStart, ← Nat.add_assoc]

theorem part_absent (place : List Branch) : Slot.absent.part place = .absent := by
  induction place with
  | nil => rfl
  | cons b rest ih => exact ih

theorem branch_within {s : Slot} {b : Branch} (h : (s.branch b).isPresent = true) :
    ∀ {f : Slot}, f.Within (s.branch b) → f.Within s := by
  intro f hf
  cases s with
  | absent => cases h
  | token head leading =>
      cases b with
      | leading => exact .leading hf
      | slot i => cases h
  | node head slots =>
      cases b with
      | leading => cases h
      | slot i =>
          have hget : slots[i]? = some (slots[i]?.getD .absent) := by
            cases hslot : slots[i]? with
            | some child => rfl
            | none =>
                replace h : (slots[i]?.getD .absent).isPresent = true := h
                rw [hslot] at h
                cases h
          exact .slot (List.mem_of_getElem? hget) hf

theorem isPresent_of_part {s : Slot} {place : List Branch} (h : (s.part place).isPresent = true) :
    s.isPresent = true := by
  cases s with
  | absent =>
      rw [part_absent] at h
      exact h
  | token head leading => rfl
  | node head slots => rfl

theorem part_within {s : Slot} {place : List Branch} (h : (s.part place).isPresent = true) :
    (s.part place).Within s := by
  induction place generalizing s with
  | nil => exact .self
  | cons b rest ih => exact branch_within (isPresent_of_part h) (ih h)

theorem ownMarks_eq_nil_of_absent {s : Slot} {place : List Branch} (h : (s.part place).isPresent = false)
    (start : Nat) : s.ownMarks start place = [] := by
  unfold ownMarks
  cases hpart : s.part place with
  | absent => rfl
  | token _ _ =>
      rw [hpart] at h
      cases h
  | node _ _ =>
      rw [hpart] at h
      cases h

/-- What has no flag owns nothing anywhere. -/
theorem Made.ownMarks_eq_nil {s : Slot} (h : s.Made) (hflag : s.flags.diagnostics = false) (start : Nat)
    (place : List Branch) : s.ownMarks start place = [] := by
  cases hpresent : (s.part place).isPresent with
  | false => exact ownMarks_eq_nil_of_absent hpresent start
  | true =>
      have hnone : (s.part place).diagnostics = [] := by
        by_contra hne
        have hset := h.diagnostics_iff.2 ⟨_, part_within hpresent, hne⟩
        exact absurd (hset.symm.trans hflag) (by decide)
      rw [ownMarks, hnone, List.map_nil]

mutual

/-- The places in a fact. If the flag is set, those in the leading trivia of the first token are left out. -/
def places : Slot → Bool → List (List Branch)
  | .absent, _ => []
  | .token _ leading, done => (if done then [] else (leading.places false).map (.leading :: ·)) ++ [[]]
  | .node _ slots, done => [] :: placesFrom 0 slots done

/-- The places in slots, the first of which has the number `i`. -/
def placesFrom (i : Nat) : List Slot → Bool → List (List Branch)
  | [], _ => []
  | s :: rest, done =>
    (s.places (done && s.firstToken?.isSome)).map (.slot i :: ·) ++
      placesFrom (i + 1) rest (done && !s.firstToken?.isSome)

end

theorem mem_placesFrom_false {slots : List Slot} {i : Nat} {place : List Branch} :
    place ∈ placesFrom i slots false ↔
      ∃ j rest, place = .slot (i + j) :: rest ∧ rest ∈ (slots[j]?.getD .absent).places false := by
  induction slots generalizing i with
  | nil => simp [placesFrom, places]
  | cons s others ih =>
      simp only [placesFrom, Bool.false_and, List.mem_append, List.mem_map, ih]
      constructor
      · rintro (⟨rest, hrest, rfl⟩ | ⟨j, rest, rfl, hrest⟩)
        · exact ⟨0, rest, rfl, hrest⟩
        · exact ⟨j + 1, rest, by rw [Nat.add_assoc, Nat.add_comm 1], hrest⟩
      · rintro ⟨j, rest, rfl, hrest⟩
        cases j with
        | zero => exact .inl ⟨rest, hrest, rfl⟩
        | succ j => exact .inr ⟨j, rest, by rw [Nat.add_assoc, Nat.add_comm 1], hrest⟩

theorem mem_places {s : Slot} {place : List Branch} : place ∈ s.places false ↔ (s.part place).isPresent = true := by
  induction place generalizing s with
  | nil =>
      cases s with
      | absent => simp [places, part, isPresent]
      | token head leading => simp [places, part, isPresent]
      | node head slots => simp [places, part, isPresent]
  | cons b rest ih =>
      rw [part, ← ih]
      cases s with
      | absent => simp [places, branch]
      | token head leading => cases b <;> simp [places, branch]
      | node head slots =>
          cases b with
          | leading => simp [places, branch, mem_placesFrom_false]
          | slot i =>
              simp only [places, branch, List.mem_cons, reduceCtorEq, false_or, mem_placesFrom_false, Nat.zero_add,
                List.cons.injEq, Branch.slot.injEq]
              constructor
              · rintro ⟨j, rest', ⟨rfl, rfl⟩, hrest⟩
                exact hrest
              · intro hrest
                exact ⟨i, rest, ⟨rfl, rfl⟩, hrest⟩

mutual

theorem nodup_places (s : Slot) : (s.places false).Nodup := by
  cases s with
  | absent => exact List.nodup_nil
  | token head leading =>
      have hleading : ((leading.places false).map (Branch.leading :: ·)).Nodup :=
        (nodup_places leading).map (List.cons_injective)
      rw [places, if_neg Bool.false_ne_true]
      refine hleading.append (List.nodup_singleton _) ?_
      simp [List.Disjoint]
  | node head slots =>
      refine List.nodup_cons.2 ⟨?_, nodup_placesFrom 0 slots⟩
      simp [mem_placesFrom_false]

theorem nodup_placesFrom (i : Nat) (slots : List Slot) : (placesFrom i slots false).Nodup := by
  cases slots with
  | nil => exact List.nodup_nil
  | cons s rest =>
      have hfirst : ((s.places false).map (Branch.slot i :: ·)).Nodup := (nodup_places s).map (List.cons_injective)
      refine hfirst.append (nodup_placesFrom (i + 1) rest) ?_
      intro place hplace hother
      obtain ⟨_, -, rfl⟩ := List.mem_map.1 hplace
      obtain ⟨j, _, heq, -⟩ := mem_placesFrom_false.1 hother
      have hindex : i = i + 1 + j := Branch.slot.inj (List.cons.inj heq).1
      omega

end

/-! ## The trivia of the first token -/

mutual

def triviaPlaces : Slot → List (List Branch)
  | .absent => []
  | .token _ leading => (leading.places false).map (.leading :: ·)
  | .node _ slots => triviaPlacesFrom 0 slots

/-- The places in the leading trivia of the first token of slots, the first of which has the number `i`. -/
def triviaPlacesFrom (i : Nat) : List Slot → List (List Branch)
  | [] => []
  | s :: rest =>
    if s.firstToken?.isSome then s.triviaPlaces.map (.slot i :: ·) else triviaPlacesFrom (i + 1) rest

end

mutual

/-- The trivia of the first token and the rest make up the whole. -/
theorem places_perm (s : Slot) : (s.triviaPlaces ++ s.places true).Perm (s.places false) := by
  cases s with
  | absent => exact .nil
  | token head leading => exact .refl _
  | node head slots => exact List.perm_middle.trans ((placesFrom_perm 0 slots).cons [])

theorem placesFrom_perm (i : Nat) (slots : List Slot) :
    (triviaPlacesFrom i slots ++ placesFrom i slots true).Perm (placesFrom i slots false) := by
  cases slots with
  | nil => exact .nil
  | cons s rest =>
      have hfirst := (places_perm s).map (Branch.slot i :: ·)
      have hrest := placesFrom_perm (i + 1) rest
      rw [List.map_append] at hfirst
      simp only [triviaPlacesFrom, placesFrom, Bool.true_and, Bool.false_and]
      cases s.firstToken?.isSome with
      | true =>
          rw [if_pos rfl, ← List.append_assoc]
          exact hfirst.append_right _
      | false =>
          rw [if_neg Bool.false_ne_true]
          refine List.Perm.trans ?_ (hrest.append_left _)
          rw [← List.append_assoc, ← List.append_assoc]
          exact List.perm_append_comm.append_right _

end

mutual

theorem extent_eq_zero (s : Slot) (h : s.firstToken? = none) : s.extent = 0 := by
  cases s with
  | absent => rfl
  | token head leading => cases h
  | node head slots => exact extents_eq_zero slots h

theorem extents_eq_zero (slots : List Slot) (h : firstTokenIn? slots = none) : extents slots = 0 := by
  cases slots with
  | nil => rfl
  | cons s rest =>
      rw [firstTokenIn?] at h
      cases hs : s.firstToken? with
      | some t =>
          rw [hs] at h
          cases h
      | none =>
          rw [hs] at h
          rw [extents, extent_eq_zero s hs, extents_eq_zero rest h]

end

end Slot

/-! ## The walk -/

namespace Report

/-- The steps report what the fact at each of the places owns, one place after the other in some order. -/
def Lists (ws : List Work) (s : Slot) (start : Nat) (places : List (List Branch)) : Prop :=
  ∃ order : List (List Branch), order.Perm places ∧ ofStack ws = ⟨order.flatMap (s.ownMarks start), none⟩

variable {ws vs : List Work} {s : Slot} {start : Nat} {ps qs : List (List Branch)}

theorem Lists.perm (h : Lists ws s start ps) (hperm : ps.Perm qs) : Lists ws s start qs := by
  obtain ⟨order, horder, hrun⟩ := h
  exact ⟨order, horder.trans hperm, hrun⟩

theorem Lists.append (h : Lists ws s start ps) (h' : Lists vs s start qs) : Lists (ws ++ vs) s start (ps ++ qs) := by
  obtain ⟨order, horder, hrun⟩ := h
  obtain ⟨order', horder', hrun'⟩ := h'
  refine ⟨order ++ order', horder.append horder', ?_⟩
  rw [ofStack_append, hrun, hrun', List.flatMap_append]
  rfl

/-- What is listed behind a branch is listed in the whole. -/
theorem Lists.branch {b : Branch} (h : Lists ws (s.branch b) (start + s.branchStart b) ps) :
    Lists ws s start (ps.map (b :: ·)) := by
  obtain ⟨order, horder, hrun⟩ := h
  refine ⟨order.map (b :: ·), horder.map _, ?_⟩
  rw [hrun, List.flatMap_map]
  simp only [Slot.ownMarks_cons]

theorem Lists.visit {fact : Slot} {fullStart : Nat} {done : Bool} (hlists : Lists ws s start ps)
    (h : expand fact fullStart done = .ok ws) : Lists [.visit fact fullStart done] s start ps := by
  obtain ⟨order, horder, hrun⟩ := hlists
  refine ⟨order, horder, ?_⟩
  rw [ofStack_visit_ok h, List.append_nil, hrun]

theorem lists_nil (h : ∀ place ∈ ps, s.ownMarks start place = []) : Lists [] s start ps := by
  refine ⟨ps, .refl ps, ?_⟩
  rw [ofStack, List.flatMap_eq_nil_iff.2 h]

end Report

namespace Slot

open Report (Lists lists_nil visits visitTrivia visitFirstTrivia)

/-- All that is owned in the fact has its place in the text. -/
def Placeable (s : Slot) (start : Nat) : Prop := ∀ place, ∀ r ∈ s.ownMarks start place, r.range.stop < Size.limit

theorem placeable_of_places {s : Slot} {start : Nat}
    (h : ∀ place ∈ s.places false, ∀ r ∈ s.ownMarks start place, r.range.stop < Size.limit) : s.Placeable start := by
  intro place r hr
  cases hpresent : (s.part place).isPresent with
  | true => exact h place (mem_places.2 hpresent) r hr
  | false =>
      rw [ownMarks_eq_nil_of_absent hpresent] at hr
      exact absurd hr List.not_mem_nil

theorem Placeable.branch {s : Slot} {start : Nat} (h : s.Placeable start) (b : Branch) :
    (s.branch b).Placeable (start + s.branchStart b) := by
  intro place r hr
  rw [← ownMarks_cons] at hr
  exact h (b :: place) r hr

theorem Placeable.leading {head : TokenHead} {leading : Slot} {start : Nat}
    (h : (Slot.token head leading).Placeable start) : leading.Placeable start := h.branch .leading

theorem Placeable.lists_emit {s : Slot} {start : Nat} (h : s.Placeable start) :
    Lists [.emit s.diagnostics (start + s.leadingExtent)] s start [[]] := by
  refine ⟨[[]], .refl _, ?_⟩
  have hplaced : ∀ d ∈ s.diagnostics, (d.placed (start + s.leadingExtent)).range.stop < Size.limit :=
    fun d hd => h [] _ (List.mem_map_of_mem hd)
  rw [Report.ofStack, Report.ofOwner_eq hplaced, Report.ofStack]
  rfl

/-! The slots of a node are seen from the node, with those in `front` before them. -/

theorem branch_behind (head : NodeHead) (front : List Slot) (s : Slot) (rest : List Slot) :
    (Slot.node head (front ++ s :: rest)).branch (.slot front.length) = s ∧
      (Slot.node head (front ++ s :: rest)).branchStart (.slot front.length) = extents front :=
  ⟨getD_behind front s rest, congrArg extents List.take_left⟩

theorem Placeable.slot {head : NodeHead} {front : List Slot} {s : Slot} {rest : List Slot} {start : Nat}
    (h : (Slot.node head (front ++ s :: rest)).Placeable start) : s.Placeable (start + extents front) := by
  obtain ⟨hbranch, hstart⟩ := branch_behind head front s rest
  have hplaced := h.branch (.slot front.length)
  rw [hbranch, hstart] at hplaced
  exact hplaced

theorem lists_slot {ws : List Report.Work} {front : List Slot} {s : Slot} {start : Nat} {ps : List (List Branch)}
    (h : Lists ws s (start + extents front) ps) (head : NodeHead) (rest : List Slot) :
    Lists ws (.node head (front ++ s :: rest)) start (ps.map (.slot front.length :: ·)) := by
  obtain ⟨hbranch, hstart⟩ := branch_behind head front s rest
  apply Lists.branch
  rw [hbranch, hstart]
  exact h

theorem lists_visitTrivia {trivia s : Slot} {start : Nat} {ps : List (List Branch)}
    (h : Lists [.visit trivia start false] s start ps) : Lists (visitTrivia trivia start) s start ps := by
  obtain ⟨order, horder, hrun⟩ := h
  exact ⟨order, horder, (ofStack_visitTrivia trivia start).trans hrun⟩

mutual

/-- A visit lists what is owned in the fact, up to the trivia that has been put forward. -/
theorem Made.lists_visit {s : Slot} (h : s.Made) {start : Nat} (hfits : start + s.extent < Size.limit)
    (hplaces : s.Placeable start) (done : Bool) : Lists [.visit s start done] s start (s.places done) := by
  cases hflag : s.flags.diagnostics with
  | false =>
      have hnone : Lists [] s start (s.places done) := lists_nil fun place _ => h.ownMarks_eq_nil hflag start place
      exact hnone.visit (expand_pruned start done hflag)
  | true =>
      have hown := hplaces.lists_emit
      cases s with
      | absent => cases hflag
      | token head leading =>
          rw [extent] at hfits
          have hleading : Lists [.visit leading start false] leading start (leading.places false) :=
            Made.lists_visit h.token_parts.1 (by omega) hplaces.leading false
          refine Lists.visit ?_ (h.expand_token (by omega) hflag done)
          cases done with
          | true => exact hown
          | false => exact (lists_visitTrivia hleading.branch).append hown
      | node head slots =>
          have hvisits : ∀ pending, Lists (visits pending slots start) (.node head slots) start
              (placesFrom 0 slots pending) := lists_visits head [] h.slots hfits hplaces
          have htrivia : Lists (visitFirstTrivia (firstTokenIn? slots) start) (.node head slots) start
              (triviaPlacesFrom 0 slots) := lists_trivia head [] rfl h.slots hfits hplaces
          refine Lists.visit ?_ (h.expand_node hfits hflag done)
          cases hhoist : (!done && !head.diagnostics.isEmpty) with
          | false =>
              rw [Bool.or_false]
              exact hown.append (hvisits done)
          | true =>
              obtain rfl : done = false := by
                cases done with
                | true => cases hhoist
                | false => rfl
              exact (htrivia.append (hown.append (hvisits true))).perm (places_perm (.node head slots))

theorem lists_visits (head : NodeHead) (front : List Slot) {slots : List Slot} (h : ∀ s ∈ slots, s.Made) {start : Nat}
    (hfits : start + extents (front ++ slots) < Size.limit)
    (hplaces : (Slot.node head (front ++ slots)).Placeable start) (pending : Bool) :
    Lists (visits pending slots (start + extents front)) (.node head (front ++ slots)) start
      (placesFrom front.length slots pending) := by
  cases slots with
  | nil => exact lists_nil fun place hplace => absurd hplace List.not_mem_nil
  | cons s rest =>
      have hsum : extents (front ++ s :: rest) = extents front + (s.extent + extents rest) := extents_append _ _
      have hfirst := Made.lists_visit (h s List.mem_cons_self) (by omega) hplaces.slot
        (pending && s.firstToken?.isSome)
      have hrest := lists_visits head (front ++ [s]) (fun t ht => h t (List.mem_cons_of_mem _ ht))
        (by rw [List.append_assoc]; exact hfits) (by rw [List.append_assoc]; exact hplaces)
        (pending && !s.firstToken?.isSome)
      rw [List.append_assoc, List.singleton_append, List.length_append, List.length_singleton, extents_append, extents,
        extents, Nat.add_zero, ← Nat.add_assoc] at hrest
      have hboth := (lists_slot hfirst head rest).append hrest
      cases pending <;> exact hboth

/-- The trivia of the first token lies where the node starts: what comes before that token has no text. -/
theorem lists_trivia (head : NodeHead) (front : List Slot) (hfront : extents front = 0) {slots : List Slot}
    (h : ∀ s ∈ slots, s.Made) {start : Nat} (hfits : start + extents (front ++ slots) < Size.limit)
    (hplaces : (Slot.node head (front ++ slots)).Placeable start) :
    Lists (visitFirstTrivia (firstTokenIn? slots) start) (.node head (front ++ slots)) start
      (triviaPlacesFrom front.length slots) := by
  cases slots with
  | nil => exact lists_nil fun place hplace => absurd hplace List.not_mem_nil
  | cons s rest =>
      have hsum : extents (front ++ s :: rest) = extents front + (s.extent + extents rest) := extents_append _ _
      rw [firstTokenIn?, triviaPlacesFrom]
      cases hfirst : s.firstToken? with
      | some t =>
          have htrivia : Lists (visitFirstTrivia s.firstToken? (start + extents front)) s (start + extents front)
              s.triviaPlaces := Made.lists_firstTrivia (h s List.mem_cons_self) (by omega) hplaces.slot
          rw [hfirst] at htrivia
          have hslot := lists_slot htrivia head rest
          rw [hfront] at hslot
          exact hslot
      | none =>
          have hempty : extents (front ++ [s]) = 0 := by
            simp [extents_append, hfront, extents, extent_eq_zero s hfirst]
          have hrest := lists_trivia head (front ++ [s]) hempty
            (fun t ht => h t (List.mem_cons_of_mem _ ht)) (by rw [List.append_assoc]; exact hfits)
            (by rw [List.append_assoc]; exact hplaces)
          rw [List.append_assoc, List.singleton_append, List.length_append, List.length_singleton] at hrest
          exact hrest

theorem Made.lists_firstTrivia {s : Slot} (h : s.Made) {start : Nat} (hfits : start + s.extent < Size.limit)
    (hplaces : s.Placeable start) : Lists (visitFirstTrivia s.firstToken? start) s start s.triviaPlaces := by
  cases s with
  | absent => exact lists_nil fun place hplace => absurd hplace List.not_mem_nil
  | token head leading =>
      rw [extent] at hfits
      have hleading : Lists [.visit leading start false] leading start (leading.places false) :=
        Made.lists_visit h.token_parts.1 (by omega) hplaces.leading false
      exact lists_visitTrivia hleading.branch
  | node head slots => exact lists_trivia head [] rfl h.slots hfits hplaces

end

/-- A report lists what every occurrence of a fact owns, each occurrence once. -/
theorem Made.report_occurrences {s : Slot} (h : s.Made) {start : Nat} (hfits : start + s.extent < Size.limit)
    (hplaces : s.Placeable start) :
    ∃ order : List (List Branch), order.Nodup ∧ (∀ place, place ∈ order ↔ (s.part place).isPresent = true) ∧
      s.report start = ⟨order.flatMap (s.ownMarks start), none⟩ := by
  obtain ⟨order, horder, hrun⟩ := h.lists_visit hfits hplaces false
  exact ⟨order, horder.nodup_iff.2 (nodup_places s), fun place => horder.mem_iff.trans mem_places, hrun⟩

end Slot

end LosslessSyntax
