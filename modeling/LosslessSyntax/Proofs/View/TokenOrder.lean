import Mathlib.Data.List.Nodup
import LosslessSyntax.Proofs.View.Places

/-!
# Tokens in document order

A token splits the list of all tokens in document order into those in front of it and those behind it. Both parts can
be read off its path, slot by slot on the way down to it.

* `Slot.tokenPathsBefore`, `Slot.tokenPathsAfter` : the tokens in front of a place and behind it; those in front tile
  the text up to it (`Slot.tile_before`);
* `Slot.tokenPaths_split` : a token stands between the two;
* `Slot.wantedPaths` : the tokens of a fact, without the missing ones unless they are asked for;
* `Slot.wantedBefore_snoc`, `Slot.wantedAfter_snoc` : how the tokens on either side grow by those of whole slots;
* `Slot.LastPresent`, `Slot.PresentBefore` : the last token that is present, of all or in front of another one.
-/

set_option autoImplicit false

namespace LosslessSyntax

namespace Slot

/-! ## What stands in front of a place and behind it -/

theorem tokenPathsFrom_eq (i : Nat) (slots : List Slot) :
    tokenPathsFrom i slots =
      (List.range slots.length).flatMap fun j => (slots[j]?.getD .absent).tokenPaths.map ((i + j) :: ·) := by
  induction slots generalizing i with
  | nil => rfl
  | cons s rest ih =>
      rw [tokenPathsFrom, ih, List.length_cons, List.range_succ_eq_map, List.flatMap_cons, List.flatMap_map]
      simp only [Nat.add_zero, List.getElem?_cons_zero, List.getElem?_cons_succ, Option.getD_some, Nat.add_assoc,
        Nat.add_comm 1, Nat.succ_eq_add_one]

theorem tokenPathsFrom_append (i : Nat) (front rest : List Slot) :
    tokenPathsFrom i (front ++ rest) = tokenPathsFrom i front ++ tokenPathsFrom (i + front.length) rest := by
  induction front generalizing i with
  | nil => rfl
  | cons s front ih =>
      rw [List.cons_append, tokenPathsFrom, ih, tokenPathsFrom, List.append_assoc, List.length_cons, Nat.add_assoc,
        Nat.add_comm 1]

/-- The paths of the tokens in front of the end of a path, in document order. -/
def tokenPathsBefore (s : Slot) : List Nat → List (List Nat)
  | [] => []
  | i :: rest =>
    tokenPathsFrom 0 (s.slots.take i) ++ ((s.slots[i]?.getD .absent).tokenPathsBefore rest).map (i :: ·)

theorem tokenPathsBefore_append (s : Slot) (path rest : List Nat) :
    s.tokenPathsBefore (path ++ rest) =
      s.tokenPathsBefore path ++ ((s.along path).tokenPathsBefore rest).map (path ++ ·) := by
  induction path generalizing s with
  | nil =>
      show s.tokenPathsBefore rest = (s.tokenPathsBefore rest).map id
      rw [List.map_id]
  | cons i path ih =>
      rw [List.cons_append, tokenPathsBefore, ih, tokenPathsBefore, along, List.map_append, List.map_map,
        List.append_assoc]
      rfl

theorem tokenPathsBefore_singleton (s : Slot) (i : Nat) :
    s.tokenPathsBefore [i] = tokenPathsFrom 0 (s.slots.take i) := by
  rw [tokenPathsBefore, tokenPathsBefore, List.map_nil, List.append_nil]

def tokenPathsAfter (s : Slot) : List Nat → List (List Nat)
  | [] => []
  | i :: rest =>
    ((s.slots[i]?.getD .absent).tokenPathsAfter rest).map (i :: ·) ++ tokenPathsFrom (i + 1) (s.slots.drop (i + 1))

theorem tokenPathsAfter_append (s : Slot) (path rest : List Nat) :
    s.tokenPathsAfter (path ++ rest) =
      ((s.along path).tokenPathsAfter rest).map (path ++ ·) ++ s.tokenPathsAfter path := by
  induction path generalizing s with
  | nil =>
      show s.tokenPathsAfter rest = (s.tokenPathsAfter rest).map id ++ []
      rw [List.map_id, List.append_nil]
  | cons i path ih =>
      rw [List.cons_append, tokenPathsAfter, ih, tokenPathsAfter, along, List.map_append, List.map_map,
        List.append_assoc]
      rfl

theorem tokenPathsAfter_singleton (s : Slot) (i : Nat) :
    s.tokenPathsAfter [i] = tokenPathsFrom (i + 1) (s.slots.drop (i + 1)) := by
  rw [tokenPathsAfter, tokenPathsAfter, List.map_nil, List.nil_append]

theorem lt_of_mem_tokenPaths {slots : List Slot} {i : Nat} {rest : List Nat}
    (h : rest ∈ (slots[i]?.getD .absent).tokenPaths) : i < slots.length := by
  by_contra hlt
  rw [List.getElem?_eq_none (Nat.le_of_not_lt hlt)] at h
  exact absurd h List.not_mem_nil

/-- A path through a slot leads to a token iff it does so from there. -/
theorem cons_mem_tokenPaths {s : Slot} {i : Nat} {rest : List Nat} :
    i :: rest ∈ s.tokenPaths ↔ rest ∈ (s.slots[i]?.getD .absent).tokenPaths := by
  cases s with
  | absent => exact iff_of_false List.not_mem_nil List.not_mem_nil
  | token head leading =>
      refine iff_of_false (fun h => ?_) List.not_mem_nil
      cases List.mem_singleton.1 h
  | node head slots =>
      rw [tokenPaths, tokenPathsFrom_eq]
      simp only [List.mem_flatMap, List.mem_range, List.mem_map, Nat.zero_add, List.cons.injEq]
      constructor
      · rintro ⟨j, -, path, hpath, rfl, rfl⟩
        exact hpath
      · intro hrest
        exact ⟨i, lt_of_mem_tokenPaths hrest, rest, hrest, rfl, rfl⟩

theorem nil_notMem_tokenPaths {s : Slot} (hnode : s.isNode = true) : [] ∉ s.tokenPaths := by
  obtain ⟨n, rfl⟩ := eq_node_of_isNode hnode
  show [] ∉ tokenPathsFrom 0 n.slots
  rw [tokenPathsFrom_eq]
  simp

/-- A token stands between the tokens in front of it and those behind it. -/
theorem tokenPaths_split {s : Slot} {path : List Nat} (h : path ∈ s.tokenPaths) :
    s.tokenPaths = s.tokenPathsBefore path ++ path :: s.tokenPathsAfter path := by
  induction path generalizing s with
  | nil =>
      cases s with
      | absent => exact absurd h List.not_mem_nil
      | token head leading => rfl
      | node head slots => exact absurd h (nil_notMem_tokenPaths rfl)
  | cons i rest ih =>
      rw [cons_mem_tokenPaths] at h
      have hinside := ih h
      cases s with
      | absent => exact absurd h List.not_mem_nil
      | token head leading => exact absurd h List.not_mem_nil
      | node head slots =>
          have hi : i < slots.length := lt_of_mem_tokenPaths h
          have hslot : slots[i]?.getD .absent = slots[i] := by rw [List.getElem?_eq_getElem hi, Option.getD_some]
          have hlength : 0 + (slots.take i).length = i := by rw [Nat.zero_add, List.length_take]; omega
          have hsplit : slots = slots.take i ++ slots[i] :: slots.drop (i + 1) := by
            rw [← List.drop_eq_getElem_cons hi, List.take_append_drop]
          replace hinside : slots[i].tokenPaths =
              slots[i].tokenPathsBefore rest ++ rest :: slots[i].tokenPathsAfter rest := by
            rw [← hslot]
            exact hinside
          calc tokenPathsFrom 0 slots
              = tokenPathsFrom 0 (slots.take i) ++ tokenPathsFrom i (slots[i] :: slots.drop (i + 1)) := by
                conv_lhs => rw [hsplit, tokenPathsFrom_append, hlength]
            _ = _ := by
                rw [tokenPathsFrom, hinside, tokenPathsBefore, tokenPathsAfter]
                simp only [Slot.slots, hslot, List.map_append, List.map_cons, List.append_assoc, List.cons_append]

/-- A path leads to a token below the end of another one iff it does so from there. -/
theorem append_mem_tokenPaths {s : Slot} {path rest : List Nat} :
    path ++ rest ∈ s.tokenPaths ↔ rest ∈ (s.along path).tokenPaths := by
  induction path generalizing s with
  | nil => exact Iff.rfl
  | cons i path ih => exact cons_mem_tokenPaths.trans ih

mutual

theorem nodup_tokenPaths (s : Slot) : s.tokenPaths.Nodup := by
  cases s with
  | absent => exact List.nodup_nil
  | token head leading => exact List.nodup_singleton _
  | node head slots => exact nodup_tokenPathsFrom 0 slots

theorem nodup_tokenPathsFrom (i : Nat) (slots : List Slot) : (tokenPathsFrom i slots).Nodup := by
  cases slots with
  | nil => exact List.nodup_nil
  | cons s rest =>
      have hfirst : (s.tokenPaths.map (i :: ·)).Nodup := (nodup_tokenPaths s).map List.cons_injective
      refine hfirst.append (nodup_tokenPathsFrom (i + 1) rest) ?_
      intro path hpath hother
      obtain ⟨_, -, rfl⟩ := List.mem_map.1 hpath
      rw [tokenPathsFrom_eq] at hother
      obtain ⟨j, -, hother⟩ := List.mem_flatMap.1 hother
      obtain ⟨_, -, heq⟩ := List.mem_map.1 hother
      have hindex : i + 1 + j = i := (List.cons.inj heq).1
      omega

end

/-- The tokens of consecutive slots tile these. -/
theorem tile_stretch (head : NodeHead) (front stretch rest : List Slot) (start : Nat) :
    Range.Tile (start + extents front)
      ((tokenPathsFrom front.length stretch).map ((Slot.node head (front ++ (stretch ++ rest))).rangeAlong start))
      (start + extents (front ++ stretch)) := by
  induction stretch generalizing front with
  | nil =>
      rw [List.append_nil]
      rfl
  | cons s stretch ih =>
      have hfirst := tile_tokenPaths s (start + extents front)
      have hrest := ih (front ++ [s])
      rw [List.length_append, List.length_singleton, List.append_assoc, List.append_assoc, List.singleton_append,
        List.singleton_append, extents_append front [s], extents, extents, Nat.add_zero, ← Nat.add_assoc] at hrest
      rw [tokenPathsFrom, List.map_append, List.map_map]
      refine Range.Tile.append ?_ hrest
      have hsame : (Slot.node head (front ++ (s :: stretch ++ rest))).rangeAlong start ∘ (front.length :: ·) =
          s.rangeAlong (start + extents front) := funext (rangeAlong_node head front s (stretch ++ rest) start)
      rw [hsame]
      exact hfirst

/-- What stands in front of a place tiles the text up to it. -/
theorem tile_before (s : Slot) (start : Nat) (path : List Nat) :
    Range.Tile start ((s.tokenPathsBefore path).map (s.rangeAlong start)) (start + s.offsetAlong path) := by
  induction path generalizing s start with
  | nil => rfl
  | cons i rest ih =>
      have hinside := ih (s.slots[i]?.getD .absent) (start + extents (s.slots.take i))
      have hsame : s.rangeAlong start ∘ (i :: ·) =
          (s.slots[i]?.getD .absent).rangeAlong (start + extents (s.slots.take i)) := by
        funext path
        exact rangeAlong_append s start [i] path
      rw [tokenPathsBefore, List.map_append, List.map_map, hsame, offsetAlong, ← Nat.add_assoc]
      refine Range.Tile.append ?_ hinside
      cases s with
      | absent =>
          show Range.Tile start ((tokenPathsFrom 0 (List.take i [])).map _) (start + extents (List.take i []))
          rw [List.take_nil]
          rfl
      | token head leading =>
          show Range.Tile start ((tokenPathsFrom 0 (List.take i [])).map _) (start + extents (List.take i []))
          rw [List.take_nil]
          rfl
      | node head slots =>
          have hstretch := tile_stretch head [] (slots.take i) (slots.drop i) start
          rw [List.nil_append, List.take_append_drop] at hstretch
          exact hstretch

/-! ## Tokens that are asked for -/

/-- The fact is one to stop at: not a missing one, unless these are asked for. -/
def isWanted (withMissing : Bool) (s : Slot) : Bool := withMissing || !s.flags.isMissing

/-- The paths of the tokens that are asked for, in document order. -/
def wantedPaths (s : Slot) (withMissing : Bool) : List (List Nat) :=
  s.tokenPaths.filter fun path => (s.along path).isWanted withMissing

def wantedBefore (s : Slot) (withMissing : Bool) (path : List Nat) : List (List Nat) :=
  (s.tokenPathsBefore path).filter fun other => (s.along other).isWanted withMissing

def wantedAfter (s : Slot) (withMissing : Bool) (path : List Nat) : List (List Nat) :=
  (s.tokenPathsAfter path).filter fun other => (s.along other).isWanted withMissing

theorem wantedBefore_append (s : Slot) (withMissing : Bool) (path rest : List Nat) :
    s.wantedBefore withMissing (path ++ rest) =
      s.wantedBefore withMissing path ++ ((s.along path).wantedBefore withMissing rest).map (path ++ ·) := by
  unfold wantedBefore
  rw [tokenPathsBefore_append, List.filter_append, List.filter_map]
  simp only [Function.comp_def, along_append]

theorem wantedAfter_append (s : Slot) (withMissing : Bool) (path rest : List Nat) :
    s.wantedAfter withMissing (path ++ rest) =
      ((s.along path).wantedAfter withMissing rest).map (path ++ ·) ++ s.wantedAfter withMissing path := by
  unfold wantedAfter
  rw [tokenPathsAfter_append, List.filter_append, List.filter_map]
  simp only [Function.comp_def, along_append]

/-- The tokens that are asked for in some of the slots of the node at the end of a path, slot by slot. -/
def wantedIn (s : Slot) (withMissing : Bool) (path : List Nat) (indices : List Nat) : List (List Nat) :=
  indices.flatMap fun i => ((s.along (path ++ [i])).wantedPaths withMissing).map (path ++ [i] ++ ·)

/-- The tokens that are asked for in consecutive slots. -/
theorem filter_tokenPathsFrom (s : Slot) (withMissing : Bool) (path : List Nat) (i : Nat) (stretch : List Slot)
    (hstretch : ∀ j, j < stretch.length → stretch[j]? = (s.along path).slots[i + j]?) :
    ((tokenPathsFrom i stretch).filter fun other => ((s.along path).along other).isWanted withMissing).map (path ++ ·) =
      s.wantedIn withMissing path (List.range' i stretch.length) := by
  unfold wantedIn
  rw [tokenPathsFrom_eq, List.filter_flatMap, List.map_flatMap, List.range'_eq_map_range, List.flatMap_map]
  refine List.flatMap_congr fun j hj => ?_
  rw [hstretch j (List.mem_range.1 hj), List.filter_map, List.map_map]
  simp only [along_append, Function.comp_def, List.append_assoc, List.singleton_append]
  rfl

theorem wantedBefore_snoc (s : Slot) (withMissing : Bool) (path : List Nat) {n : Nat} (hn : n ≤ (s.along path).count) :
    s.wantedBefore withMissing (path ++ [n]) =
      s.wantedBefore withMissing path ++ s.wantedIn withMissing path (List.range n) := by
  have hlength : ((s.along path).slots.take n).length = n := by
    rw [List.length_take]
    exact Nat.min_eq_left hn
  have hslots := s.filter_tokenPathsFrom withMissing path 0 ((s.along path).slots.take n)
    fun j hj => by rw [List.getElem?_take_of_lt (hlength ▸ hj), Nat.zero_add]
  rw [hlength, ← List.range_eq_range'] at hslots
  rw [wantedBefore_append, ← hslots, wantedBefore.eq_def (s.along path), tokenPathsBefore_singleton]

theorem wantedAfter_snoc (s : Slot) (withMissing : Bool) (path : List Nat) (n : Nat) :
    s.wantedAfter withMissing (path ++ [n]) =
      s.wantedIn withMissing path (List.range' (n + 1) ((s.along path).count - (n + 1))) ++
        s.wantedAfter withMissing path := by
  have hslots := s.filter_tokenPathsFrom withMissing path (n + 1)
    ((s.along path).slots.drop (n + 1)) fun j _ => List.getElem?_drop
  rw [List.length_drop] at hslots
  rw [wantedAfter_append, wantedAfter.eq_def (s.along path), tokenPathsAfter_singleton, hslots]

theorem map_wantedPaths_node (s : Slot) (withMissing : Bool) {path : List Nat} (hnode : (s.along path).isNode = true) :
    ((s.along path).wantedPaths withMissing).map (path ++ ·) =
      s.wantedIn withMissing path (List.range (s.along path).count) := by
  obtain ⟨n, hn⟩ := eq_node_of_isNode hnode
  have hslots := s.filter_tokenPathsFrom withMissing path 0 (s.along path).slots
    fun j _ => by rw [Nat.zero_add]
  rw [← List.range_eq_range'] at hslots
  refine Eq.trans ?_ hslots
  rw [hn]
  rfl

/-- A fact that is flagged as missing has no token to stop at. -/
theorem Made.wantedPaths_eq_nil {s : Slot} (h : s.Made) (hmissing : s.flags.isMissing = true) :
    s.wantedPaths false = [] := by
  refine List.filter_eq_nil_iff.2 fun path hpath hwanted => ?_
  have hmem : s.along path ∈ s.tokens.map Token.toSlot := by
    rw [← map_along_tokenPaths]
    exact List.mem_map_of_mem hpath
  obtain ⟨t, ht, heq⟩ := List.mem_map.1 hmem
  have hpresent : t.isMissing = false := by
    rw [← heq] at hwanted
    replace hwanted : (!t.isMissing) = true := hwanted
    simpa using hwanted
  have hflag := h.present_iff.2 ⟨t, ht, hpresent⟩
  exact absurd (hmissing.symm.trans hflag) (by decide)

/-- The token at the end of the path is the last one of the fact that is present. -/
def LastPresent (s : Slot) (last : List Nat) : Prop :=
  ∃ before after, s.tokenPaths = before ++ last :: after ∧ (s.along last).flags.isMissing = false ∧
    ∀ path ∈ after, (s.along path).flags.isMissing = true

/-- The token at the end of the one path is the nearest one in front of the other, in document order, that is
present. -/
def PresentBefore (s : Slot) (left right : List Nat) : Prop :=
  ∃ before between after, s.tokenPaths = before ++ left :: (between ++ right :: after) ∧
    (s.along left).flags.isMissing = false ∧ ∀ path ∈ between, (s.along path).flags.isMissing = true

theorem getLast?_present {s : Slot} {paths : List (List Nat)} {last : List Nat} :
    (paths.filter fun path => (s.along path).isWanted false).getLast? = some last ↔
      ∃ before after, paths = before ++ last :: after ∧ (s.along last).flags.isMissing = false ∧
        ∀ path ∈ after, (s.along path).flags.isMissing = true := by
  rw [List.getLast?_filter, List.find?_eq_some_iff_append]
  simp only [isWanted, Bool.false_or, Bool.not_not, Bool.not_eq_true']
  constructor
  · rintro ⟨hpresent, after, before, hsplit, hmissing⟩
    refine ⟨before.reverse, after.reverse, ?_, hpresent, fun path hpath => hmissing path (List.mem_reverse.1 hpath)⟩
    rw [List.reverse_eq_iff.1 hsplit]
    simp
  · rintro ⟨before, after, rfl, hpresent, hmissing⟩
    refine ⟨hpresent, after.reverse, before.reverse, ?_, fun path hpath => hmissing path (List.mem_reverse.1 hpath)⟩
    simp

theorem lastPresent_iff {s : Slot} {last : List Nat} :
    s.LastPresent last ↔ (s.wantedPaths false).getLast? = some last :=
  getLast?_present.symm

theorem presentBefore_iff {s : Slot} {left right : List Nat} (hright : right ∈ s.tokenPaths) :
    s.PresentBefore left right ↔
      (s.wantedBefore false right).getLast? = some left := by
  have hsides := tokenPaths_split hright
  have hnodup := nodup_tokenPaths s
  rw [wantedBefore, getLast?_present]
  constructor
  · rintro ⟨before, between, after', hsplit, hpresent, hmissing⟩
    refine ⟨before, between, ?_, hpresent, hmissing⟩
    rw [← List.cons_append, ← List.append_assoc, hsides] at hsplit
    rw [hsides, List.nodup_middle, List.nodup_cons, List.mem_append, not_or] at hnodup
    exact ((List.append_cons_inj_of_notMem hnodup.1.1 hnodup.1.2).1 hsplit).1
  · rintro ⟨before, between, hbefore, hpresent, hmissing⟩
    refine ⟨before, between, s.tokenPathsAfter right, ?_, hpresent, hmissing⟩
    rw [hsides, hbefore, List.append_assoc, List.cons_append]

end Slot

end LosslessSyntax
