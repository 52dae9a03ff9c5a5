import Mathlib.Data.Finset.Card
import Mathlib.Data.Finset.Dedup
import Mathlib.Data.List.Nodup
import LosslessSyntax.KindSet

/-!
# Words of bits as finite sets of kinds

A set of kinds is a word, and the operations on it are masks. `KindSet.members` reads the finite set off the word; each
operation does to it what its name says. A word has more bits than there are kinds, so counting bits and comparing words
are right only of words without a stray bit (`KindSet.Proper`), and the operations set none.

* `Kind.map_index_all`, `Kind.length_all_le` : the kinds are numbered without gaps, and the numbers fit into a word;
* `KindSet.contains_eq_getLsbD` : membership is one bit of the word;
* `KindSet.members_insert`, `members_erase`, `members_union`, `members_ofList` : the operations on the finite set;
* `KindSet.Proper.size_eq_card`, `Proper.word_eq_iff` : counting and comparing words without a stray bit;
* `KindSet.Recipe` : the ways to build a set, with the word that is built and the set that is meant.
-/

set_option autoImplicit false

namespace LosslessSyntax

/-! ## The numbers of the kinds -/

namespace Kind

theorem mem_all (k : Kind) : k ∈ all := by
  cases k <;> decide

theorem map_index_all : all.map index = List.range all.length := by decide

/-- There is a bit for every kind. -/
theorem length_all_le : all.length ≤ 64 := by decide

theorem nodup_map_index : (all.map index).Nodup := by
  rw [map_index_all]
  exact List.nodup_range

theorem nodup_all : all.Nodup := nodup_map_index.of_map index

theorem index_inj {k l : Kind} : k.index = l.index ↔ k = l :=
  ⟨fun h => List.inj_on_of_nodup_map nodup_map_index (mem_all k) (mem_all l) h, fun h => h ▸ rfl⟩

theorem index_lt (k : Kind) : k.index < all.length := by
  rw [← List.mem_range, ← map_index_all]
  exact List.mem_map_of_mem (mem_all k)

theorem exists_index_eq {i : Nat} (h : i < all.length) : ∃ k : Kind, k.index = i := by
  rw [← List.mem_range, ← map_index_all] at h
  obtain ⟨k, -, hk⟩ := List.mem_map.1 h
  exact ⟨k, hk⟩

end Kind

namespace KindSet

/-! ## Membership is a bit -/

theorem getLsbD_bit (k : Kind) (i : Nat) : (bit k).getLsbD i = decide (k.index = i) := by
  have hk : k.index < 64 := Nat.lt_of_lt_of_le k.index_lt Kind.length_all_le
  rw [bit, ← BitVec.twoPow_eq, BitVec.getLsbD_twoPow, decide_eq_true hk, Bool.true_and]

theorem contains_eq_getLsbD (s : KindSet) (k : Kind) : s.contains k = s.word.getLsbD k.index := by
  have hbit : bit k ≠ 0#64 := by
    intro h
    have hset := getLsbD_bit k k.index
    rw [h, BitVec.getLsbD_zero, decide_eq_true rfl] at hset
    cases hset
  unfold contains
  rw [bit, ← BitVec.twoPow_eq, BitVec.and_twoPow, BitVec.twoPow_eq, ← bit]
  cases hword : s.word.getLsbD k.index with
  | true => exact bne_iff_ne.2 hbit
  | false => rfl

@[simp] theorem contains_insert (s : KindSet) (k l : Kind) :
    (s.insert k).contains l = (s.contains l || decide (k = l)) := by
  simp only [contains_eq_getLsbD, insert, BitVec.getLsbD_or, getLsbD_bit, Kind.index_inj]

@[simp] theorem contains_erase (s : KindSet) (k l : Kind) :
    (s.erase k).contains l = (s.contains l && !decide (k = l)) := by
  have hl : l.index < 64 := Nat.lt_of_lt_of_le l.index_lt Kind.length_all_le
  simp only [contains_eq_getLsbD, erase, BitVec.getLsbD_and, BitVec.getLsbD_not, getLsbD_bit, Kind.index_inj,
    decide_eq_true hl, Bool.true_and]

@[simp] theorem contains_union (s t : KindSet) (l : Kind) :
    (s.union t).contains l = (s.contains l || t.contains l) := by
  simp only [contains_eq_getLsbD, union, BitVec.getLsbD_or]

/-! ## The finite set of a word -/

/-- The finite set of the kinds whose bits are set. -/
def members (s : KindSet) : Finset Kind := s.toList.toFinset

@[simp] theorem mem_members {s : KindSet} {k : Kind} : k ∈ s.members ↔ s.contains k = true := by
  rw [members, List.mem_toFinset, toList, List.mem_filter, and_iff_right (Kind.mem_all k)]

theorem nodup_toList (s : KindSet) : s.toList.Nodup := Kind.nodup_all.filter s.contains

theorem members_empty : empty.members = ∅ := by
  ext l
  simp

theorem members_insert (s : KindSet) (k : Kind) : (s.insert k).members = Insert.insert k s.members := by
  ext l
  simp only [mem_members, contains_insert, Finset.mem_insert, Bool.or_eq_true, decide_eq_true_eq]
  rw [or_comm, eq_comm]

theorem members_erase (s : KindSet) (k : Kind) : (s.erase k).members = s.members.erase k := by
  ext l
  simp only [mem_members, contains_erase, Finset.mem_erase, Bool.and_eq_true, Bool.not_eq_true',
    decide_eq_false_iff_not]
  rw [and_comm, ne_comm]

theorem members_union (s t : KindSet) : (s.union t).members = s.members ∪ t.members := by
  ext l
  simp only [mem_members, contains_union, Finset.mem_union, Bool.or_eq_true]

-- The loop of `ofList` starts from the empty set, so what it adds to an arbitrary one is said first.
theorem members_foldl_insert (ks : List Kind) (s : KindSet) :
    (ks.foldl insert s).members = s.members ∪ ks.toFinset := by
  induction ks generalizing s with
  | nil => rw [List.foldl_nil, List.toFinset_nil, Finset.union_empty]
  | cons k ks ih =>
      rw [List.foldl_cons, ih, members_insert, List.toFinset_cons, Finset.insert_union, Finset.union_insert]

theorem members_ofList (ks : List Kind) : (ofList ks).members = ks.toFinset := by
  rw [ofList, members_foldl_insert, members_empty, Finset.empty_union]

/-! ## Words without a stray bit -/

/-- No bit is set beyond the bit of the last kind. -/
def Proper (s : KindSet) : Prop := ∀ i, Kind.all.length ≤ i → s.word.getLsbD i = false

theorem proper_empty : empty.Proper := fun _ _ => BitVec.getLsbD_zero

theorem Proper.insert {s : KindSet} (h : s.Proper) (k : Kind) : (s.insert k).Proper := by
  intro i hi
  have hk : k.index ≠ i := Nat.ne_of_lt (Nat.lt_of_lt_of_le k.index_lt hi)
  rw [KindSet.insert, BitVec.getLsbD_or, h i hi, getLsbD_bit, decide_eq_false hk, Bool.or_false]

-- The complement of a mask does set the bits beyond the kinds; the conjunction with the old word clears them.
theorem Proper.erase {s : KindSet} (h : s.Proper) (k : Kind) : (s.erase k).Proper := by
  intro i hi
  rw [KindSet.erase, BitVec.getLsbD_and, h i hi, Bool.false_and]

theorem Proper.union {s t : KindSet} (hs : s.Proper) (ht : t.Proper) : (s.union t).Proper := by
  intro i hi
  rw [KindSet.union, BitVec.getLsbD_or, hs i hi, ht i hi, Bool.or_false]

theorem proper_ofList (ks : List Kind) : (ofList ks).Proper :=
  List.foldlRecOn ks KindSet.insert proper_empty fun _ h k _ => h.insert k

theorem Proper.word_eq_iff {s t : KindSet} (hs : s.Proper) (ht : t.Proper) :
    s.word = t.word ↔ ∀ k, s.contains k = t.contains k := by
  constructor
  · intro h k
    rw [contains_eq_getLsbD, contains_eq_getLsbD, h]
  · intro h
    apply BitVec.eq_of_getLsbD_eq
    intro i _
    by_cases hi : i < Kind.all.length
    · obtain ⟨k, rfl⟩ := Kind.exists_index_eq hi
      rw [← contains_eq_getLsbD, ← contains_eq_getLsbD, h k]
    · rw [hs i (Nat.le_of_not_lt hi), ht i (Nat.le_of_not_lt hi)]

theorem Proper.isEmpty_iff {s : KindSet} (h : s.Proper) : s.isEmpty = true ↔ s.members = ∅ := by
  have hword : s.isEmpty = true ↔ s.word = empty.word := beq_iff_eq
  rw [hword, h.word_eq_iff proper_empty, Finset.eq_empty_iff_forall_notMem]
  simp only [contains_empty, mem_members, Bool.not_eq_true]

/-- Of a word without a stray bit, the set bits are counted by going through the kinds. -/
theorem Proper.size_eq_length {s : KindSet} (h : s.Proper) : s.size = s.toList.length := by
  have hstray : ((List.range (64 - Kind.all.length)).map (Kind.all.length + ·)).countP s.word.getLsbD = 0 := by
    rw [List.countP_eq_zero]
    intro i hi
    obtain ⟨j, -, rfl⟩ := List.mem_map.1 hi
    rw [h _ (Nat.le_add_right _ j)]
    exact Bool.false_ne_true
  calc s.size
      = (List.range (Kind.all.length + (64 - Kind.all.length))).countP s.word.getLsbD := rfl
    _ = (List.range Kind.all.length).countP s.word.getLsbD := by
        rw [List.range_add, List.countP_append, hstray, Nat.add_zero]
    _ = Kind.all.countP (s.word.getLsbD ∘ Kind.index) := by
        rw [← Kind.map_index_all, List.countP_map]
    _ = Kind.all.countP s.contains := by
        rw [show s.word.getLsbD ∘ Kind.index = s.contains from funext fun k => (contains_eq_getLsbD s k).symm]
    _ = s.toList.length := List.countP_eq_length_filter

theorem Proper.size_eq_card {s : KindSet} (h : s.Proper) : s.size = s.members.card := by
  rw [h.size_eq_length, members, List.toFinset_card_of_nodup s.nodup_toList]

/-! ## Sets by any sequence of operations -/

/-- The ways to build a set of kinds. -/
inductive Recipe where
  | empty
  | ofList (ks : List Kind)
  | insert (r : Recipe) (k : Kind)
  | erase (r : Recipe) (k : Kind)
  | union (r t : Recipe)

namespace Recipe

def build : Recipe → KindSet
  | empty => .empty
  | ofList ks => .ofList ks
  | insert r k => r.build.insert k
  | erase r k => r.build.erase k
  | union r t => r.build.union t.build

/-- The finite set that the operations mean. -/
def kinds : Recipe → Finset Kind
  | empty => ∅
  | ofList ks => ks.toFinset
  | insert r k => Insert.insert k r.kinds
  | erase r k => r.kinds.erase k
  | union r t => r.kinds ∪ t.kinds

theorem proper_build (r : Recipe) : r.build.Proper := by
  induction r with
  | empty => exact proper_empty
  | ofList ks => exact proper_ofList ks
  | insert r k ih => exact ih.insert k
  | erase r k ih => exact ih.erase k
  | union r t ihr iht => exact ihr.union iht

theorem members_build (r : Recipe) : r.build.members = r.kinds := by
  induction r with
  | empty => exact members_empty
  | ofList ks => exact members_ofList ks
  | insert r k ih => rw [build, members_insert, ih, kinds]
  | erase r k ih => rw [build, members_erase, ih, kinds]
  | union r t ihr iht => rw [build, members_union, ihr, iht, kinds]

/-- **Sets of kinds are faithful.** However a set was built, its word answers as the finite set that was meant, and is
the only word for it. -/
theorem build_faithful (r t : Recipe) :
    (∀ k, r.build.contains k = true ↔ k ∈ r.kinds) ∧
      r.build.size = r.kinds.card ∧
      (r.build.isEmpty = true ↔ r.kinds = ∅) ∧
      (r.build.word = t.build.word ↔ ∀ k, r.build.contains k = t.build.contains k) := by
  refine ⟨?_, ?_, ?_, r.proper_build.word_eq_iff t.proper_build⟩
  · intro k
    rw [← members_build, mem_members]
  · rw [← members_build, r.proper_build.size_eq_card]
  · rw [← members_build, r.proper_build.isEmpty_iff]

-- What was united and then removed leaves the word of the empty set.
example :
    (erase (erase (union (ofList [.comma, .comma]) (ofList [.rightParen])) .comma) .rightParen).build = .empty := by
  decide

end Recipe

end KindSet

end LosslessSyntax
