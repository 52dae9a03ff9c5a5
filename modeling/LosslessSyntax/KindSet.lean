import LosslessSyntax.Kind

/-!
# Sets of kinds

`KindSet` packs a set of kinds into one word: the kind with index `i` is a member iff bit `i` is set.

* `KindSet.contains`, `insert`, `erase`, `union`, `ofList` : the set operations;
* `KindSet.size` : the number of set bits;
* `KindSet.text` : the word in binary.
-/

set_option autoImplicit false

namespace LosslessSyntax

/-- A set of kinds as a word of bits, one bit a kind. -/
structure KindSet where
  word : BitVec 64
deriving DecidableEq

namespace KindSet

def empty : KindSet := ⟨0⟩

instance : Inhabited KindSet := ⟨empty⟩

/-- The word with the bit of `k` alone. -/
def bit (k : Kind) : BitVec 64 := 1#64 <<< k.index

def insert (s : KindSet) (k : Kind) : KindSet := ⟨s.word ||| bit k⟩

def erase (s : KindSet) (k : Kind) : KindSet := ⟨s.word &&& ~~~bit k⟩

def union (s t : KindSet) : KindSet := ⟨s.word ||| t.word⟩

def ofList (ks : List Kind) : KindSet := ks.foldl insert empty

def contains (s : KindSet) (k : Kind) : Bool := s.word &&& bit k != 0

@[simp] theorem contains_empty (k : Kind) : empty.contains k = false := by
  show (0#64 &&& bit k != 0#64) = false
  rw [BitVec.zero_and]
  rfl

def isEmpty (s : KindSet) : Bool := s.word == 0

def size (s : KindSet) : Nat := (List.range 64).countP s.word.getLsbD

/-- The members in order of declaration. -/
def toList (s : KindSet) : List Kind := Kind.all.filter s.contains

/-- The word in binary, without leading zeros. -/
def text (s : KindSet) : String :=
  "SyntaxSet(0b" ++ String.ofList (Nat.toDigits 2 s.word.toNat) ++ ")"

end KindSet

end LosslessSyntax
