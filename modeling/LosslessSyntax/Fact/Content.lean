import LosslessSyntax.Fact.Make

/-!
# Content: hash and equality

Two facts have the same content when kind, flags, width and number of slots agree and the contents of
their parts do, whatever their shapes, instance numbers and diagnostics.

* `Mix` : the mixing of numbers into a 64-bit state, and its folding into a non-zero 32-bit hash;
* `Slot.contentHash` : the hash of the content;
* `HashMemo` : the hashes computed so far, by instance; `HashMemo.hash` looks a hash up before it
  computes it, and `HashMemo.equal` decides equality of contents with two short cuts: facts that are one
  instance are equal, and nodes whose known hashes differ are not.
-/

set_option autoImplicit false

namespace LosslessSyntax

namespace Mix

/-- The odd factor by which every mixed number is spread over the word. -/
def factor : UInt64 := 0xf1357aea2e62a9c5

def write (state : UInt64) (n : Nat) : UInt64 := (state + n.toUInt64) * factor

def writeAll (ns : List Nat) : UInt64 := ns.foldl write 0

def finish (state : UInt64) : UInt64 := (state <<< 26) ||| (state >>> 38)

/-- Folds the word into 32 bits, with 1 in place of 0. -/
def fold (word : UInt64) : UInt32 :=
  let folded := (word >>> 32).toUInt32 ^^^ word.toUInt32
  if folded = 0 then 1 else folded

def hash (ns : List Nat) : UInt32 := fold (finish (writeAll ns))

end Mix

def TokenHead.hash (head : TokenHead) (leading : UInt32) : UInt32 :=
  Mix.hash [head.kind.index, head.flags.bits, head.width, leading.toNat]

def NodeHead.hash (head : NodeHead) (slots : List UInt32) : UInt32 :=
  Mix.hash ([head.kind.index, head.flags.bits, head.fullWidth, slots.length] ++ slots.map (·.toNat))

namespace Slot

mutual

/-- The hash of the content; 0 stands for an absent slot. -/
def contentHash : Slot → UInt32
  | .absent => 0
  | .token head leading => head.hash leading.contentHash
  | .node head slots => head.hash (contentHashes slots)

def contentHashes : List Slot → List UInt32
  | [] => []
  | s :: rest => s.contentHash :: contentHashes rest

end

end Slot

/-- The hashes computed so far, by instance. -/
structure HashMemo where
  entries : List (Nat × UInt32) := []
deriving Repr, Inhabited

namespace HashMemo

def find? (memo : HashMemo) (id : Nat) : Option UInt32 := memo.entries.lookup id

def insert (memo : HashMemo) (id : Nat) (hash : UInt32) : HashMemo := ⟨(id, hash) :: memo.entries⟩

mutual

/-- The hash of the content, looked up if it is known and remembered if it is not. -/
def hash : Slot → HashMemo → UInt32 × HashMemo
  | .absent, memo => (0, memo)
  | .token head leading, memo =>
    match memo.find? head.id with
    | some known => (known, memo)
    | none =>
      let (leadingHash, memo) := hash leading memo
      let value := head.hash leadingHash
      (value, memo.insert head.id value)
  | .node head slots, memo =>
    match memo.find? head.id with
    | some known => (known, memo)
    | none =>
      let (slotHashes, memo) := hashes slots memo
      let value := head.hash slotHashes
      (value, memo.insert head.id value)

def hashes : List Slot → HashMemo → List UInt32 × HashMemo
  | [], memo => ([], memo)
  | s :: rest, memo =>
    let (first, memo) := hash s memo
    let (others, memo) := hashes rest memo
    (first :: others, memo)

end

def refutes (memo : HashMemo) (a b : Nat) : Bool :=
  match memo.find? a, memo.find? b with
  | some x, some y => x != y
  | _, _ => false

mutual

def equal (memo : HashMemo) : Slot → Slot → Bool
  | .absent, .absent => true
  | .token a leading, .token b leading' =>
    a.id == b.id
      || (a.kind == b.kind && a.flags == b.flags && a.width == b.width && equal memo leading leading')
  | .node a slots, .node b slots' =>
    a.id == b.id
      || (a.kind == b.kind && a.flags == b.flags && a.fullWidth == b.fullWidth
        && slots.length == slots'.length && !memo.refutes a.id b.id && equalAll memo slots slots')
  | _, _ => false

def equalAll (memo : HashMemo) : List Slot → List Slot → Bool
  | s :: rest, t :: rest' => equal memo s t && equalAll memo rest rest'
  | _, _ => true

end

def distinct (memo : HashMemo) : List Slot → Nat
  | [] => 0
  | s :: rest => (if rest.any (memo.equal s) then 0 else 1) + distinct memo rest

end HashMemo

end LosslessSyntax
