import LosslessSyntax.Proofs.Fact.Made

/-!
# The text of a fact

`Slot.leaves` reads the text of a fact from left to right: the kind and the width of every terminal, with its
leading trivia in front of it. A missing terminal stands for no text and is left out, though not the trivia
in front of it.

* `Slot.leavesOf_eq_walkTokens` : the walk over the tokens reads the same text;
* `Slot.Made.total_leaves` : the width of a made fact is that of its text.
-/

set_option autoImplicit false

namespace LosslessSyntax

/-- The kind and the width of a piece of text. -/
structure Leaf where
  kind : Kind
  width : Nat
deriving DecidableEq, Repr, Inhabited

def Leaf.total : List Leaf → Nat
  | [] => 0
  | l :: rest => l.width + total rest

theorem Leaf.total_append (ls ms : List Leaf) : total (ls ++ ms) = total ls + total ms := by
  induction ls with
  | nil => exact (Nat.zero_add _).symm
  | cons l rest ih => rw [List.cons_append, total, total, ih, Nat.add_assoc]

/-- The text of a token itself; a missing one has none. -/
def TokenHead.leaves (head : TokenHead) : List Leaf := if head.flags.isMissing then [] else [⟨head.kind, head.width⟩]

namespace Slot

mutual

/-- The text of a fact, trivia included. -/
def leaves : Slot → List Leaf
  | .absent => []
  | .token head leading => leading.leaves ++ head.leaves
  | .node _ slots => leavesOf slots

def leavesOf : List Slot → List Leaf
  | [] => []
  | s :: rest => s.leaves ++ leavesOf rest

end

@[simp] theorem leavesOf_nil : leavesOf [] = [] := rfl

@[simp] theorem leavesOf_cons (s : Slot) (rest : List Slot) : leavesOf (s :: rest) = s.leaves ++ leavesOf rest := rfl

@[simp] theorem leavesOf_append (ss ts : List Slot) : leavesOf (ss ++ ts) = leavesOf ss ++ leavesOf ts := by
  induction ss with
  | nil => rfl
  | cons s rest ih => rw [List.cons_append, leavesOf_cons, ih, leavesOf_cons, List.append_assoc]

end Slot

def Token.leaves (t : Token) : List Leaf := t.leading.leaves ++ t.head.leaves

theorem Token.leaves_toSlot (t : Token) : t.toSlot.leaves = t.leaves := rfl

theorem Token.leaves_assemble (id : Nat) (leading : Slot) (kind : Kind) (width : Nat) (missing : Bool)
    (diagnostics : List Diagnostic) :
    (assemble id leading kind width missing diagnostics).leaves =
      leading.leaves ++ if missing then [] else [⟨kind, width⟩] := by
  have hm := isMissing_assemble id leading kind width missing diagnostics
  unfold leaves TokenHead.leaves
  rw [show (assemble id leading kind width missing diagnostics).head.flags.isMissing = missing from hm]
  rfl

theorem Node.leaves_toSlot (n : Node) : n.toSlot.leaves = Slot.leavesOf n.slots := rfl

namespace Slot

/-- The walk over the tokens of a fact reads its text. -/
theorem leavesOf_eq_walkTokens (stack : List Slot) : leavesOf stack = (walkTokens stack).flatMap Token.leaves := by
  induction stack using walkTokens.induct with
  | case1 => rw [walkTokens, leavesOf_nil, List.flatMap_nil]
  | case2 stack ih =>
      rw [walkTokens, leavesOf_cons, ih]
      rfl
  | case3 head leading stack ih =>
      rw [walkTokens, leavesOf_cons, ih, List.flatMap_cons]
      rfl
  | case4 head slots stack ih =>
      rw [walkTokens, leavesOf_cons, ← ih, leavesOf_append]
      rfl

theorem leaves_eq_tokens (s : Slot) : s.leaves = s.tokens.flatMap Token.leaves := by
  rw [tokens, ← leavesOf_eq_walkTokens, leavesOf_cons, leavesOf_nil, List.append_nil]

theorem total_leavesOf {slots : List Slot} (h : ∀ s ∈ slots, Leaf.total s.leaves = s.extent) :
    Leaf.total (leavesOf slots) = extents slots := by
  induction slots with
  | nil => rfl
  | cons s rest ih =>
      rw [leavesOf_cons, Leaf.total_append, h s List.mem_cons_self, ih fun t ht => h t (List.mem_cons_of_mem _ ht)]
      rfl

theorem Made.total_leaves {s : Slot} (h : s.Made) : Leaf.total s.leaves = s.extent := by
  induction h with
  | absent => rfl
  | @token id leading kind width missing diagnostics t hleading hmissing ht ih =>
      obtain ⟨-, rfl⟩ := Token.assembleChecked_eq_ok_iff.1 ht
      show Leaf.total (Token.leaves _) = leading.extent + width
      rw [Token.leaves_assemble, Leaf.total_append, ih]
      cases missing with
      | true =>
          rw [(hmissing rfl).1]
          rfl
      | false => rfl
  | @node id kind shape layout slots diagnostics n hslots hlayout hn ih =>
      obtain ⟨w, -, rfl⟩ := Node.assemble_eq_ok_iff.1 hn
      exact total_leavesOf ih

end Slot

/-! ## The text of what is made -/

theorem Token.leaves_make {id : Nat} {leading : Slot} {kind : Kind} {width : Nat} {t : Token}
    (ht : make id leading kind width = .ok t) : t.leaves = leading.leaves ++ [⟨kind, width⟩] := by
  obtain ⟨-, rfl⟩ := Token.assembleChecked_eq_ok_iff.1 ht
  rfl

theorem Token.leaves_makeMissing {id : Nat} {leading : Slot} {kind : Kind} {diagnostics : List Diagnostic} {t : Token}
    (ht : makeMissing id leading kind diagnostics = .ok t) : t.leaves = leading.leaves := by
  unfold makeMissing at ht
  split at ht
  · cases ht
  · obtain ⟨-, rfl⟩ := Token.assembleChecked_eq_ok_iff.1 ht
    rw [Token.leaves_assemble, if_pos rfl, List.append_nil]

theorem Node.leaves_make {id : Nat} {kind : Kind} {slots : List Slot} {n : Node} (hn : make id kind slots = .ok n) :
    n.toSlot.leaves = Slot.leavesOf slots := by
  rw [Node.leaves_toSlot, Node.slots_make hn]

theorem Node.leaves_makeList {id : Nat} {slots : List Slot} {s : Slot} (hs : makeList id slots = .ok s) :
    s.leaves = Slot.leavesOf slots := by
  rcases makeList_eq_ok hs with ⟨rfl, rfl⟩ | ⟨n, hn, rfl⟩
  · rfl
  · exact leaves_make hn

theorem leaves_packTrivia {id : Nat} {trivia : List Slot} {s : Slot} (hs : packTrivia id trivia = .ok s) :
    s.leaves = Slot.leavesOf trivia := by
  unfold packTrivia at hs
  split at hs
  · cases hs
    rfl
  · cases hs
    rw [Slot.leavesOf_cons, Slot.leavesOf_nil, List.append_nil]
  · exact Node.leaves_makeList hs

def TriviaPiece.leaf (p : TriviaPiece) : Leaf := ⟨p.kind.kind, p.width⟩

theorem TriviaPiece.leavesOf_toSlots (id : Nat) (pieces : List TriviaPiece) :
    Slot.leavesOf (toSlots id pieces) = pieces.map leaf := by
  induction pieces generalizing id with
  | nil => rfl
  | cons p rest ih =>
      rw [toSlots, Slot.leavesOf_cons, ih, List.map_cons]
      rfl

theorem TriviaPiece.extents_toSlots (id : Nat) (pieces : List TriviaPiece) :
    Slot.extents (toSlots id pieces) = Leaf.total (pieces.map leaf) := by
  rw [← leavesOf_toSlots id]
  exact (Slot.total_leavesOf fun s hs => (made_toSlots id pieces s hs).total_leaves).symm

end LosslessSyntax
