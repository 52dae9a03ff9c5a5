import LosslessSyntax.Fact.Trivia

/-!
# Facts without the numbers of their instances

`Slot.erase` forgets which instance a fact is, and nothing else. Whoever makes facts hands out the numbers, and
no construction looks at them: what is made of facts that agree up to their numbers agrees up to its numbers.

* `Slot.erase`, `Slot.eraseAll`, `Token.erase`, `Node.erase`;
* `Token.erase_make`, `Node.erase_make`, `erase_packTrivia`, ... : making and erasing commute, and a construction
  faults on erased facts exactly as it does on the facts themselves;
* `Node.make_alike`, `Node.makeList_alike`, ... : what succeeds under one number succeeds alike under every other.
-/

set_option autoImplicit false

namespace LosslessSyntax

def TokenHead.erase (head : TokenHead) : TokenHead := { head with id := 0 }

def NodeHead.erase (head : NodeHead) : NodeHead := { head with id := 0 }

namespace Slot

mutual

/-- The fact with all instance numbers 0. -/
def erase : Slot → Slot
  | .absent => .absent
  | .token head leading => .token head.erase leading.erase
  | .node head slots => .node head.erase (eraseAll slots)

def eraseAll : List Slot → List Slot
  | [] => []
  | s :: rest => s.erase :: eraseAll rest

end

theorem eraseAll_eq_map (slots : List Slot) : eraseAll slots = slots.map erase := by
  induction slots with
  | nil => rfl
  | cons s rest ih => exact congrArg (s.erase :: ·) ih

theorem eraseAll_append (ss ts : List Slot) : eraseAll (ss ++ ts) = eraseAll ss ++ eraseAll ts := by
  simp only [eraseAll_eq_map, List.map_append]

theorem length_eraseAll (slots : List Slot) : (eraseAll slots).length = slots.length := by
  rw [eraseAll_eq_map, List.length_map]

theorem eraseAll_take (n : Nat) (slots : List Slot) : eraseAll (slots.take n) = (eraseAll slots).take n := by
  rw [eraseAll_eq_map, eraseAll_eq_map, List.map_take]

theorem eraseAll_drop (n : Nat) (slots : List Slot) : eraseAll (slots.drop n) = (eraseAll slots).drop n := by
  rw [eraseAll_eq_map, eraseAll_eq_map, List.map_drop]

theorem isPresent_erase (s : Slot) : s.erase.isPresent = s.isPresent := by cases s <;> rfl

theorem flags_erase (s : Slot) : s.erase.flags = s.flags := by cases s <;> rfl

theorem fullWidth_erase (s : Slot) : s.erase.fullWidth = s.fullWidth := by
  cases s with
  | absent => rfl
  | node _ _ => rfl
  | token head leading =>
      rw [erase, fullWidth, fullWidth, fullWidth_erase leading]
      rfl

theorem sumWidths_eraseAll (start : Nat) (slots : List Slot) :
    sumWidths start (eraseAll slots) = sumWidths start slots := by
  induction slots generalizing start with
  | nil => rfl
  | cons s rest ih =>
      rw [eraseAll, sumWidths, sumWidths, fullWidth_erase]
      simp only [ih]

theorem startsFrom_eraseAll (start : Nat) (slots : List Slot) :
    startsFrom start (eraseAll slots) = startsFrom start slots := by
  induction slots generalizing start with
  | nil => rfl
  | cons s rest ih =>
      rw [eraseAll, startsFrom, startsFrom, fullWidth_erase]
      simp only [ih]

end Slot

def Token.erase (t : Token) : Token := ⟨t.head.erase, t.leading.erase⟩

def Node.erase (n : Node) : Node := ⟨n.head.erase, Slot.eraseAll n.slots⟩

theorem Token.erase_toSlot (t : Token) : t.toSlot.erase = t.erase.toSlot := by
  rw [toSlot, Slot.erase]
  rfl

theorem Node.erase_toSlot (n : Node) : n.toSlot.erase = n.erase.toSlot := by
  rw [toSlot, Slot.erase]
  rfl

theorem Slot.walkTokens_eraseAll (stack : List Slot) :
    walkTokens (eraseAll stack) = (walkTokens stack).map Token.erase := by
  induction stack using walkTokens.induct with
  | case1 => rw [eraseAll, walkTokens, List.map_nil]
  | case2 stack ih => rw [eraseAll, erase, walkTokens, walkTokens, ih]
  | case3 head leading stack ih =>
      rw [eraseAll, erase, walkTokens, walkTokens, ih, List.map_cons]
      rfl
  | case4 head slots stack ih => rw [eraseAll, erase, walkTokens, walkTokens, ← eraseAll_append, ih]

theorem Slot.tokens_erase (s : Slot) : s.erase.tokens = s.tokens.map Token.erase := walkTokens_eraseAll [s]

/-! ## Making and erasing -/

namespace Token

theorem erase_assemble (id : Nat) (leading : Slot) (kind : Kind) (width : Nat) (missing : Bool)
    (diagnostics : List Diagnostic) :
    (assemble id leading kind width missing diagnostics).erase =
      assemble 0 leading.erase kind width missing diagnostics := by
  unfold assemble summary
  rw [Slot.flags_erase]
  rfl

theorem erase_assembleChecked (id : Nat) (leading : Slot) (kind : Kind) (width : Nat) (missing : Bool)
    (diagnostics : List Diagnostic) :
    (assembleChecked id leading kind width missing diagnostics).map erase =
      assembleChecked 0 leading.erase kind width missing diagnostics := by
  unfold assembleChecked
  rw [Slot.tokens_erase, List.all_map]
  show Except.map erase (if leading.tokens.all (·.kind.isTrivia) then _ else _) =
    if leading.tokens.all (·.kind.isTrivia) then _ else _
  split
  · exact congrArg Except.ok (erase_assemble ..)
  · rfl

theorem erase_make (id : Nat) (leading : Slot) (kind : Kind) (width : Nat) :
    (make id leading kind width).map erase = make 0 leading.erase kind width := erase_assembleChecked ..

theorem erase_makeMissing (id : Nat) (leading : Slot) (kind : Kind) (diagnostics : List Diagnostic) :
    (makeMissing id leading kind diagnostics).map erase = makeMissing 0 leading.erase kind diagnostics := by
  unfold makeMissing
  split
  · rfl
  · exact erase_assembleChecked ..

end Token

theorem Layout.forSlots_eraseAll (shape : Shape) (slots : List Slot) :
    forSlots shape (Slot.eraseAll slots) = forSlots shape slots := by
  unfold forSlots
  rw [Slot.length_eraseAll, Slot.startsFrom_eraseAll]

namespace Node

theorem summary_eraseAll (slots : List Slot) (diagnostics : List Diagnostic) :
    summary (Slot.eraseAll slots) diagnostics = summary slots diagnostics := by
  unfold summary
  rw [Slot.eraseAll_eq_map, List.foldl_map]
  simp only [Slot.flags_erase]

theorem erase_assemble (id : Nat) (kind : Kind) (layout : Layout) (slots : List Slot) (diagnostics : List Diagnostic) :
    (assemble id kind layout slots diagnostics).map erase =
      assemble 0 kind layout (Slot.eraseAll slots) diagnostics := by
  unfold assemble
  rw [summary_eraseAll, Slot.sumWidths_eraseAll]
  cases Slot.sumWidths 0 slots <;> rfl

theorem erase_make (id : Nat) (kind : Kind) (slots : List Slot) :
    (make id kind slots).map erase = make 0 kind (Slot.eraseAll slots) := by
  unfold make makeShaped
  rw [Slot.length_eraseAll, Layout.forSlots_eraseAll]
  cases Layout.forSlots (.forCount slots.length) slots with
  | error f => rfl
  | ok layout => exact erase_assemble ..

theorem erase_makeList (id : Nat) (slots : List Slot) :
    (makeList id slots).map Slot.erase = makeList 0 (Slot.eraseAll slots) := by
  unfold makeList
  cases slots with
  | nil => rfl
  | cons s rest =>
      show Except.map Slot.erase (make id .list (s :: rest) >>= fun n => pure n.toSlot) =
        (make 0 .list (Slot.eraseAll (s :: rest)) >>= fun n => pure n.toSlot)
      rw [← erase_make id]
      cases make id .list (s :: rest) with
      | error f => rfl
      | ok n => exact congrArg Except.ok n.erase_toSlot

end Node

theorem erase_packTrivia (id : Nat) (trivia : List Slot) :
    (packTrivia id trivia).map Slot.erase = packTrivia 0 (Slot.eraseAll trivia) := by
  match trivia with
  | [] => rfl
  | [single] => rfl
  | s :: t :: rest => exact Node.erase_makeList id (s :: t :: rest)

theorem TriviaPiece.eraseAll_toSlots (id : Nat) (pieces : List TriviaPiece) :
    Slot.eraseAll (toSlots id pieces) = pieces.map fun p => (p.toToken 0).toSlot := by
  induction pieces generalizing id with
  | nil => rfl
  | cons p rest ih =>
      rw [toSlots, Slot.eraseAll, ih, List.map_cons, Token.erase_toSlot]
      rfl

/-! ## Constructions that differ in their numbers -/

theorem Slot.eraseAll_eq_singleton {slots : List Slot} {s : Slot} (h : eraseAll slots = [s]) :
    ∃ u, slots = [u] ∧ u.erase = s := by
  rw [eraseAll_eq_map, List.map_eq_singleton_iff] at h
  exact h

theorem exists_of_map_eq_ok {α β : Type} {f : α → β} {x : Except Fault α} {b : β} (h : x.map f = .ok b) :
    ∃ a, x = .ok a ∧ f a = b := by
  cases x with
  | ok a => exact ⟨a, rfl, Except.ok.inj h⟩
  | error e => cases h

theorem Token.makeMissing_alike {kind : Kind} {diagnostics : List Diagnostic} {u : Token}
    (hu : makeMissing 0 .absent kind diagnostics = .ok u) (n : Nat) :
    ∃ v, makeMissing n .absent kind diagnostics = .ok v ∧ v.toSlot.erase = u.toSlot.erase := by
  have hmap : (makeMissing n .absent kind diagnostics).map erase = .ok u.erase := by
    rw [erase_makeMissing, ← erase_makeMissing 0, hu]
    rfl
  obtain ⟨v, hv, he⟩ := exists_of_map_eq_ok hmap
  exact ⟨v, hv, by rw [erase_toSlot, he, erase_toSlot]⟩

theorem Node.make_alike {kind : Kind} {slots slots' : List Slot} {n : Node} (hn : make 0 kind slots = .ok n)
    (hslots : Slot.eraseAll slots' = Slot.eraseAll slots) (id : Nat) :
    ∃ n', make id kind slots' = .ok n' ∧ n'.toSlot.erase = n.toSlot.erase := by
  have hmap : (make id kind slots').map erase = .ok n.erase := by
    rw [erase_make, hslots, ← erase_make 0, hn]
    rfl
  obtain ⟨n', hn', he⟩ := exists_of_map_eq_ok hmap
  exact ⟨n', hn', by rw [erase_toSlot, he, erase_toSlot]⟩

theorem Node.erase_eq_of_toSlot {n n' : Node} (h : n.toSlot.erase = n'.toSlot.erase) : n.erase = n'.erase := by
  rw [erase_toSlot, erase_toSlot] at h
  injection h with hhead hslots
  show Node.mk n.erase.head n.erase.slots = Node.mk n'.erase.head n'.erase.slots
  rw [hhead, hslots]

theorem Node.makeList_alike {slots slots' : List Slot} {s : Slot} (hs : makeList 0 slots = .ok s)
    (hslots : Slot.eraseAll slots' = Slot.eraseAll slots) (id : Nat) :
    ∃ s', makeList id slots' = .ok s' ∧ s'.erase = s.erase := by
  have hmap : (makeList id slots').map Slot.erase = .ok s.erase := by
    rw [erase_makeList, hslots, ← erase_makeList 0, hs]
    rfl
  exact exists_of_map_eq_ok hmap

end LosslessSyntax
