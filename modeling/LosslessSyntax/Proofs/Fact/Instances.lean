import LosslessSyntax.Proofs.Fact.Contents
import LosslessSyntax.Proofs.Fact.Erase
import LosslessSyntax.Proofs.Fact.Made
import LosslessSyntax.Proofs.Fact.Report

/-!
# What instance numbers decide

Content and diagnostics of a fact do not depend on the numbers of its instances. The numbers matter to the memory of
hashes alone, and there it is enough that whoever makes facts counts upward.

* `Slot.content_erase`, `Slot.report_erase` : contents and reports do not see the numbers;
* `Supply` : facts that have come about one after the other under the numbers below a bound;
* `Supply.add` : a new fact under the next number, and what follows for tokens, nodes, lists and trivia.
-/

set_option autoImplicit false

namespace LosslessSyntax

/-! ## Answers that do not depend on the numbers -/

namespace Slot

mutual

theorem content_erase : ∀ s : Slot, s.erase.content = s.content
  | .absent => rfl
  | .token head leading => by
    rw [erase, content, content, content_erase leading]
    rfl
  | .node head slots => by
    rw [erase, content, content, contents_eraseAll slots]
    rfl

theorem contents_eraseAll : ∀ slots : List Slot, contents (eraseAll slots) = contents slots
  | [] => rfl
  | s :: rest => by rw [eraseAll, contents, contents, content_erase s, contents_eraseAll rest]

end

theorem content_eq_of_erase_eq {s t : Slot} (h : s.erase = t.erase) : s.content = t.content := by
  rw [← content_erase s, h, content_erase t]

mutual

theorem firstToken?_erase : ∀ s : Slot, s.erase.firstToken? = s.firstToken?.map Token.erase
  | .absent => rfl
  | .token _ _ => by
    rw [erase]
    rfl
  | .node _ slots => by
    rw [erase, firstToken?, firstToken?]
    exact firstTokenIn?_eraseAll slots

theorem firstTokenIn?_eraseAll : ∀ slots : List Slot,
    firstTokenIn? (eraseAll slots) = (firstTokenIn? slots).map Token.erase
  | [] => rfl
  | s :: rest => by
    rw [eraseAll, firstTokenIn?, firstTokenIn?, firstToken?_erase s]
    cases s.firstToken? with
    | none => exact firstTokenIn?_eraseAll rest
    | some t => rfl

end

theorem leadingWidth_erase (s : Slot) : s.erase.leadingWidth = s.leadingWidth := by
  unfold leadingWidth
  rw [firstToken?_erase]
  cases s.firstToken? with
  | none => rfl
  | some t => exact fullWidth_erase t.leading

end Slot

theorem map_bind {α β γ : Type} (g : β → γ) (x : Except Fault α) (f : α → Except Fault β) :
    (x >>= f).map g = x >>= fun a => (f a).map g := by cases x <;> rfl

theorem bind_map {α β γ : Type} (g : α → β) (x : Except Fault α) (f : β → Except Fault γ) :
    x.map g >>= f = x >>= fun a => f (g a) := by cases x <;> rfl

namespace Report

def Work.erase : Work → Work
  | .visit fact fullStart done => .visit fact.erase fullStart done
  | .emit diagnostics spanStart => .emit diagnostics spanStart

theorem visitTrivia_erase (trivia : Slot) (start : Nat) :
    visitTrivia trivia.erase start = (visitTrivia trivia start).map Work.erase := by
  unfold visitTrivia
  rw [Slot.isPresent_erase]
  split <;> rfl

theorem visitChildren_eraseAll (offset : Nat) (pending : Bool) (slots : List Slot) :
    visitChildren offset pending (Slot.eraseAll slots) =
      (visitChildren offset pending slots).map (List.map Work.erase) := by
  induction slots generalizing offset pending with
  | nil => rfl
  | cons s rest ih =>
      simp only [Slot.eraseAll, visitChildren, Slot.fullWidth_erase, Slot.firstToken?_erase, Option.isSome_map, ih,
        map_bind, bind_map]
      rfl

theorem expand_erase (fact : Slot) (start : Nat) (done : Bool) :
    expand fact.erase start done = (expand fact start done).map (List.map Work.erase) := by
  unfold expand
  rw [Slot.flags_erase]
  split
  · cases fact with
    | absent => rfl
    | token head leading =>
        simp only [Slot.erase, Slot.fullWidth_erase, visitTrivia_erase, map_bind]
        cases done <;> simp [pure, Except.pure, Except.map, Work.erase, TokenHead.erase]
    | node head slots =>
        have hwidth := Slot.leadingWidth_erase (.node head slots)
        have hfirst := Slot.firstToken?_erase (.node head slots)
        simp only [Slot.erase] at hwidth hfirst ⊢
        simp only [hwidth, hfirst, visitChildren_eraseAll, map_bind, bind_map]
        cases (Slot.node head slots).firstToken? with
        | none => rfl
        | some t =>
            have htrivia : visitTrivia t.erase.leading start = (visitTrivia t.leading start).map Work.erase :=
              visitTrivia_erase t.leading start
            simp only [Option.map_some, htrivia, show head.erase.diagnostics = head.diagnostics from rfl]
            generalize (!done && !head.diagnostics.isEmpty) = hoist
            cases hoist with
            | false => rfl
            | true => simp only [if_true, pure, Except.pure, Except.map, List.map_append, List.map_cons, Work.erase]
  · rfl

/-- The walk finds the same, whatever the numbers are. -/
theorem ofStack_erase (stack : List Work) : ofStack (stack.map Work.erase) = ofStack stack := by
  induction stack using ofStack.induct with
  | case1 => rfl
  | case2 diagnostics spanStart stack ih => rw [List.map_cons, Work.erase, ofStack, ofStack, ih]
  | case3 fact start done stack f hf =>
      have hf' : expand fact.erase start done = .error f := by rw [expand_erase, hf]; rfl
      rw [List.map_cons, Work.erase, ofStack_visit_error hf, ofStack_visit_error hf']
  | case4 fact start done stack ws hws ih =>
      have hws' : expand fact.erase start done = .ok (ws.map Work.erase) := by rw [expand_erase, hws]; rfl
      rw [List.map_cons, Work.erase, ofStack_visit_ok hws, ofStack_visit_ok hws', ← List.map_append, ih]

end Report

theorem Slot.report_erase (s : Slot) (start : Nat) : s.erase.report start = s.report start :=
  Report.ofStack_erase [.visit s start false]

/-! ## Counting upward -/

theorem Slot.mem_of_isPresent {s : Slot} {stock : List Slot} (h : s ∈ Slot.absent :: stock)
    (hs : s.isPresent = true) : s ∈ stock := by
  rcases List.mem_cons.1 h with rfl | h
  · cases hs
  · exact h

/-- The facts come from one stock, all of it under numbers below `n`. -/
def Supply (n : Nat) (facts : List Slot) : Prop :=
  ∃ stock, Stock stock ∧ (∀ f ∈ stock, ∀ id, f.id? = some id → id < n) ∧ facts ⊆ Slot.absent :: stock

theorem supply_nil (n : Nat) : Supply n [] :=
  ⟨[], .empty, fun _ hf => absurd hf List.not_mem_nil, List.nil_subset _⟩

namespace Supply

variable {n m : Nat} {facts : List Slot}

theorem mono {facts' : List Slot} (h : Supply n facts) (hn : n ≤ m) (hfacts : facts' ⊆ facts) : Supply m facts' := by
  obtain ⟨stock, hstock, hbelow, hsubset⟩ := h
  exact ⟨stock, hstock, fun f hf id hid => Nat.lt_of_lt_of_le (hbelow f hf id hid) hn, fun s hs => hsubset (hfacts hs)⟩

theorem absent (h : Supply n facts) : Supply n (.absent :: facts) := by
  obtain ⟨stock, hstock, hbelow, hsubset⟩ := h
  exact ⟨stock, hstock, hbelow, List.cons_subset.2 ⟨List.mem_cons_self, hsubset⟩⟩

/-- A fact under the next number, made of facts at hand. -/
theorem add {s : Slot} (h : Supply n facts) (hid : s.id? = some n) (hparts : s.parts ⊆ Slot.absent :: facts) :
    Supply (n + 1) (s :: facts) := by
  obtain ⟨stock, hstock, hbelow, hsubset⟩ := h
  have hpresent : s.isPresent = true := by
    cases s with
    | absent => cases hid
    | _ => rfl
  have hnew : ∀ f ∈ stock, f.id? ≠ s.id? := by
    intro f hf hsame
    exact Nat.lt_irrefl n (hbelow f hf n (hsame.trans hid))
  have hfacts : facts ⊆ Slot.absent :: s :: stock := fun f hf => by
    have hmem := hsubset hf
    simp only [List.mem_cons] at hmem ⊢
    exact hmem.imp_right Or.inr
  have hparts' : ∀ part ∈ s.parts, part ∈ Slot.absent :: stock := fun part hpart =>
    (List.cons_subset.2 ⟨List.mem_cons_self, hsubset⟩) (hparts hpart)
  refine ⟨s :: stock, .add hstock hpresent hparts' hnew, fun f hf id hf' => ?_, ?_⟩
  · rcases List.mem_cons.1 hf with rfl | hf
    · rw [hid] at hf'
      cases hf'
      exact Nat.lt_succ_self n
    · exact Nat.lt_succ_of_lt (hbelow f hf id hf')
  · exact List.cons_subset.2 ⟨List.mem_cons_of_mem _ List.mem_cons_self, hfacts⟩

theorem token {leading : Slot} {kind : Kind} {width : Nat} {missing : Bool} {diagnostics : List Diagnostic} {t : Token}
    (h : Supply n facts) (hleading : leading ∈ Slot.absent :: facts)
    (ht : Token.assembleChecked n leading kind width missing diagnostics = .ok t) :
    Supply (n + 1) (t.toSlot :: facts) := by
  obtain ⟨-, rfl⟩ := Token.assembleChecked_eq_ok_iff.1 ht
  exact h.add rfl (List.cons_subset.2 ⟨hleading, List.nil_subset _⟩)

theorem node {kind : Kind} {slots : List Slot} {node : Node} (h : Supply n facts)
    (hslots : slots ⊆ Slot.absent :: facts) (hnode : Node.make n kind slots = .ok node) :
    Supply (n + 1) (node.toSlot :: facts) := by
  obtain ⟨layout, -, hnode⟩ := bind_eq_ok_iff.1 hnode
  obtain ⟨width, -, rfl⟩ := Node.assemble_eq_ok_iff.1 hnode
  exact h.add rfl hslots

theorem list {slots : List Slot} {s : Slot} (h : Supply n facts) (hslots : slots ⊆ Slot.absent :: facts)
    (hs : Node.makeList n slots = .ok s) : Supply (n + 1) (s :: facts) := by
  rcases Node.makeList_eq_ok hs with ⟨-, rfl⟩ | ⟨node, hnode, rfl⟩
  · exact h.absent.mono (Nat.le_succ n) (List.Subset.refl _)
  · exact h.node hslots hnode

theorem pieces (h : Supply n facts) (pieces : List TriviaPiece) :
    Supply (n + pieces.length) (TriviaPiece.toSlots n pieces ++ facts) := by
  induction pieces generalizing n facts with
  | nil => exact h
  | cons p rest ih =>
      have hfirst : Supply (n + 1) ((p.toToken n).toSlot :: facts) :=
        h.add rfl (List.cons_subset.2 ⟨List.mem_cons_self, List.nil_subset _⟩)
      have hrest := ih hfirst
      rw [Nat.add_right_comm] at hrest
      refine hrest.mono (Nat.le_refl _) ?_
      rw [TriviaPiece.toSlots, List.cons_append]
      exact List.perm_middle.symm.subset

theorem packTrivia {trivia : List Slot} {leading : Slot} (h : Supply n facts) (htrivia : trivia ⊆ facts)
    (hleading : LosslessSyntax.packTrivia n trivia = .ok leading) : Supply (n + 1) (leading :: facts) := by
  unfold LosslessSyntax.packTrivia at hleading
  split at hleading
  · cases hleading
    exact h.absent.mono (Nat.le_succ n) (List.Subset.refl _)
  · cases hleading
    exact h.mono (Nat.le_succ n) (List.cons_subset.2 ⟨htrivia List.mem_cons_self, List.Subset.refl _⟩)
  · exact h.list (List.subset_cons_of_subset _ htrivia) hleading

/-- Facts of one stock with one content are equal and have one hash, whatever is remembered. -/
theorem equal_of_content_eq {s t : Slot} (h : Supply n facts) (hs : s ∈ facts) (ht : t ∈ facts)
    (hs' : s.isPresent = true) (ht' : t.isPresent = true) (hcontent : s.content = t.content) :
    ∃ stock, Stock stock ∧ s ∈ stock ∧ t ∈ stock ∧ ∀ memo memo' : HashMemo, memo.Reached stock → memo'.Reached stock →
      memo.equal s t = true ∧ (HashMemo.hash s memo).1 = (HashMemo.hash t memo').1 := by
  obtain ⟨stock, hstock, -, hsubset⟩ := h
  refine ⟨stock, hstock, Slot.mem_of_isPresent (hsubset hs) hs', Slot.mem_of_isPresent (hsubset ht) ht',
    fun memo memo' hm hm' => ?_⟩
  have hright := hm.right hstock
  constructor
  · exact (HashMemo.equal_iff hstock hright s (hsubset hs) t (hsubset ht)).2 hcontent
  · rw [(HashMemo.hash_right hstock s (hsubset hs) memo hright).1,
      (HashMemo.hash_right hstock t (hsubset ht) memo' (hm'.right hstock)).1, Slot.contentHash_eq hcontent]

end Supply

end LosslessSyntax
