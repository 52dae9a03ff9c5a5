import LosslessSyntax.Proofs.Fact.Occurrences
import LosslessSyntax.Proofs.View.Refinement

/-!
# The reports of views

A view has no report of its own: it asks the fact at its path for one, from where the view starts. So what is known of
the reports of facts is known of views.

* `report_lists_occurrences` : a report loses nothing and repeats nothing, and views report what their facts do;
* `nestedOwners_report` : two owners in front of one token, which both start behind its trivia.
-/

set_option autoImplicit false

namespace LosslessSyntax

/-- **A report loses nothing and repeats nothing.** If the fact and all that is owned in it have a place in the text,
the report of the fact lists, for every place at which something stands, what is owned there, and nothing else. The
report of a view is that of its fact. -/
theorem report_lists_occurrences {e : Slot} (he : e.Obtainable) {start width : Nat} (hwidth : e.fullWidth = .ok width)
    (hfits : start + width < Size.limit)
    (hplaces : ∀ place, ∀ r ∈ e.ownMarks start place, r.range.stop < Size.limit) :
    (∃ order : List (List Branch), order.Nodup ∧ (∀ place, place ∈ order ↔ (e.part place).isPresent = true) ∧
      e.report start = ⟨order.flatMap (e.ownMarks start), none⟩) ∧
    ∀ {root : Node} {t : SyntaxTree}, root.toSlot.Obtainable → (SyntaxTree.ofRoot root).Reaches t →
      ∀ {id : Nat} {v : View}, t.views[id]? = some v →
        (SyntaxTree.reportAt id).run t = (.ok (v.fact.report v.offset), t) := by
  have hmade := Slot.obtainable_iff_made.1 he
  refine ⟨?_, fun hroot ht id v hv => ?_⟩
  · rw [hmade.fullWidth_eq] at hwidth
    obtain ⟨rfl, -⟩ := Size.ofNat_eq_ok_iff.1 hwidth
    exact hmade.report_occurrences hfits hplaces
  · obtain ⟨hlinked, -⟩ := ht.linked (SyntaxTree.linked_ofRoot (Slot.obtainable_iff_made.1 hroot))
    exact hlinked.run_reportAt hv

/-- A name behind skipped text; both own a diagnostic. -/
def strandedToken : Token :=
  Token.assemble 1 (Token.assemble 0 .absent .skippedTokens 2 false [.error Diagnostic.skippedText 0 2]).toSlot .name 3
    false [.error Diagnostic.expectedToken 3 0]

theorem strandedToken_obtainable : strandedToken.toSlot.Obtainable := by
  have hstray := Token.made_bare 0 .skippedTokens 2 [.error Diagnostic.skippedText 0 2]
  refine Slot.obtainable_iff_made.2 (Token.made_present hstray (Token.assembleChecked_eq_ok_iff.2 ⟨?_, rfl⟩))
  show (Slot.token _ _).tokens.all _ = true
  rw [Slot.tokens_token]
  rfl

/-- A node in a node; both own a diagnostic, and have slots without text in front of their first token. The token
stands in two places. -/
def nestedOwners : Except Fault Node := do
  let empty ← Node.make 2 .nameRef [.absent]
  let inner ← Node.make 3 .nameRef [empty.toSlot, strandedToken.toSlot]
  let inner ← inner.withDiagnostics 4 [.error Diagnostic.expectedToken 0 3]
  let outer ← Node.make 5 .list [.absent, inner.toSlot, strandedToken.toSlot]
  outer.withDiagnostics 6 [.error Diagnostic.expectedToken 0 8]

theorem nestedOwners_obtainable {n : Node} (h : nestedOwners = .ok n) : n.toSlot.Obtainable := by
  obtain ⟨empty, hempty, h⟩ := bind_eq_ok_iff.1 h
  obtain ⟨bare, hbare, h⟩ := bind_eq_ok_iff.1 h
  obtain ⟨inner, hinner, h⟩ := bind_eq_ok_iff.1 h
  obtain ⟨outer, houter, h⟩ := bind_eq_ok_iff.1 h
  have hgap : empty.toSlot.Obtainable := .node (fun s hs => by rw [List.mem_singleton.1 hs]; exact .absent) hempty
  have hin : inner.toSlot.Obtainable := by
    refine .nodeDiagnostics (.node ?_ hbare) hinner
    simp only [List.mem_cons, List.not_mem_nil, or_false, forall_eq_or_imp, forall_eq]
    exact ⟨hgap, strandedToken_obtainable⟩
  refine .nodeDiagnostics (.node ?_ houter) h
  simp only [List.mem_cons, List.not_mem_nil, or_false, forall_eq_or_imp, forall_eq]
  exact ⟨.absent, hin, strandedToken_obtainable⟩

/-- The outer node puts the trivia forward, and the inner one does not do so again. -/
theorem nestedOwners_report : ∃ n : Node, nestedOwners = .ok n ∧ n.toSlot.Obtainable ∧
    n.toSlot.fullWidth = .ok 10 ∧ 10 + 10 < Size.limit ∧ n.toSlot.Placeable 10 ∧
    (∃ order : List (List Branch), order.Nodup ∧
      (∀ place, place ∈ order ↔ (n.toSlot.part place).isPresent = true) ∧
      n.toSlot.report 10 = ⟨order.flatMap (n.toSlot.ownMarks 10), none⟩) ∧
    (n.toSlot.report 10).found.map (·.range) =
      [⟨10, 12⟩, ⟨12, 20⟩, ⟨12, 15⟩, ⟨15, 15⟩, ⟨15, 17⟩, ⟨20, 20⟩] := by
  have hranges : nestedOwners.toOption.map (fun n => (n.toSlot.report 10).found.map (·.range)) =
      some [⟨10, 12⟩, ⟨12, 20⟩, ⟨12, 15⟩, ⟨15, 15⟩, ⟨15, 17⟩, ⟨20, 20⟩] := by decide +kernel
  obtain ⟨n, hn, hwidth, hplaces⟩ : ∃ n : Node, nestedOwners = .ok n ∧ n.toSlot.fullWidth = .ok 10 ∧
      ∀ place ∈ n.toSlot.places false, ∀ r ∈ n.toSlot.ownMarks 10 place, r.range.stop < Size.limit :=
    ⟨_, rfl, rfl, by decide +kernel⟩
  have hobtainable := nestedOwners_obtainable hn
  have hplaceable := Slot.placeable_of_places hplaces
  obtain ⟨hlists, -⟩ := report_lists_occurrences hobtainable hwidth (by decide) hplaceable
  rw [hn] at hranges
  exact ⟨n, hn, hobtainable, hwidth, by decide, hplaceable, hlists, Option.some.inj hranges⟩

end LosslessSyntax
