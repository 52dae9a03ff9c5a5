import Mathlib.Data.List.Pairwise
import LosslessSyntax.Proofs.Fact.Constructions
import LosslessSyntax.Proofs.View.TokenSearch
import LosslessSyntax.View.Lookup

/-!
# The tokens at an offset

The tokens of a node tile its text, so exactly one of them lies over an offset inside it, and the way down to that one
does not end in an absent slot. Where that token starts, the nearest present token in front of it may end; and at the
end of the node, the last present one is the answer. Both of these are found without regard to what stands between:

* `SyntaxTree.TokensAt` : what a node can answer; `Linked.run_tokenAt` : it does answer so;
* `tokenAt_covers` : the right one of the tokens is the one over the offset;
* `tokenAt_within_iff` : the tokens stand in the node and at the offset, unless missing tokens hold text at its end, or
  a token without width stands in front of it.
-/

set_option autoImplicit false

namespace LosslessSyntax

theorem Range.Tile.le {rs : List Range} {start stop : Nat} (h : Range.Tile start rs stop) :
    start ≤ stop ∧ ∀ r ∈ rs, start ≤ r.start ∧ r.stop ≤ stop := by
  induction rs generalizing start with
  | nil =>
      obtain rfl : start = stop := h
      exact ⟨Nat.le_refl _, fun r hr => absurd hr List.not_mem_nil⟩
  | cons r rest ih =>
      obtain ⟨hstart, hle, htile⟩ := h
      obtain ⟨hrest, hall⟩ := ih htile
      refine ⟨by omega, fun q hq => ?_⟩
      rcases List.mem_cons.1 hq with rfl | hq
      · exact ⟨Nat.le_of_eq hstart.symm, hrest⟩
      · have := hall q hq
        omega

theorem Range.Tile.pairwise {rs : List Range} {start stop : Nat} (h : Range.Tile start rs stop) :
    rs.Pairwise fun r q => r.stop ≤ q.start := by
  induction rs generalizing start with
  | nil => exact .nil
  | cons r rest ih => exact .cons (fun q hq => (h.2.2.le.2 q hq).1) (ih h.2.2)

namespace Slot

/-! ## Tokens and offsets -/

theorem pairwise_tokenPaths (s : Slot) (start : Nat) :
    s.tokenPaths.Pairwise fun path other => (s.rangeAlong start path).stop ≤ (s.rangeAlong start other).start :=
  List.pairwise_map.1 (tile_tokenPaths s start).pairwise

theorem rangeAlong_within {s : Slot} {path : List Nat} (h : path ∈ s.tokenPaths) (start : Nat) :
    start ≤ (s.rangeAlong start path).start ∧ (s.rangeAlong start path).stop ≤ start + s.extent :=
  (tile_tokenPaths s start).le.2 _ (List.mem_map_of_mem h)

theorem PresentBefore.stop_le {s : Slot} {left right : List Nat} (h : s.PresentBefore left right) (start : Nat) :
    (s.rangeAlong start left).stop ≤ (s.rangeAlong start right).start := by
  obtain ⟨before, between, after, hsplit, -⟩ := h
  have hall := s.pairwise_tokenPaths start
  rw [hsplit, List.pairwise_append, List.pairwise_cons] at hall
  exact hall.2.1.1 right (List.mem_append_right _ List.mem_cons_self)

theorem PresentBefore.mem {s : Slot} {left right : List Nat} (h : s.PresentBefore left right) :
    left ∈ s.tokenPaths ∧ right ∈ s.tokenPaths := by
  obtain ⟨before, between, after, hsplit, -⟩ := h
  rw [hsplit]
  simp

theorem PresentBefore.unique {s : Slot} {left other right : List Nat} (h : s.PresentBefore left right)
    (h' : s.PresentBefore other right) : left = other := by
  have hright := h.mem.2
  rw [presentBefore_iff hright] at h h'
  exact Option.some.inj (h.symm.trans h')

/-- The token of the node at the end of `path` that is reached along `inner` lies over the offset. -/
def TokenOver (s : Slot) (path : List Nat) (offset : Nat) (inner : List Nat) : Prop :=
  inner ∈ (s.along path).tokenPaths ∧ (s.rangeAlong 0 (path ++ inner)).contains offset = true

theorem TokenOver.unique {s : Slot} {path inner other : List Nat} {offset : Nat} (h : s.TokenOver path offset inner)
    (h' : s.TokenOver path offset other) : inner = other := by
  by_contra hne
  obtain ⟨hmem, hover⟩ := h
  obtain ⟨hmem', hover'⟩ := h'
  rw [← append_mem_tokenPaths] at hmem hmem'
  rw [Range.contains_iff] at hover hover'
  have hapart := (s.pairwise_tokenPaths 0).imp (S := fun p q => (s.rangeAlong 0 p).stop ≤ (s.rangeAlong 0 q).start ∨
    (s.rangeAlong 0 q).stop ≤ (s.rangeAlong 0 p).start) Or.inl
  have : Std.Symm fun p q => (s.rangeAlong 0 p).stop ≤ (s.rangeAlong 0 q).start ∨
    (s.rangeAlong 0 q).stop ≤ (s.rangeAlong 0 p).start := ⟨fun _ _ => Or.symm⟩
  have := hapart.forall hmem hmem' fun heq => hne (List.append_cancel_left heq)
  omega

theorem TokenOver.within {s : Slot} {path inner : List Nat} {offset : Nat} (h : s.TokenOver path offset inner) :
    (s.rangeAlong 0 path).contains offset = true := by
  obtain ⟨hmem, hover⟩ := h
  have hin := rangeAlong_within hmem (0 + s.offsetAlong path)
  rw [rangeAlong_append, Range.contains_iff] at hover
  rw [Range.contains_iff]
  show 0 + s.offsetAlong path ≤ offset ∧ offset < 0 + s.offsetAlong path + (s.along path).extent
  omega

theorem TokenOver.containsInclusive {s : Slot} {path inner : List Nat} {offset : Nat}
    (h : s.TokenOver path offset inner) : (s.rangeAlong 0 (path ++ inner)).containsInclusive offset = true := by
  have hin := Range.contains_iff.1 h.2
  rw [Range.containsInclusive_iff]
  omega

/-- The present token in front of another one ends at the offset, and starts inside the node at the end of `path`. -/
def Meets (s : Slot) (path : List Nat) (offset : Nat) (right left : List Nat) : Prop :=
  s.PresentBefore left right ∧ (s.rangeAlong 0 left).stop = offset ∧
    (s.rangeAlong 0 path).contains (s.rangeAlong 0 left).start = true

end Slot

namespace SyntaxTree

variable {t : SyntaxTree}

/-! ## The way down -/

/-- The way down along the slots over an offset leads to the token over it. -/
theorem Linked.run_tokenOver (ht : t.Linked) {h : NodeRef} {path : List Nat} (hplace : At t h.id path)
    (hnode : (t.root.toSlot.along path).isNode = true) {offset : Nat}
    (hin : (t.root.toSlot.rangeAlong 0 path).contains offset = true) {fuel : Nat}
    (hfuel : (t.root.toSlot.along path).height ≤ fuel) :
    ∃ token u inner, (NodeRef.tokenOver offset fuel h).run t = (.ok token, u) ∧ Grown t u ∧ u.Linked ∧
      At u token.id (path ++ inner) ∧ t.root.toSlot.TokenOver path offset inner := by
  induction fuel generalizing t h path with
  | zero => exact absurd (Slot.height_along_lt hnode 0) (by omega)
  | succ fuel ih =>
      obtain ⟨n, hn, hrun⟩ := ht.run_node hplace hnode
      obtain ⟨v, hv, -, hrange⟩ := ht.view_along hplace
      have hoffset : v.offset = 0 + t.root.toSlot.offsetAlong path := congrArg Range.start hrange
      rw [Range.contains_iff] at hin
      obtain ⟨hle, hlt⟩ : 0 + t.root.toSlot.offsetAlong path ≤ offset ∧
        offset < 0 + t.root.toSlot.offsetAlong path + (t.root.toSlot.along path).extent := hin
      have hmade := ht.made.along path
      rw [hn] at hmade hlt
      have hrelative : offset - v.offset < n.toSlot.extent := by omega
      have hsub : Size.sub offset v.offset = .ok (offset - v.offset) := Size.sub_eq_ok_iff.2 ⟨by omega, rfl⟩
      obtain ⟨i, hindex, -, hfrom, hto⟩ := Node.exists_indexAt hmade hrelative
      rw [← hn] at hfrom hto
      -- the slot over the offset, in the whole text
      have hslot : (t.root.toSlot.rangeAlong 0 (path ++ [i])).contains offset = true := by
        rw [Slot.rangeAlong_append, Range.contains_iff]
        show 0 + t.root.toSlot.offsetAlong path + (t.root.toSlot.along path).offsetAlong [i] ≤ offset ∧
          offset < 0 + t.root.toSlot.offsetAlong path + (t.root.toSlot.along path).offsetAlong [i] +
            ((t.root.toSlot.along path).along [i]).extent
        omega
      obtain ⟨answer, u, hchild, hgrown, hu, hshows⟩ := ht.run_child hplace i
      cases hshows with
      | none habsent =>
          rw [hgrown.root, Slot.along_append] at habsent
          rw [habsent, Slot.extent] at hto
          omega
      | token hat htoken =>
          refine ⟨_, u, [i], ?_, hgrown, hu, hat, ?_, hslot⟩
          · simp only [NodeRef.tokenOver, Step.run_bind, run_view hv, Step.run_lift, hsub, hrun, hindex, hchild,
              Step.run_pure]
          · rw [← Slot.append_mem_tokenPaths, ← List.append_nil (path ++ [i]), Slot.append_mem_tokenPaths,
              ← hgrown.root, htoken]
            exact List.mem_singleton_self _
      | node hat hinner =>
          have hlow := Slot.height_along_lt hnode i
          obtain ⟨token, u', inner, hrun', hgrown', hu', hat', hmem, hover⟩ :=
            ih hu hat hinner (by rw [hgrown.root]; exact hslot) (by rw [hgrown.root, Slot.along_append]; omega)
          rw [List.append_assoc] at hat' hover
          rw [hgrown.root] at hmem hover
          refine ⟨token, u', [i] ++ inner, ?_, hgrown.trans hgrown', hu', hat', ?_, hover⟩
          · simp only [NodeRef.tokenOver, Step.run_bind, run_view hv, Step.run_lift, hsub, hrun, hindex, hchild]
            exact hrun'
          · rw [Slot.append_mem_tokenPaths, ← Slot.along_append]
            exact hmem

/-- The left neighbour of the token over the offset is the one that meets it there. -/
theorem Linked.run_leftNeighbour (ht : t.Linked) {right : TokenRef} {path inner : List Nat} {offset : Nat}
    (hplace : At t right.id (path ++ inner)) (hbelow : inner ≠ []) (hover : t.root.toSlot.TokenOver path offset inner) :
    ∃ answer u, (NodeRef.leftNeighbour offset (t.root.toSlot.rangeAlong 0 path) right).run t = (.ok answer, u) ∧
      Grown t u ∧ u.Linked ∧
      ((answer = none ∧ ∀ l, ¬ t.root.toSlot.Meets path offset (path ++ inner) l) ∨
        ∃ left l, answer = some left ∧ At u left.id l ∧ t.root.toSlot.Meets path offset (path ++ inner) l) := by
  have hmem := Slot.append_mem_tokenPaths.2 hover.1
  obtain ⟨hfrom, -⟩ := Range.contains_iff.1 hover.2
  obtain ⟨v, hv, -, hrange⟩ := ht.view_along hplace
  have hoffset : v.offset = (t.root.toSlot.rangeAlong 0 (path ++ inner)).start := congrArg Range.start hrange
  unfold NodeRef.leftNeighbour
  rw [Step.run_bind, run_view hv]
  by_cases hstart : offset = v.offset
  · subst hstart
    obtain ⟨answer, u, hrun, hgrown, hu, hrel⟩ :=
      ht.locates_prev hplace (List.append_ne_nil_of_right_ne_nil _ hbelow) false
    have hbefore : ∀ l, t.root.toSlot.PresentBefore l (path ++ inner) ↔
        (t.root.toSlot.wantedBefore false (path ++ inner)).getLast? = some l := fun _ => Slot.presentBefore_iff hmem
    generalize (t.root.toSlot.wantedBefore false (path ++ inner)).getLast? = found at hrel hbefore
    cases hrel with
    | none =>
        refine ⟨none, u, ?_, hgrown, hu, .inl ⟨rfl, fun l hmeets => ?_⟩⟩
        · simp only [beq_self_eq_true, if_true, Step.run_bind, hrun, Step.run_pure]
        · cases (hbefore l).1 hmeets.1
    | @some left l hat =>
        have hspan := hu.run_tokenSpan hat
        rw [hgrown.root] at hspan
        by_cases hends : ((t.root.toSlot.rangeAlong 0 l).stop == v.offset &&
            (t.root.toSlot.rangeAlong 0 path).contains (t.root.toSlot.rangeAlong 0 l).start) = true
        · refine ⟨some left, u, ?_, hgrown, hu, .inr ⟨left, l, rfl, hat, (hbefore l).2 rfl, ?_⟩⟩
          · simp only [beq_self_eq_true, if_true, Step.run_bind, hrun, hspan, hends, Step.run_pure]
          · rwa [Bool.and_eq_true, beq_iff_eq] at hends
        · refine ⟨none, u, ?_, hgrown, hu, .inl ⟨rfl, fun other hmeets => hends ?_⟩⟩
          · simp only [beq_self_eq_true, if_true, Step.run_bind, hrun, hspan, hends, Bool.false_eq_true, if_false,
              Step.run_pure]
          · obtain rfl := Option.some.inj ((hbefore other).1 hmeets.1)
            rw [Bool.and_eq_true, beq_iff_eq]
            exact hmeets.2
  · refine ⟨none, t, ?_, .refl t, ht, .inl ⟨rfl, fun l hmeets => ?_⟩⟩
    · simp only [beq_iff_eq, hstart, if_false, Step.run_pure]
    · have hle := hmeets.1.stop_le 0
      have hend := hmeets.2.1
      omega

/-- What the node at the end of `path` can answer when it is asked for the tokens at an offset. -/
inductive TokensAt (t : SyntaxTree) (path : List Nat) (offset : Nat) : TokenAtOffset TokenRef → Prop
  /-- There is no text of the node at the offset. -/
  | outside (hout : (t.root.toSlot.rangeAlong 0 path).isEmpty = true ∨
      (t.root.toSlot.rangeAlong 0 path).containsInclusive offset = false) : TokensAt t path offset .none
  /-- The node ends at the offset, and has no present token. -/
  | blank (hend : offset = (t.root.toSlot.rangeAlong 0 path).stop)
      (hnone : ∀ last, ¬ (t.root.toSlot.along path).LastPresent last) : TokensAt t path offset .none
  /-- The node ends at the offset. -/
  | last {token : TokenRef} {inner : List Nat} (hend : offset = (t.root.toSlot.rangeAlong 0 path).stop)
      (hlast : (t.root.toSlot.along path).LastPresent inner) (hplace : At t token.id (path ++ inner)) :
      TokensAt t path offset (.single token)
  /-- No present token of the node ends where the one over the offset starts. -/
  | covered {token : TokenRef} {inner : List Nat} (hover : t.root.toSlot.TokenOver path offset inner)
      (hplace : At t token.id (path ++ inner)) (halone : ∀ l, ¬ t.root.toSlot.Meets path offset (path ++ inner) l) :
      TokensAt t path offset (.single token)
  | between {left right : TokenRef} {l inner : List Nat} (hover : t.root.toSlot.TokenOver path offset inner)
      (hplace : At t right.id (path ++ inner)) (hleft : At t left.id l)
      (hmeets : t.root.toSlot.Meets path offset (path ++ inner) l) : TokensAt t path offset (.between left right)

/-- Asking for the tokens at an offset never fails. -/
theorem Linked.run_tokenAt (ht : t.Linked) {h : NodeRef} {path : List Nat} (hplace : At t h.id path)
    (hnode : (t.root.toSlot.along path).isNode = true) (offset : Nat) :
    ∃ answer u, (h.tokenAt offset).run t = (.ok answer, u) ∧ Grown t u ∧ u.Linked ∧ TokensAt u path offset answer := by
  have hspan := ht.run_nodeSpan hplace
  unfold NodeRef.tokenAt
  rw [Step.run_bind, hspan]
  by_cases hout : ((t.root.toSlot.rangeAlong 0 path).isEmpty ||
      !(t.root.toSlot.rangeAlong 0 path).containsInclusive offset) = true
  · refine ⟨.none, t, ?_, .refl t, ht, .outside ?_⟩
    · simp only [hout, if_true, Step.run_pure]
    · rwa [Bool.or_eq_true, Bool.not_eq_true'] at hout
  · simp only [hout, if_false, Bool.false_eq_true]
    by_cases hend : offset = (t.root.toSlot.rangeAlong 0 path).stop
    · obtain ⟨answer, u, hrun, hgrown, hu, hrel⟩ := ht.locates_lastToken hplace hnode false
      have hlast : ∀ l, (u.root.toSlot.along path).LastPresent l ↔
          ((t.root.toSlot.along path).wantedPaths false).getLast? = some l := by
        rw [hgrown.root]
        exact fun _ => Slot.lastPresent_iff
      rw [← hgrown.root] at hend
      generalize ((t.root.toSlot.along path).wantedPaths false).getLast? = found at hrel hlast
      cases found with
      | none =>
          cases hrel
          refine ⟨.none, u, ?_, hgrown, hu, .blank hend fun l hl => ?_⟩
          · simp only [← hgrown.root, ← hend, beq_self_eq_true, if_true, Step.run_bind, hrun, Step.run_pure]
          · cases (hlast l).1 hl
      | some l =>
          cases hrel with
          | @some token _ hat =>
              refine ⟨.single token, u, ?_, hgrown, hu, .last hend ((hlast l).2 rfl) hat⟩
              simp only [← hgrown.root, ← hend, beq_self_eq_true, if_true, Step.run_bind, hrun, Step.run_pure]
    · have hin : (t.root.toSlot.rangeAlong 0 path).contains offset = true := by
        rw [Bool.or_eq_true, Bool.not_eq_true', not_or, Bool.not_eq_false, Range.containsInclusive_iff] at hout
        rw [Range.contains_iff]
        omega
      obtain ⟨n, hn, hrun⟩ := ht.run_node hplace hnode
      obtain ⟨right, u, inner, hrun', hgrown, hu, hat, hover⟩ :=
        ht.run_tokenOver hplace hnode hin (Nat.le_of_eq (congrArg _ hn))
      have hbelow : inner ≠ [] := by
        rintro rfl
        exact Slot.nil_notMem_tokenPaths hnode hover.1
      rw [← hgrown.root] at hover
      obtain ⟨answer, u', hrun'', hgrown', hu', hleft⟩ := hu.run_leftNeighbour hat hbelow hover
      rw [hgrown.root] at hrun''
      rw [← hgrown'.root] at hover
      obtain ⟨rfl, halone⟩ | ⟨left, l, rfl, hat', hmeets⟩ := hleft
      · refine ⟨.single right, u', ?_, hgrown.trans hgrown', hu', .covered hover (hat.grown hgrown') ?_⟩
        · simp only [beq_iff_eq, hend, if_false, Step.run_bind, hrun, hrun', hrun'', Step.run_pure]
        · rwa [hgrown'.root]
      · refine ⟨.between left right, u', ?_, hgrown.trans hgrown', hu', .between hover (hat.grown hgrown') hat' ?_⟩
        · simp only [beq_iff_eq, hend, if_false, Step.run_bind, hrun, hrun', hrun'', Step.run_pure]
        · rwa [hgrown'.root]

end SyntaxTree

open SyntaxTree (At)

/-- **The token over an offset.** Inside the text of a node, the right one of the tokens found at an offset is the one
token of the node that lies over it. A left one is the nearest present token in front of it, and ends at the offset;
there is none only if that token ends before it or starts in front of the node. -/
theorem tokenAt_covers {root : Node} (hroot : root.toSlot.Obtainable) {t : SyntaxTree}
    (ht : (SyntaxTree.ofRoot root).Reaches t) {h : NodeRef} {path : List Nat} (hplace : At t h.id path)
    (hnode : (root.toSlot.along path).isNode = true) {full : Range} (hfull : h.fullSpan.run t = (.ok full, t))
    {offset : Nat} (hstart : full.start ≤ offset) (hstop : offset < full.stop) :
    ∃ answer u right inner, (h.tokenAt offset).run t = (.ok answer, u) ∧ answer.rightBiased = some right ∧
      At u right.id (path ++ inner) ∧ root.toSlot.TokenOver path offset inner ∧
      (∀ other, root.toSlot.TokenOver path offset other → other = inner) ∧
      (∃ range, right.fullSpan.run u = (.ok range, u) ∧ range.contains offset = true) ∧
      (∀ left, answer = .between left right → ∃ l start, At u left.id l ∧
        root.toSlot.PresentBefore l (path ++ inner) ∧ left.fullSpan.run u = (.ok ⟨start, offset⟩, u)) ∧
      (answer = .single right → ∀ l, ¬ root.toSlot.Meets path offset (path ++ inner) l) := by
  obtain ⟨hlinked, rfl, rfl⟩ := ht.span_eq hroot hplace hfull
  obtain ⟨answer, u, hrun, hgrown', hu, hanswer⟩ := hlinked.run_tokenAt hplace hnode offset
  rw [← hgrown'.root] at hstart hstop ⊢
  cases hanswer with
  | outside hout =>
      rw [← Bool.not_eq_true, Range.containsInclusive_iff, Range.isEmpty, beq_iff_eq] at hout
      omega
  | blank hend _ => omega
  | last hend _ _ => omega
  | @covered right inner hover hat halone =>
      refine ⟨_, u, right, inner, hrun, rfl, hat, hover, fun other hother => hother.unique hover,
        ⟨_, hu.run_tokenSpan hat, hover.2⟩, fun left hleft => ?_, fun _ => halone⟩
      cases hleft
  | @between left right l inner hover hat hleft hmeets =>
      refine ⟨_, u, right, inner, hrun, rfl, hat, hover, fun other hother => hother.unique hover,
        ⟨_, hu.run_tokenSpan hat, hover.2⟩, fun left' heq => ?_, fun hsingle => ?_⟩
      · cases heq
        have hspan := hu.run_tokenSpan hleft
        refine ⟨l, (u.root.toSlot.rangeAlong 0 l).start, hleft, hmeets.1, ?_⟩
        rw [hspan, ← hmeets.2.1]
      · cases hsingle

def lostSemicolon (id : Nat) (leading : Slot) : Token :=
  Token.assemble id leading .semicolon 0 true [.error Diagnostic.expectedToken 0 0]

/-- A name and a node with a name, each with a missing semicolon behind it. The last one holds skipped text. -/
def tornList (width : Nat) : Except Fault Node := do
  let item ← Node.make 3 .nameRef [.absent, (Token.plain 2 .name 3).toSlot]
  Node.make 6 .list [(Token.plain 0 .name width).toSlot, (lostSemicolon 1 .absent).toSlot, item.toSlot,
    (lostSemicolon 5 (Token.plain 4 .skippedTokens 2).toSlot).toSlot]

theorem lostSemicolon_obtainable {id : Nat} {leading : Slot} (h : leading.Obtainable) (htrivia : leading.OnlyTrivia) :
    (lostSemicolon id leading).toSlot.Obtainable :=
  .missing h (Token.makeMissing_eq_ok_iff.2 ⟨List.cons_ne_nil _ _, Token.assembleChecked_eq_ok htrivia _ _ _ _ _⟩)

theorem tornList_obtainable {width : Nat} {root : Node} (h : tornList width = .ok root) : root.toSlot.Obtainable := by
  obtain ⟨item, hitem, h⟩ := bind_eq_ok_iff.1 h
  have hin : item.toSlot.Obtainable := by
    refine .node ?_ hitem
    simp only [List.mem_cons, List.not_mem_nil, or_false, forall_eq_or_imp, forall_eq]
    exact ⟨.absent, .plain 2 .name 3⟩
  refine .node ?_ h
  simp only [List.mem_cons, List.not_mem_nil, or_false, forall_eq_or_imp, forall_eq]
  exact ⟨.plain 0 .name width, lostSemicolon_obtainable .absent Slot.onlyTrivia_absent, hin,
    lostSemicolon_obtainable (.plain 4 .skippedTokens 2) (Token.onlyTrivia rfl)⟩

/-- The missing semicolon between the names is passed over. -/
theorem tornList_covers : ∃ (root : Node) (u : SyntaxTree) (left right : TokenRef), tornList 2 = .ok root ∧
    root.toSlot.Obtainable ∧
    (SyntaxTree.rootRef.tokenAt 2).run (SyntaxTree.ofRoot root) = (.ok (.between left right), u) ∧
    At u right.id [2, 1] ∧ At u left.id [0] ∧ root.toSlot.PresentBefore [0] [2, 1] ∧
    ∃ start, left.fullSpan.run u = (.ok ⟨start, 2⟩, u) := by
  obtain ⟨root, hn, hnode, hfull, hover, hbefore, hboth⟩ : ∃ root : Node, tornList 2 = .ok root ∧
      (root.toSlot.along []).isNode = true ∧
      SyntaxTree.rootRef.fullSpan.run (SyntaxTree.ofRoot root) = (.ok ⟨0, 7⟩, SyntaxTree.ofRoot root) ∧
      root.toSlot.TokenOver [] 2 [2, 1] ∧ root.toSlot.PresentBefore [0] [2, 1] ∧
      ((SyntaxTree.rootRef.tokenAt 2).run (SyntaxTree.ofRoot root)).1.toOption = some (.between ⟨3⟩ ⟨2⟩) :=
    ⟨_, rfl, rfl, rfl, ⟨by decide, rfl⟩, ⟨[], [[1]], [[3]], rfl, rfl, by decide⟩, by decide +kernel⟩
  have hobtainable := tornList_obtainable hn
  have hplace : At (SyntaxTree.ofRoot root) SyntaxTree.rootRef.id [] := .root rfl rfl
  obtain ⟨answer, u, right, inner, hrun, hright, hat, -, hunique, -, hleft, -⟩ :=
    tokenAt_covers hobtainable .refl hplace hnode hfull (Nat.zero_le 2) (by decide)
  obtain rfl := hunique _ hover
  rw [hrun] at hboth
  obtain rfl : answer = .between ⟨3⟩ ⟨2⟩ := Option.some.inj hboth
  obtain rfl : ⟨2⟩ = right := Option.some.inj hright
  obtain ⟨l, start, hat', hbefore', hspan⟩ := hleft ⟨3⟩ rfl
  obtain rfl := hbefore.unique hbefore'
  exact ⟨root, u, ⟨3⟩, ⟨2⟩, hn, hobtainable, hrun, hat, hat', hbefore, start, hspan⟩

/-! ## Tokens that do not belong there -/

namespace Slot

/-- Missing tokens with text stand behind the last present one. -/
def Overhangs (s : Slot) : Prop :=
  ∃ last, s.LastPresent last ∧ s.offsetAlong last + (s.along last).extent < s.extent

/-- A present token without width stands at the offset in front of the node at the end of `path`, and no present token
stands between it and the one of the node over the offset. -/
def Intrudes (s : Slot) (path : List Nat) (offset : Nat) : Prop :=
  ∃ left inner, s.TokenOver path offset inner ∧ s.PresentBefore left (path ++ inner) ∧ ¬ path <+: left ∧
    s.rangeAlong 0 left = ⟨offset, offset⟩

theorem LastPresent.mem {s : Slot} {last : List Nat} (h : s.LastPresent last) : last ∈ s.tokenPaths := by
  obtain ⟨before, after, hsplit, -⟩ := h
  rw [hsplit]
  simp

theorem LastPresent.overhangs_iff {s : Slot} {last : List Nat} (h : s.LastPresent last) :
    s.Overhangs ↔ s.offsetAlong last + (s.along last).extent < s.extent := by
  refine ⟨fun ⟨other, hother, hlt⟩ => ?_, fun hlt => ⟨last, h, hlt⟩⟩
  rw [lastPresent_iff] at h hother
  rwa [Option.some.inj (h.symm.trans hother)]

/-- A token that meets the one over the offset stands in the node, or it intrudes. -/
theorem Meets.intrudes_iff {s : Slot} {path inner left : List Nat} {offset : Nat}
    (hover : s.TokenOver path offset inner) (h : s.Meets path offset (path ++ inner) left) :
    s.Intrudes path offset ↔ ¬ path <+: left := by
  obtain ⟨hbefore, hstop, hin⟩ := h
  constructor
  · rintro ⟨other, inner', hover', hbefore', hout, -⟩
    obtain rfl := hover.unique hover'
    rwa [hbefore.unique hbefore']
  · intro hout
    refine ⟨left, inner, hover, hbefore, hout, ?_⟩
    -- all that stands in front of the node ends where it starts, or before
    have hmem : left ∈ s.wantedBefore false (path ++ inner) :=
      List.mem_of_getLast? ((presentBefore_iff hbefore.mem.2).1 hbefore)
    rw [wantedBefore_append, List.mem_append, List.mem_map] at hmem
    obtain hmem | ⟨rest, -, rfl⟩ := hmem
    · have hle := ((tile_before s 0 path).le.2 _ (List.mem_map_of_mem (List.mem_of_mem_filter hmem))).2
      have hge : 0 + s.offsetAlong path ≤ (s.rangeAlong 0 left).start := (Range.contains_iff.1 hin).1
      have hwidth : (s.rangeAlong 0 left).start ≤ (s.rangeAlong 0 left).stop := Nat.le_add_right _ _
      have hstart : (s.rangeAlong 0 left).start = offset := by omega
      calc s.rangeAlong 0 left = ⟨(s.rangeAlong 0 left).start, (s.rangeAlong 0 left).stop⟩ := rfl
        _ = ⟨offset, offset⟩ := by rw [hstart, hstop]
    · exact absurd (List.prefix_append path rest) hout

end Slot

namespace SyntaxTree

variable {t : SyntaxTree}

/-- The token stands in the node at the end of `path`, and has the offset in its full span or at an end of it. -/
def StandsAt (t : SyntaxTree) (path : List Nat) (offset : Nat) (token : TokenRef) : Prop :=
  (∃ inner ∈ (t.root.toSlot.along path).tokenPaths, At t token.id (path ++ inner)) ∧
    ∃ range, token.fullSpan.run t = (.ok range, t) ∧ range.containsInclusive offset = true

theorem Linked.standsAt_iff (ht : t.Linked) {token : TokenRef} {place path : List Nat} (hat : At t token.id place)
    {offset : Nat} : StandsAt t path offset token ↔
      (∃ inner ∈ (t.root.toSlot.along path).tokenPaths, place = path ++ inner) ∧
        (t.root.toSlot.rangeAlong 0 place).containsInclusive offset = true := by
  have hspan := ht.run_tokenSpan hat
  constructor
  · rintro ⟨⟨inner, hmem, hat'⟩, range, hrun, hin⟩
    rw [hspan] at hrun
    cases hrun
    exact ⟨⟨inner, hmem, hat.unique hat'⟩, hin⟩
  · rintro ⟨⟨inner, hmem, rfl⟩, hin⟩
    exact ⟨⟨inner, hmem, hat⟩, _, hspan, hin⟩

theorem TokensAt.all_stand_iff (ht : t.Linked) {path : List Nat} {offset : Nat} {answer : TokenAtOffset TokenRef}
    (h : TokensAt t path offset answer) :
    (∀ token ∈ answer.toList, StandsAt t path offset token) ↔
      ¬ (offset = (t.root.toSlot.rangeAlong 0 path).stop ∧ (t.root.toSlot.along path).Overhangs) ∧
        ¬ t.root.toSlot.Intrudes path offset := by
  have hwidth : (t.root.toSlot.rangeAlong 0 path).stop =
    (t.root.toSlot.rangeAlong 0 path).start + (t.root.toSlot.along path).extent := rfl
  have hinside : t.root.toSlot.Intrudes path offset → _ := fun ⟨_, _, hover, _⟩ => Range.contains_iff.1 hover.within
  cases h with
  | outside hout =>
      rw [← Bool.not_eq_true, Range.containsInclusive_iff, Range.isEmpty, beq_iff_eq] at hout
      refine iff_of_true (fun _ hmem => absurd hmem List.not_mem_nil) ⟨?_, fun hintrudes => ?_⟩
      · rintro ⟨hend, last, -, hlt⟩
        omega
      · have hin := hinside hintrudes
        omega
  | blank hend hnone =>
      refine iff_of_true (fun _ hmem => absurd hmem List.not_mem_nil) ⟨?_, fun hintrudes => ?_⟩
      · rintro ⟨-, last, hlast, -⟩
        exact hnone last hlast
      · have hin := hinside hintrudes
        omega
  | @last token inner hend hlast hat =>
      have hplace : ∃ inner' ∈ (t.root.toSlot.along path).tokenPaths, path ++ inner = path ++ inner' :=
        ⟨inner, hlast.mem, rfl⟩
      have hout : ¬ t.root.toSlot.Intrudes path offset := fun hintrudes => by
        have hin := hinside hintrudes
        omega
      show (∀ other ∈ [token], StandsAt t path offset other) ↔ _
      rw [List.forall_mem_singleton, ht.standsAt_iff hat, and_iff_right hplace, and_iff_left hout, and_iff_right hend,
        hlast.overhangs_iff, Range.containsInclusive_iff, Slot.rangeAlong_append]
      show 0 + t.root.toSlot.offsetAlong path + (t.root.toSlot.along path).offsetAlong inner ≤ offset ∧
        offset ≤ 0 + t.root.toSlot.offsetAlong path + (t.root.toSlot.along path).offsetAlong inner +
          ((t.root.toSlot.along path).along inner).extent ↔ _
      have hstart : (t.root.toSlot.rangeAlong 0 path).start = 0 + t.root.toSlot.offsetAlong path := rfl
      have hle : 0 + (t.root.toSlot.along path).offsetAlong inner + ((t.root.toSlot.along path).along inner).extent ≤
        0 + (t.root.toSlot.along path).extent := (Slot.rangeAlong_within hlast.mem 0).2
      omega
  | @covered token inner hover hat halone =>
      have hin := Range.contains_iff.1 hover.within
      refine iff_of_true ?_ ⟨fun ⟨hend, _⟩ => by omega, ?_⟩
      · show ∀ other ∈ [token], StandsAt t path offset other
        rw [List.forall_mem_singleton, ht.standsAt_iff hat]
        exact ⟨⟨inner, hover.1, rfl⟩, hover.containsInclusive⟩
      · rintro ⟨left, inner', hover', hbefore, -, hrange⟩
        obtain rfl := hover.unique hover'
        refine halone left ⟨hbefore, by rw [hrange], ?_⟩
        rw [hrange]
        exact hover.within
  | @between left right l inner hover hat hleft hmeets =>
      have hin := Range.contains_iff.1 hover.within
      have hinner : l ∈ t.root.toSlot.tokenPaths := hmeets.1.mem.1
      have hends : (t.root.toSlot.rangeAlong 0 l).containsInclusive offset = true := by
        rw [← hmeets.2.1, Range.containsInclusive_iff]
        exact ⟨Nat.le_add_right _ _, Nat.le_refl _⟩
      show (∀ other ∈ [left, right], StandsAt t path offset other) ↔ _
      rw [List.forall_mem_cons, List.forall_mem_singleton, ht.standsAt_iff hat, ht.standsAt_iff hleft,
        hmeets.intrudes_iff hover, not_not, and_iff_left ⟨⟨inner, hover.1, rfl⟩, hover.containsInclusive⟩,
        and_iff_left hends, and_iff_right (fun ⟨hend, _⟩ => by omega)]
      constructor
      · rintro ⟨rest, -, rfl⟩
        exact List.prefix_append path rest
      · rintro ⟨rest, rfl⟩
        exact ⟨rest, Slot.append_mem_tokenPaths.1 hinner, rfl⟩

end SyntaxTree

/-- **Tokens at the offset, inside the node.** The tokens found at an offset stand in the node, and have it in their
full span or at an end of it, with two exceptions: missing tokens hold text at the end of the node and the offset is
that end; or a token without width stands at the offset right in front of the node. -/
theorem tokenAt_within_iff {root : Node} (hroot : root.toSlot.Obtainable) {t : SyntaxTree}
    (ht : (SyntaxTree.ofRoot root).Reaches t) {h : NodeRef} {path : List Nat} (hplace : At t h.id path)
    (hnode : (root.toSlot.along path).isNode = true) {full : Range} (hfull : h.fullSpan.run t = (.ok full, t))
    (offset : Nat) :
    ∃ answer u, (h.tokenAt offset).run t = (.ok answer, u) ∧
      ((∀ token ∈ answer.toList, u.StandsAt path offset token) ↔
        ¬ (offset = full.stop ∧ (root.toSlot.along path).Overhangs) ∧ ¬ root.toSlot.Intrudes path offset) := by
  obtain ⟨hlinked, rfl, rfl⟩ := ht.span_eq hroot hplace hfull
  obtain ⟨answer, u, hrun, hgrown', hu, hanswer⟩ := hlinked.run_tokenAt hplace hnode offset
  refine ⟨answer, u, hrun, ?_⟩
  rw [← hgrown'.root]
  exact hanswer.all_stand_iff hu

theorem tornList_within : ∃ (root : Node) (answer : TokenAtOffset TokenRef) (u : SyntaxTree), tornList 2 = .ok root ∧
    root.toSlot.Obtainable ∧ (SyntaxTree.rootRef.tokenAt 2).run (SyntaxTree.ofRoot root) = (.ok answer, u) ∧
    answer.toList.length = 2 ∧ ∀ token ∈ answer.toList, u.StandsAt [] 2 token := by
  obtain ⟨root, hn, hnode, hfull, hboth⟩ : ∃ root : Node, tornList 2 = .ok root ∧
      (root.toSlot.along []).isNode = true ∧
      SyntaxTree.rootRef.fullSpan.run (SyntaxTree.ofRoot root) = (.ok ⟨0, 7⟩, SyntaxTree.ofRoot root) ∧
      ((SyntaxTree.rootRef.tokenAt 2).run (SyntaxTree.ofRoot root)).1.toOption = some (.between ⟨3⟩ ⟨2⟩) :=
    ⟨_, rfl, rfl, rfl, by decide +kernel⟩
  have hobtainable := tornList_obtainable hn
  have hplace : At (SyntaxTree.ofRoot root) SyntaxTree.rootRef.id [] := .root rfl rfl
  obtain ⟨answer, u, hrun, hstand⟩ := tokenAt_within_iff hobtainable .refl hplace hnode hfull 2
  rw [hrun] at hboth
  obtain rfl : answer = .between ⟨3⟩ ⟨2⟩ := Option.some.inj hboth
  refine ⟨root, _, u, hn, hobtainable, hrun, rfl, hstand.2 ⟨fun ⟨hend, _⟩ => absurd hend (by decide), ?_⟩⟩
  rintro ⟨left, inner, -, -, hout, -⟩
  exact hout List.nil_prefix

/-- At the end of the list the answer is the last name, which ends before the skipped text. And in front of the node
with the second name, a first one without width is taken for its neighbour. -/
theorem tornList_not_within :
    (∃ (root : Node) (answer : TokenAtOffset TokenRef) (u : SyntaxTree), tornList 2 = .ok root ∧
      root.toSlot.Obtainable ∧ (SyntaxTree.rootRef.tokenAt 7).run (SyntaxTree.ofRoot root) = (.ok answer, u) ∧
      ¬ ∀ token ∈ answer.toList, u.StandsAt [] 7 token) ∧
    ∃ (root : Node) (t : SyntaxTree) (h : NodeRef) (answer : TokenAtOffset TokenRef) (u : SyntaxTree),
      tornList 0 = .ok root ∧ root.toSlot.Obtainable ∧ (SyntaxTree.ofRoot root).Reaches t ∧ At t h.id [2] ∧
      (h.tokenAt 0).run t = (.ok answer, u) ∧ ¬ ∀ token ∈ answer.toList, u.StandsAt [2] 0 token := by
  constructor
  · obtain ⟨root, hn, hnode, hend, hoverhangs⟩ : ∃ root : Node, tornList 2 = .ok root ∧
        (root.toSlot.along []).isNode = true ∧ 7 = (root.toSlot.rangeAlong 0 []).stop ∧
        (root.toSlot.along []).Overhangs :=
      ⟨_, rfl, rfl, rfl, [2, 1], ⟨[[0], [1]], [[3]], rfl, rfl, by decide⟩, by decide⟩
    have hobtainable := tornList_obtainable hn
    have hlinked := SyntaxTree.linked_ofRoot (Slot.obtainable_iff_made.1 hobtainable)
    obtain ⟨answer, u, hrun, hgrown, hu, hanswer⟩ :=
      hlinked.run_tokenAt (h := SyntaxTree.rootRef) (.root rfl rfl) hnode 7
    refine ⟨root, answer, u, hn, hobtainable, hrun, fun hall => ?_⟩
    obtain ⟨hno, -⟩ := (hanswer.all_stand_iff hu).1 hall
    rw [hgrown.root] at hno
    exact hno ⟨hend, hoverhangs⟩
  · obtain ⟨root, hn, hnode, hpresent, hintrudes⟩ : ∃ root : Node, tornList 0 = .ok root ∧
        (root.toSlot.along [2]).isNode = true ∧ (root.toSlot.along [2]).isPresent = true ∧
        root.toSlot.Intrudes [2] 0 :=
      ⟨_, rfl, rfl, rfl, [0], [1], ⟨by decide, rfl⟩, ⟨[], [[1]], [[3]], rfl, rfl, by decide⟩, by decide, rfl⟩
    have hobtainable := tornList_obtainable hn
    have hlinked := SyntaxTree.linked_ofRoot (Slot.obtainable_iff_made.1 hobtainable)
    obtain ⟨top, htop, hparent, hfact, -⟩ := hlinked.root
    rw [show root.toSlot = top.fact from hfact.symm] at hpresent
    obtain ⟨t, c, hreach, hat⟩ := hlinked.exists_view_below htop (.root htop hparent) hpresent
    obtain ⟨ht, hgrown⟩ := hreach.linked hlinked
    rw [show root = t.root from hgrown.root.symm] at hnode hintrudes
    obtain ⟨answer, u, hrun, hgrown', hu, hanswer⟩ := ht.run_tokenAt (h := ⟨c⟩) hat hnode 0
    refine ⟨root, t, ⟨c⟩, answer, u, hn, hobtainable, hreach, hat, hrun, fun hall => ?_⟩
    obtain ⟨-, hno⟩ := (hanswer.all_stand_iff hu).1 hall
    rw [hgrown'.root] at hno
    exact hno hintrudes

end LosslessSyntax
