import LosslessSyntax.Fact.Measure
import LosslessSyntax.Proofs.Fact.Positions
import LosslessSyntax.Proofs.Fact.Report

/-!
# The terminals of a fact

Three traversals go through the tokens of a fact: the walk keeps the facts that are still to be visited on a stack, and
the two finders descend from the left and from the right. Here they are compared with the plain recursion from left to
right. Absent slots and nodes without tokens add nothing to it, at whatever depth they stand.

* `Slot.terminals` : the tokens of a fact by recursion, leading trivia left out;
* `Slot.pop` : one turn of the walk; `Slot.walkTokens_pop` : what it hands out, `Slot.sizes_pop` : that it gets on;
* `Slot.pops_sizes` : the walk comes to its end after as many turns as there are slots;
* `Slot.firstToken?_eq_head?`, `Slot.lastToken?_eq_getLast?` : the two finders;
* `Slot.extents_tokens` : the text of a fact is that of its tokens;
* `traversals_agree` : all of it, below a node that has been made.
-/

set_option autoImplicit false

namespace LosslessSyntax

namespace Slot

mutual

/-- The tokens of a fact from left to right, leading trivia left out. -/
def terminals : Slot → List Token
  | .absent => []
  | .token head leading => [⟨head, leading⟩]
  | .node _ slots => terminalsOf slots

def terminalsOf : List Slot → List Token
  | [] => []
  | s :: rest => s.terminals ++ terminalsOf rest

end

theorem sizes_append (ss ts : List Slot) : sizes (ss ++ ts) = sizes ss + sizes ts := by
  induction ss with
  | nil => exact (Nat.zero_add _).symm
  | cons s rest ih => rw [List.cons_append, sizes, sizes, ih, Nat.add_assoc]

/-! ## The walk -/

/-- One turn of the walk: the fact on top of the stack is taken off. A token is handed out, and the slots of a node
take its place. -/
def pop : List Slot → List Token × List Slot
  | [] => ([], [])
  | .absent :: stack => ([], stack)
  | .token head leading :: stack => ([⟨head, leading⟩], stack)
  | .node _ slots :: stack => ([], slots ++ stack)

/-- The tokens handed out by a number of turns, and the stack after them. -/
def pops : Nat → List Slot → List Token × List Slot
  | 0, stack => ([], stack)
  | n + 1, stack =>
    let (found, stack) := pop stack
    let (more, stack) := pops n stack
    (found ++ more, stack)

theorem walkTokens_pop (s : Slot) (stack : List Slot) :
    walkTokens (s :: stack) = (pop (s :: stack)).1 ++ walkTokens (pop (s :: stack)).2 := by
  cases s <;> simp [pop, walkTokens]

/-- A turn takes one slot off for good. -/
theorem sizes_pop (s : Slot) (stack : List Slot) : sizes (pop (s :: stack)).2 + 1 = sizes (s :: stack) := by
  cases s with
  | absent => simp only [pop, sizes, size]; omega
  | token head leading => simp only [pop, sizes, size]; omega
  | node head slots => simp only [pop, sizes, size, sizes_append]; omega

/-- After as many turns as there are slots the stack is empty, and all tokens have been handed out. -/
theorem pops_sizes (stack : List Slot) : pops (sizes stack) stack = (walkTokens stack, []) := by
  induction hn : sizes stack generalizing stack with
  | zero =>
      cases stack with
      | nil => rw [pops, walkTokens]
      | cons s rest =>
          have := sizes_pop s rest
          omega
  | succ n ih =>
      cases stack with
      | nil => cases hn
      | cons s rest =>
          have hrest : sizes (pop (s :: rest)).2 = n := by
            have := sizes_pop s rest
            omega
          rw [pops, walkTokens_pop]
          simp only [ih _ hrest]

theorem terminalsOf_append (ss ts : List Slot) : terminalsOf (ss ++ ts) = terminalsOf ss ++ terminalsOf ts := by
  induction ss with
  | nil => rfl
  | cons s rest ih => rw [List.cons_append, terminalsOf, terminalsOf, ih, List.append_assoc]

/-- The walk hands out the tokens of the facts on its stack, from left to right. -/
theorem walkTokens_eq_terminalsOf (stack : List Slot) : walkTokens stack = terminalsOf stack := by
  induction stack using walkTokens.induct with
  | case1 => rw [walkTokens, terminalsOf]
  | case2 stack ih => rw [walkTokens, terminalsOf, terminals, ih, List.nil_append]
  | case3 head leading stack ih => rw [walkTokens, terminalsOf, terminals, ih, List.singleton_append]
  | case4 head slots stack ih => rw [walkTokens, terminalsOf, terminals, ih, terminalsOf_append]

theorem tokens_eq_terminals (s : Slot) : s.tokens = s.terminals := by
  rw [tokens, walkTokens_eq_terminalsOf, terminalsOf, terminalsOf, List.append_nil]

theorem pops_size (s : Slot) : pops s.size [s] = (s.terminals, []) := by
  rw [← tokens_eq_terminals]
  exact pops_sizes [s]

theorem tokens_node (head : NodeHead) (slots : List Slot) : (Slot.node head slots).tokens = walkTokens slots := by
  rw [tokens, walkTokens, List.append_nil]

theorem walkTokens_cons (s : Slot) (rest : List Slot) : walkTokens (s :: rest) = s.tokens ++ walkTokens rest :=
  walkTokens_append [s] rest

/-! ## The two finders -/

mutual

theorem firstToken?_eq_head? (s : Slot) : s.firstToken? = s.tokens.head? := by
  cases s with
  | absent =>
      rw [tokens_absent]
      rfl
  | token head leading =>
      rw [tokens_token]
      rfl
  | node head slots =>
      rw [tokens_node]
      exact firstTokenIn?_eq_head? slots

theorem firstTokenIn?_eq_head? (slots : List Slot) : firstTokenIn? slots = (walkTokens slots).head? := by
  cases slots with
  | nil =>
      rw [walkTokens]
      rfl
  | cons s rest =>
      rw [firstTokenIn?, walkTokens_cons, List.head?_append, ← firstToken?_eq_head? s, ← firstTokenIn?_eq_head? rest]
      cases s.firstToken? <;> rfl

end

mutual

theorem lastToken?_eq_getLast? (s : Slot) : s.lastToken? = s.tokens.getLast? := by
  cases s with
  | absent =>
      rw [tokens_absent]
      rfl
  | token head leading =>
      rw [tokens_token]
      rfl
  | node head slots =>
      rw [tokens_node]
      exact lastTokenIn?_eq_getLast? slots

theorem lastTokenIn?_eq_getLast? (slots : List Slot) : lastTokenIn? slots = (walkTokens slots).getLast? := by
  cases slots with
  | nil =>
      rw [walkTokens]
      rfl
  | cons s rest =>
      rw [lastTokenIn?, walkTokens_cons, List.getLast?_append, ← lastToken?_eq_getLast? s,
        ← lastTokenIn?_eq_getLast? rest]
      cases lastTokenIn? rest <;> rfl

end

/-! ## Widths -/

theorem extents_walkTokens (stack : List Slot) : extents ((walkTokens stack).map Token.toSlot) = extents stack := by
  induction stack using walkTokens.induct with
  | case1 => rw [walkTokens, List.map_nil]
  | case2 stack ih => rw [walkTokens, ih, extents, extent, Nat.zero_add]
  | case3 head leading stack ih =>
      rw [walkTokens, List.map_cons, extents, extents, ih]
      rfl
  | case4 head slots stack ih => rw [walkTokens, ih, extents_append, extents, extent]

theorem extents_tokens (s : Slot) : extents (s.tokens.map Token.toSlot) = s.extent := by
  rw [tokens, extents_walkTokens, extents, extents, Nat.add_zero]

/-- A fact that fits is as wide as its tokens are together. -/
theorem Made.fullWidth_tokens {s : Slot} (h : s.Made) (hfits : s.extent < Size.limit) :
    ∃ ws, Widths (s.tokens.map Token.toSlot) ws ∧ s.fullWidth = .ok (Size.total ws) := by
  have hmade : ∀ t ∈ s.tokens.map Token.toSlot, t.Made := by
    intro t ht
    obtain ⟨u, hu, rfl⟩ := List.mem_map.1 ht
    exact h.within (h.within_of_mem_tokens hu)
  rw [← extents_tokens] at hfits
  refine ⟨_, widths_made hmade hfits, ?_⟩
  rw [total_map_extent, h.fullWidth_eq, ← extents_tokens, Size.ofNat_eq_ok hfits]

/-- The trivia in front of a fact that fits is that in front of its first token. -/
theorem Made.leadingWidth_head {s : Slot} (h : s.Made) (hfits : s.extent < Size.limit) {t : Token}
    (ht : s.tokens.head? = some t) : ∃ w, t.leadingWidth = .ok w ∧ s.leadingWidth = .ok w := by
  have hfirst : s.firstToken? = some t := (firstToken?_eq_head? s).trans ht
  have hwidth : s.leadingWidth = t.leadingWidth := by rw [leadingWidth, hfirst]
  have hle := leadingExtent_le s
  refine ⟨s.leadingExtent, ?_, ?_⟩
  · rw [← hwidth, h.leadingWidth_eq, Size.ofNat_eq_ok (by omega)]
  · rw [h.leadingWidth_eq, Size.ofNat_eq_ok (by omega)]

theorem leadingWidth_of_tokens_eq_nil {s : Slot} (h : s.tokens = []) : s.leadingWidth = .ok 0 := by
  rw [leadingWidth, firstToken?_eq_head?, h]
  rfl

end Slot

/-- **The walk over the tokens, the two finders and the widths agree.** Below a node that has been made, the walk with a
stack comes to its end, and hands out the tokens of the fact from left to right; the finders find the first and the
last of them, and nothing iff there is none; their full widths add up to that of the fact, and the trivia in front of
the fact is that in front of the first of them. -/
theorem traversals_agree {n : Node} (hn : n.toSlot.Obtainable) {e : Slot} (he : e.Within n.toSlot) :
    Slot.pops e.size [e] = (e.terminals, []) ∧ e.tokens = e.terminals ∧
    e.firstToken? = e.tokens.head? ∧ (e.firstToken? = none ↔ e.tokens = []) ∧
    e.lastToken? = e.tokens.getLast? ∧ (e.lastToken? = none ↔ e.tokens = []) ∧
    (∃ ws, Slot.Widths (e.tokens.map Token.toSlot) ws ∧ e.fullWidth = .ok (Size.total ws)) ∧
    (∀ t, e.tokens.head? = some t → ∃ w, t.leadingWidth = .ok w ∧ e.leadingWidth = .ok w) ∧
    (e.tokens = [] → e.leadingWidth = .ok 0) := by
  have hroot := hn.made
  have hmade := hroot.within he
  have hfits : e.extent < Size.limit := Nat.lt_of_le_of_lt he.extent_le hroot.node_width.2
  refine ⟨e.pops_size, e.tokens_eq_terminals, e.firstToken?_eq_head?, ?_, e.lastToken?_eq_getLast?, ?_,
    hmade.fullWidth_tokens hfits, fun t ht => hmade.leadingWidth_head hfits ht, Slot.leadingWidth_of_tokens_eq_nil⟩
  · rw [e.firstToken?_eq_head?, List.head?_eq_none_iff]
  · rw [e.lastToken?_eq_getLast?, List.getLast?_eq_none_iff]

def spacedName : Token := Token.assemble 1 (Token.plain 0 .whitespace 1).toSlot .name 3 false []

theorem spacedName_obtainable : spacedName.toSlot.Obtainable := by
  refine .token (.plain 0 .whitespace 1) (Token.assembleChecked_eq_ok_iff.2 ⟨?_, rfl⟩)
  show (Slot.token _ _).tokens.all _ = true
  rw [Slot.tokens_token]
  rfl

/-- Arguments between empty slots and nodes without tokens: a name, and a comma one level further down. -/
def hollowArguments : Except Fault Node := do
  let hollow ← Node.make 2 .typeArgs []
  let tail ← Node.make 4 .literal [hollow.toSlot, (Token.plain 3 .comma 1).toSlot, .absent]
  let arguments ← Node.make 5 .argList [hollow.toSlot, .absent, spacedName.toSlot, tail.toSlot, hollow.toSlot]
  Node.make 6 .callExpr [.absent, arguments.toSlot]

theorem hollowArguments_obtainable {n : Node} (h : hollowArguments = .ok n) : n.toSlot.Obtainable := by
  obtain ⟨hollow, hhollow, h⟩ := bind_eq_ok_iff.1 h
  obtain ⟨tail, htail, h⟩ := bind_eq_ok_iff.1 h
  obtain ⟨arguments, harguments, h⟩ := bind_eq_ok_iff.1 h
  have hnone : hollow.toSlot.Obtainable := .node (fun _ hs => absurd hs List.not_mem_nil) hhollow
  have hinner : tail.toSlot.Obtainable := by
    refine .node ?_ htail
    simp only [List.mem_cons, List.not_mem_nil, or_false, forall_eq_or_imp, forall_eq]
    exact ⟨hnone, .plain 3 .comma 1, .absent⟩
  have hlist : arguments.toSlot.Obtainable := by
    refine .node ?_ harguments
    simp only [List.mem_cons, List.not_mem_nil, or_false, forall_eq_or_imp, forall_eq]
    exact ⟨hnone, .absent, spacedName_obtainable, hinner, hnone⟩
  refine .node ?_ h
  simp only [List.mem_cons, List.not_mem_nil, or_false, forall_eq_or_imp, forall_eq]
  exact ⟨.absent, hlist⟩

theorem hollowArguments_traversed : ∃ (n : Node) (e : Slot), hollowArguments = .ok n ∧
    n.toSlot.Obtainable ∧ e.Within n.toSlot ∧ e.kind? = some .argList ∧ e.tokens.map Token.kind = [.name, .comma] ∧
    e.firstToken?.map Token.kind = some .name ∧ e.lastToken?.map Token.kind = some .comma ∧
    e.fullWidth = .ok 5 ∧ e.leadingWidth = .ok 1 := by
  obtain ⟨n, e, hn, he, hkind, hkinds, hwidths, hlead⟩ : ∃ (n : Node) (e : Slot),
      hollowArguments = .ok n ∧ e ∈ n.slots ∧ e.kind? = some .argList ∧ e.terminals.map Token.kind = [.name, .comma] ∧
      Slot.Widths (e.terminals.map Token.toSlot) [4, 1] ∧ e.terminals.head?.map Token.leadingWidth = some (.ok 1) :=
    ⟨_, _, rfl, List.mem_cons_of_mem _ List.mem_cons_self, rfl, rfl, rfl, rfl⟩
  have hobtainable := hollowArguments_obtainable hn
  have hwithin : e.Within n.toSlot := .slot he .self
  obtain ⟨-, htokens, hfirst, -, hlast, -, ⟨ws, hws, hfull⟩, hleading, -⟩ := traversals_agree hobtainable hwithin
  rw [htokens] at hfirst hlast hws hleading
  obtain rfl := hws.unique hwidths
  obtain ⟨t, ht, hone⟩ := Option.map_eq_some_iff.1 hlead
  obtain ⟨w, hw, hwidth⟩ := hleading t ht
  rw [hw] at hone
  cases hone
  refine ⟨n, e, hn, hobtainable, hwithin, hkind, ?_, ?_, ?_, hfull, hwidth⟩
  · rw [htokens, hkinds]
  · rw [hfirst, ← List.head?_map, hkinds]
    rfl
  · rw [hlast, ← List.getLast?_map, hkinds]
    rfl

end LosslessSyntax
