import LosslessSyntax.Proofs.Parse.Plans

/-!
# Two ways to put a tree together

The parser and the builder can both carry out a plan. The parser works with markers, over a buffer that holds the tokens
of the plan. The builder works with a stack of open nodes, and shares tokens without trivia. What comes of either is the
fact that the plan stands for.

* `Parser.driver`, `Builder.driver` : the calls of each;
* `Parser.driver_sound`, `Builder.driver_sound` : each call adds the fact of its part;
* `drivers_build_alike` : the finished trees.
-/

set_option autoImplicit false

namespace LosslessSyntax

theorem Supply.lexeme {n : Nat} {facts : List Slot} {t : Lexeme} {u : Token} (h : Supply n facts)
    (hu : t.toToken n = .ok u) : Supply (n + t.leading.length + 2) (u.toSlot :: facts) := by
  obtain ⟨leading, hleading, hu⟩ := bind_eq_ok_iff.1 hu
  have hpacked := (h.pieces t.leading).packTrivia (List.subset_append_left _ _) hleading
  have htoken := hpacked.token (List.mem_cons_of_mem _ List.mem_cons_self) hu
  refine htoken.mono (Nat.le_refl _) (List.cons_subset_cons _ ?_)
  exact List.subset_cons_of_subset _ (List.subset_append_right _ _)

/-! ## The parser -/

namespace Parser

/-- The parser takes its tokens from the buffer, and wraps what has been put there since a marker. -/
def driver : Driver Parser where
  token _ := advance
  absent := .modify Parser.absent
  missing := missing
  node kind children := do
    let m ← .gets start
    children
    let _ ← m.complete kind
  list children := do
    let m ← .gets start
    children
    let _ ← m.completeList

/-- The parser has these tokens in front of it and nothing skipped; the `EOF` token is one that a buffer adds. -/
structure Awaits (rest : List Lexeme) (p : Parser) : Prop where
  source : p.source.body.drop p.source.pos = rest
  last : p.source.eof = ⟨.eof, 0, []⟩
  skipped : p.skipped = []
  supply : Supply p.nextId p.slots

/-- A parser never has a node open: its markers are outside. -/
def stage : Stage Parser := ⟨Awaits, slots, fun _ => []⟩

variable {p q : Parser} {rest : List Lexeme}

theorem awaits_ofTokens {tokens : List Lexeme} (hkinds : ∀ t ∈ tokens, t.kind ≠ .eof) :
    (ofTokens tokens).Awaits tokens := by
  have hbuffer : TokenBuffer.ofTokens tokens = ⟨tokens, 0, [], 0⟩ := by
    unfold TokenBuffer.ofTokens
    split
    · next last hlast => rw [if_neg (hkinds last (List.mem_of_getLast? hlast))]
    · next hnone => rw [List.getLast?_eq_none_iff.1 hnone]
  unfold ofTokens
  rw [hbuffer]
  exact ⟨rfl, rfl, rfl, supply_nil 0⟩

theorem Awaits.current {t : Lexeme} (h : p.Awaits (t :: rest)) :
    p.source.current = t ∧ p.source.pos < p.source.body.length ∧ p.source.body.drop (p.source.pos + 1) = rest := by
  have hsource := h.source
  have hget : p.source.body[p.source.pos]? = some t := by
    rw [← List.head?_drop, hsource]
    rfl
  refine ⟨?_, (List.getElem?_eq_some_iff.1 hget).1, ?_⟩
  · unfold TokenBuffer.current
    rw [hget]
    rfl
  · rw [← List.tail_drop, hsource]
    rfl

theorem Awaits.nextToken_eq (h : p.Awaits rest) : p.nextToken = p.source.current.toToken p.nextId := by
  unfold nextToken
  rw [h.skipped]
  rfl

/-- One more fact on the stack, under numbers that were free. -/
theorem Awaits.grown {rest' : List Lexeme} {u : Slot} (h : p.Awaits rest')
    (hsource : q.source.body.drop q.source.pos = rest) (hlast : q.source.eof = p.source.eof) (hskipped : q.skipped = [])
    (hslots : q.slots = p.slots ++ [u]) (hsupply : Supply q.nextId (u :: p.slots)) : q.Awaits rest := by
  refine ⟨hsource, hlast.trans h.last, hskipped, ?_⟩
  rw [hslots]
  exact hsupply.mono (Nat.le_refl _) (List.perm_append_singleton u p.slots).subset

theorem emits_one {tokens : List Lexeme} {s : Slot} {x : Step Parser Unit}
    (h : ∀ (p : Parser) (rest : List Lexeme), p.Awaits (tokens ++ rest) → ∃ (q : Parser) (u : Slot),
      x.run p = (.ok (), q) ∧ q.Awaits rest ∧ q.slots = p.slots ++ [u] ∧ u.erase = s.erase) :
    stage.Emits tokens [s] x := by
  intro p rest hready
  obtain ⟨q, u, hrun, hawaits, hslots, herase⟩ := h p rest hready
  exact ⟨q, [u], hrun, hawaits, rfl, hslots, congrArg (· :: []) herase⟩

theorem advance_emits {t : Lexeme} {u : Token} (hkind : t.kind ≠ .eof) (hu : t.toToken 0 = .ok u) :
    stage.Emits [t] [u.toSlot] advance := by
  refine emits_one fun p rest h => ?_
  obtain ⟨hcurrent, hlt, hdrop⟩ := h.current
  obtain ⟨v, hv, herase⟩ := Lexeme.toToken_alike hu p.nextId
  have hat : ¬ p.isAt .eof = true := by
    unfold isAt peek
    rw [hcurrent, beq_iff_eq]
    exact hkind
  have hrun : advance.run p = (.ok (), { p.push v.toSlot with
      skipped := [], source := p.source.bump, nextId := p.nextId + t.leading.length + 2 }) := by
    rw [run_advance, if_neg hat, run_bump, h.nextToken_eq, hcurrent, hv]
  refine ⟨_, v.toSlot, hrun, h.grown ?_ ?_ rfl (slots_push p v.toSlot) (h.supply.lexeme hv), slots_push p v.toSlot,
    herase⟩
  · rw [body_bump, TokenBuffer.bump_pos hlt]
    exact hdrop
  · unfold TokenBuffer.bump
    rw [if_pos hlt]
    rfl

theorem missing_emits {kind : Kind} {u : Token} (hu : Token.makeMissing 0 .absent kind [.ofMissing] = .ok u) :
    stage.Emits [] [u.toSlot] (missing kind) := by
  refine emits_one fun p rest h => ?_
  obtain ⟨v, hv, herase⟩ := Token.makeMissing_alike hu (p.nextId + 1)
  have htoken : p.missingToken kind = .ok v := by
    unfold missingToken
    rw [h.skipped]
    exact hv
  have hrun : (missing kind).run p = (.ok (), { p.push v.toSlot with skipped := [], nextId := p.nextId + 2 }) := by
    rw [run_missing, htoken]
  have hsupply := (h.supply.mono (Nat.le_succ _) (List.Subset.refl _)).token List.mem_cons_self hv
  exact ⟨_, v.toSlot, hrun, h.grown h.source rfl rfl (slots_push p v.toSlot) hsupply, slots_push p v.toSlot, herase⟩

theorem absent_emits : stage.Emits [] [.absent] (.modify Parser.absent) := by
  refine emits_one fun p rest h => ?_
  exact ⟨p.absent, .absent, rfl, h.grown h.source rfl h.skipped (slots_push p .absent) h.supply.absent,
    slots_push p .absent, rfl⟩

/-- What has been put on the stack since a marker was started lies above it. -/
theorem above_start {added : List Slot} (h : q.slots = p.slots ++ added) :
    p.start.position ≤ q.outputs.length ∧ (q.outputs.drop p.start.position).map (·.slot) = added ∧
      (q.outputs.take p.start.position).map (·.slot) = p.slots := by
  have hposition : p.start.position = p.slots.length := (length_slots p).symm
  have hlength : q.outputs.length = p.slots.length + added.length := by
    rw [← length_slots, h, List.length_append]
  refine ⟨by omega, ?_, ?_⟩
  · rw [List.map_drop, hposition]
    show q.slots.drop _ = added
    rw [h, List.drop_left]
  · rw [List.map_take, hposition]
    show q.slots.take _ = p.slots
    rw [h, List.take_left]

/-- A step between a marker and a call that wraps the output above the marker into one fact. -/
theorem wrap_emits {tokens : List Lexeme} {facts : List Slot} {s : Slot} {x : Step Parser Unit}
    {close : Marker → Step Parser Unit} (hx : stage.Emits tokens facts x)
    (hclose : ∀ (m : Marker) (q : Parser) (above : List Slot), m.position ≤ q.outputs.length →
      (q.outputs.drop m.position).map (·.slot) = above → Slot.eraseAll above = Slot.eraseAll facts →
      above ⊆ Slot.absent :: q.slots → Supply q.nextId q.slots → ∃ u : Slot, u.erase = s.erase ∧
        (close m).run q = (.ok (), q.wrapped m u) ∧ Supply (q.nextId + 1) (u :: q.slots)) :
    stage.Emits tokens [s] (do let m ← .gets start; x; close m) := by
  refine emits_one fun p rest h => ?_
  obtain ⟨q, added, hrun, hq, -, hslots, herase⟩ := hx p rest h
  replace hq : q.Awaits rest := hq
  replace hslots : q.slots = p.slots ++ added := hslots
  obtain ⟨hheight, habove, hbelow⟩ := above_start hslots
  have hadded : added ⊆ Slot.absent :: q.slots := by
    rw [hslots]
    exact List.subset_cons_of_subset _ (List.subset_append_right _ _)
  obtain ⟨u, hsame, hwrap, hsupply⟩ := hclose p.start q added hheight habove herase hadded hq.supply
  have hall : (do let m ← .gets start; x; close m : Step Parser Unit).run p = (.ok (), q.wrapped p.start u) := by
    rw [Step.run_bind, Step.run_gets]
    show (x >>= fun _ => close p.start).run p = _
    rw [Step.run_bind, hrun]
    exact hwrap
  have hafter : (q.wrapped p.start u).slots = p.slots ++ [u] := by
    unfold wrapped
    rw [slots_push]
    exact congrArg (· ++ [u]) hbelow
  have hkept : p.slots ++ [u] ⊆ u :: q.slots := by
    rw [hslots]
    refine List.append_subset.2 ⟨?_, List.cons_subset.2 ⟨List.mem_cons_self, List.nil_subset _⟩⟩
    exact List.subset_cons_of_subset _ (List.subset_append_left _ _)
  refine ⟨_, u, hall, ⟨hq.source, hq.last, hq.skipped, ?_⟩, hafter, hsame⟩
  rw [hafter]
  exact hsupply.mono (Nat.le_refl _) hkept

theorem complete_emits {kind : Kind} {tokens : List Lexeme} {facts : List Slot} {n : Node} {x : Step Parser Unit}
    (hx : stage.Emits tokens facts x) (hn : Node.make 0 kind facts = .ok n) :
    stage.Emits tokens [n.toSlot] (driver.node kind x) := by
  refine wrap_emits hx fun m q above hheight habove herase hmem hsupply => ?_
  obtain ⟨n', hn', hsame⟩ := Node.make_alike hn herase q.nextId
  exact ⟨n'.toSlot, hsame, Act.run_complete hheight (habove ▸ hn'), hsupply.node hmem hn'⟩

theorem completeList_emits {tokens : List Lexeme} {facts : List Slot} {s : Slot} {x : Step Parser Unit}
    (hx : stage.Emits tokens facts x) (hs : Node.makeList 0 facts = .ok s) :
    stage.Emits tokens [s] (driver.list x) := by
  refine wrap_emits hx fun m q above hheight habove herase hmem hsupply => ?_
  obtain ⟨s', hs', hsame⟩ := Node.makeList_alike hs herase q.nextId
  exact ⟨s', hsame, Act.run_completeList hheight (habove ▸ hs'), hsupply.list hmem hs'⟩

theorem driver_sound : driver.Sound stage :=
  ⟨advance_emits, absent_emits, missing_emits, complete_emits, completeList_emits⟩

/-- With all tokens used up, nothing is skipped, and the token under the cursor is the added one. -/
theorem Awaits.at_end (h : p.Awaits []) : p.skipUntil .empty = p ∧ p.source.current = ⟨.eof, 0, []⟩ := by
  have hlength : p.source.body.length ≤ p.source.pos := List.drop_eq_nil_iff.1 h.source
  constructor
  · unfold skipUntil TokenBuffer.remaining
    rw [Nat.sub_eq_zero_of_le hlength]
    rfl
  · unfold TokenBuffer.current
    rw [List.getElem?_eq_none hlength]
    exact h.last

/-- The root is made of all the output and of the last token. -/
theorem Awaits.run_finish {slots : List Slot} {last : Token} {kind : Kind} {n : Node} (h : p.Awaits [])
    (hslots : Slot.eraseAll p.slots = Slot.eraseAll slots) (hlast : (Lexeme.mk .eof 0 []).toToken 0 = .ok last)
    (hn : Node.make 0 kind (slots ++ [last.toSlot]) = .ok n) :
    ∃ root q, (finish kind).run p = (.ok root, q) ∧ root.toSlot.erase = n.toSlot.erase ∧
      Supply q.nextId [root.toSlot] := by
  obtain ⟨hskip, hcurrent⟩ := h.at_end
  obtain ⟨t, ht, hsame⟩ := Lexeme.toToken_alike hlast p.nextId
  have hall : Slot.eraseAll (p.push t.toSlot).slots = Slot.eraseAll (slots ++ [last.toSlot]) := by
    rw [slots_push, Slot.eraseAll_append, Slot.eraseAll_append, hslots]
    exact congrArg (Slot.eraseAll slots ++ [·]) hsame
  obtain ⟨root, hroot, hsame'⟩ := Node.make_alike hn hall (p.nextId + 2)
  have hsupply := (h.supply.lexeme ht).node (by
    rw [slots_push]
    exact List.subset_cons_of_subset _ (List.perm_append_singleton t.toSlot p.slots).subset) hroot
  have hrun : (finish kind).run p = (.ok root, { p.push t.toSlot with
      skipped := [], source := p.source.bump, nextId := p.nextId + 3 }) := by
    unfold finish
    simp only [Step.run_bind, Step.run_modify, hskip, run_bump, h.nextToken_eq, hcurrent, ht, Step.run_get, run_fresh,
      Step.run_lift]
    exact congrArg (·, _) hroot
  exact ⟨root, _, hrun, hsame', hsupply.mono (Nat.le_refl _) (List.cons_subset_cons _ (List.nil_subset _))⟩

end Parser

/-! ## The builder -/

namespace Builder

/-- The builder is handed its tokens, and reports a missing one as the parser does. -/
def driver : Driver Builder where
  token t := token t.leading t.kind t.width
  absent := absent
  missing kind := missing kind [.ofMissing]
  node kind children := do
    startNode kind
    children
    finishNode
  list children := do
    startList
    children
    finishList

/-- All that the builder has at hand, besides the facts `kept` from before. -/
def atHand (kept : List Slot) (b : Builder) : List Slot := kept ++ b.children ++ b.cache.map Token.toSlot

/-- The stored tokens are without trivia, and the facts at hand have their numbers for themselves. -/
structure Holds (kept : List Slot) (b : Builder) : Prop where
  cached : ∀ t ∈ b.cache, t.erase = Token.plain 0 t.kind t.width
  supply : Supply b.nextId (b.atHand kept)

/-- A builder does not look at tokens before it is handed them. -/
def stage (kept : List Slot) : Stage Builder := ⟨fun _ b => b.Holds kept, children, opened⟩

variable {kept : List Slot} {b c : Builder}

/-- One more child, under numbers that were free; it may have been put into the store. -/
theorem Holds.grown {u : Slot} (h : b.Holds kept)
    (hcache : ∀ t ∈ c.cache, t ∈ b.cache ∨ t.toSlot = u ∧ t.erase = Token.plain 0 t.kind t.width)
    (hchildren : c.children ⊆ b.children ++ [u]) (hsupply : Supply c.nextId (u :: b.atHand kept)) : c.Holds kept := by
  refine ⟨fun t ht => (hcache t ht).elim (h.cached t) And.right, hsupply.mono (Nat.le_refl _) ?_⟩
  intro s hs
  simp only [atHand, List.mem_append, List.mem_cons, List.mem_map] at hs ⊢
  rcases hs with (hs | hs) | ⟨t, ht, rfl⟩
  · exact .inr (.inl (.inl hs))
  · rcases List.mem_append.1 (hchildren hs) with hs | hs
    · exact .inr (.inl (.inr hs))
    · exact .inl (List.mem_singleton.1 hs)
  · rcases hcache t ht with ht | ⟨ht, -⟩
    · exact .inr (.inr ⟨t, ht, rfl⟩)
    · exact .inl ht

theorem emits_one {tokens : List Lexeme} {s : Slot} {x : Step Builder Unit}
    (h : ∀ b : Builder, b.Holds kept → ∃ (c : Builder) (u : Slot), x.run b = (.ok (), c) ∧ c.Holds kept ∧
      c.opened = b.opened ∧ c.children = b.children ++ [u] ∧ u.erase = s.erase) : (stage kept).Emits tokens [s] x := by
  intro b rest hready
  obtain ⟨c, u, hrun, hholds, hopened, hchildren, herase⟩ := h b hready
  exact ⟨c, [u], hrun, hholds, hopened, hchildren, congrArg (· :: []) herase⟩

theorem absent_emits : (stage kept).Emits [] [.absent] absent := by
  refine emits_one fun b h => ?_
  exact ⟨b.push .absent, .absent, rfl, h.grown (fun _ => .inl) (List.Subset.refl _) h.supply.absent, rfl, rfl,
    rfl⟩

theorem run_missing {kind : Kind} {diagnostics : List Diagnostic} {t : Token}
    (h : Token.makeMissing b.nextId .absent kind diagnostics = .ok t) :
    (missing kind diagnostics).run b = (.ok (), { b with nextId := b.nextId + 1 }.push t.toSlot) := by
  unfold missing
  simp only [Step.run_bind, Step.run_get, Step.run_lift, h, Step.run_set]

theorem missing_emits {kind : Kind} {diagnostics : List Diagnostic} {u : Token}
    (hu : Token.makeMissing 0 .absent kind diagnostics = .ok u) :
    (stage kept).Emits [] [u.toSlot] (missing kind diagnostics) := by
  refine emits_one fun b h => ?_
  obtain ⟨v, hv, herase⟩ := Token.makeMissing_alike hu b.nextId
  have hrun := run_missing hv
  have hsupply : Supply (b.nextId + 1) (v.toSlot :: b.atHand kept) := by
    unfold Token.makeMissing at hv
    split at hv
    · cases hv
    · exact h.supply.token List.mem_cons_self hv
  exact ⟨_, v.toSlot, hrun, h.grown (fun _ => .inl) (List.Subset.refl _) hsupply, rfl, rfl, herase⟩

theorem toToken_plain (n : Nat) (kind : Kind) (width : Nat) :
    (Lexeme.mk kind width []).toToken n = .ok (Token.plain (n + 1) kind width) :=
  Token.assembleChecked_eq_ok Slot.onlyTrivia_absent (n + 1) kind width false []

theorem mem_of_cached {kind : Kind} {width : Nat} {t : Token} (h : b.cached? kind width = some t) :
    t ∈ b.cache ∧ t.kind = kind ∧ t.width = width := by
  have hfound := List.find?_some h
  simp only [Bool.and_eq_true, beq_iff_eq] at hfound
  exact ⟨List.mem_of_find?_eq_some h, hfound⟩

theorem run_plainToken_cached {kind : Kind} {width : Nat} {t : Token} (h : b.cached? kind width = some t) :
    (plainToken kind width).run b = (.ok (), b.push t.toSlot) := by
  unfold plainToken
  simp only [Step.run_bind, Step.run_get, h, Step.run_set]

theorem run_plainToken_new {kind : Kind} {width : Nat} (h : b.cached? kind width = none) :
    (plainToken kind width).run b = (.ok (), { b with
      cache := b.cache ++ [Token.plain b.nextId kind width], nextId := b.nextId + 1 }.push
        (Token.plain b.nextId kind width).toSlot) := by
  unfold plainToken
  simp only [Step.run_bind, Step.run_get, h, Step.run_set]

/-- A stored token is as good as a new one. -/
theorem plainToken_emits {kind : Kind} {width : Nat} {u : Token}
    (hu : (Lexeme.mk kind width []).toToken 0 = .ok u) (tokens : List Lexeme) :
    (stage kept).Emits tokens [u.toSlot] (plainToken kind width) := by
  rw [toToken_plain] at hu
  cases hu
  refine emits_one fun b h => ?_
  cases hfind : b.cached? kind width with
  | some t =>
      obtain ⟨hmem, hkind, hwidth⟩ := mem_of_cached hfind
      have hrun := run_plainToken_cached hfind
      have hat : t.toSlot ∈ b.atHand kept := List.mem_append_right _ (List.mem_map.2 ⟨t, hmem, rfl⟩)
      have hsupply := h.supply.mono (Nat.le_refl _) (List.cons_subset.2 ⟨hat, List.Subset.refl _⟩)
      refine ⟨_, t.toSlot, hrun, h.grown (fun _ => .inl) (List.Subset.refl _) hsupply, rfl, rfl, ?_⟩
      rw [Token.erase_toSlot, h.cached t hmem, hkind, hwidth]
      rfl
  | none =>
      have hrun := run_plainToken_new hfind
      have hsupply : Supply (b.nextId + 1) ((Token.plain b.nextId kind width).toSlot :: b.atHand kept) :=
        h.supply.add rfl (List.cons_subset.2 ⟨List.mem_cons_self, List.nil_subset _⟩)
      refine ⟨_, _, hrun, h.grown (fun t ht => ?_) (List.Subset.refl _) hsupply, rfl, rfl, rfl⟩
      rcases List.mem_append.1 ht with ht | ht
      · exact .inl ht
      · rw [List.mem_singleton.1 ht]
        exact .inr ⟨rfl, rfl⟩

theorem run_token {piece : TriviaPiece} {pieces : List TriviaPiece} {kind : Kind} {width : Nat} {t : Token}
    (h : (Lexeme.mk kind width (piece :: pieces)).toToken b.nextId = .ok t) :
    (token (piece :: pieces) kind width).run b =
      (.ok (), { b with nextId := b.nextId + (piece :: pieces).length + 2 }.push t.toSlot) := by
  obtain ⟨trivia, htrivia, htoken⟩ := bind_eq_ok_iff.1 h
  unfold token
  simp only [List.isEmpty_cons, Bool.false_eq_true, if_false, Step.run_bind, Step.run_get, Step.run_lift, htrivia,
    htoken, Step.run_set]

theorem token_emits {t : Lexeme} {u : Token} (hu : t.toToken 0 = .ok u) (tokens : List Lexeme) :
    (stage kept).Emits tokens [u.toSlot] (token t.leading t.kind t.width) := by
  obtain ⟨kind, width, leading⟩ := t
  cases leading with
  | nil => exact plainToken_emits hu tokens
  | cons piece pieces =>
      refine emits_one fun b h => ?_
      obtain ⟨v, hv, herase⟩ := Lexeme.toToken_alike hu b.nextId
      have hsupply := h.supply.lexeme hv
      have hrun := run_token hv
      exact ⟨_, v.toSlot, hrun, h.grown (fun _ => .inl) (List.Subset.refl _) hsupply, rfl, rfl, herase⟩

/-- The builder with a node closed and one fact in place of its children. -/
def wrapped (c : Builder) (rest : List Opened) (first : Nat) (u : Slot) : Builder :=
  { c with opened := rest, children := c.children.take first ++ [u], nextId := c.nextId + 1 }

theorem above_opened {below added : List Slot} (kept : List Slot) (h : c.children = below ++ added) :
    below.length ≤ c.children.length ∧ c.children.drop below.length = added ∧
      added ⊆ Slot.absent :: c.atHand kept := by
  refine ⟨?_, ?_, ?_⟩
  · rw [h, List.length_append]
    exact Nat.le_add_right _ _
  · rw [h, List.drop_left]
  · unfold atHand
    rw [h]
    intro s hs
    simp [hs]

/-- The fact that takes the place of the children is at hand, like all that was before. -/
theorem Holds.wrapped {below added : List Slot} {u : Slot} (hc : c.Holds kept) (h : c.children = below ++ added)
    (rest : List Opened) (hsupply : Supply (c.nextId + 1) (u :: c.atHand kept)) :
    (c.wrapped rest below.length u).Holds kept ∧ (c.wrapped rest below.length u).children = below ++ [u] := by
  have hafter : (c.wrapped rest below.length u).children = below ++ [u] := by
    unfold Builder.wrapped
    rw [h, List.take_left]
  refine ⟨hc.grown (fun _ => .inl) ?_ hsupply, hafter⟩
  rw [hafter, h]
  exact List.append_subset.2 ⟨by simp, by simp⟩

/-- A step inside an open node, and a call that wraps the children into one fact. -/
theorem wrap_emits {kind : Kind} {tokens : List Lexeme} {facts : List Slot} {s : Slot} {x close : Step Builder Unit}
    (hx : (stage kept).Emits tokens facts x)
    (hclose : ∀ (c : Builder) (rest : List Opened) (first : Nat) (above : List Slot), c.opened = ⟨kind, first⟩ :: rest →
      first ≤ c.children.length → c.children.drop first = above → Slot.eraseAll above = Slot.eraseAll facts →
      above ⊆ Slot.absent :: c.atHand kept → Supply c.nextId (c.atHand kept) → ∃ u : Slot, u.erase = s.erase ∧
        close.run c = (.ok (), c.wrapped rest first u) ∧ Supply (c.nextId + 1) (u :: c.atHand kept)) :
    (stage kept).Emits tokens [s] (do startNode kind; x; close) := by
  intro b rest hready
  obtain ⟨c, added, hrun, hc, hopened, hchildren, herase⟩ :=
    hx { b with opened := ⟨kind, b.children.length⟩ :: b.opened } rest ⟨hready.cached, hready.supply⟩
  replace hc : c.Holds kept := hc
  replace hopened : c.opened = ⟨kind, b.children.length⟩ :: b.opened := hopened
  replace hchildren : c.children = b.children ++ added := hchildren
  obtain ⟨hheight, habove, hadded⟩ := above_opened kept hchildren
  obtain ⟨u, hsame, hwrap, hsupply⟩ := hclose c b.opened _ added hopened hheight habove herase hadded hc.supply
  have hall : (do startNode kind; x; close : Step Builder Unit).run b =
      (.ok (), c.wrapped b.opened b.children.length u) := by
    rw [Step.run_bind, startNode, Step.run_modify]
    show (x >>= fun _ => close).run _ = _
    rw [Step.run_bind, hrun]
    exact hwrap
  obtain ⟨hholds, hafter⟩ := hc.wrapped hchildren b.opened hsupply
  exact ⟨_, [u], hall, hholds, rfl, hafter, congrArg (· :: []) hsame⟩

theorem run_fresh (b : Builder) : fresh.run b = (.ok b.nextId, { b with nextId := b.nextId + 1 }) := rfl

theorem run_finishNode {kind : Kind} {first : Nat} {rest : List Opened} {n : Node}
    (h : b.opened = ⟨kind, first⟩ :: rest) (hfirst : first ≤ b.children.length)
    (hn : Node.make b.nextId kind (b.children.drop first) = .ok n) :
    finishNode.run b = (.ok (), b.wrapped rest first n.toSlot) := by
  simp only [finishNode, close, drain, Step.run_bind, Step.run_get, h, Step.run_set, Step.run_pure, if_pos hfirst,
    run_fresh, Step.run_lift, hn, Step.run_modify]
  rfl

theorem run_finishList {first : Nat} {rest : List Opened} {s : Slot} (h : b.opened = ⟨.list, first⟩ :: rest)
    (hfirst : first ≤ b.children.length) (hs : Node.makeList b.nextId (b.children.drop first) = .ok s) :
    finishList.run b = (.ok (), b.wrapped rest first s) := by
  simp only [finishList, close, drain, Step.run_bind, Step.run_get, h, Step.run_set, Step.run_pure, Kind.isList,
    if_true, if_pos hfirst, run_fresh, Step.run_lift, hs, Step.run_modify]
  rfl

theorem finishNode_emits {kind : Kind} {tokens : List Lexeme} {facts : List Slot} {n : Node} {x : Step Builder Unit}
    (hx : (stage kept).Emits tokens facts x) (hn : Node.make 0 kind facts = .ok n) :
    (stage kept).Emits tokens [n.toSlot] (driver.node kind x) := by
  refine wrap_emits hx fun c rest first above hopened hheight habove herase hmem hsupply => ?_
  obtain ⟨n', hn', hsame⟩ := Node.make_alike hn herase c.nextId
  exact ⟨n'.toSlot, hsame, run_finishNode hopened hheight (habove ▸ hn'), hsupply.node hmem hn'⟩

theorem finishList_emits {tokens : List Lexeme} {facts : List Slot} {s : Slot} {x : Step Builder Unit}
    (hx : (stage kept).Emits tokens facts x) (hs : Node.makeList 0 facts = .ok s) :
    (stage kept).Emits tokens [s] (driver.list x) := by
  refine wrap_emits hx fun c rest first above hopened hheight habove herase hmem hsupply => ?_
  obtain ⟨s', hs', hsame⟩ := Node.makeList_alike hs herase c.nextId
  exact ⟨s', hsame, run_finishList hopened hheight (habove ▸ hs'), hsupply.list hmem hs'⟩

theorem driver_sound (kept : List Slot) : driver.Sound (stage kept) :=
  ⟨fun _ hu => token_emits hu _, absent_emits, missing_emits, finishNode_emits, finishList_emits⟩

theorem finish_of_node {n : Node} {u : Slot} (hopened : b.opened = []) (hchildren : b.children = [u])
    (herase : u.erase = n.toSlot.erase) : ∃ root, b.finish = .ok root ∧ u = root.toSlot := by
  rw [Node.erase_toSlot] at herase
  cases u with
  | absent => cases herase
  | token head leading =>
      rw [Slot.erase] at herase
      cases herase
  | node head slots =>
      refine ⟨⟨head, slots⟩, ?_, rfl⟩
      unfold finish
      rw [hopened, hchildren]
      rfl

end Builder

/-! ## Both drivers -/

/-- **Parser and builder construct the same trees.** Take any plan of a tree, with tokens that fit together and none of
which is `EOF`, and drive a parser along it over the buffer of its tokens, and a builder with an `EOF` token at the end.
Both succeed. The roots differ in nothing but the numbers of their instances, report the same diagnostics, and, if the
builder counts on from where the parser has stopped, are equal and have one hash whatever hashes have been asked for. -/
theorem drivers_build_alike (plans : List Plan) (kind : Kind) (hkinds : ∀ t ∈ Plan.lexemesOf plans, t.kind ≠ .eof)
    (hfits : Lexeme.extents (Plan.lexemesOf plans) < Size.limit) :
    ∃ (parsed built : Node) (p : Parser) (b : Builder),
      (do Plan.driveAll Parser.driver plans; Parser.finish kind : Step Parser Node).run
        (.ofTokens (Plan.lexemesOf plans)) = (.ok parsed, p) ∧
      (Builder.driver.node kind (do Plan.driveAll Builder.driver plans; Builder.token [] .eof 0)).run
        { nextId := p.nextId } = (.ok (), b) ∧ b.finish = .ok built ∧
      built.erase = parsed.erase ∧ (∀ start, built.toSlot.report start = parsed.toSlot.report start) ∧
      ∃ stock, Stock stock ∧ parsed.toSlot ∈ stock ∧ built.toSlot ∈ stock ∧ ∀ memo memo' : HashMemo,
        memo.Reached stock → memo'.Reached stock → memo.equal parsed.toSlot built.toSlot = true ∧
          (HashMemo.hash parsed.toSlot memo).1 = (HashMemo.hash built.toSlot memo').1 := by
  obtain ⟨ss, hss, hmade, hextents⟩ := Plan.exists_facts plans hfits
  obtain ⟨last, hlast, hlastMade, hlastExtent⟩ := (Lexeme.mk .eof 0 []).exists_toToken 0 (by decide)
  have hwidth : Slot.extents (ss ++ [last.toSlot]) < Size.limit := by
    rw [Slot.extents_append, hextents, Slot.extents, Slot.extents, hlastExtent]
    exact hfits
  obtain ⟨n, hn⟩ := Node.exists_make (Parser.made_snoc hmade hlastMade) hwidth 0 kind
  -- the parser
  have hstart : (Parser.ofTokens (Plan.lexemesOf plans)).Awaits (Plan.lexemesOf plans ++ []) := by
    rw [List.append_nil]
    exact Parser.awaits_ofTokens hkinds
  obtain ⟨p, added, hdrive, hp, -, hslots, herase⟩ := Parser.driver_sound.driveAll plans hkinds hss _ [] hstart
  replace hslots : p.slots = added := hslots
  rw [← hslots] at herase
  obtain ⟨parsed, q, hfinish, hparsed, hsupply⟩ := Parser.Awaits.run_finish hp herase hlast hn
  -- the builder, which keeps the root of the parser in its stock
  have hnode := Builder.finishNode_emits (((Builder.driver_sound [parsed.toSlot]).driveAll plans hkinds hss).seq
    (Builder.token_emits hlast [])) hn
  obtain ⟨b, added', hbuild, hb, hopened, hchildren, herase'⟩ := hnode { nextId := q.nextId } []
    ⟨fun _ ht => absurd ht List.not_mem_nil, hsupply⟩
  obtain ⟨u, rfl, hu⟩ := Slot.eraseAll_eq_singleton herase'
  obtain ⟨built, hroot, rfl⟩ := Builder.finish_of_node hopened hchildren hu
  have hsame : built.toSlot.erase = parsed.toSlot.erase := hu.trans hparsed.symm
  have hparse : (do Plan.driveAll Parser.driver plans; Parser.finish kind : Step Parser Node).run
      (.ofTokens (Plan.lexemesOf plans)) = (.ok parsed, q) := by
    rw [Step.run_bind, hdrive]
    exact hfinish
  refine ⟨parsed, built, q, b, hparse, hbuild, hroot, Node.erase_eq_of_toSlot hsame, fun start => ?_, ?_⟩
  · rw [← Slot.report_erase built.toSlot, hsame, Slot.report_erase]
  · have hmem : built.toSlot ∈ b.atHand [parsed.toSlot] := by
      unfold Builder.atHand
      rw [show b.children = [built.toSlot] from hchildren]
      simp
    have hcontent := Slot.content_eq_of_erase_eq hsame.symm
    exact (Builder.Holds.supply hb).equal_of_content_eq (by simp [Builder.atHand]) hmem rfl rfl hcontent

/-- A call without its closing parenthesis: a name twice, trivia, an empty list, an empty slot and a missing token. -/
def openCall : List Plan :=
  [.node .callExpr [.token ⟨.name, 3, []⟩, .list [],
    .node .argList [.token ⟨.leftParen, 1, []⟩,
      .list [.token ⟨.name, 3, [⟨.newline, 1⟩, ⟨.whitespace, 2⟩]⟩, .token ⟨.comma, 1, []⟩, .token ⟨.name, 3, []⟩],
      .missing .rightParen], .absent]]

/-- The two trees of the call are equal, also while no hash is known, and so are their hashes. -/
theorem openCall_built_alike : ∃ (parsed built : Node) (p : Parser) (b : Builder),
    (do Plan.driveAll Parser.driver openCall; Parser.finish .module : Step Parser Node).run
      (.ofTokens (Plan.lexemesOf openCall)) = (.ok parsed, p) ∧
    (Builder.driver.node .module (do Plan.driveAll Builder.driver openCall; Builder.token [] .eof 0)).run
      { nextId := p.nextId } = (.ok (), b) ∧ b.finish = .ok built ∧
    HashMemo.equal {} parsed.toSlot built.toSlot = true ∧
    (HashMemo.hash parsed.toSlot {}).1 = (HashMemo.hash built.toSlot {}).1 := by
  obtain ⟨parsed, built, p, b, hparse, hbuild, hroot, -, -, stock, -, -, -, hequal⟩ :=
    drivers_build_alike openCall .module (by decide) (by decide)
  have hfresh : ({} : HashMemo).Reached stock := ⟨[], List.nil_subset _, rfl⟩
  exact ⟨parsed, built, p, b, hparse, hbuild, hroot, hequal {} {} hfresh hfresh⟩

end LosslessSyntax
