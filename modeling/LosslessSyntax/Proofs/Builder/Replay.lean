import LosslessSyntax.Proofs.Builder.OpenNodes
import LosslessSyntax.Proofs.Fact.Obtainable
import LosslessSyntax.Proofs.Fact.Occurrences

/-!
# Replaying a tree

A builder can be led through a tree that is already there: a node is started and closed around the calls for its slots,
and a token is handed over as it is, or described anew by its trivia, kind and width. What comes out has the content of
the tree, although shapes are chosen again and tokens without trivia are shared. And whatever the calls are, no token is
lost: closing a node moves tokens and never adds or drops one.

* `Slot.Unmarked` : no node outside of leading trivia owns diagnostics;
* `Replays` : the calls by which a builder can be led through slots;
* `Builder.feed` : calls in a row, up to the first fault;
* `Builder.Restores`, `Replays.restores` : the calls put the contents of the slots on the stack;
* `Event.Pushes`, `Builder.pushes` : the tokens that calls push, and `Builder.run_feed` : that they are all there;
* `builder_restores_and_loses_nothing` : both for finished trees.
-/

set_option autoImplicit false

namespace LosslessSyntax

/-! ## What contents decide -/

namespace Slot

theorem flags_content (s : Slot) : s.content.flags = s.flags := by cases s <;> rfl

theorem fullWidth_content (s : Slot) : s.content.fullWidth = s.fullWidth := by
  cases s with
  | absent => rfl
  | node _ _ => rfl
  | token head leading =>
      rw [content, fullWidth, fullWidth, fullWidth_content leading]
      rfl

theorem contents_eq_map (slots : List Slot) : contents slots = slots.map content := by
  induction slots with
  | nil => rfl
  | cons s rest ih => rw [contents, ih, List.map_cons]

theorem contents_append (ss ts : List Slot) : contents (ss ++ ts) = contents ss ++ contents ts := by
  simp only [contents_eq_map, List.map_append]

theorem sumWidths_contents (start : Nat) (slots : List Slot) :
    sumWidths start (contents slots) = sumWidths start slots := by
  induction slots generalizing start with
  | nil => rfl
  | cons s rest ih =>
      rw [contents, sumWidths, sumWidths, fullWidth_content]
      simp only [ih]

end Slot

namespace Node

theorem summary_contents (slots : List Slot) (diagnostics : List Diagnostic) :
    summary (Slot.contents slots) diagnostics = summary slots diagnostics := by
  unfold summary
  rw [Slot.contents_eq_map, List.foldl_map]
  simp only [Slot.flags_content]

/-- A node without diagnostics of its own can be made again from slots with the contents of its own. -/
theorem exists_make_content {head : NodeHead} {slots slots' : List Slot} (h : (Slot.node head slots).Made)
    (hown : head.diagnostics = []) (hslots : Slot.contents slots' = Slot.contents slots) (id : Nat) :
    ∃ n, make id head.kind slots' = .ok n ∧ n.toSlot.content = (Slot.node head slots).content := by
  have hflags := h.node_flags
  have hsum : Slot.sumWidths 0 slots' = .ok head.fullWidth := by
    rw [← Slot.sumWidths_contents, hslots, Slot.sumWidths_contents]
    cases h with
    | node _ _ hn =>
        obtain ⟨width, hwidth, rfl⟩ := assemble_eq_ok_iff.1 hn
        exact hwidth
  cases hmake : make id head.kind slots' with
  | error fault =>
      have hfails := (make_eq_error_iff.1 hmake).2
      rw [hsum] at hfails
      cases hfails
  | ok n =>
      obtain ⟨layout, -, hn⟩ := bind_eq_ok_iff.1 hmake
      obtain ⟨width, hwidth, rfl⟩ := assemble_eq_ok_iff.1 hn
      rw [hsum] at hwidth
      cases hwidth
      refine ⟨_, rfl, ?_⟩
      rw [toSlot, Slot.content, Slot.content, hslots]
      refine congrArg (Slot.node · _) (NodeHead.content_eq_iff.2 ⟨rfl, ?_, rfl⟩)
      rw [hflags, hown, ← summary_contents slots, ← hslots, summary_contents]

end Node

/-- A present token without diagnostics of its own is made again from the pieces that its trivia was made of. -/
theorem Token.exists_toToken {t : Token} {pieces : List TriviaPiece} {n : Nat} {packed : Slot} (h : t.toSlot.Made)
    (hpresent : t.isMissing = false) (hown : t.diagnostics = []) (hpacked : triviaOfPieces n pieces = .ok packed)
    (hsame : packed.erase = t.leading.erase) :
    ∃ u, (Lexeme.mk t.kind t.width pieces).toToken 0 = .ok u ∧ u.toSlot.erase = t.toSlot.erase := by
  obtain ⟨⟨id, kind, flags, width, diagnostics⟩, leading⟩ := t
  obtain ⟨-, -, hflags, -⟩ := h.token_parts
  replace hpresent : flags.isMissing = false := hpresent
  replace hown : diagnostics = [] := hown
  replace hsame : packed.erase = leading.erase := hsame
  replace hflags : flags = Token.summary leading kind flags.isMissing diagnostics := hflags
  have hsummary : Token.summary packed kind false [] = flags := by
    rw [hpresent, hown] at hflags
    rw [hflags, Token.summary, Token.summary, ← Slot.flags_erase packed, hsame, Slot.flags_erase]
  have htrivia := onlyTrivia_packTrivia hpacked (TriviaPiece.onlyTrivia_toSlots n pieces)
  have htoken : (Lexeme.mk kind width pieces).toToken n =
      .ok (Token.assemble (n + pieces.length + 1) packed kind width false []) :=
    bind_eq_ok_iff.2 ⟨packed, hpacked, Token.assembleChecked_eq_ok htrivia (n + pieces.length + 1) kind width false []⟩
  have hmap : ((Lexeme.mk kind width pieces).toToken 0).map Token.erase =
      .ok (Token.assemble (n + pieces.length + 1) packed kind width false []).erase := by
    rw [Lexeme.erase_toToken, ← Lexeme.erase_toToken n, htoken]
    rfl
  obtain ⟨u, hu, herase⟩ := exists_of_map_eq_ok hmap
  refine ⟨u, hu, ?_⟩
  rw [Token.erase_toSlot, herase, Token.erase_toSlot, Token.erase, Token.erase, Token.assemble, hsummary, hown]
  exact congrArg (fun leading => Token.toSlot ⟨⟨0, kind, flags, width, []⟩, leading⟩) hsame

/-! ## Leading a builder through a tree -/

/-- No node of the fact owns diagnostics, except in leading trivia. -/
def Slot.Unmarked (s : Slot) : Prop :=
  ∀ (path : List Nat) (n : Node), s.part (path.map Branch.slot) = n.toSlot → n.diagnostics = []

theorem Slot.unmarked_node {head : NodeHead} {slots : List Slot} :
    (Slot.node head slots).Unmarked ↔ head.diagnostics = [] ∧ ∀ s ∈ slots, s.Unmarked := by
  constructor
  · intro h
    refine ⟨h [] ⟨head, slots⟩ rfl, fun s hs path n hn => ?_⟩
    obtain ⟨i, hi, rfl⟩ := List.getElem_of_mem hs
    refine h (i :: path) n ?_
    rw [List.map_cons, part, branch, List.getElem?_eq_getElem hi]
    exact hn
  · rintro ⟨hown, hslots⟩ path n hn
    cases path with
    | nil =>
        cases hn
        exact hown
    | cons i path =>
        rw [List.map_cons, part, branch] at hn
        cases hi : slots[i]? with
        | none =>
            rw [hi, Option.getD_none, part_absent] at hn
            cases hn
        | some s =>
            rw [hi, Option.getD_some] at hn
            exact hslots s (List.mem_of_getElem? hi) path n hn

theorem Slot.unmarked_of_not_node {s : Slot} (h : s.isNode = false) : s.Unmarked := by
  intro path n hn
  cases path with
  | nil =>
      rw [show s = n.toSlot from hn] at h
      cases h
  | cons i path =>
      have hbranch : s.branch (.slot i) = .absent := by
        cases s with
        | node head slots => cases h
        | _ => rfl
      rw [List.map_cons, part, hbranch, part_absent] at hn
      cases hn

/-- The calls lead a builder through the slots, from left to right. A token is handed over as it is, or it is described
if it is present, owns no diagnostics and has trivia made of pieces. -/
inductive Replays : List Slot → List Event → Prop
  | nil : Replays [] []
  | absent {slots : List Slot} {events : List Event} (h : Replays slots events) :
      Replays (.absent :: slots) (.absent :: events)
  | element {slots : List Slot} {events : List Event} (t : Token) (h : Replays slots events) :
      Replays (t.toSlot :: slots) (.element t.toSlot :: events)
  | token {slots : List Slot} {events : List Event} {t : Token} {pieces : List TriviaPiece} {n : Nat} {packed : Slot}
      (hpresent : t.isMissing = false) (hown : t.diagnostics = []) (hpacked : triviaOfPieces n pieces = .ok packed)
      (hsame : packed.erase = t.leading.erase) (h : Replays slots events) :
      Replays (t.toSlot :: slots) (.token pieces t.kind t.width :: events)
  | node {n : Node} {slots : List Slot} {inner events : List Event} (hinner : Replays n.slots inner)
      (h : Replays slots events) :
      Replays (n.toSlot :: slots) ((.startNode n.kind :: inner) ++ .finishNode :: events)

namespace Builder

/-- Makes the calls one after the other, up to the first that faults. -/
def feed : List Event → Step Builder Unit
  | [] => return
  | e :: rest => do
    apply e
    feed rest

theorem run_feed_append {b c : Builder} {xs : List Event} (h : (feed xs).run b = (.ok (), c)) (ys : List Event) :
    (feed (xs ++ ys)).run b = (feed ys).run c := by
  induction xs generalizing b with
  | nil =>
      cases h
      rfl
  | cons e rest ih =>
      rw [feed, Step.run_bind] at h
      rw [List.cons_append, feed, Step.run_bind]
      generalize (apply e).run b = answer at h ⊢
      obtain ⟨result, d⟩ := answer
      cases result with
      | error fault => cases h
      | ok u => exact ih h

/-- The calls put facts with the contents of the slots on the stack, and leave the open nodes as they are. -/
def Restores (kept slots : List Slot) (events : List Event) : Prop :=
  ∀ b : Builder, b.Holds kept → ∃ (c : Builder) (added : List Slot), (feed events).run b = (.ok (), c) ∧ c.Holds kept ∧
    c.opened = b.opened ∧ c.children = b.children ++ added ∧ Slot.contents added = Slot.contents slots

variable {kept : List Slot}

theorem restores_nil : Restores kept [] [] :=
  fun b hb => ⟨b, [], rfl, hb, rfl, (List.append_nil _).symm, rfl⟩

theorem Restores.append {ss ts : List Slot} {xs ys : List Event} (hx : Restores kept ss xs) (hy : Restores kept ts ys) :
    Restores kept (ss ++ ts) (xs ++ ys) := by
  intro b hb
  obtain ⟨c, added, hrun, hc, hopened, hchildren, hcontents⟩ := hx b hb
  obtain ⟨d, added', hrun', hd, hopened', hchildren', hcontents'⟩ := hy c hc
  refine ⟨d, added ++ added', ?_, hd, hopened'.trans hopened, ?_, ?_⟩
  · rw [run_feed_append hrun, hrun']
  · rw [hchildren', hchildren, List.append_assoc]
  · rw [Slot.contents_append, Slot.contents_append, hcontents, hcontents']

theorem restores_of_emits {tokens : List Lexeme} {s t : Slot} {e : Event} (h : (stage kept).Emits tokens [s] (apply e))
    (hst : s.erase = t.erase) : Restores kept [t] [e] := by
  intro b hb
  obtain ⟨c, added, hrun, hc, hopened, hchildren, herase⟩ := h b [] hb
  refine ⟨c, added, ?_, hc, hopened, hchildren, ?_⟩
  · rw [feed, Step.run_bind, hrun]
    rfl
  · rw [← Slot.contents_eraseAll, herase, Slot.contents_eraseAll]
    exact congrArg (· :: []) (Slot.content_eq_of_erase_eq hst)

theorem element_emits {s : Slot} (hs : s ∈ kept) : (stage kept).Emits [] [s] (element s) := by
  refine emits_one fun b hb => ?_
  have hat : s ∈ b.atHand kept := List.mem_append_left _ (List.mem_append_left _ hs)
  have hsupply := hb.supply.mono (Nat.le_refl _) (List.cons_subset.2 ⟨hat, List.Subset.refl _⟩)
  exact ⟨b.push s, s, rfl, hb.grown (fun _ => .inl) (List.Subset.refl _) hsupply, rfl, rfl, rfl⟩

theorem Restores.node {n : Node} {inner : List Event} (hinner : Restores kept n.slots inner) (hn : n.toSlot.Made)
    (hown : n.diagnostics = []) : Restores kept [n.toSlot] ((.startNode n.kind :: inner) ++ [.finishNode]) := by
  intro b hb
  obtain ⟨c, added, hrun, hc, hopened, hchildren, hcontents⟩ :=
    hinner { b with opened := ⟨n.kind, b.children.length⟩ :: b.opened } ⟨hb.cached, hb.supply⟩
  obtain ⟨hheight, habove, hadded⟩ := above_opened kept hchildren
  obtain ⟨made, hmade, hcontent⟩ := Node.exists_make_content hn hown hcontents c.nextId
  obtain ⟨hholds, hafter⟩ := hc.wrapped hchildren b.opened (hc.supply.node hadded hmade)
  have hstart : (feed (.startNode n.kind :: inner)).run b = (.ok (), c) := hrun
  have hfinish : finishNode.run c = (.ok (), c.wrapped b.opened b.children.length made.toSlot) :=
    run_finishNode hopened hheight (habove ▸ hmade)
  refine ⟨_, [made.toSlot], ?_, hholds, rfl, hafter, congrArg (· :: []) hcontent⟩
  rw [run_feed_append hstart, feed, Step.run_bind, apply, hfinish]
  rfl

end Builder

open Builder in
/-- **A replay restores the contents** of made slots, if their nodes own no diagnostics and all they are made of is at
hand. -/
theorem Replays.restores {kept slots : List Slot} {events : List Event} (h : Replays slots events)
    (hkept : ∀ s ∈ kept, ∀ part ∈ s.parts, part ∈ Slot.absent :: kept)
    (hslots : ∀ s ∈ slots, s.Made ∧ s.Unmarked ∧ s ∈ Slot.absent :: kept) : Restores kept slots events := by
  induction h with
  | nil => exact restores_nil
  | absent h ih =>
      have hrest := ih fun s hs => hslots s (List.mem_cons_of_mem _ hs)
      exact (restores_of_emits (e := .absent) absent_emits rfl).append hrest
  | element t h ih =>
      have hrest := ih fun s hs => hslots s (List.mem_cons_of_mem _ hs)
      have hmem := Slot.mem_of_isPresent (hslots t.toSlot List.mem_cons_self).2.2 rfl
      exact (restores_of_emits (e := .element t.toSlot) (element_emits hmem) rfl).append hrest
  | @token slots events t pieces n packed hpresent hown hpacked hsame h ih =>
      have hrest := ih fun s hs => hslots s (List.mem_cons_of_mem _ hs)
      have hmade := (hslots t.toSlot List.mem_cons_self).1
      obtain ⟨u, hu, herase⟩ := Token.exists_toToken hmade hpresent hown hpacked hsame
      exact (restores_of_emits (e := .token pieces t.kind t.width) (token_emits hu []) herase).append hrest
  | @node n slots inner events hinner h ihinner ih =>
      have hrest := ih fun s hs => hslots s (List.mem_cons_of_mem _ hs)
      obtain ⟨hmade, hunmarked, hat⟩ := hslots n.toSlot List.mem_cons_self
      have hmem := Slot.mem_of_isPresent hat rfl
      obtain ⟨hown, hbelow⟩ := Slot.unmarked_node.1 hunmarked
      have hinside := ihinner fun s hs => ⟨hmade.slots s hs, hbelow s hs, hkept n.toSlot hmem s hs⟩
      have hall := (hinside.node hmade hown).append hrest
      rw [List.append_assoc] at hall
      exact hall

/-! ## No token is lost -/

namespace Event

/-- The call hands a fact over, or an empty slot; the others start or close a node. -/
def isLeaf : Event → Bool
  | token _ _ _ => true
  | missing _ _ => true
  | absent => true
  | element _ => true
  | _ => false

/-- The call pushes these tokens. New ones may have any number. -/
def Pushes : Event → List Token → Prop
  | token pieces kind width, ts =>
      ∃ n t u, (Lexeme.mk kind width pieces).toToken n = .ok t ∧ Token.erase u = t.erase ∧ ts = [u]
  | missing kind diagnostics, ts => ∃ n t, Token.makeMissing n .absent kind diagnostics = .ok t ∧ ts = [t]
  | element fact, ts => ts = fact.tokens
  | _, ts => ts = []

variable {e : Event}

theorem Brings.pushes {s : Slot} (h : e.Brings s) : e.Pushes s.tokens ∧ e.isLeaf = true := by
  cases e with
  | token pieces kind width =>
      obtain ⟨n, t, u, ht, hsame, rfl⟩ := h
      exact ⟨⟨n, t, u, ht, hsame, Slot.tokens_token u.head u.leading⟩, rfl⟩
  | missing kind diagnostics =>
      obtain ⟨n, t, ht, rfl⟩ := h
      exact ⟨⟨n, t, ht, Slot.tokens_token t.head t.leading⟩, rfl⟩
  | absent =>
      obtain rfl : s = .absent := h
      exact ⟨Slot.tokens_absent, rfl⟩
  | element fact =>
      obtain rfl : s = fact := h
      exact ⟨rfl, rfl⟩
  | _ => exact h.elim

theorem pushes_nil_of_opens {kind : Kind} (h : e.opens? = some kind) : e.Pushes [] ∧ e.isLeaf = false := by
  cases e with
  | startNode _ => exact ⟨rfl, rfl⟩
  | startList => exact ⟨rfl, rfl⟩
  | _ => cases h

theorem Closes.pushes_nil {kind : Kind} (h : e.Closes kind) : e.Pushes [] ∧ e.isLeaf = false := by
  cases e with
  | finishNode => exact ⟨rfl, rfl⟩
  | finishList => exact ⟨rfl, rfl⟩
  | _ => exact h.elim

end Event

namespace Builder

/-- The tokens that a call has pushed, as they lie on top of the stack after it. -/
def pushed (c : Builder) (e : Event) : List Token :=
  if e.isLeaf then (c.children.getLast?.getD .absent).tokens else []

def pushes (b : Builder) : List Event → List (List Token)
  | [] => []
  | e :: rest => ((apply e).run b).2.pushed e :: pushes ((apply e).run b).2 rest

variable {b c : Builder} {e : Event}

theorem pushed_of_not_leaf (c : Builder) (h : e.isLeaf = false) : c.pushed e = [] := by
  unfold pushed
  rw [h]
  rfl

/-- **A call that succeeds** adds the tokens that it pushes behind all others, and moves none. -/
theorem Answers.walkTokens_children (h : Answers b e (.ok ()) c) :
    Slot.walkTokens c.children = Slot.walkTokens b.children ++ c.pushed e ∧ e.Pushes (c.pushed e) := by
  cases h with
  | opens he =>
      obtain ⟨hpushes, hleaf⟩ := Event.pushes_nil_of_opens he
      rw [pushed_of_not_leaf _ hleaf, List.append_nil]
      exact ⟨rfl, hpushes⟩
  | @adds _ s he hopened hchildren hcache =>
      obtain ⟨hpushes, hleaf⟩ := he.pushes
      have hpushed : c.pushed e = s.tokens := by simp [pushed, hleaf, hchildren]
      rw [hpushed, hchildren, Slot.walkTokens_append]
      exact ⟨rfl, hpushes⟩
  | @wraps o rest s h he hs =>
      obtain ⟨hpushes, hleaf⟩ := he.pushes_nil
      rw [pushed_of_not_leaf _ hleaf, List.append_nil]
      refine ⟨?_, hpushes⟩
      -- the new fact has the tokens of the children that it has replaced
      show Slot.walkTokens (b.children.take o.first ++ [s]) = _
      rw [Slot.walkTokens_append, show Slot.walkTokens [s] = s.tokens from rfl, hs, ← Slot.walkTokens_append,
        List.take_append_drop]

/-- **Calls in a row** add all the tokens that they push, in their order. -/
theorem run_feed (hb : b.Framed) {events : List Event} (h : (feed events).run b = (.ok (), c)) :
    Slot.walkTokens c.children = Slot.walkTokens b.children ++ (b.pushes events).flatten ∧
      List.Forall₂ Event.Pushes events (b.pushes events) := by
  induction events generalizing b with
  | nil =>
      cases h
      exact ⟨(List.append_nil _).symm, .nil⟩
  | cons e rest ih =>
      rw [feed, Step.run_bind] at h
      rw [pushes]
      generalize hrun : (apply e).run b = answer at h ⊢
      obtain ⟨result, d⟩ := answer
      cases result with
      | error fault => cases h
      | ok u =>
          have hanswers := answers_of_run hb hrun
          obtain ⟨hfirst, hpushes⟩ := hanswers.walkTokens_children
          obtain ⟨hothers, hall⟩ := ih (hanswers.framed hb) h
          refine ⟨?_, .cons hpushes hall⟩
          rw [hothers, hfirst, List.flatten_cons, List.append_assoc]

theorem exists_finish {n : Node} {added : List Slot} (hopened : b.opened = []) (hchildren : b.children = added)
    (hcontents : Slot.contents added = Slot.contents [n.toSlot]) :
    ∃ root, b.finish = .ok root ∧ root.toSlot.content = n.toSlot.content := by
  rw [Slot.contents_eq_map, Slot.contents_eq_map, List.map_singleton, List.map_eq_singleton_iff] at hcontents
  obtain ⟨u, rfl, hu⟩ := hcontents
  cases u with
  | node head slots => exact ⟨⟨head, slots⟩, finish_eq_ok_iff.2 ⟨hopened, hchildren⟩, hu⟩
  | absent => cases hu
  | token head leading => cases hu

end Builder

/-! ## Finished trees -/

/-- **Replays restore trees, and calls lose no token.** Take any node that constructions bring forth, in which no node
outside of leading trivia owns diagnostics, and lead a new builder through it that counts on from its numbers, whichever
tokens are handed over and whichever are described. All calls succeed, and the tree has the content of the node: the two
are equal and have one hash, whatever hashes have been asked for. And take any calls at all that succeed and after which
the tree can be had. Its tokens from left to right are those that the calls have pushed, in the order of the calls. -/
theorem builder_restores_and_loses_nothing :
    (∀ (g : Node) (n : Nat) (events : List Event), g.toSlot.Obtainable → g.toSlot.Unmarked → Supply n [g.toSlot] →
      Replays [g.toSlot] events → ∃ (b : Builder) (root : Node),
        (Builder.feed events).run { nextId := n } = (.ok (), b) ∧ b.finish = .ok root ∧
        root.toSlot.content = g.toSlot.content ∧
        ∃ stock, Stock stock ∧ g.toSlot ∈ stock ∧ root.toSlot ∈ stock ∧ ∀ memo memo' : HashMemo,
          memo.Reached stock → memo'.Reached stock → memo.equal g.toSlot root.toSlot = true ∧
            (HashMemo.hash g.toSlot memo).1 = (HashMemo.hash root.toSlot memo').1) ∧
    ∀ (n : Nat) (events : List Event) (b : Builder) (root : Node),
      (Builder.feed events).run { nextId := n } = (.ok (), b) → b.finish = .ok root →
      root.toSlot.tokens = (Builder.pushes { nextId := n } events).flatten ∧
        List.Forall₂ Event.Pushes events (Builder.pushes { nextId := n } events) := by
  refine ⟨fun g n events hg hunmarked hsupply hreplays => ?_, fun n events b root hrun hfinish => ?_⟩
  · obtain ⟨stock, hstock, hbelow, hsubset⟩ := hsupply
    have hmem : g.toSlot ∈ Slot.absent :: stock := hsubset List.mem_cons_self
    have hrestores := hreplays.restores (fun s hs part => hstock.part_mem hs) fun s hs => by
      rw [List.mem_singleton.1 hs]
      exact ⟨Slot.obtainable_iff_made.1 hg, hunmarked, hmem⟩
    obtain ⟨b, added, hrun, hb, hopened, hchildren, hcontents⟩ := hrestores { nextId := n }
      ⟨fun t ht => absurd ht List.not_mem_nil, stock, hstock, hbelow, by simp [Builder.atHand]⟩
    obtain ⟨root, hfinish, hcontent⟩ := Builder.exists_finish hopened hchildren hcontents
    refine ⟨b, root, hrun, hfinish, hcontent, ?_⟩
    have hroot : root.toSlot ∈ b.atHand stock := by
      simp [Builder.atHand, (Builder.finish_eq_ok_iff.1 hfinish).2]
    have hkept : g.toSlot ∈ b.atHand stock := by simp [Builder.atHand, Slot.mem_of_isPresent hmem rfl]
    exact hb.supply.equal_of_content_eq hkept hroot rfl rfl hcontent.symm
  · obtain ⟨htokens, hpushes⟩ := Builder.run_feed (Builder.framed_fed n []) hrun
    rw [(Builder.finish_eq_ok_iff.1 hfinish).2] at htokens
    refine ⟨htokens.trans ?_, hpushes⟩
    rw [show (Builder.fed n []).children = [] from rfl, Slot.walkTokens, List.nil_append]
    rfl

def spacedComma : Token := Token.assemble 2 (Token.plain 1 .whitespace 1).toSlot .comma 1 false []

def lostName : Token := Token.assemble 3 .absent .name 0 true [.ofMissing]

/-- One name twice in a list, with the comma between, in the shape for many slots although there are three. -/
def repeatedNames : Node :=
  ⟨⟨4, .list, { present := true }, 8, .long #[0, 3, 5], []⟩,
    [(Token.plain 0 .name 3).toSlot, spacedComma.toSlot, (Token.plain 0 .name 3).toSlot]⟩

def repeatedArguments : Node :=
  ⟨⟨5, .argList, { diagnostics := true, missing := true, present := true }, 8, .short, []⟩,
    [repeatedNames.toSlot, .absent, lostName.toSlot]⟩

/-- All tokens but the missing one are described, so that the name comes from the store the second time. -/
def repeatedCalls : List Event :=
  [.startNode .argList, .startNode .list, .token [] .name 3, .token [⟨.whitespace, 1⟩] .comma 1, .token [] .name 3,
    .finishNode, .absent, .element lostName.toSlot, .finishNode]

theorem repeatedArguments_obtainable : repeatedArguments.toSlot.Obtainable := by
  have hcomma : Token.make 2 (Token.plain 1 .whitespace 1).toSlot .comma 1 = .ok spacedComma :=
    Token.assembleChecked_eq_ok (Token.onlyTrivia rfl) 2 .comma 1 false []
  have hlost : Token.makeMissing 3 .absent .name [.ofMissing] = .ok lostName :=
    Token.assembleChecked_eq_ok Slot.onlyTrivia_absent 3 .name 0 true [.ofMissing]
  have hnames : Node.makeShaped 4 .list .long repeatedNames.slots = .ok repeatedNames := rfl
  have harguments : Node.make 5 .argList repeatedArguments.slots = .ok repeatedArguments := rfl
  refine .node ?_ harguments
  simp only [repeatedArguments, List.mem_cons, List.not_mem_nil, or_false, forall_eq_or_imp, forall_eq]
  refine ⟨.shaped ?_ hnames, .absent, .missing .absent hlost⟩
  simp only [repeatedNames, List.mem_cons, List.not_mem_nil, or_false, forall_eq_or_imp, forall_eq]
  exact ⟨.plain 0 .name 3, .token (.plain 1 .whitespace 1) hcomma, .plain 0 .name 3⟩

theorem repeatedArguments_unmarked : repeatedArguments.toSlot.Unmarked := by
  refine Slot.unmarked_node.2 ⟨rfl, ?_⟩
  simp only [repeatedArguments, List.mem_cons, List.not_mem_nil, or_false, forall_eq_or_imp, forall_eq]
  refine ⟨Slot.unmarked_node.2 ⟨rfl, ?_⟩, Slot.unmarked_of_not_node rfl, Slot.unmarked_of_not_node rfl⟩
  simp only [repeatedNames, List.mem_cons, List.not_mem_nil, or_false, forall_eq_or_imp, forall_eq]
  exact ⟨Slot.unmarked_of_not_node rfl, Slot.unmarked_of_not_node rfl, Slot.unmarked_of_not_node rfl⟩

theorem repeatedArguments_supply : Supply 6 [repeatedArguments.toSlot] := by
  have hbare {facts : List Slot} : [Slot.absent] ⊆ Slot.absent :: facts := by simp
  have hname := (supply_nil 0).add (s := (Token.plain 0 .name 3).toSlot) rfl hbare
  have hblank := hname.add (s := (Token.plain 1 .whitespace 1).toSlot) rfl hbare
  have hcomma := hblank.add (s := spacedComma.toSlot) rfl (List.cons_subset.2 ⟨.tail _ (.head _), List.nil_subset _⟩)
  have hlost := hcomma.add (s := lostName.toSlot) rfl hbare
  have hnames := hlost.add (s := repeatedNames.toSlot) rfl (by simp [Slot.parts, Node.toSlot, repeatedNames])
  have hall := hnames.add (s := repeatedArguments.toSlot) rfl (by simp [Slot.parts, Node.toSlot, repeatedArguments])
  exact hall.mono (Nat.le_refl _) (List.cons_subset.2 ⟨List.mem_cons_self, List.nil_subset _⟩)

/-- The list is built again in the shape for three slots, and with one new name in two places. -/
theorem repeatedArguments_restored : ∃ (b : Builder) (root : Node),
    (Builder.feed repeatedCalls).run { nextId := 6 } = (.ok (), b) ∧ b.finish = .ok root ∧
    HashMemo.equal {} repeatedArguments.toSlot root.toSlot = true ∧
    (HashMemo.hash repeatedArguments.toSlot {}).1 = (HashMemo.hash root.toSlot {}).1 ∧
    root.toSlot.tokens = (Builder.pushes { nextId := 6 } repeatedCalls).flatten := by
  have hname : Replays [(Token.plain 0 .name 3).toSlot] [.token [] .name 3] :=
    .token (t := Token.plain 0 .name 3) (n := 0) rfl rfl rfl rfl .nil
  have hcomma : Replays [spacedComma.toSlot, (Token.plain 0 .name 3).toSlot]
      [.token [⟨.whitespace, 1⟩] .comma 1, .token [] .name 3] :=
    .token (t := spacedComma) (n := 0) rfl rfl rfl rfl hname
  have hnames : Replays repeatedNames.slots
      [.token [] .name 3, .token [⟨.whitespace, 1⟩] .comma 1, .token [] .name 3] :=
    .token (t := Token.plain 0 .name 3) (n := 0) rfl rfl rfl rfl hcomma
  have hreplays : Replays [repeatedArguments.toSlot] repeatedCalls :=
    .node (n := repeatedArguments) (.node (n := repeatedNames) hnames (.absent (.element lostName .nil))) .nil
  obtain ⟨hrestore, hpushes⟩ := builder_restores_and_loses_nothing
  obtain ⟨b, root, hrun, hfinish, -, stock, -, -, -, hequal⟩ := hrestore repeatedArguments 6 repeatedCalls
    repeatedArguments_obtainable repeatedArguments_unmarked repeatedArguments_supply hreplays
  have hfresh : ({} : HashMemo).Reached stock := ⟨[], List.nil_subset _, rfl⟩
  obtain ⟨hsame, hhash⟩ := hequal {} {} hfresh hfresh
  exact ⟨b, root, hrun, hfinish, hsame, hhash, (hpushes 6 repeatedCalls b root hrun hfinish).1⟩

end LosslessSyntax
