import LosslessSyntax.Builder
import LosslessSyntax.Proofs.Fact.Constructions
import LosslessSyntax.Proofs.Fact.Instances
import LosslessSyntax.Proofs.Parse.Lossless

/-!
# Plans of trees

A plan says what a tree is to consist of. It stands for a fact, and it can be carried out: from left to right, and
children before their node. Whoever carries it out offers a call for each kind of part. If each call adds the fact of
its part to the output, then all of them together add the fact of the plan.

* `Plan.fact` : the fact that a plan stands for, and `Plan.exists_fact` : widths that fit are enough for it;
* `Driver` : the calls by which a plan is carried out, `Plan.drive` : their order;
* `Stage.Emits` : a step adds facts to the output, up to the numbers of their instances;
* `Driver.Sound` : what the single calls have to add, and `Driver.Sound.drive` : what then becomes of a plan.
-/

set_option autoImplicit false

namespace LosslessSyntax

/-! ## Plans and their facts -/

/-- What a tree is to consist of. -/
inductive Plan where
  | token (t : Lexeme)
  | absent
  | missing (kind : Kind)
  | node (kind : Kind) (children : List Plan)
  | list (children : List Plan)

/-- A lexed token as a fact, with the numbers from `n` on. -/
def Lexeme.toToken (n : Nat) (t : Lexeme) : Except Fault Token := do
  let leading ← triviaOfPieces n t.leading
  Token.make (n + t.leading.length + 1) leading t.kind t.width

namespace Plan

mutual

def lexemes : Plan → List Lexeme
  | token t => [t]
  | absent => []
  | missing _ => []
  | node _ children => lexemesOf children
  | list children => lexemesOf children

def lexemesOf : List Plan → List Lexeme
  | [] => []
  | plan :: rest => plan.lexemes ++ lexemesOf rest

end

mutual

/-- The fact that a plan stands for; the numbers in it mean nothing. -/
def fact : Plan → Except Fault Slot
  | token t => return (← t.toToken 0).toSlot
  | absent => return .absent
  | missing kind => return (← Token.makeMissing 0 .absent kind [.ofMissing]).toSlot
  | node kind children => return (← Node.make 0 kind (← facts children)).toSlot
  | list children => do Node.makeList 0 (← facts children)

def facts : List Plan → Except Fault (List Slot)
  | [] => return []
  | plan :: rest => return (← plan.fact) :: (← facts rest)

end

end Plan

theorem Lexeme.exists_toToken (n : Nat) (t : Lexeme) (hfits : t.extent < Size.limit) :
    ∃ u, t.toToken n = .ok u ∧ u.toSlot.Made ∧ u.toSlot.extent = t.extent := by
  have hmade := TriviaPiece.made_toSlots n t.leading
  have hwidth : Slot.extents (TriviaPiece.toSlots n t.leading) < Size.limit := by
    rw [TriviaPiece.extents_toSlots]
    exact Nat.lt_of_le_of_lt (Nat.le_add_right _ _) hfits
  obtain ⟨leading, hleading⟩ := exists_packTrivia hmade hwidth (n + t.leading.length)
  have htrivia := onlyTrivia_packTrivia hleading (TriviaPiece.onlyTrivia_toSlots n t.leading)
  have htoken := Token.assembleChecked_eq_ok htrivia (n + t.leading.length + 1) t.kind t.width false []
  have hmadeToken := Token.made_make (made_packTrivia hmade hleading) htoken
  refine ⟨_, bind_eq_ok_iff.2 ⟨leading, hleading, htoken⟩, hmadeToken, ?_⟩
  rw [← hmadeToken.total_leaves, Token.leaves_toSlot, Token.leaves_make htoken, leaves_packTrivia hleading,
    TriviaPiece.leavesOf_toSlots, Leaf.total_append]
  rfl

theorem Lexeme.erase_toToken (n : Nat) (t : Lexeme) :
    (t.toToken n).map Token.erase = (do
      let leading ← packTrivia 0 (t.leading.map fun piece => (piece.toToken 0).toSlot)
      Token.make 0 leading t.kind t.width) := by
  unfold toToken triviaOfPieces
  rw [map_bind, ← TriviaPiece.eraseAll_toSlots n, ← erase_packTrivia (n + t.leading.length), bind_map]
  simp only [Token.erase_make]

theorem Lexeme.toToken_alike {t : Lexeme} {u : Token} (hu : t.toToken 0 = .ok u) (n : Nat) :
    ∃ v, t.toToken n = .ok v ∧ v.toSlot.erase = u.toSlot.erase := by
  have hmap : (t.toToken n).map Token.erase = .ok u.erase := by
    rw [erase_toToken, ← erase_toToken 0, hu]
    rfl
  obtain ⟨v, hv, he⟩ := exists_of_map_eq_ok hmap
  exact ⟨v, hv, by rw [Token.erase_toSlot, he, Token.erase_toSlot]⟩

namespace Plan

mutual

/-- A plan whose tokens fit together stands for a fact of their width. -/
theorem exists_fact : ∀ plan : Plan, Lexeme.extents plan.lexemes < Size.limit →
    ∃ s, plan.fact = .ok s ∧ s.Made ∧ s.extent = Lexeme.extents plan.lexemes
  | token t, hfits => by
    obtain ⟨u, hu, hmade, hextent⟩ := t.exists_toToken 0 hfits
    exact ⟨u.toSlot, bind_eq_ok_iff.2 ⟨u, hu, rfl⟩, hmade, hextent⟩
  | absent, _ => ⟨.absent, rfl, .absent, rfl⟩
  | missing kind, _ => by
    obtain ⟨u, hu⟩ : ∃ u, Token.makeMissing 0 .absent kind [.ofMissing] = .ok u :=
      ⟨_, Token.assembleChecked_eq_ok Slot.onlyTrivia_absent 0 kind 0 true [.ofMissing]⟩
    have hmade := Token.made_makeMissing .absent hu
    refine ⟨u.toSlot, bind_eq_ok_iff.2 ⟨u, hu, rfl⟩, hmade, ?_⟩
    rw [← hmade.total_leaves, Token.leaves_toSlot, Token.leaves_makeMissing hu]
    rfl
  | node kind children, hfits => by
    obtain ⟨ss, hss, hmade, hextents⟩ := exists_facts children hfits
    obtain ⟨n, hn⟩ := Node.exists_make hmade (by rw [hextents]; exact hfits) 0 kind
    refine ⟨n.toSlot, ?_, Node.made_make hmade hn, (Node.extent_make hn).trans hextents⟩
    exact bind_eq_ok_iff.2 ⟨ss, hss, bind_eq_ok_iff.2 ⟨n, hn, rfl⟩⟩
  | list children, hfits => by
    obtain ⟨ss, hss, hmade, hextents⟩ := exists_facts children hfits
    obtain ⟨s, hs⟩ := Node.exists_makeList hmade (by rw [hextents]; exact hfits) 0
    refine ⟨s, ?_, Node.made_makeList hmade hs, (Node.marks_makeList hs).2.1.trans hextents⟩
    exact bind_eq_ok_iff.2 ⟨ss, hss, hs⟩

theorem exists_facts : ∀ plans : List Plan, Lexeme.extents (lexemesOf plans) < Size.limit →
    ∃ ss, facts plans = .ok ss ∧ (∀ s ∈ ss, s.Made) ∧ Slot.extents ss = Lexeme.extents (lexemesOf plans)
  | [], _ => ⟨[], rfl, fun _ hs => absurd hs List.not_mem_nil, rfl⟩
  | plan :: rest, hfits => by
    rw [lexemesOf, Lexeme.extents_append] at hfits
    obtain ⟨s, hs, hmade, hextent⟩ := exists_fact plan (by omega)
    obtain ⟨ss, hss, hmades, hextents⟩ := exists_facts rest (by omega)
    refine ⟨s :: ss, ?_, List.forall_mem_cons.2 ⟨hmade, hmades⟩, ?_⟩
    · rw [facts, hs, hss]
      rfl
    · rw [Slot.extents, hextent, hextents, lexemesOf, Lexeme.extents_append]

end

end Plan

/-! ## Drivers -/

/-- The calls by which a plan is carried out. Those for nodes and lists are given the step that puts the children
there. -/
structure Driver (σ : Type) where
  token : Lexeme → Step σ Unit
  absent : Step σ Unit
  missing : Kind → Step σ Unit
  node : Kind → Step σ Unit → Step σ Unit
  list : Step σ Unit → Step σ Unit

namespace Plan

variable {σ : Type}

mutual

/-- Carries a plan out: children before their node, from left to right. -/
def drive (d : Driver σ) : Plan → Step σ Unit
  | token t => d.token t
  | absent => d.absent
  | missing kind => d.missing kind
  | node kind children => d.node kind (driveAll d children)
  | list children => d.list (driveAll d children)

def driveAll (d : Driver σ) : List Plan → Step σ Unit
  | [] => pure ()
  | plan :: rest => do
    plan.drive d
    driveAll d rest

end

end Plan

/-- How the state of a driver is seen: when it is ready for the tokens to come, what it has put out, and which nodes
are open. -/
structure Stage (σ : Type) where
  Ready : List Lexeme → σ → Prop
  output : σ → List Slot
  opened : σ → List Opened

/-- The step uses up the tokens and adds the facts to the output, up to the numbers of their instances. -/
def Stage.Emits {σ : Type} (stage : Stage σ) (tokens : List Lexeme) (facts : List Slot) (x : Step σ Unit) : Prop :=
  ∀ (s : σ) (rest : List Lexeme), stage.Ready (tokens ++ rest) s →
    ∃ (t : σ) (added : List Slot), x.run s = (.ok (), t) ∧ stage.Ready rest t ∧ stage.opened t = stage.opened s ∧
      stage.output t = stage.output s ++ added ∧ Slot.eraseAll added = Slot.eraseAll facts

/-- What the single calls of a driver add. -/
structure Driver.Sound {σ : Type} (d : Driver σ) (stage : Stage σ) : Prop where
  token : ∀ {t : Lexeme} {u : Token}, t.kind ≠ .eof → t.toToken 0 = .ok u → stage.Emits [t] [u.toSlot] (d.token t)
  absent : stage.Emits [] [.absent] d.absent
  missing : ∀ {kind : Kind} {u : Token}, Token.makeMissing 0 .absent kind [.ofMissing] = .ok u →
    stage.Emits [] [u.toSlot] (d.missing kind)
  node : ∀ {kind : Kind} {tokens : List Lexeme} {facts : List Slot} {n : Node} {x : Step σ Unit},
    stage.Emits tokens facts x → Node.make 0 kind facts = .ok n → stage.Emits tokens [n.toSlot] (d.node kind x)
  list : ∀ {tokens : List Lexeme} {facts : List Slot} {s : Slot} {x : Step σ Unit},
    stage.Emits tokens facts x → Node.makeList 0 facts = .ok s → stage.Emits tokens [s] (d.list x)

section Drive

variable {σ : Type} {stage : Stage σ}

theorem Stage.Emits.nil : stage.Emits [] [] (pure ()) := by
  intro s rest hready
  exact ⟨s, [], rfl, hready, rfl, (List.append_nil _).symm, rfl⟩

theorem Stage.Emits.seq {tokens tokens' : List Lexeme} {facts facts' : List Slot} {x y : Step σ Unit}
    (hx : stage.Emits tokens facts x) (hy : stage.Emits tokens' facts' y) :
    stage.Emits (tokens ++ tokens') (facts ++ facts') (do x; y) := by
  intro s rest hready
  rw [List.append_assoc] at hready
  obtain ⟨t, added, hrun, hready', hopened, houtput, herase⟩ := hx s _ hready
  obtain ⟨u, added', hrun', hready'', hopened', houtput', herase'⟩ := hy t _ hready'
  refine ⟨u, added ++ added', ?_, hready'', hopened'.trans hopened, ?_, ?_⟩
  · rw [Step.run_bind, hrun]
    exact hrun'
  · rw [houtput', houtput, List.append_assoc]
  · rw [Slot.eraseAll_append, Slot.eraseAll_append, herase, herase']

mutual

/-- A sound driver puts the fact of a plan out. -/
theorem Driver.Sound.drive {d : Driver σ} (h : d.Sound stage) : ∀ (plan : Plan) {s : Slot},
    (∀ t ∈ plan.lexemes, t.kind ≠ .eof) → plan.fact = .ok s → stage.Emits plan.lexemes [s] (plan.drive d)
  | .token t, s, hkinds, hs => by
    obtain ⟨u, hu, hs⟩ := bind_eq_ok_iff.1 hs
    cases hs
    exact h.token (hkinds t List.mem_cons_self) hu
  | .absent, s, _, hs => by
    cases hs
    exact h.absent
  | .missing kind, s, _, hs => by
    obtain ⟨u, hu, hs⟩ := bind_eq_ok_iff.1 hs
    cases hs
    exact h.missing hu
  | .node kind children, s, hkinds, hs => by
    obtain ⟨ss, hss, hs⟩ := bind_eq_ok_iff.1 hs
    obtain ⟨n, hn, hs⟩ := bind_eq_ok_iff.1 hs
    cases hs
    exact h.node (h.driveAll children hkinds hss) hn
  | .list children, s, hkinds, hs => by
    obtain ⟨ss, hss, hs⟩ := bind_eq_ok_iff.1 hs
    exact h.list (h.driveAll children hkinds hss) hs

theorem Driver.Sound.driveAll {d : Driver σ} (h : d.Sound stage) : ∀ (plans : List Plan) {ss : List Slot},
    (∀ t ∈ Plan.lexemesOf plans, t.kind ≠ .eof) → Plan.facts plans = .ok ss →
      stage.Emits (Plan.lexemesOf plans) ss (Plan.driveAll d plans)
  | [], ss, _, hss => by
    cases hss
    exact .nil
  | plan :: rest, ss, hkinds, hss => by
    obtain ⟨s, hs, hss⟩ := bind_eq_ok_iff.1 hss
    obtain ⟨others, hothers, hss⟩ := bind_eq_ok_iff.1 hss
    cases hss
    have hfirst := h.drive plan (fun t ht => hkinds t (List.mem_append_left _ ht)) hs
    exact hfirst.seq (h.driveAll rest (fun t ht => hkinds t (List.mem_append_right _ ht)) hothers)

end

end Drive

end LosslessSyntax
