import LosslessSyntax.Proofs.Builder.OpenNodes
import LosslessSyntax.Proofs.Fact.Terminals
import LosslessSyntax.Proofs.Parse.Faults
import LosslessSyntax.Proofs.Parse.Speculation

/-!
# Error recovery

A parser that recovers skips to the first token that is `EOF` or in the recovery set, and then demands a token. What it
has skipped waits, and goes in front of the token demanded, which is consumed if it is there and missing if it is not.

* `TokenBuffer.FirstStop` : the place where skipping ends, and `Lexeme.asSkipped` : what becomes of a token on the way;
* `Parser.SkipsUpTo` : what skipping does, and that it does nothing else;
* `Slot.Piece` : the facts that wait are single pieces of trivia; `Act.skipped_step` : what an act can do to them,
  `Parser.Tidy.step` : every act keeps it so, and `Session.tidy_proceed` : so does whatever a caller does;
* `Parser.Settles` : one token goes on the stack behind all that waits, unless that is too wide together;
* `recovery_settles` : where recovery ends and what it adds.
-/

set_option autoImplicit false

namespace LosslessSyntax

/-! ## Where skipping ends -/

/-- The first place from the cursor on at which the token is `EOF` or in the set. -/
structure TokenBuffer.FirstStop (b : TokenBuffer) (recovery : KindSet) (j : Nat) (t : Lexeme) : Prop where
  reached : b.pos ≤ j
  token : b.tokens[j]? = some t
  stops : t.kind = .eof ∨ recovery.contains t.kind = true
  least : ∀ k u, b.pos ≤ k → k < j → b.tokens[k]? = some u → u.kind ≠ .eof ∧ recovery.contains u.kind = false

namespace Lexeme

/-- The trivia in front of a token as facts, but for their numbers. -/
def asLeading (t : Lexeme) : List Slot := t.leading.map fun p => (Token.plain 0 p.kind.kind p.width).toSlot

/-- A skipped token as facts, but for their numbers: its trivia, and skipped text with an error that covers it. -/
def asSkipped (t : Lexeme) : List Slot :=
  t.asLeading ++
    [(Token.assemble 0 .absent .skippedTokens t.width false [.error Diagnostic.skippedText 0 t.width]).toSlot]

end Lexeme

namespace Parser

/-- Skipping leads from `p` to the first stop `j`, and does nothing but turn the tokens on the way into skipped text. -/
structure SkipsUpTo (p : Parser) (recovery : KindSet) (j : Nat) (t : Lexeme) (q : Parser) : Prop where
  stop : p.source.FirstStop recovery j t
  source : q.source = { p.source with pos := j }
  outputs : q.outputs = p.outputs
  stamp : q.stamp = p.stamp
  context : q.context = p.context
  skipped : ∃ new, q.skipped = p.skipped ++ new ∧
    Slot.eraseAll new = ((p.source.tokens.drop p.source.pos).take (j - p.source.pos)).flatMap Lexeme.asSkipped

/-- Skipping one token moves the cursor and adds the token to the skipped text. -/
theorem skip_eq {p : Parser} (h : p.isAt .eof = false) : ∃ new, Slot.eraseAll new = p.source.current.asSkipped ∧
    p.skip = { p with skipped := p.skipped ++ new, source := { p.source with pos := p.source.pos + 1 },
                      nextId := p.nextId + p.source.current.leading.length + 1 } := by
  have hne : ¬ p.isAt .eof = true := by rw [h]; decide
  have hbump : p.source.bump = { p.source with pos := p.source.pos + 1 } := if_pos (pos_lt_of_not_eof hne)
  refine ⟨TriviaPiece.toSlots p.nextId p.source.current.leading ++
    [(Token.skipped (p.nextId + p.source.current.leading.length) p.source.current.width).toSlot], ?_, ?_⟩
  · rw [Slot.eraseAll_append, TriviaPiece.eraseAll_toSlots]
    rfl
  · unfold skip
    rw [if_neg hne, hbump, ← List.append_assoc]

/-- By induction on the loop: the tokens on the way are the one under the cursor and those that the rest of the loop
skips. -/
theorem SkipsTo.skipsUpTo {recovery : KindSet} {p q : Parser} (h : SkipsTo recovery p q)
    (hpos : p.source.pos ≤ p.source.body.length) : ∃ j t, p.SkipsUpTo recovery j t q := by
  induction h with
  | @stop p hstop =>
      refine ⟨p.source.pos, p.source.current,
        ⟨Nat.le_refl _, TokenBuffer.tokens_getElem?_pos hpos, ?_, fun k u hk hlt => ?_⟩, rfl, rfl, rfl, rfl, [], ?_, ?_⟩
      · exact hstop.imp_left fun heof => beq_iff_eq.1 heof
      · omega
      · rw [List.append_nil]
      · rw [Nat.sub_self]
        rfl
  | @skip p q heof hrecovery _ ih =>
      obtain ⟨new, hnew, hskip⟩ := skip_eq heof
      have hlt : p.source.pos < p.source.body.length := pos_lt_of_not_eof (by rw [heof]; decide)
      rw [hskip] at ih
      obtain ⟨j, t, hq⟩ := ih hlt
      obtain ⟨more, hmore, hrest⟩ := hq.skipped
      have hreached : p.source.pos + 1 ≤ j := hq.stop.reached
      have hcurrent := TokenBuffer.tokens_getElem?_pos hpos
      refine ⟨j, t, ⟨by omega, hq.stop.token, hq.stop.stops, fun k u hk hkj hu => ?_⟩, hq.source, hq.outputs, hq.stamp,
        hq.context, new ++ more, ?_, ?_⟩
      · rcases Nat.eq_or_lt_of_le hk with rfl | hk
        · rw [hcurrent] at hu
          obtain rfl := Option.some.inj hu
          exact ⟨beq_eq_false_iff_ne.1 heof, hrecovery⟩
        · exact hq.stop.least k u hk hkj hu
      · rw [hmore, List.append_assoc]
      · obtain ⟨hin, hget⟩ := List.getElem?_eq_some_iff.1 hcurrent
        have hcount : j - p.source.pos = j - (p.source.pos + 1) + 1 := by omega
        rw [Slot.eraseAll_append, hnew, hrest, List.drop_eq_getElem_cons hin, hget, hcount, List.take_succ_cons,
          List.flatMap_cons]
        rfl

theorem SkipsUpTo.current {p q : Parser} {recovery : KindSet} {j : Nat} {t : Lexeme}
    (h : p.SkipsUpTo recovery j t q) : q.source.current = t := by
  have htoken := h.stop.token
  have hlt : j < (p.source.body ++ [p.source.eof]).length := (List.getElem?_eq_some_iff.1 htoken).1
  rw [List.length_append, List.length_singleton] at hlt
  have hcurrent : q.source.tokens[q.source.pos]? = some q.source.current := by
    refine TokenBuffer.tokens_getElem?_pos ?_
    rw [h.source]
    exact Nat.le_of_lt_succ hlt
  rw [h.source] at hcurrent ⊢
  exact Option.some.inj (hcurrent.symm.trans htoken)

end Parser

/-! ## What waits -/

namespace Slot

/-- A present token of trivia with nothing in front of it. -/
def Piece (s : Slot) : Prop := ∃ id kind width diagnostics, kind.isTrivia = true ∧
  s = (Token.assemble id .absent kind width false diagnostics).toSlot

/-- The facts can be put in front of a token: a single one always can, several only if their widths fit together. -/
def Packable (trivia : List Slot) : Prop := trivia.length ≤ 1 ∨ extents trivia < Size.limit

theorem Piece.made {s : Slot} (h : s.Piece) : s.Made := by
  obtain ⟨id, kind, width, diagnostics, -, rfl⟩ := h
  exact Token.made_bare id kind width diagnostics

theorem Piece.onlyTrivia {s : Slot} (h : s.Piece) : s.OnlyTrivia := by
  obtain ⟨id, kind, width, diagnostics, htrivia, rfl⟩ := h
  exact Token.onlyTrivia htrivia

theorem Piece.tokens {s : Slot} (h : s.Piece) : s.tokens.map Token.toSlot = [s] := by
  obtain ⟨id, kind, width, diagnostics, -, rfl⟩ := h
  show (Slot.token _ _).tokens.map Token.toSlot = _
  rw [tokens_token]
  rfl

theorem walkTokens_pieces {trivia : List Slot} (h : ∀ s ∈ trivia, s.Piece) :
    (walkTokens trivia).map Token.toSlot = trivia := by
  induction trivia with
  | nil =>
      rw [walkTokens]
      rfl
  | cons s rest ih =>
      rw [List.forall_mem_cons] at h
      rw [walkTokens_cons, List.map_append, h.1.tokens, ih h.2]
      rfl

end Slot

theorem TriviaPiece.piece_toSlots (id : Nat) (pieces : List TriviaPiece) : ∀ s ∈ toSlots id pieces, s.Piece := by
  induction pieces generalizing id with
  | nil => exact fun s hs => absurd hs List.not_mem_nil
  | cons p rest ih =>
      intro s hs
      rcases List.mem_cons.1 hs with rfl | hs
      · refine ⟨id, p.kind.kind, p.width, [], ?_, rfl⟩
        cases p.kind <;> rfl
      · exact ih (id + 1) s hs

theorem Token.piece_skipped (id width : Nat) : (Token.skipped id width).toSlot.Piece :=
  ⟨id, .skippedTokens, width, [.ofSkipped width], rfl, rfl⟩

section Packing

variable {trivia : List Slot} (h : ∀ s ∈ trivia, s.Piece) (id : Nat)
include h

/-- Pieces in front of a token are found there again, each of them the same instance. -/
theorem tokens_packTrivia {leading : Slot} (hleading : packTrivia id trivia = .ok leading) :
    leading.tokens.map Token.toSlot = trivia := by
  unfold packTrivia at hleading
  split at hleading
  · cases hleading
    rw [Slot.tokens_absent]
    rfl
  · cases hleading
    exact (h _ List.mem_cons_self).tokens
  · rcases Node.makeList_eq_ok hleading with ⟨rfl, rfl⟩ | ⟨n, hn, rfl⟩
    · rw [Slot.tokens_absent]
      rfl
    · show (Slot.node n.head n.slots).tokens.map Token.toSlot = _
      rw [Slot.tokens_node, Node.slots_make hn]
      exact Slot.walkTokens_pieces h

theorem packTrivia_of_packable (hpack : Slot.Packable trivia) : ∃ leading, packTrivia id trivia = .ok leading := by
  rcases hpack with hfew | hfits
  · rcases trivia with _ | ⟨s, _ | ⟨u, rest⟩⟩
    · exact ⟨.absent, rfl⟩
    · exact ⟨s, rfl⟩
    · simp only [List.length_cons] at hfew
      omega
  · exact exists_packTrivia (fun s hs => (h s hs).made) hfits id

/-- Several pieces that are too wide together cannot be put in front of a token. -/
theorem packTrivia_of_not_packable (hpack : ¬ Slot.Packable trivia) : packTrivia id trivia = .error .sumTooLarge := by
  have hwide : Slot.sumWidths 0 trivia = .error .sumTooLarge := by
    rw [Slot.sumWidths_eq (fun s hs => (h s hs).made.fullWidth_eq) (by decide), Nat.zero_add]
    exact if_neg fun hfits => hpack (.inr hfits)
  have hmany : 2 ≤ trivia.length := Nat.lt_of_not_le fun hfew => hpack (.inl hfew)
  have hlist : packTrivia id trivia = Node.makeList id trivia := by
    rcases trivia with _ | ⟨s, _ | ⟨u, rest⟩⟩
    · cases hmany
    · simp only [List.length_cons, List.length_nil] at hmany
      omega
    · rfl
  rw [hlist]
  exact Node.makeList_eq_error_iff.2 ⟨rfl, hwide⟩

end Packing

/-! ## Whatever a caller does -/

/-- What waits after an act is what waited before it, nothing, what a skip adds to it, or what waited at a
checkpoint. -/
theorem Act.skipped_step (p : Parser) (a : Act) :
    (a.step p).skipped = p.skipped ∨ (a.step p).skipped = [] ∨ (a.step p).skipped = p.skip.skipped ∨
      ∃ c, a = .rewind c ∧ (a.step p).skipped = c.skipped := by
  cases a with
  | advance =>
      unfold step toStep
      rw [Parser.run_advance, Parser.run_bump]
      split
      · exact .inl rfl
      · cases p.nextToken with
        | error f => exact .inr (.inl rfl)
        | ok t => exact .inr (.inl rfl)
  | missing kind =>
      unfold step toStep
      rw [Parser.run_missing]
      cases p.missingToken kind with
      | error f => exact .inr (.inl rfl)
      | ok t => exact .inr (.inl rfl)
  | skip => exact .inr (.inr (.inl rfl))
  | complete m kind =>
      unfold step toStep
      rw [Step.run_bind, Marker.run_complete]
      by_cases hm : m.position ≤ p.outputs.length
      · rw [if_pos hm]
        cases Node.make p.nextId kind ((p.outputs.drop m.position).map (·.slot)) with
        | error f => exact .inl rfl
        | ok n => exact .inl rfl
      · rw [if_neg hm]
        exact .inl rfl
  | completeList m =>
      unfold step toStep
      rw [Step.run_bind, Marker.run_completeList]
      by_cases hm : m.position ≤ p.outputs.length
      · rw [if_pos hm]
        cases Node.makeList p.nextId ((p.outputs.drop m.position).map (·.slot)) with
        | error f => exact .inl rfl
        | ok s => exact .inl rfl
      · rw [if_neg hm]
        exact .inl rfl
  | rewind c =>
      unfold step toStep
      rw [Parser.run_rewind]
      split
      · cases p.source.restore c.snapshot with
        | error f => exact .inr (.inr (.inr ⟨c, rfl, rfl⟩))
        | ok source => exact .inr (.inr (.inr ⟨c, rfl, rfl⟩))
      · exact .inl rfl
  | absent => exact .inl rfl
  | checkpoint => exact .inl rfl
  | inContext c => exact .inl rfl

namespace Parser

/-- What waits, in the parser and in the checkpoints, is pieces of trivia. -/
structure Tidy (cs : List Checkpoint) (p : Parser) : Prop where
  skipped : ∀ s ∈ p.skipped, s.Piece
  kept : ∀ c ∈ cs, ∀ s ∈ c.skipped, s.Piece

variable {cs : List Checkpoint} {p q : Parser}

theorem piece_skip (h : ∀ s ∈ p.skipped, s.Piece) : ∀ s ∈ p.skip.skipped, s.Piece := by
  unfold skip
  split
  · exact h
  · intro s hs
    rcases List.mem_append.1 hs with hs | hs
    · exact (List.mem_append.1 hs).elim (h s) (TriviaPiece.piece_toSlots _ _ s)
    · rw [List.mem_singleton.1 hs]
      exact Token.piece_skipped _ _

theorem SkipsTo.piece {recovery : KindSet} (h : SkipsTo recovery p q) (hp : ∀ s ∈ p.skipped, s.Piece) :
    ∀ s ∈ q.skipped, s.Piece := by
  induction h with
  | stop _ => exact hp
  | skip _ _ _ ih => exact ih (piece_skip hp)

/-- Acts bring in nothing but pieces. -/
theorem Tidy.step (h : p.Tidy cs) {a : Act} (hown : a.Own cs) : (a.step p).Tidy (a.noting p cs) := by
  constructor
  · rcases a.skipped_step p with hsame | hnone | hskip | ⟨c, rfl, hback⟩
    · rw [hsame]
      exact h.skipped
    · rw [hnone]
      exact fun s hs => absurd hs List.not_mem_nil
    · rw [hskip]
      exact piece_skip h.skipped
    · rw [hback]
      exact h.kept c hown
  · intro c hc
    rcases List.mem_cons.1 (a.noting_subset p cs hc) with rfl | hc
    · exact h.skipped
    · exact h.kept c hc

theorem Tidy.after (h : p.Tidy cs) {acts : List Act} (hown : p.Own cs acts) :
    (p.after acts).Tidy (p.known cs acts) := by
  induction acts generalizing cs p with
  | nil => exact h
  | cons a rest ih => exact ih (h.step hown.1) hown.2

end Parser

namespace Session

theorem Leads.tidy {s t : Session} {pending : List Checkpoint} {quiet : Prop} (h : Leads pending quiet s t)
    (hpending : ∀ c ∈ pending, c.Captured) (hs : s.parser.Tidy s.checkpoints) : t.parser.Tidy t.checkpoints := by
  obtain ⟨acts, hafter, hown, -, hknown⟩ := h.acts (s.checkpoints ++ pending) (List.subset_append_left _ _)
    (List.subset_append_right _ _)
  have hstart : s.parser.Tidy (s.checkpoints ++ pending) := by
    refine ⟨hs.skipped, fun c hc => ?_⟩
    rcases List.mem_append.1 hc with hc | hc
    · exact hs.kept c hc
    · obtain ⟨context, snapshot, offset, rfl⟩ := hpending c hc
      exact fun s hs => absurd hs List.not_mem_nil
  have hend := hstart.after hown
  rw [hafter]
  exact ⟨hend.skipped, fun c hc => hend.kept c (hknown hc)⟩

theorem tidy_proceed (tokens : List Lexeme) (moves : List Move) :
    let s := (Session.proceed moves { parser := .ofTokens tokens }).2
    s.parser.Tidy s.checkpoints := by
  refine proceed_invariant (I := fun s => s.parser.Tidy s.checkpoints) Leads.tidy ?_ moves
  exact ⟨fun s hs => absurd hs List.not_mem_nil, fun c hc => absurd hc List.not_mem_nil⟩

end Session

/-! ## Demanding a token -/

def Token.Reads (t : Lexeme) (u : Token) : Prop :=
  u.kind = t.kind ∧ u.width = t.width ∧ u.isMissing = false ∧ u.diagnostics = []

/-- The token stands for one of this kind that is missing. -/
def Token.StandsFor (kind : Kind) (u : Token) : Prop :=
  u.kind = kind ∧ u.width = 0 ∧ u.isMissing = true ∧ u.diagnostics = [.error Diagnostic.expectedToken 0 0]

namespace Parser

/-- The parser with one more token on the stack, behind the trivia, and the cursor at `pos`. -/
structure Adds (q : Parser) (trivia : List Slot) (pos : Nat) (u : Token) (r : Parser) : Prop where
  outputs : r.outputs = q.outputs ++ [⟨u.toSlot, q.stamp + 1⟩]
  leading : u.leading.tokens.map Token.toSlot = trivia
  skipped : r.skipped = []
  context : r.context = q.context
  source : r.source = { q.source with pos := pos }

/-- One such token is added behind the trivia; if they are too wide together, none is, and what waited is lost. -/
def Settles (q : Parser) (trivia : List Slot) (pos : Nat) (P : Token → Prop) (result : Except Fault Unit × Parser) :
    Prop :=
  (Slot.Packable trivia → ∃ u, P u ∧ result.1 = .ok () ∧ q.Adds trivia pos u result.2) ∧
    (¬ Slot.Packable trivia → result = (.error .sumTooLarge, { q with skipped := [] }))

theorem settles_bump {q : Parser} (h : ∀ s ∈ q.skipped, s.Piece) (heof : q.isAt .eof = false) :
    q.Settles (q.skipped ++ TriviaPiece.toSlots q.nextId q.source.current.leading) (q.source.pos + 1)
      (Token.Reads q.source.current) (bump.run q) := by
  have hpieces : ∀ s ∈ q.skipped ++ TriviaPiece.toSlots q.nextId q.source.current.leading, s.Piece := fun s hs =>
    (List.mem_append.1 hs).elim (h s) (TriviaPiece.piece_toSlots _ _ s)
  have hbump : q.source.bump = { q.source with pos := q.source.pos + 1 } :=
    if_pos (pos_lt_of_not_eof (by rw [heof]; decide))
  constructor
  · intro hpack
    obtain ⟨leading, hleading⟩ := packTrivia_of_packable hpieces (q.nextId + q.source.current.leading.length) hpack
    have htoken := Token.assembleChecked_eq_ok (onlyTrivia_packTrivia hleading fun s hs => (hpieces s hs).onlyTrivia)
      (q.nextId + q.source.current.leading.length + 1) q.source.current.kind q.source.current.width false []
    have hnext : q.nextToken = .ok _ := bind_eq_ok_iff.2 ⟨leading, hleading, htoken⟩
    rw [run_bump, hnext]
    exact ⟨_, ⟨rfl, rfl, Token.isMissing_assemble _ _ _ _ _ _, rfl⟩, rfl, rfl,
      tokens_packTrivia hpieces _ hleading, rfl, rfl, hbump⟩
  · intro hpack
    have hnext : q.nextToken = .error .sumTooLarge := by
      unfold nextToken
      dsimp only
      rw [packTrivia_of_not_packable hpieces _ hpack]
      rfl
    rw [run_bump, hnext]

theorem settles_missing {q : Parser} (h : ∀ s ∈ q.skipped, s.Piece) (kind : Kind) :
    q.Settles q.skipped q.source.pos (Token.StandsFor kind) ((missing kind).run q) := by
  constructor
  · intro hpack
    obtain ⟨leading, hleading⟩ := packTrivia_of_packable h q.nextId hpack
    have htoken := Token.assembleChecked_eq_ok (onlyTrivia_packTrivia hleading fun s hs => (h s hs).onlyTrivia)
      (q.nextId + 1) kind 0 true [.ofMissing]
    have hmissing : q.missingToken kind = .ok _ := bind_eq_ok_iff.2 ⟨leading, hleading, htoken⟩
    rw [run_missing, hmissing]
    exact ⟨_, ⟨rfl, rfl, Token.isMissing_assemble _ _ _ _ _ _, rfl⟩, rfl, rfl, tokens_packTrivia h _ hleading, rfl, rfl,
      rfl⟩
  · intro hpack
    have hmissing : q.missingToken kind = .error .sumTooLarge := by
      unfold missingToken
      rw [packTrivia_of_not_packable h _ hpack]
      rfl
    rw [run_missing, hmissing]

theorem run_recover (expected : Kind) (recovery : KindSet) (p : Parser) :
    (recover expected recovery).run p =
      if (p.skipUntil recovery).isAt expected then advance.run (p.skipUntil recovery)
      else (missing expected).run (p.skipUntil recovery) := by
  unfold recover
  rw [Step.run_bind, Step.run_modify]
  simp only [Step.run_bind, run_expect]
  by_cases hat : (p.skipUntil recovery).isAt expected = true
  · rw [if_pos hat, if_pos hat]
    cases advance.run (p.skipUntil recovery) with
    | mk outcome r => cases outcome <;> rfl
  · rw [if_neg hat, if_neg hat]
    cases (missing expected).run (p.skipUntil recovery) with
    | mk outcome r => cases outcome <;> rfl

end Parser

/-- **Recovery ends at the first token that is `EOF` or in the set**, and touches nothing but the tokens on the way,
which become skipped text. Then one token is added behind all that waits: the token demanded, consumed if it is there and
else missing; but none if it is `EOF` and the end is reached, and none if what waits is several pieces of trivia that
are too wide together. -/
theorem recovery_settles (tokens : List Lexeme) (moves : List Move) (recovery : KindSet) (expected : Kind) :
    let p := (Session.proceed moves { parser := .ofTokens tokens }).2.parser
    let q := p.skipUntil recovery
    let result := (Parser.recover expected recovery).run p
    Parser.SkipsTo recovery p q ∧ ∃ j t, p.SkipsUpTo recovery j t q ∧
      (t.kind = expected → expected = .eof → result = (.ok (), q)) ∧
      (t.kind = expected → expected ≠ .eof → ∃ own, Slot.eraseAll own = t.asLeading ∧
        q.Settles (q.skipped ++ own) (j + 1) (Token.Reads t) result) ∧
      (t.kind ≠ expected → q.Settles q.skipped j (Token.StandsFor expected) result) := by
  intro p q result
  have hloop : Parser.SkipsTo recovery p q := Parser.skipsTo_skipUntil recovery p
  have hpieces : ∀ s ∈ q.skipped, s.Piece := hloop.piece (Session.tidy_proceed tokens moves).skipped
  obtain ⟨j, t, hq⟩ := hloop.skipsUpTo ((Session.sound_ofTokens tokens).proceed moves).parser.pos
  have hpos : q.source.pos = j := congrArg TokenBuffer.pos hq.source
  have hresult : result = if q.isAt expected then Parser.advance.run q else (Parser.missing expected).run q :=
    Parser.run_recover expected recovery p
  have hat : ∀ kind, q.isAt kind = true ↔ t.kind = kind := fun kind => by
    rw [← hq.current]
    exact beq_iff_eq
  refine ⟨hloop, j, t, hq, fun hkind heof => ?_, fun hkind hne => ?_, fun hkind => ?_⟩
  · rw [hresult, if_pos ((hat expected).2 hkind), Parser.run_advance, if_pos ((hat .eof).2 (hkind.trans heof))]
  · have heof : q.isAt .eof = false := Bool.eq_false_iff.2 fun h => hne (hkind.symm.trans ((hat .eof).1 h))
    have hsettles := Parser.settles_bump hpieces heof
    rw [hpos, hq.current] at hsettles
    refine ⟨TriviaPiece.toSlots q.nextId t.leading, TriviaPiece.eraseAll_toSlots _ _, ?_⟩
    rw [hresult, if_pos ((hat expected).2 hkind), Parser.run_advance, heof]
    exact hsettles
  · have hsettles := Parser.settles_missing hpieces expected
    rw [hpos] at hsettles
    rw [hresult, if_neg fun h => hkind ((hat expected).1 h)]
    exact hsettles

/-- Two tokens whose widths do not fit together. -/
def wideNames : List Lexeme := [⟨.name, 2147483648, []⟩, ⟨.name, 2147483648, []⟩]

/-- No comma is found missing behind them: the two pieces of skipped text are too wide together. -/
theorem wideNames_not_settled : ((Parser.ofTokens wideNames).skipUntil .empty).peek = .eof ∧
    ((Parser.recover .comma .empty).run (.ofTokens wideNames)).1 = .error .sumTooLarge ∧
    ((Parser.recover .comma .empty).run (.ofTokens wideNames)).2.outputs = [] := ⟨rfl, rfl, rfl⟩

end LosslessSyntax
