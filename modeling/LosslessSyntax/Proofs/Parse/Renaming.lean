import LosslessSyntax.Parse.Script
import LosslessSyntax.Proofs.Parse.Twins

/-!
# Scripts on two sessions

The same script is run on two sessions whose parsers are twins. The sessions may number their markers and
checkpoints differently, so the script is rewritten from the names of the one to those of the other.

* `Renaming` : new names for old ones, with the names that a script may still use; `Command.rename`;
* `Reply.rename`, `Reply.erase` : replies with other names, replies without stamps and instance numbers;
* `Table` : two lists of named things that agree up to a renaming;
* `Session.Twin` : sessions that agree; `Session.Follows` : sessions that agree have come from such sessions;
* `Command.runAll_agrees` : a script and its renaming give the same replies and lead to sessions that agree.
-/

set_option autoImplicit false

namespace LosslessSyntax

/-- New names for old ones, and the markers that may still be named. -/
structure Renaming where
  marker : Nat → Nat
  completed : Nat → Nat
  checkpoint : Nat → Nat
  freeMarker : Nat → Bool
  freeCompleted : Nat → Bool

def Call.rename (σ : Renaming) : Call → Call
  | .complete name kind => .complete (σ.marker name) kind
  | .completeList name => .completeList (σ.marker name)
  | .abandon name => .abandon (σ.marker name)
  | .lose name => .lose (σ.marker name)
  | .precede name => .precede (σ.completed name)
  | .rewind name => .rewind (σ.checkpoint name)
  | .sameCheckpoint a b => .sameCheckpoint (σ.checkpoint a) (σ.checkpoint b)
  | .inspect name => .inspect (σ.checkpoint name)
  | c => c

/-- The call names only markers that are free, and does not compare checkpoints: that would look at their
stamps. -/
def Call.mayUse (σ : Renaming) : Call → Bool
  | .complete name _ | .completeList name | .abandon name | .lose name => σ.freeMarker name
  | .precede name => σ.freeCompleted name
  | .sameCheckpoint _ _ => false
  | _ => true

mutual

def Command.rename (σ : Renaming) : Command → Command
  | .call c => .call (c.rename σ)
  | .attempt kind => .attempt kind
  | .within flags script => .within flags (Command.renameAll σ script)
  | .speculate script giveUp => .speculate (Command.renameAll σ script) giveUp

def Command.renameAll (σ : Renaming) : List Command → List Command
  | [] => []
  | c :: rest => c.rename σ :: Command.renameAll σ rest

end

mutual

def Command.each (P : Call → Bool) : Command → Bool
  | .call c => P c
  | .attempt _ => true
  | .within _ script => Command.eachOf P script
  | .speculate script _ => Command.eachOf P script

def Command.eachOf (P : Call → Bool) : List Command → Bool
  | [] => true
  | c :: rest => c.each P && Command.eachOf P rest

end

def Reply.rename (σ : Renaming) : Reply → Reply
  | .marker name => .marker (σ.marker name)
  | .completed name kind => .completed (σ.completed name) kind
  | .checkpoint name c => .checkpoint (σ.checkpoint name) c
  | r => r

/-- The reply without stamps and instance numbers. -/
def Reply.erase : Reply → Reply
  | .checkpoint name c => .checkpoint name c.erase
  | .contents c => .contents c.erase
  | r => r

mutual

def Line.map (f : Reply → Reply) : Line → Line
  | .plain reply after => .plain (f reply) after
  | .block reply after lines => .block (f reply) after (Line.mapAll f lines)

def Line.mapAll (f : Reply → Reply) : List Line → List Line
  | [] => []
  | line :: rest => line.map f :: Line.mapAll f rest

end

theorem Line.mapAll_append (f : Reply → Reply) (lines more : List Line) :
    mapAll f (lines ++ more) = mapAll f lines ++ mapAll f more := by
  induction lines with
  | nil => rfl
  | cons line rest ih => rw [List.cons_append, mapAll, mapAll, ih, List.cons_append]

/-! ## Tables -/

/-- The lists agree up to a renaming of the places: the free ones hold what is related, and the places past
the end follow each other in both. -/
structure Table {α : Type} (f : Nat → Nat) (free : Nat → Bool) (R : α → α → Prop) (xs ys : List α) : Prop where
  entries : ∀ n, free n = true → Option.Rel R xs[n]? ys[f n]?
  fresh : ∀ k, f (xs.length + k) = ys.length + k
  injective : ∀ {m n}, f m = f n → m = n

namespace Table

variable {α : Type} {f : Nat → Nat} {free : Nat → Bool} {R R' : α → α → Prop} {xs ys : List α} {x y : α}

theorem lookup (h : Table f free R xs ys) {n : Nat} (hn : free n = true) :
    (xs[n]? = none ∧ ys[f n]? = none) ∨ ∃ x y, xs[n]? = some x ∧ ys[f n]? = some y ∧ R x y := by
  have hrel := h.entries n hn
  revert hrel
  generalize xs[n]? = x, ys[f n]? = y
  intro hrel
  cases hrel with
  | none => exact .inl ⟨rfl, rfl⟩
  | some hxy => exact .inr ⟨_, _, rfl, rfl, hxy⟩

theorem mono (h : Table f free R xs ys) (hR : ∀ x y, R x y → R' x y) : Table f free R' xs ys := by
  refine ⟨fun n hn => ?_, h.fresh, h.injective⟩
  rcases h.lookup hn with ⟨hx, hy⟩ | ⟨x, y, hx, hy, hxy⟩
  · rw [hx, hy]
    exact .none
  · rw [hx, hy]
    exact .some (hR x y hxy)

theorem next (h : Table f free R xs ys) : f xs.length = ys.length := h.fresh 0

/-- A free place is in the one list iff its new name is in the other. -/
theorem lt_iff (h : Table f free R xs ys) {n : Nat} (hn : free n = true) : f n < ys.length ↔ n < xs.length := by
  rcases h.lookup hn with ⟨hx, hy⟩ | ⟨x, y, hx, hy, -⟩
  · rw [List.getElem?_eq_none_iff] at hx hy
    omega
  · obtain ⟨hx, -⟩ := List.getElem?_eq_some_iff.1 hx
    obtain ⟨hy, -⟩ := List.getElem?_eq_some_iff.1 hy
    exact ⟨fun _ => hx, fun _ => hy⟩

theorem push (h : Table f free R xs ys) (hxy : R x y) : Table f free R (xs ++ [x]) (ys ++ [y]) := by
  refine ⟨fun n hn => ?_, fun k => ?_, h.injective⟩
  · by_cases hlt : n < xs.length
    · rw [List.getElem?_append_left hlt, List.getElem?_append_left ((h.lt_iff hn).2 hlt)]
      exact h.entries n hn
    · obtain ⟨k, rfl⟩ := Nat.exists_eq_add_of_le (Nat.le_of_not_lt hlt)
      rw [h.fresh, List.getElem?_append_right (Nat.le_add_right _ _),
        List.getElem?_append_right (Nat.le_add_right _ _),
        Nat.add_sub_cancel_left, Nat.add_sub_cancel_left]
      cases k with
      | zero => exact .some hxy
      | succ k => exact .none
  · rw [List.length_append, List.length_append, List.length_singleton, List.length_singleton, Nat.add_assoc, h.fresh,
      Nat.add_assoc]

theorem set (h : Table f free R xs ys) {name : Nat} (hname : free name = true) (hxy : R x y) :
    Table f free R (xs.set name x) (ys.set (f name) y) := by
  refine ⟨fun n hn => ?_, fun k => ?_, h.injective⟩
  · rw [List.getElem?_set, List.getElem?_set]
    by_cases heq : name = n
    · subst heq
      rw [if_pos rfl, if_pos rfl]
      by_cases hlt : name < xs.length
      · rw [if_pos hlt, if_pos ((h.lt_iff hname).2 hlt)]
        exact .some hxy
      · rw [if_neg hlt, if_neg (mt (h.lt_iff hname).1 hlt)]
        exact .none
    · rw [if_neg heq, if_neg (mt h.injective heq)]
      exact h.entries n hn
  · rw [List.length_set, List.length_set, h.fresh]

theorem get_eq (h : Table f free Eq xs ys) {n : Nat} (hn : free n = true) : ys[f n]? = xs[n]? := by
  rcases h.lookup hn with ⟨hx, hy⟩ | ⟨x, y, hx, hy, rfl⟩
  · rw [hx, hy]
  · rw [hx, hy]

end Table

/-! ## Sessions -/

namespace Session

/-- The parsers are twins, and what is named in the one session is found under its new name in the other. -/
structure Twin (σ : Renaming) (s t : Session) : Prop where
  parser : s.parser.Twin t.parser
  markers : Table σ.marker σ.freeMarker Eq s.markers t.markers
  completed : Table σ.completed σ.freeCompleted Eq s.completed t.completed
  checkpoints : Table σ.checkpoint (fun _ => true) (s.parser.Paired t.parser) s.checkpoints t.checkpoints

/-- The sessions `s` and `t` have become `s'` and `t'`, which agree, and paired checkpoints are so still. -/
structure Follows (σ : Renaming) (s t s' t' : Session) : Prop where
  twin : Twin σ s' t'
  paired : ∀ {c d : Checkpoint}, s.parser.Paired t.parser c d → s'.parser.Paired t'.parser c d

/-- The replies agree, and so do the sessions that are left behind. -/
structure Answers (σ : Renaming) (s t : Session) (x y : Reply × Session) : Prop where
  reply : y.1.erase = (x.1.rename σ).erase
  follows : Follows σ s t x.2 y.2

variable {σ : Renaming} {s t s' t' : Session}

theorem Follows.refl (h : Twin σ s t) : Follows σ s t s t := ⟨h, id⟩

theorem Follows.trans {s'' t'' : Session} (h : Follows σ s t s' t') (h' : Follows σ s' t' s'' t'') :
    Follows σ s t s'' t'' := ⟨h'.twin, fun hc => h'.paired (h.paired hc)⟩

theorem Twin.glance (h : Twin σ s t) : t.parser.glance = s.parser.glance := by
  unfold Parser.glance
  rw [Parser.offset, Parser.offset, h.parser.source, h.parser.peek, h.parser.context]

theorem Follows.parser (h : Twin σ s t) {p q : Parser} (hp : s.parser.Follows t.parser p q) :
    Follows σ s t { s with parser := p } { t with parser := q } :=
  ⟨⟨hp.twin, h.markers, h.completed, h.checkpoints.mono fun _ _ hc => hp.paired hc⟩, hp.paired⟩

theorem Twin.inContext (h : Twin σ s t) (c : ParseContext) : Follows σ s t (s.inContext c) (t.inContext c) :=
  .parser h (h.parser.inContext c)

/-- Steps that end alike get the same reply. -/
theorem Twin.perform {α : Type} (h : Twin σ s t) {x y : Step Parser α}
    (hxy : (y.run t.parser).1 = (x.run s.parser).1 ∧ s.parser.Follows t.parser (x.run s.parser).2 (y.run t.parser).2)
    {reply : α → Reply} (hreply : ∀ a, (reply a).rename σ = reply a) :
    Answers σ s t (s.perform x reply) (t.perform y reply) := by
  obtain ⟨houtcome, hfollows⟩ := hxy
  unfold Session.perform
  cases hp : x.run s.parser with
  | mk outcome p =>
      cases hq : y.run t.parser with
      | mk outcome' q =>
          rw [hp, hq] at houtcome hfollows
          dsimp only at houtcome hfollows
          subst houtcome
          cases outcome' with
          | error f => exact ⟨rfl, .parser h hfollows⟩
          | ok a =>
              refine ⟨?_, .parser h hfollows⟩
              dsimp only
              rw [hreply]

theorem Twin.completing (h : Twin σ s t) {x : Step Parser (Option CompletedMarker)} (hx : x.Blind) :
    Answers σ s t (s.completing x) (t.completing x) := by
  obtain ⟨houtcome, hfollows⟩ := hx _ _ h.parser
  unfold Session.completing
  cases hp : x.run s.parser with
  | mk outcome p =>
      cases hq : x.run t.parser with
      | mk outcome' q =>
          rw [hp, hq] at houtcome hfollows
          dsimp only at houtcome hfollows
          subst houtcome
          have hnext : Follows σ s t { s with parser := p } { t with parser := q } := .parser h hfollows
          cases outcome' with
          | error f => exact ⟨rfl, hnext⟩
          | ok completed =>
              cases completed with
              | none => exact ⟨rfl, hnext⟩
              | some c =>
                  obtain ⟨htwin, hpaired⟩ := hnext
                  refine ⟨?_, ⟨htwin.parser, htwin.markers, htwin.completed.push rfl, htwin.checkpoints⟩, hpaired⟩
                  show Reply.completed t.completed.length c.kind = .completed (σ.completed s.completed.length) c.kind
                  rw [h.completed.next]

theorem Twin.withMarker (h : Twin σ s t) {name : Nat} (hfree : σ.freeMarker name = true)
    {use : Marker → Session → Reply × Session}
    (huse : ∀ m (s t : Session), Twin σ s t → Answers σ s t (use m s) (use m t)) :
    Answers σ s t (s.withMarker name use) (t.withMarker (σ.marker name) use) := by
  unfold Session.withMarker
  rw [h.markers.get_eq hfree]
  split
  · next m _ =>
    have hset : Twin σ { s with markers := s.markers.set name none }
        { t with markers := t.markers.set (σ.marker name) none } :=
      ⟨h.parser, h.markers.set hfree rfl, h.completed, h.checkpoints⟩
    exact ⟨(huse m _ _ hset).reply, (huse m _ _ hset).follows.twin, (huse m _ _ hset).follows.paired⟩
  · exact ⟨rfl, .refl h⟩

theorem Twin.addMarker (h : Twin σ s t) (m : Marker) :
    Answers σ s t (.marker s.markers.length, s.addMarker m) (.marker t.markers.length, t.addMarker m) := by
  refine ⟨?_, ⟨h.parser, h.markers.push rfl, h.completed, h.checkpoints⟩, id⟩
  show Reply.marker t.markers.length = .marker (σ.marker s.markers.length)
  rw [h.markers.next]

theorem Twin.addCheckpoint (h : Twin σ s t) {c d : Checkpoint} (hc : s.parser.Paired t.parser c d) :
    Answers σ s t (.checkpoint s.checkpoints.length c, s.addCheckpoint c)
      (.checkpoint t.checkpoints.length d, t.addCheckpoint d) := by
  refine ⟨?_, ⟨h.parser, h.markers, h.completed, h.checkpoints.push hc⟩, id⟩
  show Reply.checkpoint t.checkpoints.length d.erase = .checkpoint (σ.checkpoint s.checkpoints.length) c.erase
  rw [h.checkpoints.next, hc.erase]

/-- A call and its renaming get the same reply. -/
theorem Twin.call (h : Twin σ s t) {c : Call} (hc : c.mayUse σ = true) :
    Answers σ s t (s.call c) (t.call (c.rename σ)) := by
  cases c with
  | advance => exact h.perform (Parser.advance_blind _ _ h.parser) fun _ => rfl
  | absent => exact ⟨rfl, .parser h h.parser.absent⟩
  | skip => exact ⟨rfl, .parser h h.parser.skip⟩
  | missing kind => exact h.perform (Parser.missing_blind kind _ _ h.parser) fun _ => rfl
  | eat kind => exact h.perform (Parser.eat_blind kind _ _ h.parser) fun _ => rfl
  | expect kind => exact h.perform (Parser.expect_blind kind _ _ h.parser) fun _ => rfl
  | isAt kind => exact ⟨congrArg Reply.answer (h.parser.isAt kind), .refl h⟩
  | isAtAny kinds => exact ⟨congrArg (fun k => Reply.answer (kinds.contains k)) h.parser.peek, .refl h⟩
  | skipUntil recovery => exact ⟨rfl, .parser h (h.parser.skipUntil recovery)⟩
  | recover expected recovery => exact h.perform (Parser.recover_blind expected recovery _ _ h.parser) fun _ => rfl
  | require kind =>
      refine h.perform (Parser.require_blind kind _ _ h.parser) fun found => ?_
      cases found <;> rfl
  | notApplicable => exact ⟨rfl, .refl h⟩
  | start =>
      have hstart : t.parser.start = s.parser.start := congrArg Marker.mk h.parser.length_outputs
      simp only [Session.call, Call.rename, hstart]
      exact h.addMarker s.parser.start
  | complete name kind =>
      simp only [Session.call, Call.rename]
      refine h.withMarker hc fun m s t h => ?_
      exact h.completing (.map some (Parser.complete_blind m kind))
  | completeList name =>
      simp only [Session.call, Call.rename]
      refine h.withMarker hc fun m s t h => ?_
      exact h.completing (Parser.completeList_blind m)
  | abandon name =>
      refine h.withMarker hc fun m s t h => ?_
      exact ⟨rfl, .refl h⟩
  | lose name =>
      simp only [Session.call, Call.rename]
      refine h.withMarker hc fun m s t h => ?_
      refine h.perform ?_ fun _ => rfl
      exact ⟨rfl, .refl h.parser⟩
  | precede name =>
      simp only [Session.call, Call.rename, h.completed.get_eq hc]
      split
      · next c _ =>
        have hset : Twin σ { s with completed := s.completed.set name none }
            { t with completed := t.completed.set (σ.completed name) none } :=
          ⟨h.parser, h.markers, h.completed.set hc rfl, h.checkpoints⟩
        have hadd := hset.addMarker c.precede
        exact ⟨hadd.reply, hadd.follows.twin, hadd.follows.paired⟩
      · exact ⟨rfl, .refl h⟩
  | checkpoint => exact h.addCheckpoint h.parser.checkpoint
  | capture context snapshot offset => exact h.addCheckpoint (Parser.paired_capture _ _ context snapshot offset)
  | rewind name =>
      simp only [Session.call, Call.rename]
      rcases h.checkpoints.lookup (n := name) rfl with ⟨hx, hy⟩ | ⟨x, y, hx, hy, hxy⟩
      · rw [hx, hy]
        exact ⟨rfl, .refl h⟩
      · rw [hx, hy]
        exact h.perform (h.parser.rewind hxy) fun _ => rfl
  | sameCheckpoint a b => cases hc
  | inspect name =>
      simp only [Session.call, Call.rename]
      rcases h.checkpoints.lookup (n := name) rfl with ⟨hx, hy⟩ | ⟨x, y, hx, hy, hxy⟩
      · rw [hx, hy]
        exact ⟨rfl, .refl h⟩
      · rw [hx, hy]
        exact ⟨congrArg Reply.contents hxy.erase, .refl h⟩

theorem Twin.endSpeculation (h : Twin σ s t) {c d : Checkpoint} (hc : s.parser.Paired t.parser c d)
    (failure : Option Mismatch) : Answers σ s t (s.endSpeculation c failure) (t.endSpeculation d failure) := by
  cases failure with
  | none =>
      refine ⟨congrArg Reply.kept ?_, .refl h⟩
      rw [Parser.offset, Parser.offset, h.parser.source]
  | some m => exact h.perform (h.parser.rewind hc) fun _ => rfl

end Session

namespace Command

/-- Two runs of a script: their records agree, they lead to sessions that agree, and they fail alike. -/
structure Agrees (σ : Renaming) (s t : Session) (x y : List Line × Session × Option Mismatch) : Prop where
  lines : Line.mapAll Reply.erase y.1 = Line.mapAll (fun r => (r.rename σ).erase) x.1
  follows : Session.Follows σ s t x.2.1 y.2.1
  failure : y.2.2 = x.2.2

/-- The same of a single command, whose record is one line. -/
def AgreesOnce (σ : Renaming) (s t : Session) (x y : Line × Session × Option Mismatch) : Prop :=
  Agrees σ s t ([x.1], x.2) ([y.1], y.2)

section

variable {σ : Renaming} {s t s' t' : Session} {reply reply' : Reply}

theorem AgreesOnce.plain (hreply : reply'.erase = (reply.rename σ).erase) (hfollows : Session.Follows σ s t s' t')
    (failure : Option Mismatch) :
    AgreesOnce σ s t (.plain reply s'.parser.glance, s', failure) (.plain reply' t'.parser.glance, t', failure) := by
  refine ⟨?_, hfollows, rfl⟩
  simp only [Line.mapAll, Line.map, hreply, hfollows.twin.glance]

theorem AgreesOnce.block (hreply : reply'.erase = (reply.rename σ).erase) (hfollows : Session.Follows σ s t s' t')
    (failure : Option Mismatch) {lines lines' : List Line}
    (hlines : Line.mapAll Reply.erase lines' = Line.mapAll (fun r => (r.rename σ).erase) lines) :
    AgreesOnce σ s t (.block reply s'.parser.glance lines, s', failure)
      (.block reply' t'.parser.glance lines', t', failure) := by
  refine ⟨?_, hfollows, rfl⟩
  simp only [Line.mapAll, Line.map, hreply, hfollows.twin.glance, hlines]

end

mutual

theorem run_agrees (σ : Renaming) :
    ∀ (c : Command) (s t : Session), Session.Twin σ s t → c.each (Call.mayUse σ) = true →
      AgreesOnce σ s t (run c s) (run (c.rename σ) t)
  | .call c, s, t, h, hc => .plain (h.call hc).reply (h.call hc).follows none
  | .attempt kind, s, t, h, _ => by
    obtain ⟨houtcome, hfollows⟩ := Parser.require_blind kind _ _ h.parser
    simp only [Command.rename, run]
    cases hp : (Parser.require kind).run s.parser with
    | mk outcome p =>
        cases hq : (Parser.require kind).run t.parser with
        | mk outcome' q =>
            rw [hp, hq] at houtcome hfollows
            dsimp only at houtcome hfollows
            subst houtcome
            have hnext : Session.Follows σ s t { s with parser := p } { t with parser := q } := .parser h hfollows
            cases outcome' with
            | error f => exact .plain rfl hnext none
            | ok found =>
                cases found with
                | ok u => exact .plain rfl hnext none
                | error m => exact .plain rfl hnext (some m)
  | .within flags script, s, t, h, hc => by
    have henter := h.inContext (s.parser.context.enter flags)
    have hbody := runAll_agrees σ script _ _ henter.twin hc
    simp only [Command.rename, run, h.parser.context]
    have hleave := hbody.follows.twin.inContext s.parser.context
    rw [hbody.failure]
    exact .block rfl ((henter.trans hbody.follows).trans hleave) _ hbody.lines
  | .speculate script giveUp, s, t, h, hc => by
    have henter := h.inContext (s.parser.context.enter { speculating := true })
    have hbody := runAll_agrees σ script _ _ henter.twin hc
    simp only [Command.rename, run, h.parser.context]
    have hleave := (henter.trans hbody.follows).trans (hbody.follows.twin.inContext s.parser.context)
    rw [hbody.failure]
    -- the checkpoints of the two speculations were paired when they were taken
    have hend := hleave.twin.endSpeculation (hleave.paired h.parser.checkpoint)
    exact .block (hend _).reply (hleave.trans (hend _).follows) none hbody.lines

theorem runAll_agrees (σ : Renaming) :
    ∀ (script : List Command) (s t : Session), Session.Twin σ s t → eachOf (Call.mayUse σ) script = true →
      Agrees σ s t (runAll script s) (runAll (renameAll σ script) t)
  | [], s, t, h, _ => ⟨rfl, .refl h, rfl⟩
  | c :: rest, s, t, h, hc => by
    rw [eachOf, Bool.and_eq_true] at hc
    have hfirst := run_agrees σ c s t h hc.1
    simp only [renameAll, runAll]
    cases hp : run c s with
    | mk line result =>
        cases hq : run (c.rename σ) t with
        | mk line' result' =>
            rw [hp, hq] at hfirst
            obtain ⟨s', failure⟩ := result
            obtain ⟨t', failure'⟩ := result'
            obtain rfl : failure' = failure := hfirst.failure
            cases failure' with
            | some m => exact hfirst
            | none =>
                have hrest := runAll_agrees σ rest s' t' hfirst.follows.twin hc.2
                refine ⟨?_, hfirst.follows.trans hrest.follows, hrest.failure⟩
                have hline : line'.map Reply.erase = line.map fun r => (r.rename σ).erase :=
                  List.head_eq_of_cons_eq hfirst.lines
                simp only [Line.mapAll, hline, hrest.lines]

end

end Command

end LosslessSyntax
