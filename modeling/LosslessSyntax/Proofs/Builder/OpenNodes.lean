import Mathlib.Data.List.Induction
import LosslessSyntax.Proofs.Parse.Drivers

/-!
# Open nodes

The children of all open nodes lie on one stack, and each open node remembers how high the stack was when it was
started. A call may give up halfway, with the node already closed or its children already gone, and the builder goes on
from there. The marks stay in order all the same, and below each of them lies what lay there when the node was started.

* `OnlyTooWide`, `Node.make_eq_error_iff` : nodes fail by the widths of their children alone;
* `Builder.Refuses` : the faults of a call, and what each leaves behind;
* `Builder.Answers` : what a call does, fault or not, and `Builder.answers_of_run` : that it does so;
* `Builder.Framed`, `Builder.Moves` : the order of the marks, and what a call does to the two stacks;
* `Builder.fed` : a builder after calls whose faults have been caught, `Builder.framed_fed` : that its marks are in
  order, and `Builder.began_of_opened` : where an open node comes from;
* `Builder.faults_keep_marks_in_order` : what holds after any calls.
-/

set_option autoImplicit false

namespace LosslessSyntax

/-! ## Widths that do not add up -/

/-- There is no other fault than a sum of widths that does not fit. -/
def OnlyTooWide {α : Type} (x : Except Fault α) : Prop := ∀ fault, x = .error fault → fault = .sumTooLarge

theorem onlyTooWide_ok {α : Type} (a : α) : OnlyTooWide (.ok a : Except Fault α) := by
  intro fault h
  cases h

theorem OnlyTooWide.bind {α β : Type} {x : Except Fault α} {f : α → Except Fault β} (hx : OnlyTooWide x)
    (hf : ∀ a, OnlyTooWide (f a)) : OnlyTooWide (x >>= f) := by
  intro fault h
  cases x with
  | error e =>
      cases h
      exact hx _ rfl
  | ok a => exact hf a fault h

theorem OnlyTooWide.eq_error {α : Type} {x : Except Fault α} (hx : OnlyTooWide x) (h : ∀ a, x ≠ .ok a) :
    x = .error .sumTooLarge := by
  cases x with
  | error e => exact congrArg _ (hx e rfl)
  | ok a => exact absurd rfl (h a)

theorem map_eq_error_iff {α β : Type} {f : α → β} {x : Except Fault α} {fault : Fault} :
    f <$> x = .error fault ↔ x = .error fault := by
  cases x with
  | error e => exact ⟨fun h => congrArg _ (Except.error.inj h), fun h => congrArg _ (Except.error.inj h)⟩
  | ok a => exact iff_of_false (fun h => nomatch h) fun h => nomatch h

theorem Size.onlyTooWide_add (a b : Nat) : OnlyTooWide (Size.add a b) := by
  intro fault h
  unfold Size.add at h
  split at h
  · cases h
  · cases h
    rfl

namespace Slot

theorem onlyTooWide_fullWidth (s : Slot) : OnlyTooWide s.fullWidth := by
  cases s with
  | absent => exact onlyTooWide_ok 0
  | token head leading => exact (onlyTooWide_fullWidth leading).bind fun w => Size.onlyTooWide_add w head.width
  | node head _ => exact onlyTooWide_ok head.fullWidth

theorem onlyTooWide_sumWidths (start : Nat) (slots : List Slot) : OnlyTooWide (sumWidths start slots) := by
  induction slots generalizing start with
  | nil => exact onlyTooWide_ok start
  | cons s rest ih => exact s.onlyTooWide_fullWidth.bind fun w => (Size.onlyTooWide_add start w).bind ih

theorem onlyTooWide_startsFrom (start : Nat) (slots : List Slot) : OnlyTooWide (startsFrom start slots) := by
  induction slots generalizing start with
  | nil => exact onlyTooWide_ok []
  | cons s rest ih =>
      refine s.onlyTooWide_fullWidth.bind fun w => (Size.onlyTooWide_add start w).bind fun next => ?_
      exact (ih next).bind fun _ => onlyTooWide_ok _

end Slot

theorem Layout.onlyTooWide_forSlots {shape : Shape} {slots : List Slot} (h : shape.accepts slots.length = true) :
    OnlyTooWide (forSlots shape slots) := by
  unfold forSlots
  rw [if_pos h]
  cases shape with
  | long => exact (Slot.onlyTooWide_startsFrom 0 slots).bind fun _ => onlyTooWide_ok _
  | _ => exact onlyTooWide_ok _

theorem Shape.accepts_forCount (n : Nat) : (forCount n).accepts n = true := by
  rcases n with _ | _ | _ | n
  · rfl
  · rfl
  · rfl
  · rcases forCount_short_or_long n with h | h <;> rw [h] <;> exact decide_eq_true (Nat.le_add_left 3 n)

namespace Node

theorem onlyTooWide_make (id : Nat) (kind : Kind) (slots : List Slot) : OnlyTooWide (make id kind slots) := by
  refine (Layout.onlyTooWide_forSlots (Shape.accepts_forCount _)).bind fun layout => ?_
  exact (Slot.onlyTooWide_sumWidths 0 slots).bind fun _ => onlyTooWide_ok _

/-- A node cannot be made iff the widths of its children do not add up. -/
theorem make_eq_error_iff {id : Nat} {kind : Kind} {slots : List Slot} {fault : Fault} :
    make id kind slots = .error fault ↔
      fault = .sumTooLarge ∧ Slot.sumWidths 0 slots = .error .sumTooLarge := by
  constructor
  · intro h
    refine ⟨onlyTooWide_make id kind slots fault h, (Slot.onlyTooWide_sumWidths 0 slots).eq_error fun n hn => ?_⟩
    obtain ⟨ws, hws, hfits, -⟩ := (Slot.sumWidths_eq_ok_iff (by decide)).1 hn
    rw [Nat.zero_add] at hfits
    obtain ⟨layout, hlayout⟩ := Layout.exists_forSlots_forCount hws hfits
    have hmake : make id kind slots = .ok _ := makeShaped_eq_ok_iff.2 ⟨layout, ws, hlayout, hws, hfits, rfl⟩
    rw [h] at hmake
    cases hmake
  · rintro ⟨rfl, hsum⟩
    refine (onlyTooWide_make id kind slots).eq_error fun n hn => ?_
    obtain ⟨layout, -, hn⟩ := bind_eq_ok_iff.1 hn
    obtain ⟨width, hwidth, -⟩ := assemble_eq_ok_iff.1 hn
    rw [hsum] at hwidth
    cases hwidth

/-- The same holds of a list, since nothing has to be added up for an empty one. -/
theorem makeList_eq_error_iff {id : Nat} {slots : List Slot} {fault : Fault} :
    makeList id slots = .error fault ↔
      fault = .sumTooLarge ∧ Slot.sumWidths 0 slots = .error .sumTooLarge := by
  cases slots with
  | nil =>
      constructor
      · intro h
        cases h
      · rintro ⟨-, h⟩
        cases h
  | cons s rest =>
      rw [← @make_eq_error_iff id .list]
      exact @map_eq_error_iff _ _ Node.toSlot (make id .list (s :: rest)) fault

end Node

/-- Trivia made of pieces can always stand in front of a token, so the token fails only if the pieces do not add up. -/
theorem Lexeme.toToken_eq_error_iff {n : Nat} {t : Lexeme} {fault : Fault} :
    t.toToken n = .error fault ↔ fault = .sumTooLarge ∧ triviaOfPieces n t.leading = .error .sumTooLarge := by
  have hwide : OnlyTooWide (triviaOfPieces n t.leading) := by
    unfold triviaOfPieces packTrivia
    split
    · exact onlyTooWide_ok _
    · exact onlyTooWide_ok _
    · exact fun fault h => (Node.makeList_eq_error_iff.1 h).1
  unfold toToken
  cases htrivia : triviaOfPieces n t.leading with
  | error e =>
      obtain rfl := hwide e htrivia
      exact ⟨fun h => ⟨(Except.error.inj h).symm, rfl⟩, fun h => congrArg _ h.1.symm⟩
  | ok leading =>
      have hleading := onlyTrivia_packTrivia htrivia (TriviaPiece.onlyTrivia_toSlots n t.leading)
      have htoken := Token.assembleChecked_eq_ok hleading (n + t.leading.length + 1) t.kind t.width false []
      constructor
      · intro h
        cases h.symm.trans htoken
      · rintro ⟨-, h⟩
        cases h

/-! ## Single calls -/

namespace Event

def opens? : Event → Option Kind
  | startNode kind => some kind
  | startList => some .list
  | _ => none

/-- The call closes the innermost open node, if that is of this kind. -/
def Closes (kind : Kind) : Event → Prop
  | finishNode => True
  | finishList => kind.isList = true
  | _ => False

/-- The call puts this fact on the stack. A token may have been made before. -/
def Brings : Event → Slot → Prop
  | token pieces kind width, s =>
      ∃ n t u, (Lexeme.mk kind width pieces).toToken n = .ok t ∧ u.erase = t.erase ∧ s = Token.toSlot u
  | missing kind diagnostics, s => ∃ n t, Token.makeMissing n .absent kind diagnostics = .ok t ∧ s = t.toSlot
  | absent, s => s = .absent
  | element fact, s => s = fact
  | _, _ => False

end Event

namespace Builder

variable {b c : Builder} {e : Event} {fault : Fault}

def dropped (b : Builder) (rest : List Opened) (first : Nat) : Builder :=
  { b with opened := rest, children := b.children.take first, nextId := b.nextId + 1 }

/-- The call gives up with this fault, and `c` is left. -/
inductive Refuses (b : Builder) : Event → Fault → Builder → Prop
  | token {pieces : List TriviaPiece} {kind : Kind} {width : Nat}
      (h : triviaOfPieces b.nextId pieces = .error .sumTooLarge) : Refuses b (.token pieces kind width) .sumTooLarge b
  | missing (kind : Kind) : Refuses b (.missing kind []) (.missingWithoutDiagnostic kind) b
  | noNode (h : b.opened = []) : Refuses b .finishNode .noOpenNode b
  | noList (h : b.opened = []) : Refuses b .finishList .noOpenList b
  | notList {o : Opened} {rest : List Opened} (h : b.opened = o :: rest) (hkind : o.kind.isList = false) :
      Refuses b .finishList (.openNotList o.kind) { b with opened := rest }
  | tooWide {e : Event} {o : Opened} {rest : List Opened} (h : b.opened = o :: rest) (he : e.Closes o.kind)
      (hwidth : Slot.sumWidths 0 (b.children.drop o.first) = .error .sumTooLarge) :
      Refuses b e .sumTooLarge (b.dropped rest o.first)

/-- What a call does: how it ends, and what is left. -/
inductive Answers (b : Builder) : Event → Except Fault Unit → Builder → Prop
  | opens {e : Event} {kind : Kind} (he : e.opens? = some kind) :
      Answers b e (.ok ()) { b with opened := ⟨kind, b.children.length⟩ :: b.opened }
  | adds {e : Event} {c : Builder} {s : Slot} (he : e.Brings s) (hopened : c.opened = b.opened)
      (hchildren : c.children = b.children ++ [s])
      (hcache : ∀ t ∈ c.cache, t ∈ b.cache ∨ t.erase = Token.plain 0 t.kind t.width) : Answers b e (.ok ()) c
  | wraps {e : Event} {o : Opened} {rest : List Opened} {s : Slot} (h : b.opened = o :: rest) (he : e.Closes o.kind)
      (hs : s.tokens = Slot.walkTokens (b.children.drop o.first)) :
      Answers b e (.ok ()) (b.wrapped rest o.first s)
  | refuses {e : Event} {fault : Fault} {c : Builder} (h : Refuses b e fault c) : Answers b e (.error fault) c

/-- The marks of the open nodes lie in order, the innermost on top, and none is above the stack; the stored tokens are
without trivia. -/
structure Framed (b : Builder) : Prop where
  marks : (b.children.length :: b.opened.map Opened.first).Pairwise (· ≥ ·)
  cached : ∀ t ∈ b.cache, t.erase = Token.plain 0 t.kind t.width

theorem Framed.first_le (hb : b.Framed) {o : Opened} (ho : o ∈ b.opened) : o.first ≤ b.children.length :=
  List.rel_of_pairwise_cons hb.marks (List.mem_map_of_mem ho)

theorem run_token_error {pieces : List TriviaPiece} {kind : Kind} {width : Nat}
    (h : triviaOfPieces b.nextId pieces = .error fault) : (token pieces kind width).run b = (.error fault, b) := by
  cases pieces with
  | nil => cases h
  | cons piece pieces =>
      unfold token
      simp only [List.isEmpty_cons, Bool.false_eq_true, if_false, Step.run_bind, Step.run_get, Step.run_lift, h]

theorem run_missing_error {kind : Kind} {diagnostics : List Diagnostic}
    (h : Token.makeMissing b.nextId .absent kind diagnostics = .error fault) :
    (missing kind diagnostics).run b = (.error fault, b) := by
  unfold missing
  simp only [Step.run_bind, Step.run_get, Step.run_lift, h]

theorem run_finishNode_error {o : Opened} {rest : List Opened} (h : b.opened = o :: rest)
    (hfirst : o.first ≤ b.children.length)
    (hn : Node.make b.nextId o.kind (b.children.drop o.first) = .error fault) :
    finishNode.run b = (.error fault, b.dropped rest o.first) := by
  simp only [finishNode, close, drain, Step.run_bind, Step.run_get, h, Step.run_set, Step.run_pure, if_pos hfirst,
    run_fresh, Step.run_lift, hn]
  rfl

theorem run_finishList_error {o : Opened} {rest : List Opened} (h : b.opened = o :: rest)
    (hkind : o.kind.isList = true) (hfirst : o.first ≤ b.children.length)
    (hs : Node.makeList b.nextId (b.children.drop o.first) = .error fault) :
    finishList.run b = (.error fault, b.dropped rest o.first) := by
  simp only [finishList, close, drain, Step.run_bind, Step.run_get, h, Step.run_set, Step.run_pure, hkind, if_true,
    if_pos hfirst, run_fresh, Step.run_lift, hs]
  rfl

theorem run_finishList_notList {o : Opened} {rest : List Opened} (h : b.opened = o :: rest)
    (hkind : o.kind.isList = false) :
    finishList.run b = (.error (.openNotList o.kind), { b with opened := rest }) := by
  simp only [finishList, close, Step.run_bind, Step.run_get, h, Step.run_set, Step.run_pure, hkind,
    Bool.false_eq_true, if_false, Step.run_fail]

theorem Refuses.run_apply (hb : b.Framed) (h : Refuses b e fault c) : (apply e).run b = (.error fault, c) := by
  cases h with
  | token h => exact run_token_error h
  | missing kind => exact run_missing_error rfl
  | noNode h => simp only [apply, finishNode, close, Step.run_bind, Step.run_get, h, Step.run_fail]
  | noList h => simp only [apply, finishList, close, Step.run_bind, Step.run_get, h, Step.run_fail]
  | notList h hkind => exact run_finishList_notList h hkind
  | @tooWide e o rest h he hwidth =>
      have hfirst : o.first ≤ b.children.length := hb.first_le (by rw [h]; exact List.mem_cons_self)
      cases e with
      | finishNode => exact run_finishNode_error h hfirst (Node.make_eq_error_iff.2 ⟨rfl, hwidth⟩)
      | finishList => exact run_finishList_error h he hfirst (Node.makeList_eq_error_iff.2 ⟨rfl, hwidth⟩)
      | _ => exact he.elim

theorem Refuses.answers (hb : b.Framed) (h : Refuses b e fault c) :
    ∃ result c, (apply e).run b = (result, c) ∧ Answers b e result c :=
  ⟨.error fault, c, h.run_apply hb, .refuses h⟩

theorem tokens_make {id : Nat} {kind : Kind} {slots : List Slot} {n : Node} (h : Node.make id kind slots = .ok n) :
    n.toSlot.tokens = Slot.walkTokens slots := by
  rw [Node.toSlot, Slot.tokens, Slot.walkTokens, List.append_nil, Node.slots_make h]

theorem finishNode_answers (hb : b.Framed) :
    ∃ result c, finishNode.run b = (result, c) ∧ Answers b .finishNode result c := by
  cases h : b.opened with
  | nil => exact (Refuses.noNode h).answers hb
  | cons o rest =>
      have hfirst : o.first ≤ b.children.length := hb.first_le (by rw [h]; exact List.mem_cons_self)
      cases hn : Node.make b.nextId o.kind (b.children.drop o.first) with
      | ok n => exact ⟨_, _, run_finishNode h hfirst hn, .wraps h trivial (tokens_make hn)⟩
      | error fault => exact (Refuses.tooWide (e := .finishNode) h trivial (Node.make_eq_error_iff.1 hn).2).answers hb

theorem finishList_answers (hb : b.Framed) :
    ∃ result c, finishList.run b = (result, c) ∧ Answers b .finishList result c := by
  cases h : b.opened with
  | nil => exact (Refuses.noList h).answers hb
  | cons o rest =>
      cases hkind : o.kind.isList with
      | false => exact (Refuses.notList h hkind).answers hb
      | true =>
          have hfirst : o.first ≤ b.children.length := hb.first_le (by rw [h]; exact List.mem_cons_self)
          cases hs : Node.makeList b.nextId (b.children.drop o.first) with
          | error fault =>
              exact (Refuses.tooWide (e := .finishList) h hkind (Node.makeList_eq_error_iff.1 hs).2).answers hb
          | ok s =>
              have htokens : s.tokens = Slot.walkTokens (b.children.drop o.first) := by
                rcases Node.makeList_eq_ok hs with ⟨hnil, rfl⟩ | ⟨n, hn, rfl⟩
                · rw [hnil, Slot.tokens_absent, Slot.walkTokens]
                · exact tokens_make hn
              have hlist : o.kind = .list := by
                cases hk : o.kind <;> rw [hk] at hkind <;> first | rfl | cases hkind
              obtain ⟨kind, first⟩ := o
              obtain rfl : kind = .list := hlist
              exact ⟨_, _, run_finishList h hfirst hs, .wraps h hkind htokens⟩

theorem token_answers (hb : b.Framed) (pieces : List TriviaPiece) (kind : Kind) (width : Nat) :
    ∃ result c, (token pieces kind width).run b = (result, c) ∧ Answers b (.token pieces kind width) result c := by
  cases pieces with
  | nil =>
      have hplain := toToken_plain b.nextId kind width
      cases hfind : b.cached? kind width with
      | some t =>
          obtain ⟨hmem, hkind, hwidth⟩ := mem_of_cached hfind
          have hsame : t.erase = (Token.plain (b.nextId + 1) kind width).erase := by
            rw [hb.cached t hmem, hkind, hwidth]
            rfl
          exact ⟨_, _, run_plainToken_cached hfind, .adds ⟨_, _, t, hplain, hsame, rfl⟩ rfl rfl fun _ => .inl⟩
      | none =>
          have hbrings : (Event.token [] kind width).Brings (Token.plain b.nextId kind width).toSlot :=
            ⟨_, _, Token.plain b.nextId kind width, hplain, rfl, rfl⟩
          refine ⟨_, _, run_plainToken_new hfind, .adds hbrings rfl rfl fun t ht => ?_⟩
          refine (List.mem_append.1 ht).imp_right fun ht => ?_
          rw [List.mem_singleton.1 ht]
          rfl
  | cons piece pieces =>
      cases ht : (Lexeme.mk kind width (piece :: pieces)).toToken b.nextId with
      | ok t => exact ⟨_, _, run_token ht, .adds ⟨_, t, t, ht, rfl, rfl⟩ rfl rfl fun _ => .inl⟩
      | error fault => exact (Refuses.token (Lexeme.toToken_eq_error_iff.1 ht).2).answers hb

theorem missing_answers (hb : b.Framed) (kind : Kind) (diagnostics : List Diagnostic) :
    ∃ result c, (missing kind diagnostics).run b = (result, c) ∧ Answers b (.missing kind diagnostics) result c := by
  cases diagnostics with
  | nil => exact (Refuses.missing kind).answers hb
  | cons d ds =>
      have ht : Token.makeMissing b.nextId .absent kind (d :: ds) = .ok _ :=
        Token.assembleChecked_eq_ok Slot.onlyTrivia_absent b.nextId kind 0 true (d :: ds)
      exact ⟨_, _, run_missing ht, .adds ⟨_, _, ht, rfl⟩ rfl rfl fun _ => .inl⟩

theorem exists_answer (hb : b.Framed) (e : Event) :
    ∃ result c, (apply e).run b = (result, c) ∧ Answers b e result c := by
  cases e with
  | startNode kind => exact ⟨_, _, rfl, .opens rfl⟩
  | startList => exact ⟨_, _, rfl, .opens rfl⟩
  | finishNode => exact finishNode_answers hb
  | finishList => exact finishList_answers hb
  | token pieces kind width => exact token_answers hb pieces kind width
  | missing kind diagnostics => exact missing_answers hb kind diagnostics
  | absent => exact ⟨_, _, rfl, .adds rfl rfl rfl fun _ => .inl⟩
  | element fact => exact ⟨_, _, rfl, .adds rfl rfl rfl fun _ => .inl⟩

/-- **Each call** does one of the things that answers list. -/
theorem answers_of_run (hb : b.Framed) {result : Except Fault Unit} (h : (apply e).run b = (result, c)) :
    Answers b e result c := by
  obtain ⟨result', c', hrun, hanswers⟩ := exists_answer hb e
  rw [h] at hrun
  cases hrun
  exact hanswers

/-- The faults of a call are those that are listed, and they leave what is listed. -/
theorem run_eq_error_iff (hb : b.Framed) : (apply e).run b = (.error fault, c) ↔ Refuses b e fault c := by
  refine ⟨fun h => ?_, Refuses.run_apply hb⟩
  cases answers_of_run hb h with
  | refuses h => exact h

/-! ## The two stacks -/

/-- What a call does to the stacks. Either it starts a node on top of all children, or it closes some of the innermost
nodes, and all that lies below their marks stays. -/
inductive Moves (b c : Builder) (e : Event) : Prop
  | opens {kind : Kind} (he : e.opens? = some kind) (hopened : c.opened = ⟨kind, b.children.length⟩ :: b.opened)
      (hchildren : c.children = b.children)
  | closes {closed : List Opened} (hopened : b.opened = closed ++ c.opened)
      (hkeeps : ∀ height ≤ b.children.length, (∀ o ∈ closed, height ≤ o.first) →
        height ≤ c.children.length ∧ c.children.take height = b.children.take height)

theorem moves_of_grown {added : List Slot} (hopened : c.opened = b.opened)
    (hchildren : c.children = b.children ++ added) : Moves b c e := by
  refine @Moves.closes b c e [] hopened.symm fun height hheight _ => ?_
  rw [hchildren, List.length_append, List.take_append_of_le_length hheight]
  exact ⟨Nat.le_add_right_of_le hheight, rfl⟩

theorem moves_of_cut {o : Opened} {added : List Slot} (hopened : b.opened = o :: c.opened)
    (hchildren : c.children = b.children.take o.first ++ added) : Moves b c e := by
  refine @Moves.closes b c e [o] hopened fun height hheight hbelow => ?_
  have hfirst := hbelow o List.mem_cons_self
  have hcut : height ≤ (b.children.take o.first).length := by
    rw [List.length_take]
    omega
  rw [hchildren, List.length_append, List.take_append_of_le_length hcut, List.take_take, Nat.min_eq_left hfirst]
  exact ⟨Nat.le_add_right_of_le hcut, rfl⟩

/-- A node that is closed without its children leaves the stack as it is. -/
theorem moves_of_freed {o : Opened} (hopened : b.opened = o :: c.opened) (hchildren : c.children = b.children) :
    Moves b c e := by
  refine @Moves.closes b c e [o] hopened fun height hheight _ => ?_
  rw [hchildren]
  exact ⟨hheight, rfl⟩

theorem Refuses.moves (h : Refuses b e fault c) : Moves b c e := by
  have hsame {e : Event} : Moves b b e := moves_of_grown rfl (List.append_nil _).symm
  cases h with
  | token h => exact hsame
  | missing kind => exact hsame
  | noNode h => exact hsame
  | noList h => exact hsame
  | notList h hkind => exact moves_of_freed h rfl
  | tooWide h he hwidth => exact moves_of_cut h (List.append_nil _).symm

theorem Answers.moves {result : Except Fault Unit} (h : Answers b e result c) : Moves b c e := by
  cases h with
  | opens he => exact .opens he rfl rfl
  | adds he hopened hchildren hcache => exact moves_of_grown hopened hchildren
  | wraps h he hs => exact moves_of_cut h rfl
  | refuses h => exact h.moves

theorem Answers.cached {result : Except Fault Unit} (h : Answers b e result c)
    (hb : ∀ t ∈ b.cache, t.erase = Token.plain 0 t.kind t.width) :
    ∀ t ∈ c.cache, t.erase = Token.plain 0 t.kind t.width := by
  cases h with
  | adds he hopened hchildren hcache => exact fun t ht => (hcache t ht).elim (hb t) id
  | opens he => exact hb
  | wraps h he hs => exact hb
  | refuses h =>
      cases h with
      | _ => exact hb

/-- **A step** keeps the marks in order, also if it faults. -/
theorem Answers.framed {result : Except Fault Unit} (hb : b.Framed) (h : Answers b e result c) : c.Framed := by
  refine ⟨?_, h.cached hb.cached⟩
  have hmarks := hb.marks
  cases h.moves with
  | opens he hopened hchildren =>
      rw [hopened, hchildren, List.map_cons]
      refine List.pairwise_cons.2 ⟨fun m hm => ?_, hmarks⟩
      rcases List.mem_cons.1 hm with rfl | hm
      · exact Nat.le_refl _
      · exact List.rel_of_pairwise_cons hmarks hm
  | @closes closed hopened hkeeps =>
      rw [hopened, List.map_append] at hmarks
      obtain ⟨htop, hordered⟩ := List.pairwise_cons.1 hmarks
      obtain ⟨-, hrest, hbetween⟩ := List.pairwise_append.1 hordered
      refine List.pairwise_cons.2 ⟨fun m hm => ?_, hrest⟩
      exact (hkeeps m (htop m (List.mem_append_right _ hm)) fun o ho =>
        hbetween o.first (List.mem_map_of_mem ho) m hm).1

/-! ## Calls in a row -/

/-- A new builder that counts from `n`, after the calls. If one faults the next is made all the same. -/
def fed (n : Nat) (events : List Event) : Builder := events.foldl (fun b e => ((apply e).run b).2) { nextId := n }

theorem fed_snoc (n : Nat) (events : List Event) (e : Event) :
    fed n (events ++ [e]) = ((apply e).run (fed n events)).2 := by
  unfold fed
  rw [List.foldl_append]
  rfl

/-- **A run** keeps the marks in order. -/
theorem framed_fed (n : Nat) (events : List Event) : (fed n events).Framed := by
  induction events using List.reverseRecOn with
  | nil => exact ⟨List.pairwise_singleton _ _, fun t ht => absurd ht List.not_mem_nil⟩
  | append_singleton events e ih =>
      rw [fed_snoc]
      exact (answers_of_run ih rfl).framed ih

/-- The node was started by one of the calls. Then the nodes `outer` were open, and the children were `below`. -/
def Began (n : Nat) (events : List Event) (o : Opened) (outer : List Opened) (below : List Slot) : Prop :=
  ∃ before call since, events = before ++ call :: since ∧ call.opens? = some o.kind ∧
    (fed n before).opened = outer ∧ (fed n before).children = below ∧ o.first = below.length

theorem Began.snoc {n : Nat} {events : List Event} {o : Opened} {outer : List Opened} {below : List Slot}
    (h : Began n events o outer below) (e : Event) : Began n (events ++ [e]) o outer below := by
  obtain ⟨before, call, since, rfl, hcall⟩ := h
  exact ⟨before, call, since ++ [e], by rw [List.append_assoc, List.cons_append], hcall⟩

/-- Below the mark of an open node lies what lay there when the node was started. -/
theorem began_of_opened (n : Nat) (events : List Event) {inner outer : List Opened} {o : Opened}
    (h : (fed n events).opened = inner ++ o :: outer) :
    Began n events o outer ((fed n events).children.take o.first) := by
  induction events using List.reverseRecOn generalizing inner with
  | nil => exact absurd h.symm (by simp [fed])
  | append_singleton events e ih =>
      have hb := framed_fed n events
      have hmoves : Moves (fed n events) (fed n (events ++ [e])) e := by
        rw [fed_snoc]
        exact (answers_of_run hb rfl).moves
      cases hmoves with
      | @opens kind he hopened hchildren =>
          rw [hopened] at h
          rw [hchildren]
          cases inner with
          | nil =>
              obtain ⟨rfl, rfl⟩ := List.cons.inj h
              refine ⟨events, e, [], rfl, he, rfl, List.take_length.symm, ?_⟩
              rw [List.take_length]
          | cons top inner => exact (ih (List.cons.inj h).2).snoc e
      | @closes closed hopened hkeeps =>
          -- the nodes that are left were open before, below those that have been closed
          rw [h, ← List.append_assoc] at hopened
          have hbegan := ih hopened
          have hordered := (List.pairwise_cons.1 hb.marks).2
          rw [hopened, List.append_assoc, List.map_append] at hordered
          have hbelow : ∀ o' ∈ closed, o.first ≤ o'.first := fun o' ho' =>
            (List.pairwise_append.1 hordered).2.2 _ (List.mem_map_of_mem ho') _ (List.mem_map_of_mem (by simp))
          have htop := hb.first_le (o := o) (by rw [hopened]; simp)
          rw [(hkeeps o.first htop hbelow).2]
          exact hbegan.snoc e

theorem finish_eq_ok_iff {root : Node} : b.finish = .ok root ↔ b.opened = [] ∧ b.children = [root.toSlot] := by
  unfold finish
  cases b.opened with
  | cons o rest =>
      constructor
      · intro h
        cases h
      · rintro ⟨h, -⟩
        cases h
  | nil =>
      constructor
      · intro h
        simp only [List.isEmpty_nil, if_true] at h
        split at h
        · next hchildren =>
            cases h
            exact ⟨rfl, hchildren⟩
        · cases h
        · cases h
      · rintro ⟨-, hchildren⟩
        rw [hchildren]
        rfl

/-- **Faults leave a builder in order.** Make any calls on a new builder, and go on whenever one faults. Then the marks
of the open nodes do not decrease from the outermost to the innermost and none is above the stack, so that no call takes
children from past its end. The children below a mark and the nodes around the open one are those from right before the
node was started. The faults of the next call are those that `Refuses` lists: a token or a missing token leaves all as
it was, closing what is no list closes the node and keeps its children, and a node or a list that is too wide is closed
and lost with its children, and with nothing else. The tree can be had iff nothing is open and a node is the only
child. -/
theorem faults_keep_marks_in_order (n : Nat) (events : List Event) :
    ((fed n events).opened.reverse.map Opened.first).Pairwise (· ≤ ·) ∧
    (∀ o ∈ (fed n events).opened, o.first ≤ (fed n events).children.length) ∧
    (∀ e first count c, (apply e).run (fed n events) ≠ (.error (.openPastStack first count), c)) ∧
    (∀ inner o outer, (fed n events).opened = inner ++ o :: outer →
      Began n events o outer ((fed n events).children.take o.first)) ∧
    (∀ e fault c, (apply e).run (fed n events) = (.error fault, c) ↔ Refuses (fed n events) e fault c) ∧
    ∀ root, (fed n events).finish = .ok root ↔
      (fed n events).opened = [] ∧ (fed n events).children = [root.toSlot] := by
  have hb := framed_fed n events
  refine ⟨?_, fun o => hb.first_le, fun e first count c h => ?_, fun inner o outer => began_of_opened n events,
    fun e fault c => run_eq_error_iff hb, fun root => finish_eq_ok_iff⟩
  · rw [List.map_reverse, List.pairwise_reverse]
    exact (List.pairwise_cons.1 hb.marks).2
  · cases (run_eq_error_iff hb).1 h

/-- Nothing to close, a missing token without diagnostics, an argument list that is closed as a list, and a call that is
too wide. -/
def spoiltCalls : List Event :=
  [.finishNode, .token [] .name 3, .startNode .callExpr, .startNode .argList, .missing .rightParen [],
    .token [] .leftParen 4294967295, .finishList, .token [] .comma 1, .finishNode]

/-- With its last call the node is lost, and what is left is from before it was started. -/
theorem spoiltCalls_lose_node :
    (apply .finishNode).run (fed 0 (spoiltCalls.take 8)) =
      (.error .sumTooLarge, (fed 0 (spoiltCalls.take 8)).dropped [] 1) ∧
    Began 0 (spoiltCalls.take 8) ⟨.callExpr, 1⟩ [] ((fed 0 (spoiltCalls.take 8)).children.take 1) := by
  obtain ⟨-, -, -, hbegan, hfaults, -⟩ := faults_keep_marks_in_order 0 (spoiltCalls.take 8)
  have hwide := @Refuses.tooWide (fed 0 (spoiltCalls.take 8)) .finishNode ⟨.callExpr, 1⟩ [] rfl trivial rfl
  exact ⟨(hfaults _ _ _).2 hwide, hbegan [] ⟨.callExpr, 1⟩ [] rfl⟩

/-- Only the name is left in the end. -/
example : (fed 0 spoiltCalls).opened = [] ∧ (fed 0 spoiltCalls).children.map Slot.kind? = [some .name] := ⟨rfl, rfl⟩

end Builder

end LosslessSyntax
