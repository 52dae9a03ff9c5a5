import LosslessSyntax.Fact.Report
import LosslessSyntax.Proofs.Fact.Summary

/-!
# What a report lists

A report comes from a walk that keeps its work on a stack, leaves out what the flags say has no diagnostics, and
adds up positions as it goes. `Slot.marks` lists the same diagnostics by recursion over the fact, with positions as
plain numbers.

* `Slot.marks` : the diagnostics of all owners in a fact, each in its place;
* `Slot.Made.marks_eq_nil_iff` : the flag of a made fact says whether there are any;
* `Slot.Silent` : no node owns diagnostics; tokens, in trivia as well, may own some;
* `Report.ofStack_append` : the steps on the stack are reported one after the other;
* `Slot.Made.report_eq` : the report of a made fact with silent nodes lists its marks in order, if they have a place.
-/

set_option autoImplicit false

namespace LosslessSyntax

/-- The diagnostic of an owner whose span starts at `spanStart`, in its place. -/
def Diagnostic.placed (spanStart : Nat) (d : Diagnostic) : Resolved :=
  ⟨d, ⟨spanStart + d.offset, spanStart + d.offset + d.width⟩⟩

theorem Diagnostic.resolve_eq_ok {d : Diagnostic} {spanStart : Nat} (h : (d.placed spanStart).range.stop < Size.limit) :
    d.resolve spanStart = .ok (d.placed spanStart) := by
  replace h : spanStart + d.offset + d.width < Size.limit := h
  unfold resolve Range.ofWidth
  rw [Size.add_eq_ofNat, Size.ofNat_eq_ok (by omega)]
  show ((Size.add (spanStart + d.offset) d.width >>= _) >>= _) = _
  rw [Size.add_eq_ofNat, Size.ofNat_eq_ok h]
  rfl

namespace Slot

def leadingExtent (s : Slot) : Nat :=
  match s.firstToken? with
  | some t => t.leading.extent
  | none => 0

mutual

/-- The diagnostics of all owners in a fact that starts at `start`. Those of a token come after those in its leading
trivia, those of a node before those in its slots. -/
def marks : Slot → Nat → List Resolved
  | .absent, _ => []
  | .token head leading, start =>
    leading.marks start ++ head.diagnostics.map (Diagnostic.placed (start + leading.extent))
  | .node head slots, start =>
    head.diagnostics.map (Diagnostic.placed (start + (Slot.node head slots).leadingExtent)) ++ marksOf slots start

/-- The diagnostics of all owners in the slots, the first of which starts at `start`. -/
def marksOf : List Slot → Nat → List Resolved
  | [], _ => []
  | s :: rest, start => s.marks start ++ marksOf rest (start + s.extent)

end

theorem marksOf_nil (start : Nat) : marksOf [] start = [] := rfl

theorem marksOf_cons (s : Slot) (rest : List Slot) (start : Nat) :
    marksOf (s :: rest) start = s.marks start ++ marksOf rest (start + s.extent) := rfl

theorem marksOf_append (ss ts : List Slot) (start : Nat) :
    marksOf (ss ++ ts) start = marksOf ss start ++ marksOf ts (start + extents ss) := by
  induction ss generalizing start with
  | nil => rfl
  | cons s rest ih =>
      rw [List.cons_append, marksOf_cons, ih, marksOf_cons, List.append_assoc, extents, Nat.add_assoc]

theorem marksOf_eq_nil_iff {slots : List Slot}
    (h : ∀ s ∈ slots, ∀ start, s.flags.diagnostics = false ↔ s.marks start = []) (start : Nat) :
    slots.any (·.flags.diagnostics) = false ↔ marksOf slots start = [] := by
  induction slots generalizing start with
  | nil => exact ⟨fun _ => rfl, fun _ => rfl⟩
  | cons s rest ih =>
      rw [List.any_cons, Bool.or_eq_false_iff, h s List.mem_cons_self start,
        ih (fun t ht => h t (List.mem_cons_of_mem _ ht)) (start + s.extent), marksOf_cons, List.append_eq_nil_iff]

/-- The flag of a made fact says whether there are diagnostics in it. -/
theorem Made.marks_eq_nil_iff {s : Slot} (h : s.Made) (start : Nat) :
    s.flags.diagnostics = false ↔ s.marks start = [] := by
  induction h generalizing start with
  | absent => exact ⟨fun _ => rfl, fun _ => rfl⟩
  | @token id leading kind width missing diagnostics t _ _ ht ih =>
      obtain ⟨-, rfl⟩ := Token.assembleChecked_eq_ok_iff.1 ht
      show (Token.summary leading kind missing diagnostics).diagnostics = false ↔ leading.marks start ++ _ = []
      rw [Token.summary_eq, Bool.or_eq_false_iff, ih start, List.append_eq_nil_iff, List.map_eq_nil_iff,
        Bool.not_eq_false', List.isEmpty_iff, and_comm]
      rfl
  | @node id kind shape layout slots diagnostics n _ _ hn ih =>
      obtain ⟨_, _, rfl⟩ := Node.assemble_eq_ok_iff.1 hn
      show (Node.summary slots diagnostics).diagnostics = false ↔ _ ++ marksOf slots start = []
      rw [Node.summary_eq, Bool.or_eq_false_iff, marksOf_eq_nil_iff ih start, List.append_eq_nil_iff,
        List.map_eq_nil_iff, Bool.not_eq_false', List.isEmpty_iff, and_comm]

/-! ## Silent nodes -/

/-- No node in the fact owns diagnostics. -/
def Silent (s : Slot) : Prop := ∀ head slots, (Slot.node head slots).Within s → head.diagnostics = []

theorem silent_absent : Slot.absent.Silent := by
  intro head slots h
  cases h

theorem silent_token {head : TokenHead} {leading : Slot} : (Slot.token head leading).Silent ↔ leading.Silent := by
  constructor
  · intro h head' slots hnode
    exact h head' slots (.leading hnode)
  · intro h head' slots hnode
    cases hnode with
    | leading hnode => exact h head' slots hnode

theorem silent_node {head : NodeHead} {slots : List Slot} :
    (Slot.node head slots).Silent ↔ head.diagnostics = [] ∧ ∀ s ∈ slots, s.Silent := by
  constructor
  · intro h
    exact ⟨h head slots .self, fun s hs head' slots' hnode => h head' slots' (.slot hs hnode)⟩
  · rintro ⟨hown, hslots⟩ head' slots' hnode
    cases hnode with
    | self => exact hown
    | slot hs hnode => exact hslots _ hs head' slots' hnode

/-! ## The trivia in front of a fact -/

theorem getD_behind (front : List Slot) (s : Slot) (rest : List Slot) :
    (front ++ s :: rest)[front.length]?.getD .absent = s := by
  rw [List.getElem?_append_right (Nat.le_refl _), Nat.sub_self]
  rfl

theorem Within.extent_le {f s : Slot} (h : f.Within s) : f.extent ≤ s.extent := by
  induction h with
  | self => exact Nat.le_refl _
  | leading _ ih => exact Nat.le_trans ih (Nat.le_add_right _ _)
  | slot hs _ ih => exact Nat.le_trans ih (extent_le_extents hs)

mutual

theorem firstToken?_within {t : Token} (s : Slot) (h : s.firstToken? = some t) : t.toSlot.Within s := by
  cases s with
  | absent => cases h
  | token head leading =>
      cases h
      exact .self
  | node head slots =>
      obtain ⟨s, hs, hwithin⟩ := firstTokenIn?_within slots h
      exact .slot hs hwithin

theorem firstTokenIn?_within {t : Token} (slots : List Slot) (h : firstTokenIn? slots = some t) :
    ∃ s ∈ slots, t.toSlot.Within s := by
  cases slots with
  | nil => cases h
  | cons s rest =>
      rw [firstTokenIn?] at h
      cases hs : s.firstToken? with
      | some u =>
          rw [hs] at h
          cases h
          exact ⟨s, List.mem_cons_self, firstToken?_within s hs⟩
      | none =>
          rw [hs] at h
          obtain ⟨u, hu, hwithin⟩ := firstTokenIn?_within rest h
          exact ⟨u, List.mem_cons_of_mem _ hu, hwithin⟩

end

theorem leadingExtent_le (s : Slot) : s.leadingExtent ≤ s.extent := by
  unfold leadingExtent
  cases ht : s.firstToken? with
  | none => exact Nat.zero_le _
  | some t => exact Nat.le_trans (Nat.le_add_right _ _) (firstToken?_within s ht).extent_le

/-- The width of the trivia in front of a made fact is computed right; it is a fault iff it does not fit. -/
theorem Made.leadingWidth_eq {s : Slot} (h : s.Made) : s.leadingWidth = Size.ofNat s.leadingExtent := by
  unfold leadingWidth leadingExtent
  cases ht : s.firstToken? with
  | none => rfl
  | some t => exact (h.within (firstToken?_within s ht)).token_parts.1.fullWidth_eq

end Slot

/-! ## The walk -/

namespace Report

theorem empty_andThen (r : Report) : andThen {} r = r := rfl

theorem andThen_assoc (r s t : Report) : (r.andThen s).andThen t = r.andThen (s.andThen t) := by
  obtain ⟨found, fault⟩ := r
  cases fault with
  | some f => rfl
  | none =>
      obtain ⟨found', fault'⟩ := s
      cases fault' with
      | some f => rfl
      | none =>
          unfold andThen
          rw [List.append_assoc]

theorem ofOwner_eq {spanStart : Nat} {ds : List Diagnostic}
    (h : ∀ d ∈ ds, (d.placed spanStart).range.stop < Size.limit) :
    ofOwner spanStart ds = ⟨ds.map (Diagnostic.placed spanStart), none⟩ := by
  induction ds with
  | nil => rfl
  | cons d rest ih =>
      rw [ofOwner, Diagnostic.resolve_eq_ok (h d List.mem_cons_self)]
      show andThen _ (ofOwner spanStart rest) = _
      rw [ih fun d hd => h d (List.mem_cons_of_mem _ hd)]
      rfl

theorem ofStack_visit_ok {fact : Slot} {start : Nat} {done : Bool} {ws stack : List Work}
    (h : expand fact start done = .ok ws) : ofStack (.visit fact start done :: stack) = ofStack (ws ++ stack) := by
  rw [ofStack]
  split
  · next hf =>
    rw [h] at hf
    cases hf
  · next ws' hws =>
    rw [h] at hws
    cases hws
    rfl

theorem ofStack_visit_error {fact : Slot} {start : Nat} {done : Bool} {f : Fault} {stack : List Work}
    (h : expand fact start done = .error f) : ofStack (.visit fact start done :: stack) = ⟨[], some f⟩ := by
  rw [ofStack]
  split
  · next hf =>
    rw [h] at hf
    cases hf
    rfl
  · next ws' hws =>
    rw [h] at hws
    cases hws

theorem ofStack_append (ws stack : List Work) : ofStack (ws ++ stack) = (ofStack ws).andThen (ofStack stack) := by
  induction ws using ofStack.induct with
  | case1 => rw [ofStack, empty_andThen, List.nil_append]
  | case2 diagnostics spanStart ws ih => rw [List.cons_append, ofStack, ofStack, ih, andThen_assoc]
  | case3 fact start done ws f hf => rw [List.cons_append, ofStack_visit_error hf, ofStack_visit_error hf]; rfl
  | case4 fact start done ws vs hvs ih =>
      rw [List.cons_append, ofStack_visit_ok hvs, ofStack_visit_ok hvs, ← List.append_assoc, ih]

/-- Visits to slots that lie one behind the other. While `pending`, the trivia of the next token needs no visit. -/
def visits (pending : Bool) : List Slot → Nat → List Work
  | [], _ => []
  | s :: rest, start =>
    let done := pending && s.firstToken?.isSome
    .visit s start done :: visits (pending && !done) rest (start + s.extent)

theorem visitChildren_eq {slots : List Slot} (h : ∀ s ∈ slots, s.Made) {start : Nat}
    (hfits : start + Slot.extents slots < Size.limit) (pending : Bool) :
    visitChildren start pending slots = .ok (visits pending slots start) := by
  induction slots generalizing start pending with
  | nil => rfl
  | cons s rest ih =>
      rw [Slot.extents] at hfits
      have hrest : ∀ next, visitChildren (start + s.extent) next rest = .ok (visits next rest (start + s.extent)) :=
        ih (fun t ht => h t (List.mem_cons_of_mem _ ht)) (by omega)
      rw [visitChildren, (h s List.mem_cons_self).fullWidth_eq, Size.ofNat_eq_ok (by omega)]
      show (Size.add start s.extent >>= fun next => visitChildren next _ rest >>= _) = _
      rw [Size.add_eq_ofNat, Size.ofNat_eq_ok (by omega)]
      show (visitChildren (start + s.extent) _ rest >>= _) = _
      rw [hrest]
      rfl

def visitFirstTrivia (first : Option Token) (start : Nat) : List Work :=
  match first with
  | some first => visitTrivia first.leading start
  | none => []

end Report

namespace Slot

open Report (ofStack ofStack_append ofStack_visit_ok expand visits visitChildren visitTrivia visitFirstTrivia)

/-- What has no diagnostics is left out. -/
theorem expand_pruned {s : Slot} (start : Nat) (done : Bool) (hflag : s.flags.diagnostics = false) :
    expand s start done = .ok [] := by
  unfold expand
  rw [hflag]
  rfl

theorem Made.ofStack_visit_pruned {s : Slot} (h : s.Made) {start : Nat} (hflag : s.flags.diagnostics = false) :
    ofStack [.visit s start false] = ⟨s.marks start, none⟩ := by
  have hnone : s.marks start = [] := (h.marks_eq_nil_iff start).1 hflag
  rw [ofStack_visit_ok (expand_pruned start false hflag), hnone, List.append_nil, ofStack]

theorem Made.expand_token {head : TokenHead} {leading : Slot} (h : (Slot.token head leading).Made) {start : Nat}
    (hfits : start + leading.extent < Size.limit) (hflag : head.flags.diagnostics = true) (done : Bool) :
    expand (.token head leading) start done =
      .ok ((if done then [] else visitTrivia leading start) ++ [.emit head.diagnostics (start + leading.extent)]) := by
  unfold expand
  rw [if_pos (show (Slot.token head leading).flags.diagnostics = true from hflag)]
  show (leading.fullWidth >>= fun w => Size.add start w >>= _) = _
  rw [h.token_parts.1.fullWidth_eq, Size.ofNat_eq_ok (by omega)]
  show (Size.add start leading.extent >>= _) = _
  rw [Size.add_eq_ofNat, Size.ofNat_eq_ok hfits]
  rfl

/-- A node that owns something puts the trivia in front of it forward; else it leaves it to its first token. -/
theorem Made.expand_node {head : NodeHead} {slots : List Slot} (h : (Slot.node head slots).Made) {start : Nat}
    (hfits : start + extents slots < Size.limit) (hflag : head.flags.diagnostics = true) (done : Bool) :
    expand (.node head slots) start done =
      .ok ((if !done && !head.diagnostics.isEmpty then visitFirstTrivia (firstTokenIn? slots) start else []) ++
        .emit head.diagnostics (start + (Slot.node head slots).leadingExtent) ::
          visits (done || !done && !head.diagnostics.isEmpty) slots start) := by
  have hle : (Slot.node head slots).leadingExtent ≤ extents slots := leadingExtent_le _
  unfold expand
  rw [if_pos (show (Slot.node head slots).flags.diagnostics = true from hflag)]
  show ((Slot.node head slots).leadingWidth >>= fun w => Size.add start w >>= _) = _
  rw [h.leadingWidth_eq, Size.ofNat_eq_ok (by omega)]
  show (Size.add start (Slot.node head slots).leadingExtent >>= _) = _
  rw [Size.add_eq_ofNat, Size.ofNat_eq_ok (by omega)]
  show (visitChildren start _ slots >>= _) = _
  rw [Report.visitChildren_eq h.slots hfits]
  show Except.ok ((match firstTokenIn? slots with | some first => _ | none => _) ++ _) = _
  cases firstTokenIn? slots with
  | none => cases !done && !head.diagnostics.isEmpty <;> rfl
  | some first => cases !done && !head.diagnostics.isEmpty <;> rfl

theorem ofStack_visitTrivia (trivia : Slot) (start : Nat) :
    ofStack (visitTrivia trivia start) = ofStack [.visit trivia start false] := by
  cases trivia with
  | absent =>
      rw [ofStack_visit_ok (show expand .absent start false = .ok [] from rfl)]
      rfl
  | token head leading => rfl
  | node head slots => rfl

mutual

/-- With silent nodes nothing is put forward, so the walk finds the marks in the order of the recursion. -/
theorem Made.ofStack_visit {s : Slot} (h : s.Made) (hsilent : s.Silent) {start : Nat}
    (hfits : start + s.extent < Size.limit) (hplaces : ∀ r ∈ s.marks start, r.range.stop < Size.limit) :
    ofStack [.visit s start false] = ⟨s.marks start, none⟩ := by
  cases hflag : s.flags.diagnostics with
  | false => exact h.ofStack_visit_pruned hflag
  | true =>
      cases s with
      | absent => cases hflag
      | token head leading =>
          rw [extent] at hfits
          rw [marks] at hplaces ⊢
          have hleading : ofStack [.visit leading start false] = ⟨leading.marks start, none⟩ :=
            Made.ofStack_visit h.token_parts.1 (silent_token.1 hsilent) (by omega)
              fun r hr => hplaces r (List.mem_append_left _ hr)
          have hown : Report.ofOwner (start + leading.extent) head.diagnostics =
              ⟨head.diagnostics.map (Diagnostic.placed (start + leading.extent)), none⟩ :=
            Report.ofOwner_eq fun d hd => hplaces _ (List.mem_append_right _ (List.mem_map_of_mem hd))
          rw [ofStack_visit_ok (h.expand_token (by omega) hflag false), List.append_nil, ofStack_append,
            if_neg Bool.false_ne_true, ofStack_visitTrivia, hleading, ofStack, ofStack, hown]
          simp [Report.andThen]
      | node head slots =>
          rw [extent] at hfits
          obtain ⟨hown, hslots⟩ := silent_node.1 hsilent
          rw [marks, hown, List.map_nil, List.nil_append] at hplaces ⊢
          have hexpand := h.expand_node hfits hflag false
          rw [hown] at hexpand
          rw [ofStack_visit_ok hexpand, List.append_nil]
          show ofStack (.emit [] _ :: visits false slots start) = _
          rw [ofStack, Report.ofOwner, Report.empty_andThen]
          exact ofStack_visits h.slots hslots hfits hplaces

theorem ofStack_visits {slots : List Slot} (h : ∀ s ∈ slots, s.Made) (hsilent : ∀ s ∈ slots, s.Silent) {start : Nat}
    (hfits : start + extents slots < Size.limit) (hplaces : ∀ r ∈ marksOf slots start, r.range.stop < Size.limit) :
    ofStack (visits false slots start) = ⟨marksOf slots start, none⟩ := by
  cases slots with
  | nil => rw [visits, ofStack, marksOf_nil]
  | cons s rest =>
      rw [extents] at hfits
      rw [marksOf_cons] at hplaces ⊢
      have hfirst : ofStack [.visit s start false] = ⟨s.marks start, none⟩ :=
        Made.ofStack_visit (h s List.mem_cons_self) (hsilent s List.mem_cons_self) (by omega)
          fun r hr => hplaces r (List.mem_append_left _ hr)
      have hrest : ofStack (visits false rest (start + s.extent)) = ⟨marksOf rest (start + s.extent), none⟩ :=
        ofStack_visits (fun t ht => h t (List.mem_cons_of_mem _ ht)) (fun t ht => hsilent t (List.mem_cons_of_mem _ ht))
          (by omega) fun r hr => hplaces r (List.mem_append_right _ hr)
      show ofStack ([.visit s start false] ++ visits false rest (start + s.extent)) = _
      rw [ofStack_append, hfirst, hrest]
      rfl

end

theorem Made.report_eq {s : Slot} (h : s.Made) (hsilent : s.Silent) {start : Nat}
    (hfits : start + s.extent < Size.limit) (hplaces : ∀ r ∈ s.marks start, r.range.stop < Size.limit) :
    s.report start = ⟨s.marks start, none⟩ :=
  h.ofStack_visit hsilent hfits hplaces

end Slot

/-! ## The marks of what is made -/

theorem Node.own_make {id : Nat} {kind : Kind} {slots : List Slot} {n : Node} (hn : make id kind slots = .ok n) :
    n.head.diagnostics = [] := by
  obtain ⟨layout, -, hn⟩ := bind_eq_ok_iff.1 hn
  obtain ⟨width, -, rfl⟩ := Node.assemble_eq_ok_iff.1 hn
  rfl

theorem Node.marks_make {id : Nat} {kind : Kind} {slots : List Slot} {n : Node} (hn : make id kind slots = .ok n)
    (start : Nat) : n.toSlot.marks start = Slot.marksOf slots start := by
  unfold toSlot
  rw [Slot.marks, own_make hn, slots_make hn]
  rfl

theorem Node.silent_make {id : Nat} {kind : Kind} {slots : List Slot} {n : Node} (hn : make id kind slots = .ok n)
    (h : ∀ s ∈ slots, s.Silent) : n.toSlot.Silent := by
  refine Slot.silent_node.2 ⟨own_make hn, ?_⟩
  rw [slots_make hn]
  exact h

theorem Node.extent_make {id : Nat} {kind : Kind} {slots : List Slot} {n : Node} (hn : make id kind slots = .ok n) :
    n.toSlot.extent = Slot.extents slots := by
  unfold toSlot
  rw [Slot.extent, slots_make hn]

theorem Node.marks_makeList {id : Nat} {slots : List Slot} {s : Slot} (hs : makeList id slots = .ok s) :
    (∀ start, s.marks start = Slot.marksOf slots start) ∧ s.extent = Slot.extents slots ∧
      ((∀ t ∈ slots, t.Silent) → s.Silent) := by
  rcases makeList_eq_ok hs with ⟨rfl, rfl⟩ | ⟨n, hn, rfl⟩
  · exact ⟨fun _ => rfl, rfl, fun _ => Slot.silent_absent⟩
  · exact ⟨marks_make hn, extent_make hn, silent_make hn⟩

theorem marks_packTrivia {id : Nat} {trivia : List Slot} {s : Slot} (hs : packTrivia id trivia = .ok s) :
    (∀ start, s.marks start = Slot.marksOf trivia start) ∧ s.extent = Slot.extents trivia ∧
      ((∀ t ∈ trivia, t.Silent) → s.Silent) := by
  unfold packTrivia at hs
  split at hs
  · cases hs
    exact ⟨fun _ => rfl, rfl, fun _ => Slot.silent_absent⟩
  · cases hs
    refine ⟨fun start => ?_, rfl, fun h => h _ List.mem_cons_self⟩
    rw [Slot.marksOf_cons, Slot.marksOf_nil, List.append_nil]
  · exact Node.marks_makeList hs

theorem TriviaPiece.marks_toSlots (id : Nat) (pieces : List TriviaPiece) :
    (∀ start, Slot.marksOf (toSlots id pieces) start = []) ∧ ∀ s ∈ toSlots id pieces, s.Silent := by
  induction pieces generalizing id with
  | nil => exact ⟨fun _ => rfl, fun s hs => absurd hs List.not_mem_nil⟩
  | cons p rest ih =>
      refine ⟨fun start => ?_, fun s hs => ?_⟩
      · rw [toSlots, Slot.marksOf_cons, (ih (id + 1)).1]
        rfl
      · rcases List.mem_cons.1 hs with rfl | hs
        · exact Slot.silent_token.2 Slot.silent_absent
        · exact (ih (id + 1)).2 s hs

end LosslessSyntax
