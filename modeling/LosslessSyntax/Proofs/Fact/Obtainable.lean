import LosslessSyntax.Proofs.Fact.Made

/-!
# What constructions and edits can bring forth

`Slot.Obtainable` lists the ways in which a caller gets hold of a fact: the constructions of tokens and nodes, the
edits, and the packing of trivia, in any order and with any shared parts. `Slot.Made` says instead what such a fact
looks like, which is the form that proofs use.

* `Slot.obtainable_iff_made` : the two agree, so nothing that is proved of made facts is about too many of them, and
  nothing is left out;
* `Token.BornMissing`, `Token.BornPresent` : how a token came into being, through any number of edits;
* `Slot.Made.born` : every token came into being in one of these ways, and its flags say in which.
-/

set_option autoImplicit false

namespace LosslessSyntax

/-- The facts that a caller can get by constructions and edits. -/
inductive Slot.Obtainable : Slot → Prop
  | absent : Obtainable .absent
  | plain (id : Nat) (kind : Kind) (width : Nat) : Obtainable (Token.plain id kind width).toSlot
  | token {id : Nat} {leading : Slot} {kind : Kind} {width : Nat} {t : Token} (hleading : Obtainable leading)
      (ht : Token.make id leading kind width = .ok t) : Obtainable t.toSlot
  | missing {id : Nat} {leading : Slot} {kind : Kind} {diagnostics : List Diagnostic} {t : Token}
      (hleading : Obtainable leading) (ht : Token.makeMissing id leading kind diagnostics = .ok t) :
      Obtainable t.toSlot
  | withLeading {t u : Token} {id : Nat} {leading : Slot} (ht : Obtainable t.toSlot) (hleading : Obtainable leading)
      (hu : t.withLeading id leading = .ok u) : Obtainable u.toSlot
  | tokenDiagnostics {t u : Token} {id : Nat} {diagnostics : List Diagnostic} (ht : Obtainable t.toSlot)
      (hu : t.withDiagnostics id diagnostics = .ok u) : Obtainable u.toSlot
  | node {id : Nat} {kind : Kind} {slots : List Slot} {n : Node} (hslots : ∀ s ∈ slots, Obtainable s)
      (hn : Node.make id kind slots = .ok n) : Obtainable n.toSlot
  | shaped {id : Nat} {kind : Kind} {shape : Shape} {slots : List Slot} {n : Node}
      (hslots : ∀ s ∈ slots, Obtainable s) (hn : Node.makeShaped id kind shape slots = .ok n) : Obtainable n.toSlot
  | list {id : Nat} {slots : List Slot} {s : Slot} (hslots : ∀ s ∈ slots, Obtainable s)
      (hs : Node.makeList id slots = .ok s) : Obtainable s
  | nodeDiagnostics {n m : Node} {id : Nat} {diagnostics : List Diagnostic} (hn : Obtainable n.toSlot)
      (hm : n.withDiagnostics id diagnostics = .ok m) : Obtainable m.toSlot
  | replaceChild {n m : Node} {id index : Nat} {child : Slot} (hn : Obtainable n.toSlot) (hchild : Obtainable child)
      (hm : n.replaceChild id index child = .ok m) : Obtainable m.toSlot
  | trivia {id : Nat} {trivia : List Slot} {s : Slot} (htrivia : ∀ s ∈ trivia, Obtainable s)
      (hs : packTrivia id trivia = .ok s) : Obtainable s
  | pieces {id : Nat} {pieces : List TriviaPiece} {s : Slot} (hs : triviaOfPieces id pieces = .ok s) : Obtainable s

/-! ## Edits of made facts -/

namespace Slot

theorem Made.token_parts {head : TokenHead} {leading : Slot} (h : (Slot.token head leading).Made) :
    leading.Made ∧ leading.tokens.all (·.kind.isTrivia) = true ∧
      head.flags = Token.summary leading head.kind head.flags.isMissing head.diagnostics ∧
      (head.flags.isMissing = true → head.width = 0 ∧ head.diagnostics ≠ []) := by
  cases h with
  | @token id leading kind width missing diagnostics t hleading hmissing ht =>
      obtain ⟨htrivia, rfl⟩ := Token.assembleChecked_eq_ok_iff.1 ht
      have hm : (Token.summary leading kind missing diagnostics).isMissing = missing :=
        Token.isMissing_assemble id leading kind width missing diagnostics
      refine ⟨hleading, htrivia, ?_, ?_⟩
      · show Token.summary leading kind missing diagnostics = _
        rw [show (Token.assemble id leading kind width missing diagnostics).head.flags.isMissing = missing from hm]
        rfl
      · intro hflag
        exact hmissing (hm.symm.trans hflag)

theorem Made.node_flags {head : NodeHead} {slots : List Slot} (h : (Slot.node head slots).Made) :
    head.flags = Node.summary slots head.diagnostics := by
  cases h with
  | node _ _ hn =>
      obtain ⟨_, _, rfl⟩ := Node.assemble_eq_ok_iff.1 hn
      rfl

end Slot

namespace Token

theorem made_withLeading {t u : Token} {id : Nat} {leading : Slot} (ht : t.toSlot.Made) (hleading : leading.Made)
    (hu : t.withLeading id leading = .ok u) : u.toSlot.Made := by
  obtain ⟨-, -, -, hmissing⟩ := ht.token_parts
  exact .token hleading hmissing hu

theorem withDiagnostics_eq_ok_iff {t u : Token} {id : Nat} {diagnostics : List Diagnostic} :
    t.withDiagnostics id diagnostics = .ok u ↔ (t.isMissing = true → diagnostics ≠ []) ∧
      assembleChecked id t.leading t.kind t.width t.isMissing diagnostics = .ok u := by
  unfold withDiagnostics
  split
  · next h =>
    simp only [Bool.and_eq_true, List.isEmpty_iff] at h
    exact ⟨fun he => (nomatch he), fun he => absurd h.2 (he.1 h.1)⟩
  · next h =>
    simp only [Bool.and_eq_true, List.isEmpty_iff, not_and] at h
    exact ⟨fun he => ⟨h, he⟩, fun he => he.2⟩

theorem made_withDiagnostics {t u : Token} {id : Nat} {diagnostics : List Diagnostic} (ht : t.toSlot.Made)
    (hu : t.withDiagnostics id diagnostics = .ok u) : u.toSlot.Made := by
  obtain ⟨hleading, -, -, hmissing⟩ := ht.token_parts
  obtain ⟨hne, hu⟩ := withDiagnostics_eq_ok_iff.1 hu
  exact .token hleading (fun hm => ⟨(hmissing hm).1, hne hm⟩) hu

/-- A token with given diagnostics is had by making it and editing it, under one number. -/
theorem exists_edit {id : Nat} {leading : Slot} {kind : Kind} {width : Nat} {diagnostics : List Diagnostic}
    {t : Token} (ht : assembleChecked id leading kind width false diagnostics = .ok t) :
    ∃ u, make id leading kind width = .ok u ∧ u.withDiagnostics id diagnostics = .ok t := by
  obtain ⟨htrivia, rfl⟩ := assembleChecked_eq_ok_iff.1 ht
  refine ⟨_, assembleChecked_eq_ok_iff.2 ⟨htrivia, rfl⟩, withDiagnostics_eq_ok_iff.2 ⟨?_, ht⟩⟩
  intro hmissing
  rw [isMissing_assemble] at hmissing
  cases hmissing

theorem makeMissing_eq_ok_iff {id : Nat} {leading : Slot} {kind : Kind} {diagnostics : List Diagnostic} {t : Token} :
    makeMissing id leading kind diagnostics = .ok t ↔
      diagnostics ≠ [] ∧ assembleChecked id leading kind 0 true diagnostics = .ok t := by
  unfold makeMissing
  split
  · next h => exact ⟨fun he => (nomatch he), fun he => absurd (List.isEmpty_iff.1 h) he.1⟩
  · next h => exact ⟨fun he => ⟨fun hnil => h (List.isEmpty_iff.2 hnil), he⟩, fun he => he.2⟩

end Token

namespace Node

theorem made_withDiagnostics {n m : Node} {id : Nat} {diagnostics : List Diagnostic} (hn : n.toSlot.Made)
    (hm : n.withDiagnostics id diagnostics = .ok m) : m.toSlot.Made := by
  obtain ⟨shape, hlayout⟩ := hn.layout
  exact .node hn.slots hlayout hm

theorem made_replaceChild {n m : Node} {id index : Nat} {child : Slot} (hn : n.toSlot.Made) (hchild : child.Made)
    (hm : n.replaceChild id index child = .ok m) : m.toSlot.Made := by
  unfold replaceChild at hm
  split at hm
  · obtain ⟨layout, hlayout, hm⟩ := bind_eq_ok_iff.1 hm
    refine .node ?_ hlayout hm
    intro s hs
    rcases List.mem_or_eq_of_mem_set hs with hs | rfl
    · exact hn.slots s hs
    · exact hchild
  · cases hm

end Node

/-! ## The two notions agree -/

namespace Slot

theorem Obtainable.made {s : Slot} (h : s.Obtainable) : s.Made := by
  induction h with
  | absent => exact .absent
  | plain id kind width => exact Token.made_bare id kind width []
  | token _ ht ih => exact Token.made_make ih ht
  | missing _ ht ih => exact Token.made_makeMissing ih ht
  | withLeading _ _ hu iht ihleading => exact Token.made_withLeading iht ihleading hu
  | tokenDiagnostics _ hu ih => exact Token.made_withDiagnostics ih hu
  | node _ hn ih => exact Node.made_make ih hn
  | shaped _ hn ih => exact Node.made_makeShaped ih hn
  | list _ hs ih => exact Node.made_makeList ih hs
  | nodeDiagnostics _ hm ih => exact Node.made_withDiagnostics ih hm
  | replaceChild _ _ hm ihn ihchild => exact Node.made_replaceChild ihn ihchild hm
  | trivia _ hs ih => exact made_packTrivia ih hs
  | pieces hs => exact made_packTrivia (TriviaPiece.made_toSlots _ _) hs

theorem Made.obtainable {s : Slot} (h : s.Made) : s.Obtainable := by
  induction h with
  | absent => exact .absent
  | @token id leading kind width missing diagnostics t hleading hmissing ht ih =>
      cases missing with
      | true =>
          obtain ⟨rfl, hne⟩ := hmissing rfl
          exact .missing ih (Token.makeMissing_eq_ok_iff.2 ⟨hne, ht⟩)
      | false =>
          obtain ⟨u, hu, ht⟩ := Token.exists_edit ht
          exact .tokenDiagnostics (.token ih hu) ht
  | @node id kind shape layout slots diagnostics n hslots hlayout hn ih =>
      obtain ⟨w, hw, rfl⟩ := Node.assemble_eq_ok_iff.1 hn
      have hplain : Node.makeShaped id kind shape slots =
          .ok ⟨⟨id, kind, Node.summary slots [], w, layout, []⟩, slots⟩ :=
        bind_eq_ok_iff.2 ⟨layout, hlayout, Node.assemble_eq_ok_iff.2 ⟨w, hw, rfl⟩⟩
      exact .nodeDiagnostics (.shaped ih hplain) hn

theorem obtainable_iff_made {s : Slot} : s.Obtainable ↔ s.Made := ⟨Obtainable.made, Made.obtainable⟩

end Slot

/-! ## How tokens come into being -/

namespace Token

/-- The token was made as a missing one, and edited since at will. -/
inductive BornMissing : Token → Prop
  | made {id : Nat} {leading : Slot} {kind : Kind} {diagnostics : List Diagnostic} {t : Token}
      (ht : makeMissing id leading kind diagnostics = .ok t) : BornMissing t
  | withLeading {t u : Token} {id : Nat} {leading : Slot} (h : BornMissing t) (hu : t.withLeading id leading = .ok u) :
      BornMissing u
  | withDiagnostics {t u : Token} {id : Nat} {diagnostics : List Diagnostic} (h : BornMissing t)
      (hu : t.withDiagnostics id diagnostics = .ok u) : BornMissing u

/-- The token was made as a present one, and edited since at will. -/
inductive BornPresent : Token → Prop
  | plain (id : Nat) (kind : Kind) (width : Nat) : BornPresent (plain id kind width)
  | made {id : Nat} {leading : Slot} {kind : Kind} {width : Nat} {t : Token}
      (ht : make id leading kind width = .ok t) : BornPresent t
  | withLeading {t u : Token} {id : Nat} {leading : Slot} (h : BornPresent t) (hu : t.withLeading id leading = .ok u) :
      BornPresent u
  | withDiagnostics {t u : Token} {id : Nat} {diagnostics : List Diagnostic} (h : BornPresent t)
      (hu : t.withDiagnostics id diagnostics = .ok u) : BornPresent u

theorem isMissing_assembleChecked {id : Nat} {leading : Slot} {kind : Kind} {width : Nat} {missing : Bool}
    {diagnostics : List Diagnostic} {t : Token}
    (ht : assembleChecked id leading kind width missing diagnostics = .ok t) : t.isMissing = missing := by
  obtain ⟨-, rfl⟩ := assembleChecked_eq_ok_iff.1 ht
  exact isMissing_assemble id leading kind width missing diagnostics

/-- No edit makes a missing token present. -/
theorem BornMissing.isMissing {t : Token} (h : t.BornMissing) : t.isMissing = true := by
  induction h with
  | made ht => exact isMissing_assembleChecked (makeMissing_eq_ok_iff.1 ht).2
  | withLeading _ hu ih => exact (isMissing_assembleChecked hu).trans ih
  | withDiagnostics _ hu ih => exact (isMissing_assembleChecked (withDiagnostics_eq_ok_iff.1 hu).2).trans ih

/-- No edit makes a present token missing. -/
theorem BornPresent.isMissing {t : Token} (h : t.BornPresent) : t.isMissing = false := by
  induction h with
  | plain id kind width => rfl
  | made ht => exact isMissing_assembleChecked ht
  | withLeading _ hu ih => exact (isMissing_assembleChecked hu).trans ih
  | withDiagnostics _ hu ih => exact (isMissing_assembleChecked (withDiagnostics_eq_ok_iff.1 hu).2).trans ih

end Token

/-- Every token was born missing or present, as its flags say. -/
theorem Slot.Made.born {t : Token} (h : t.toSlot.Made) :
    (t.BornMissing ↔ t.isMissing = true) ∧ (t.BornPresent ↔ t.isMissing = false) := by
  have hborn : t.BornMissing ∨ t.BornPresent := by
    generalize hs : t.toSlot = s at h
    cases h with
    | absent => cases hs
    | @token id leading kind width missing diagnostics u hleading hmissing hu =>
        obtain rfl : t = u := by
          cases t
          cases u
          cases hs
          rfl
        cases missing with
        | true =>
            obtain ⟨rfl, hne⟩ := hmissing rfl
            exact .inl (.made (Token.makeMissing_eq_ok_iff.2 ⟨hne, hu⟩))
        | false =>
            obtain ⟨v, hv, hu⟩ := Token.exists_edit hu
            exact .inr (.withDiagnostics (.made hv) hu)
    | node => cases hs
  rcases hborn with hb | hb
  · have hm := hb.isMissing
    refine ⟨⟨fun _ => hm, fun _ => hb⟩, ⟨fun h' => h'.isMissing, fun h' => ?_⟩⟩
    rw [hm] at h'
    cases h'
  · have hm := hb.isMissing
    refine ⟨⟨fun h' => h'.isMissing, fun h' => ?_⟩, ⟨fun _ => hm, fun _ => hb⟩⟩
    rw [hm] at h'
    cases h'

end LosslessSyntax
