import LosslessSyntax.Proofs.Fact.Obtainable

/-!
# What the flags say

The flags of a fact are summed up once, when it is made: a node takes over those of its slots, a token those of its
leading trivia but for `present`. Here they are compared with what they stand for, the whole subtree with all trivia
in it, however deeply trivia is nested in trivia.

* `Slot.Within` : a fact is a part of another one, leading trivia included;
* `Node.summary_eq`, `Token.summary_eq` : each flag as a disjunction over the parts;
* `Slot.Made.flag_iff` : a flag that is passed on by all parts tells of the whole subtree;
* `Slot.Made.present_iff` : the one flag that trivia does not pass on;
* `flags_summarize` : what the four flags of an obtainable fact mean.
-/

set_option autoImplicit false

namespace LosslessSyntax

namespace Slot

/-- `f` is the fact itself, or a part of it; leading trivia and all in it counts. -/
inductive Within (f : Slot) : Slot → Prop
  | self : Within f f
  | leading {head : TokenHead} {leading : Slot} (h : Within f leading) : Within f (.token head leading)
  | slot {head : NodeHead} {slots : List Slot} {s : Slot} (hs : s ∈ slots) (h : Within f s) :
      Within f (.node head slots)

section Within

variable {P : Slot → Prop}

theorem exists_within_absent : (∃ f, f.Within .absent ∧ P f) ↔ P .absent := by
  constructor
  · rintro ⟨f, hf, hP⟩
    cases hf
    exact hP
  · intro hP
    exact ⟨_, .self, hP⟩

theorem exists_within_token {head : TokenHead} {leading : Slot} :
    (∃ f, f.Within (.token head leading) ∧ P f) ↔ P (.token head leading) ∨ ∃ f, f.Within leading ∧ P f := by
  constructor
  · rintro ⟨f, hf, hP⟩
    cases hf with
    | self => exact .inl hP
    | leading h => exact .inr ⟨f, h, hP⟩
  · rintro (hP | ⟨f, hf, hP⟩)
    · exact ⟨_, .self, hP⟩
    · exact ⟨f, .leading hf, hP⟩

theorem exists_within_node {head : NodeHead} {slots : List Slot} :
    (∃ f, f.Within (.node head slots) ∧ P f) ↔ P (.node head slots) ∨ ∃ s ∈ slots, ∃ f, f.Within s ∧ P f := by
  constructor
  · rintro ⟨f, hf, hP⟩
    cases hf with
    | self => exact .inl hP
    | slot hs h => exact .inr ⟨_, hs, f, h, hP⟩
  · rintro (hP | ⟨s, hs, f, hf, hP⟩)
    · exact ⟨_, .self, hP⟩
    · exact ⟨f, .slot hs hf, hP⟩

end Within

theorem Made.within {f s : Slot} (h : s.Made) (hf : f.Within s) : f.Made := by
  induction hf with
  | self => exact h
  | leading _ ih => exact ih h.token_parts.1
  | slot hs _ ih => exact ih (h.slots _ hs)

/-! ## The tokens of a fact -/

theorem walkTokens_append (ss ts : List Slot) : walkTokens (ss ++ ts) = walkTokens ss ++ walkTokens ts := by
  induction ss using walkTokens.induct with
  | case1 => simp [walkTokens]
  | case2 stack ih => simp [walkTokens, ih]
  | case3 head leading stack ih => simp [walkTokens, ih]
  | case4 head slots stack ih =>
      rw [List.cons_append, walkTokens, walkTokens, ← List.append_assoc, ih]

theorem mem_walkTokens {t : Token} {ss : List Slot} : t ∈ walkTokens ss ↔ ∃ s ∈ ss, t ∈ s.tokens := by
  induction ss with
  | nil => simp [walkTokens]
  | cons s rest ih =>
      have happend : walkTokens (s :: rest) = s.tokens ++ walkTokens rest := walkTokens_append [s] rest
      simp [happend, ih]

theorem tokens_absent : Slot.absent.tokens = [] := by simp [tokens, walkTokens]

theorem tokens_token (head : TokenHead) (leading : Slot) : (Slot.token head leading).tokens = [⟨head, leading⟩] := by
  simp [tokens, walkTokens]

theorem mem_tokens_node {t : Token} {head : NodeHead} {slots : List Slot} :
    t ∈ (Slot.node head slots).tokens ↔ ∃ s ∈ slots, t ∈ s.tokens := by
  rw [← mem_walkTokens, tokens, walkTokens, List.append_nil]

end Slot

/-! ## Flags as disjunctions -/

theorem Flags.foldl_union (slots : List Slot) (f : Flags) :
    slots.foldl (fun f s => f.union (s.flags.inter Flags.inheritable)) f =
      ⟨f.diagnostics || slots.any (·.flags.diagnostics), f.skippedText || slots.any (·.flags.skippedText),
        f.missing || slots.any (·.flags.missing), f.present || slots.any (·.flags.present)⟩ := by
  induction slots generalizing f with
  | nil => simp
  | cons s rest ih =>
      rw [List.foldl_cons, ih]
      simp [Flags.union, Flags.inter, Flags.inheritable, Bool.or_assoc]

theorem Node.summary_eq (slots : List Slot) (diagnostics : List Diagnostic) :
    summary slots diagnostics =
      ⟨slots.any (·.flags.diagnostics) || !diagnostics.isEmpty, slots.any (·.flags.skippedText),
        slots.any (·.flags.missing), slots.any (·.flags.present)⟩ := by
  rw [summary, Flags.foldl_union]
  simp [Flags.union, Flags.none]

theorem Token.summary_eq (leading : Slot) (kind : Kind) (missing : Bool) (diagnostics : List Diagnostic) :
    summary leading kind missing diagnostics =
      ⟨!diagnostics.isEmpty || leading.flags.diagnostics, kind == .skippedTokens || leading.flags.skippedText,
        missing || leading.flags.missing, !missing⟩ := by
  simp [summary, Flags.union, Flags.inter, Flags.fromTrivia, Flags.inheritable]

namespace Slot

/-- A flag that every fact has of itself when `P` holds of it, and takes over from all its parts, leading trivia
included, says that `P` holds somewhere in the subtree. -/
theorem Made.flag_iff {flag : Flags → Bool} {P : Slot → Prop} (habsent : flag .none = false ∧ ¬ P .absent)
    (htoken : ∀ head leading, (Slot.token head leading).Made →
      (flag head.flags = true ↔ P (.token head leading) ∨ flag leading.flags = true))
    (hnode : ∀ head slots, (Slot.node head slots).Made →
      (flag head.flags = true ↔ P (.node head slots) ∨ ∃ s ∈ slots, flag s.flags = true))
    {s : Slot} (h : s.Made) : flag s.flags = true ↔ ∃ f, f.Within s ∧ P f := by
  have hmade := h
  induction h with
  | absent =>
      rw [exists_within_absent, Slot.flags, habsent.1]
      simp [habsent.2]
  | @token id leading kind width missing diagnostics t hleading _ ht ih =>
      obtain ⟨-, rfl⟩ := Token.assembleChecked_eq_ok_iff.1 ht
      rw [exists_within_token]
      exact (htoken _ _ hmade).trans (or_congr_right (ih hleading))
  | @node id kind shape layout slots diagnostics n hslots _ hn ih =>
      obtain ⟨_, _, rfl⟩ := Node.assemble_eq_ok_iff.1 hn
      have hparts : (∃ s ∈ slots, flag s.flags = true) ↔ ∃ s ∈ slots, ∃ f, f.Within s ∧ P f := by
        constructor
        · rintro ⟨s, hs, hflag⟩
          exact ⟨s, hs, (ih s hs (hslots s hs)).1 hflag⟩
        · rintro ⟨s, hs, hex⟩
          exact ⟨s, hs, (ih s hs (hslots s hs)).2 hex⟩
      rw [exists_within_node]
      exact (hnode _ _ hmade).trans (or_congr_right hparts)

def IsToken (P : Token → Prop) (f : Slot) : Prop := ∃ t : Token, f = t.toSlot ∧ P t

theorem isToken_token {P : Token → Prop} {head : TokenHead} {leading : Slot} :
    IsToken P (.token head leading) ↔ P ⟨head, leading⟩ := by
  constructor
  · rintro ⟨t, ht, hP⟩
    cases ht
    exact hP
  · intro hP
    exact ⟨_, rfl, hP⟩

theorem not_isToken_node {P : Token → Prop} {head : NodeHead} {slots : List Slot} :
    ¬ IsToken P (.node head slots) := by
  rintro ⟨t, ht, -⟩
  cases ht

theorem not_isToken_absent {P : Token → Prop} : ¬ IsToken P .absent := by
  rintro ⟨t, ht, -⟩
  cases ht

theorem exists_within_isToken {P : Token → Prop} {s : Slot} :
    (∃ f, f.Within s ∧ IsToken P f) ↔ ∃ t : Token, t.toSlot.Within s ∧ P t := by
  constructor
  · rintro ⟨f, hf, t, rfl, hP⟩
    exact ⟨t, hf, hP⟩
  · rintro ⟨t, ht, hP⟩
    exact ⟨_, ht, t, rfl, hP⟩

theorem Made.diagnostics_iff {s : Slot} (h : s.Made) :
    s.flags.diagnostics = true ↔ ∃ f : Slot, f.Within s ∧ f.diagnostics ≠ [] := by
  refine h.flag_iff ⟨rfl, fun hne => hne rfl⟩ ?_ ?_
  · intro head leading hmade
    rw [hmade.token_parts.2.2.1, Token.summary_eq]
    simp [Slot.diagnostics]
  · intro head slots hmade
    rw [hmade.node_flags, Node.summary_eq]
    simp [Slot.diagnostics, or_comm]

theorem Made.skippedText_iff {s : Slot} (h : s.Made) :
    s.flags.skippedText = true ↔ ∃ t : Token, t.toSlot.Within s ∧ t.kind = .skippedTokens := by
  rw [← exists_within_isToken]
  refine h.flag_iff ⟨rfl, not_isToken_absent⟩ ?_ ?_
  · intro head leading hmade
    rw [hmade.token_parts.2.2.1, Token.summary_eq, isToken_token]
    simp
  · intro head slots hmade
    rw [hmade.node_flags, Node.summary_eq]
    simp [not_isToken_node]

theorem Made.missing_iff {s : Slot} (h : s.Made) :
    s.flags.missing = true ↔ ∃ t : Token, t.toSlot.Within s ∧ t.isMissing = true := by
  rw [← exists_within_isToken]
  refine h.flag_iff ⟨rfl, not_isToken_absent⟩ ?_ ?_
  · intro head leading hmade
    rw [hmade.token_parts.2.2.1, Token.summary_eq, isToken_token]
    simp [Token.isMissing]
  · intro head slots hmade
    rw [hmade.node_flags, Node.summary_eq]
    simp [not_isToken_node]

/-- A fact is present iff one of its tokens is; trivia does not count. -/
theorem Made.present_iff {s : Slot} (h : s.Made) :
    s.flags.isMissing = false ↔ ∃ t ∈ s.tokens, t.isMissing = false := by
  induction h with
  | absent => simp [tokens_absent, Slot.flags, Flags.isMissing, Flags.none]
  | @token id leading kind width missing diagnostics t _ _ _ _ => simp [tokens_token, Slot.flags, Token.isMissing]
  | @node id kind shape layout slots diagnostics n hslots _ hn ih =>
      obtain ⟨_, _, rfl⟩ := Node.assemble_eq_ok_iff.1 hn
      have hsummary : (Node.summary slots diagnostics).isMissing = false ↔ ∃ s ∈ slots, s.flags.isMissing = false := by
        rw [Node.summary_eq]
        simp [Flags.isMissing]
      refine hsummary.trans ?_
      constructor
      · rintro ⟨s, hs, hpresent⟩
        obtain ⟨t, ht, hborn⟩ := (ih s hs).1 hpresent
        exact ⟨t, mem_tokens_node.2 ⟨s, hs, ht⟩, hborn⟩
      · rintro ⟨t, ht, hpresent⟩
        obtain ⟨s, hs, ht⟩ := mem_tokens_node.1 ht
        exact ⟨s, hs, (ih s hs).2 ⟨t, ht, hpresent⟩⟩

theorem Made.within_of_mem_tokens {s : Slot} (h : s.Made) {t : Token} (ht : t ∈ s.tokens) : t.toSlot.Within s := by
  induction h with
  | absent =>
      rw [tokens_absent] at ht
      cases ht
  | token _ _ _ _ =>
      rw [tokens_token, List.mem_singleton] at ht
      rw [ht]
      exact .self
  | node _ _ hn ih =>
      obtain ⟨_, _, rfl⟩ := Node.assemble_eq_ok_iff.1 hn
      obtain ⟨s, hs, hin⟩ := mem_tokens_node.1 ht
      exact .slot hs (ih s hs hin)

end Slot

/-- **The flags mean what they say about the whole subtree**, leading trivia at any depth included: a fact is flagged
for diagnostics iff one of its parts owns some, for skipped text iff one of its tokens is skipped text, for missing
tokens iff one of its tokens was made missing, and it is not missing itself iff one of its tokens outside trivia was
made present. How a token was made can be read off it through all edits. -/
theorem flags_summarize {s : Slot} (h : s.Obtainable) :
    (s.flags.diagnostics = true ↔ ∃ f : Slot, f.Within s ∧ f.diagnostics ≠ []) ∧
    (s.flags.skippedText = true ↔ ∃ t : Token, t.toSlot.Within s ∧ t.kind = .skippedTokens) ∧
    (s.flags.missing = true ↔ ∃ t : Token, t.toSlot.Within s ∧ t.BornMissing) ∧
    (s.flags.isMissing = false ↔ ∃ t ∈ s.tokens, t.BornPresent) ∧
    ∀ t : Token, t.toSlot.Within s →
      (t.BornMissing ↔ t.isMissing = true) ∧ (t.BornPresent ↔ t.isMissing = false) := by
  have hmade := Slot.obtainable_iff_made.1 h
  have hborn : ∀ t : Token, t.toSlot.Within s →
      (t.BornMissing ↔ t.isMissing = true) ∧ (t.BornPresent ↔ t.isMissing = false) :=
    fun t ht => (hmade.within ht).born
  refine ⟨hmade.diagnostics_iff, hmade.skippedText_iff, hmade.missing_iff.trans ?_, hmade.present_iff.trans ?_, hborn⟩
  · exact exists_congr fun t => and_congr_right fun ht => (hborn t ht).1.symm
  · exact exists_congr fun t => and_congr_right fun ht => (hborn t (hmade.within_of_mem_tokens ht)).2.symm

/-- A node with an empty slot and a missing name, which stands behind a blank and skipped text. -/
def strandedName : Except Fault Node := do
  let blank := Token.plain 0 .whitespace 1
  let stray ← (Token.plain 1 .skippedTokens 2).withDiagnostics 2 [.error Diagnostic.skippedText 0 2]
  let leading ← packTrivia 3 [blank.toSlot, stray.toSlot]
  let name ← Token.makeMissing 4 leading .name [.error Diagnostic.expectedToken 0 0]
  Node.make 5 .nameRef [.absent, name.toSlot]

theorem strandedName_flags : ∃ n, strandedName = .ok n ∧ n.toSlot.Obtainable ∧
    n.flags = ⟨true, true, true, false⟩ ∧
    (∃ t : Token, t.toSlot.Within n.toSlot ∧ t.kind = .skippedTokens) ∧
    (∃ t : Token, t.toSlot.Within n.toSlot ∧ t.BornMissing) ∧ ¬ ∃ t ∈ n.toSlot.tokens, t.BornPresent := by
  have hflags : strandedName.toOption.map (·.flags) = some ⟨true, true, true, false⟩ := by decide +kernel
  cases hn : strandedName with
  | error f =>
      rw [hn] at hflags
      cases hflags
  | ok n =>
      rw [hn] at hflags
      have hset : n.flags = ⟨true, true, true, false⟩ := Option.some.inj hflags
      obtain ⟨stray, hstray, hrest⟩ := bind_eq_ok_iff.1 hn
      obtain ⟨leading, hleading, hrest⟩ := bind_eq_ok_iff.1 hrest
      obtain ⟨name, hname, hrest⟩ := bind_eq_ok_iff.1 hrest
      have hpacked : leading.Obtainable := by
        refine .trivia ?_ hleading
        simp only [List.mem_cons, List.not_mem_nil, or_false, forall_eq_or_imp, forall_eq]
        exact ⟨.plain 0 .whitespace 1, .tokenDiagnostics (.plain 1 .skippedTokens 2) hstray⟩
      have hobtained : n.toSlot.Obtainable := by
        refine .node ?_ hrest
        simp only [List.mem_cons, List.not_mem_nil, or_false, forall_eq_or_imp, forall_eq]
        exact ⟨.absent, .missing hpacked hname⟩
      obtain ⟨-, hskipped, hmissing, hpresent, -⟩ := flags_summarize hobtained
      have hslot : n.toSlot.flags = ⟨true, true, true, false⟩ := hset
      rw [hslot] at hskipped hmissing hpresent
      refine ⟨n, rfl, hobtained, hset, hskipped.1 rfl, hmissing.1 rfl, fun hex => ?_⟩
      have := hpresent.2 hex
      cases this

end LosslessSyntax
