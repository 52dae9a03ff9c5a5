import LosslessSyntax.Fact.Content

/-!
# Equality and hash of contents

Equality takes two short cuts: facts with one number are equal, and nodes with different remembered hashes are not.
Both are right as long as numbers stand for instances and the hashes remembered are right. Numbers stand for
instances because facts come into being one after the other, each made of facts that are there already, under a
number that none of them has. That is what `Stock` says, and its induction is the one that the proofs here use.

* `Slot.content` : a fact without its storage shape, its instance and the texts of its diagnostics;
* `Stock` : facts made one after the other; `Stock.forall_of_parts` : induction along the way they were made;
* `HashMemo.Right` : the hashes remembered are those of the facts;
* `HashMemo.hash_right` : asking for a hash gives the hash of the content, and remembers only right ones;
* `HashMemo.equal_iff` : equality compares contents, whatever is remembered;
* `content_coherent` : equality and hash in any two states of the memory.
-/

set_option autoImplicit false

namespace LosslessSyntax

def TokenHead.content (head : TokenHead) : TokenHead := { head with id := 0, diagnostics := [] }

def NodeHead.content (head : NodeHead) : NodeHead := { head with id := 0, layout := .empty, diagnostics := [] }

theorem TokenHead.content_eq_iff {a b : TokenHead} :
    a.content = b.content ↔ a.kind = b.kind ∧ a.flags = b.flags ∧ a.width = b.width := by
  unfold TokenHead.content
  rw [TokenHead.mk.injEq]
  simp only [true_and, and_true]

theorem NodeHead.content_eq_iff {a b : NodeHead} :
    a.content = b.content ↔ a.kind = b.kind ∧ a.flags = b.flags ∧ a.fullWidth = b.fullWidth := by
  unfold NodeHead.content
  rw [NodeHead.mk.injEq]
  simp only [true_and, and_true]

namespace Slot

mutual

/-- The fact with instance numbers, storage shapes and diagnostics forgotten. -/
def content : Slot → Slot
  | .absent => .absent
  | .token head leading => .token head.content leading.content
  | .node head slots => .node head.content (contents slots)

def contents : List Slot → List Slot
  | [] => []
  | s :: rest => s.content :: contents rest

end

theorem length_contents (slots : List Slot) : (contents slots).length = slots.length := by
  induction slots with
  | nil => rfl
  | cons s rest ih => simp [contents, ih]

mutual

theorem contentHash_content (s : Slot) : s.content.contentHash = s.contentHash := by
  cases s with
  | absent => rfl
  | token head leading =>
      rw [content, contentHash, contentHash, contentHash_content leading]
      rfl
  | node head slots =>
      rw [content, contentHash, contentHash, contentHashes_contents slots]
      rfl

theorem contentHashes_contents (slots : List Slot) : contentHashes (contents slots) = contentHashes slots := by
  cases slots with
  | nil => rfl
  | cons s rest => rw [contents, contentHashes, contentHashes, contentHash_content s, contentHashes_contents rest]

end

theorem contentHash_eq {s t : Slot} (h : s.content = t.content) : s.contentHash = t.contentHash := by
  rw [← contentHash_content s, h, contentHash_content t]

/-- No hash of a fact is 0, which stands for an absent slot. -/
theorem contentHash_ne_zero {s : Slot} (h : s.isPresent = true) : s.contentHash ≠ 0 := by
  have hfold : ∀ word, Mix.fold word ≠ 0 := by
    intro word
    unfold Mix.fold
    dsimp only
    split
    · decide
    · assumption
  cases s with
  | absent => cases h
  | token head leading =>
      rw [contentHash]
      exact hfold _
  | node head slots =>
      rw [contentHash]
      exact hfold _

/-- What a fact is made of: its leading trivia, or its slots. -/
def parts : Slot → List Slot
  | .absent => []
  | .token _ leading => [leading]
  | .node _ slots => slots

end Slot

/-! ## Facts made one after the other -/

/-- Facts made one after the other, the latest first. Each is made of facts that were there before, and its number
is new. -/
inductive Stock : List Slot → Prop
  | empty : Stock []
  | add {stock : List Slot} {s : Slot} (h : Stock stock) (hpresent : s.isPresent = true)
      (hparts : ∀ part ∈ s.parts, part ∈ Slot.absent :: stock) (hnew : ∀ f ∈ stock, f.id? ≠ s.id?) :
      Stock (s :: stock)

namespace Stock

variable {stock : List Slot}

/-- Every way to make a token ends in this step. -/
theorem addToken {id : Nat} {leading : Slot} {kind : Kind} {width : Nat} {missing : Bool}
    {diagnostics : List Diagnostic} {t : Token} (h : Stock stock) (hleading : leading ∈ Slot.absent :: stock)
    (hnew : ∀ f ∈ stock, f.id? ≠ some id)
    (ht : Token.assembleChecked id leading kind width missing diagnostics = .ok t) : Stock (t.toSlot :: stock) := by
  unfold Token.assembleChecked at ht
  split at ht
  · cases ht
    refine .add h rfl ?_ hnew
    intro part hpart
    rw [List.mem_singleton.1 hpart]
    exact hleading
  · cases ht

/-- Every way to make a node ends in this step. -/
theorem addNode {id : Nat} {kind : Kind} {layout : Layout} {slots : List Slot} {diagnostics : List Diagnostic}
    {n : Node} (h : Stock stock) (hslots : ∀ s ∈ slots, s ∈ Slot.absent :: stock) (hnew : ∀ f ∈ stock, f.id? ≠ some id)
    (hn : Node.assemble id kind layout slots diagnostics = .ok n) : Stock (n.toSlot :: stock) := by
  obtain ⟨width, -, he⟩ := bind_eq_ok_iff.1 hn
  cases he
  exact .add h rfl hslots hnew

theorem isPresent (h : Stock stock) {s : Slot} (hs : s ∈ stock) : s.isPresent = true := by
  induction h with
  | empty => cases hs
  | add _ hpresent _ _ ih =>
      rcases List.mem_cons.1 hs with rfl | hs
      · exact hpresent
      · exact ih hs

theorem part_mem (h : Stock stock) {s part : Slot} (hs : s ∈ stock) (hpart : part ∈ s.parts) :
    part ∈ Slot.absent :: stock := by
  have hgrow : ∀ {f : Slot} {rest : List Slot}, part ∈ Slot.absent :: rest → part ∈ Slot.absent :: f :: rest := by
    intro f rest hmem
    rcases List.mem_cons.1 hmem with rfl | hmem
    · exact List.mem_cons_self
    · exact List.mem_cons_of_mem _ (List.mem_cons_of_mem _ hmem)
  induction h with
  | empty => cases hs
  | add _ _ hparts _ ih =>
      rcases List.mem_cons.1 hs with rfl | hs
      · exact hgrow (hparts part hpart)
      · exact hgrow (ih hs)

theorem eq_of_id (h : Stock stock) {s t : Slot} (hs : s ∈ stock) (ht : t ∈ stock) (hid : s.id? = t.id?) : s = t := by
  induction h with
  | empty => cases hs
  | add _ _ _ hnew ih =>
      rcases List.mem_cons.1 hs with rfl | hs'
      · rcases List.mem_cons.1 ht with rfl | ht'
        · rfl
        · exact absurd hid.symm (hnew t ht')
      · rcases List.mem_cons.1 ht with rfl | ht'
        · exact absurd hid (hnew s hs')
        · exact ih hs' ht'

/-- What holds of a fact whenever it holds of the parts, and holds of an absent slot, holds of the whole stock. -/
theorem forall_of_parts (h : Stock stock) {P : Slot → Prop} (habsent : P .absent)
    (hstep : ∀ s ∈ stock, (∀ part ∈ s.parts, P part) → P s) : ∀ s ∈ Slot.absent :: stock, P s := by
  induction h with
  | empty =>
      intro s hs
      rw [List.mem_singleton.1 hs]
      exact habsent
  | @add stock f _ _ hparts _ ih =>
      have hrest := ih fun s hs => hstep s (List.mem_cons_of_mem _ hs)
      intro s hs
      rcases List.mem_cons.1 hs with rfl | hs
      · exact habsent
      rcases List.mem_cons.1 hs with rfl | hs
      · exact hstep s List.mem_cons_self fun part hpart => hrest part (hparts part hpart)
      · exact hrest s (List.mem_cons_of_mem _ hs)

end Stock

/-! ## Remembered hashes -/

namespace HashMemo

/-- The hashes remembered are those of the facts of the stock. -/
def Right (stock : List Slot) (memo : HashMemo) : Prop :=
  ∀ f ∈ stock, ∀ id, f.id? = some id → ∀ known, memo.find? id = some known → known = f.contentHash

def after (calls : List Slot) : HashMemo := calls.foldl (fun memo s => (hash s memo).2) {}

/-- The memory has come about by questions about facts of the stock. -/
def Reached (stock : List Slot) (memo : HashMemo) : Prop := ∃ calls, calls ⊆ stock ∧ memo = after calls

theorem find?_insert (memo : HashMemo) (id id' : Nat) (value : UInt32) :
    (memo.insert id value).find? id' = if id' == id then some value else memo.find? id' := by
  unfold insert find?
  rw [List.lookup_cons]
  cases id' == id <;> rfl

variable {stock : List Slot} {memo : HashMemo}

theorem Right.insert (h : memo.Right stock) (hstock : Stock stock) {s : Slot} (hs : s ∈ stock) {id : Nat}
    (hid : s.id? = some id) : (memo.insert id s.contentHash).Right stock := by
  intro f hf id' hid' known hknown
  rw [find?_insert] at hknown
  split at hknown
  · next heq =>
    have hsame : f.id? = s.id? := by rw [hid', hid, beq_iff_eq.1 heq]
    rw [hstock.eq_of_id hf hs hsame]
    exact (Option.some.inj hknown).symm
  · exact h f hf id' hid' known hknown

/-- The answer is the hash of the content, and what is remembered afterwards is right. -/
def Honest (stock : List Slot) (s : Slot) : Prop :=
  ∀ memo : HashMemo, memo.Right stock → (hash s memo).1 = s.contentHash ∧ (hash s memo).2.Right stock

theorem hashes_right {slots : List Slot} (h : ∀ s ∈ slots, Honest stock s) (hm : memo.Right stock) :
    (hashes slots memo).1 = Slot.contentHashes slots ∧ (hashes slots memo).2.Right stock := by
  induction slots generalizing memo with
  | nil => exact ⟨rfl, hm⟩
  | cons s rest ih =>
      obtain ⟨hfirst, hm'⟩ := h s List.mem_cons_self memo hm
      obtain ⟨hothers, hm''⟩ := ih (fun t ht => h t (List.mem_cons_of_mem _ ht)) hm'
      rw [hashes, Slot.contentHashes, ← hfirst, ← hothers]
      exact ⟨rfl, hm''⟩

theorem hash_right (hstock : Stock stock) : ∀ s ∈ Slot.absent :: stock, Honest stock s := by
  refine hstock.forall_of_parts ?_ ?_
  · intro memo hm
    rw [hash]
    exact ⟨rfl, hm⟩
  · intro s hs ih memo hm
    cases s with
    | absent => exact absurd (hstock.isPresent hs) Bool.false_ne_true
    | token head leading =>
        rw [hash]
        cases hfind : memo.find? head.id with
        | some known => exact ⟨hm _ hs head.id rfl known hfind, hm⟩
        | none =>
            obtain ⟨hvalue, hm'⟩ := ih leading List.mem_cons_self memo hm
            have hhash : head.hash (hash leading memo).1 = (Slot.token head leading).contentHash := by
              rw [hvalue, Slot.contentHash]
            refine ⟨hhash, ?_⟩
            show ((hash leading memo).2.insert head.id (head.hash (hash leading memo).1)).Right stock
            rw [hhash]
            exact hm'.insert hstock hs rfl
    | node head slots =>
        rw [hash]
        cases hfind : memo.find? head.id with
        | some known => exact ⟨hm _ hs head.id rfl known hfind, hm⟩
        | none =>
            have hslots : ∀ s ∈ slots, Honest stock s := ih
            obtain ⟨hvalue, hm'⟩ := hashes_right hslots hm
            have hhash : head.hash (hashes slots memo).1 = (Slot.node head slots).contentHash := by
              rw [hvalue, Slot.contentHash]
            refine ⟨hhash, ?_⟩
            show ((hashes slots memo).2.insert head.id (head.hash (hashes slots memo).1)).Right stock
            rw [hhash]
            exact hm'.insert hstock hs rfl

theorem Reached.right (h : memo.Reached stock) (hstock : Stock stock) : memo.Right stock := by
  obtain ⟨calls, hcalls, rfl⟩ := h
  have hrun : ∀ start : HashMemo, start.Right stock →
      (calls.foldl (fun memo s => (hash s memo).2) start).Right stock := by
    induction calls with
    | nil => exact fun start hstart => hstart
    | cons s rest ih =>
        rw [List.cons_subset] at hcalls
        intro start hstart
        have hs := hash_right hstock s (List.mem_cons_of_mem _ hcalls.1)
        exact ih hcalls.2 _ (hs start hstart).2
  refine hrun {} ?_
  intro f hf id hid known hknown
  cases hknown

/-! ## Equality -/

/-- Facts with one content are never told apart by their remembered hashes. -/
theorem Right.refutes_eq_false (h : memo.Right stock) {s t : Slot} (hs : s ∈ stock) (ht : t ∈ stock) {a b : Nat}
    (ha : s.id? = some a) (hb : t.id? = some b) (hcontent : s.content = t.content) : memo.refutes a b = false := by
  unfold refutes
  split
  · next x y hx hy =>
    rw [h s hs a ha x hx, h t ht b hb y hy, Slot.contentHash_eq hcontent]
    simp
  · rfl

/-- The fact is compared by content with every fact of the stock. -/
def Compares (stock : List Slot) (memo : HashMemo) (s : Slot) : Prop :=
  ∀ t ∈ Slot.absent :: stock, memo.equal s t = true ↔ s.content = t.content

theorem equalAll_iff {slots slots' : List Slot} (h : ∀ s ∈ slots, Compares stock memo s)
    (hslots' : ∀ t ∈ slots', t ∈ Slot.absent :: stock) (hlength : slots.length = slots'.length) :
    memo.equalAll slots slots' = true ↔ Slot.contents slots = Slot.contents slots' := by
  induction slots generalizing slots' with
  | nil =>
      obtain rfl : slots' = [] := List.eq_nil_of_length_eq_zero hlength.symm
      simp [equalAll]
  | cons s rest ih =>
      cases slots' with
      | nil => cases hlength
      | cons t rest' =>
          have hfirst := h s List.mem_cons_self t (hslots' t List.mem_cons_self)
          have hrest := ih (fun u hu => h u (List.mem_cons_of_mem _ hu))
            (fun u hu => hslots' u (List.mem_cons_of_mem _ hu)) (Nat.succ.inj hlength)
          rw [equalAll, Bool.and_eq_true, hfirst, hrest, Slot.contents, Slot.contents, List.cons.injEq]

/-- Equality of facts of the stock is equality of contents, whatever is remembered. -/
theorem equal_iff (hstock : Stock stock) (hm : memo.Right stock) :
    ∀ s ∈ Slot.absent :: stock, Compares stock memo s := by
  refine hstock.forall_of_parts ?_ ?_
  · intro t _
    cases t <;> simp [equal, Slot.content]
  · intro s hs ih t ht
    -- the same number is the same fact, so the first short cut never says too much
    have hsame : ∀ {id}, s.id? = some id → t.id? = some id → s.content = t.content := by
      intro id hid hid'
      have ht' : t ∈ stock := by
        rcases List.mem_cons.1 ht with rfl | ht
        · cases hid'
        · exact ht
      rw [hstock.eq_of_id hs ht' (hid.trans hid'.symm)]
    cases s with
    | absent => exact absurd (hstock.isPresent hs) Bool.false_ne_true
    | token head leading =>
        cases t with
        | absent => simp [equal, Slot.content]
        | node head' slots' => simp [equal, Slot.content]
        | token head' leading' =>
            have hmem : Slot.token head' leading' ∈ stock := by simpa using ht
            have hleading := ih leading List.mem_cons_self leading' (hstock.part_mem hmem List.mem_cons_self)
            have hfull : (head.kind == head'.kind && head.flags == head'.flags && head.width == head'.width
                && memo.equal leading leading') = true ↔
                (Slot.token head leading).content = (Slot.token head' leading').content := by
              simp only [Bool.and_eq_true, beq_iff_eq, hleading, Slot.content, Slot.token.injEq,
                TokenHead.content_eq_iff, and_assoc]
            rw [equal, Bool.or_eq_true, hfull, beq_iff_eq]
            exact or_iff_right_of_imp fun hid => hsame rfl (congrArg some hid.symm)
    | node head slots =>
        cases t with
        | absent => simp [equal, Slot.content]
        | token head' leading' => simp [equal, Slot.content]
        | node head' slots' =>
            have hmem : Slot.node head' slots' ∈ stock := by simpa using ht
            have hslots : slots.length = slots'.length →
                (memo.equalAll slots slots' = true ↔ Slot.contents slots = Slot.contents slots') :=
              equalAll_iff ih fun u hu => hstock.part_mem hmem hu
            rw [equal, Bool.or_eq_true, beq_iff_eq]
            constructor
            · rintro (hid | hfull)
              · exact hsame rfl (congrArg some hid.symm)
              · simp only [Bool.and_eq_true, beq_iff_eq] at hfull
                obtain ⟨⟨⟨⟨⟨hkind, hflags⟩, hwidth⟩, hlength⟩, -⟩, hall⟩ := hfull
                rw [Slot.content, Slot.content, (hslots hlength).1 hall,
                  NodeHead.content_eq_iff.2 ⟨hkind, hflags, hwidth⟩]
            · intro hcontent
              have hrefutes := hm.refutes_eq_false hs hmem rfl rfl hcontent
              rw [Slot.content, Slot.content, Slot.node.injEq, NodeHead.content_eq_iff] at hcontent
              obtain ⟨⟨hkind, hflags, hwidth⟩, hcontents⟩ := hcontent
              have hlength : slots.length = slots'.length := by
                rw [← Slot.length_contents, hcontents, Slot.length_contents]
              refine .inr ?_
              simp only [Bool.and_eq_true, beq_iff_eq, hrefutes, Bool.not_false]
              exact ⟨⟨⟨⟨⟨hkind, hflags⟩, hwidth⟩, hlength⟩, trivial⟩, (hslots hlength).2 hcontents⟩

end HashMemo

/-- **Equality and hash of contents are coherent and independent of what is remembered.** Whatever hashes have been
asked for, two facts are equal exactly when their contents are, and then their hashes are the same. No hash is 0, and
asking for it once more gives it again. -/
theorem content_coherent {stock : List Slot} (hstock : Stock stock) {memo memo' : HashMemo}
    (hm : memo.Reached stock) (hm' : memo'.Reached stock) :
    (∀ a ∈ stock, ∀ b ∈ stock, (memo.equal a b = true ↔ a.content = b.content) ∧
      memo.equal a b = memo'.equal a b ∧
      (memo.equal a b = true → (HashMemo.hash a memo).1 = (HashMemo.hash b memo').1)) ∧
    Equivalence (fun a b : { f // f ∈ stock } => memo.equal a.1 b.1 = true) ∧
    ∀ a ∈ stock, (HashMemo.hash a memo).1 ≠ 0 ∧ (HashMemo.hash a memo).1 = (HashMemo.hash a memo').1 ∧
      (HashMemo.hash a (HashMemo.hash a memo).2).1 = (HashMemo.hash a memo).1 := by
  have hright := hm.right hstock
  have hright' := hm'.right hstock
  have hequal : ∀ a ∈ stock, ∀ b ∈ stock, memo.equal a b = true ↔ a.content = b.content := fun a ha b hb =>
    HashMemo.equal_iff hstock hright a (List.mem_cons_of_mem _ ha) b (List.mem_cons_of_mem _ hb)
  have hequal' : ∀ a ∈ stock, ∀ b ∈ stock, memo'.equal a b = true ↔ a.content = b.content := fun a ha b hb =>
    HashMemo.equal_iff hstock hright' a (List.mem_cons_of_mem _ ha) b (List.mem_cons_of_mem _ hb)
  have hhash : ∀ a ∈ stock, ∀ m : HashMemo, m.Right stock →
      (HashMemo.hash a m).1 = a.contentHash ∧ (HashMemo.hash a m).2.Right stock := fun a ha =>
    HashMemo.hash_right hstock a (List.mem_cons_of_mem _ ha)
  refine ⟨fun a ha b hb => ⟨hequal a ha b hb, ?_, fun heq => ?_⟩, ⟨?_, ?_, ?_⟩, fun a ha => ⟨?_, ?_, ?_⟩⟩
  · rw [Bool.eq_iff_iff, hequal a ha b hb, hequal' a ha b hb]
  · rw [(hhash a ha memo hright).1, (hhash b hb memo' hright').1]
    exact Slot.contentHash_eq ((hequal a ha b hb).1 heq)
  · intro a
    exact (hequal _ a.2 _ a.2).2 rfl
  · intro a b hab
    exact (hequal _ b.2 _ a.2).2 ((hequal _ a.2 _ b.2).1 hab).symm
  · intro a b c hab hbc
    exact (hequal _ a.2 _ c.2).2 (((hequal _ a.2 _ b.2).1 hab).trans ((hequal _ b.2 _ c.2).1 hbc))
  · rw [(hhash a ha memo hright).1]
    exact Slot.contentHash_ne_zero (hstock.isPresent ha)
  · rw [(hhash a ha memo hright).1, (hhash a ha memo' hright').1]
  · obtain ⟨hvalue, hafter⟩ := hhash a ha memo hright
    rw [(hhash a ha _ hafter).1, hvalue]

def gappedSlots : List Slot :=
  [(Token.plain 0 .name 1).toSlot, .absent, (Token.plain 1 .comma 1).toSlot, (Token.plain 2 .name 2).toSlot]

/-- The same slots stored short and long are two instances with one content, also while the hash of only one of them
is known. -/
theorem gappedSlots_stored_twice : ∃ (short long : Node) (stock : List Slot),
    Node.makeShaped 3 .list .short gappedSlots = .ok short ∧ Node.makeShaped 4 .list .long gappedSlots = .ok long ∧
    Stock stock ∧ short.toSlot ∈ stock ∧ long.toSlot ∈ stock ∧
    (HashMemo.after [short.toSlot]).equal short.toSlot long.toSlot = true ∧
    (HashMemo.hash short.toSlot (HashMemo.after [short.toSlot])).1 = (HashMemo.hash long.toSlot {}).1 := by
  have hplain : ∀ {stock : List Slot} (id : Nat) (kind : Kind) (width : Nat), Stock stock →
      (∀ f ∈ stock, f.id? ≠ some id) → Stock ((Token.plain id kind width).toSlot :: stock) := by
    intro stock id kind width hstock hnew
    have ht : Token.assembleChecked id .absent kind width false [] = .ok (Token.plain id kind width) := by
      simp [Token.assembleChecked, Token.plain, Slot.tokens, Slot.walkTokens]
    exact hstock.addToken List.mem_cons_self hnew ht
  have htokens : Stock [(Token.plain 2 .name 2).toSlot, (Token.plain 1 .comma 1).toSlot,
      (Token.plain 0 .name 1).toSlot] :=
    hplain 2 .name 2 (hplain 1 .comma 1 (hplain 0 .name 1 .empty (by simp)) (by decide +kernel)) (by decide +kernel)
  obtain ⟨short, long, hshort, hlong, hid, hcontent⟩ : ∃ short long : Node,
      Node.makeShaped 3 .list .short gappedSlots = .ok short ∧ Node.makeShaped 4 .list .long gappedSlots = .ok long ∧
      short.head.id = 3 ∧ short.toSlot.content = long.toSlot.content := ⟨_, _, rfl, rfl, rfl, rfl⟩
  obtain ⟨layout, -, hshort'⟩ := bind_eq_ok_iff.1 hshort
  obtain ⟨layout', -, hlong'⟩ := bind_eq_ok_iff.1 hlong
  have hstock := htokens.addNode (by simp [gappedSlots]) (by decide +kernel) hshort'
  have hstock := hstock.addNode (by simp [gappedSlots]) (by
    rw [List.forall_mem_cons]
    exact ⟨by simp [Node.toSlot, Slot.id?, hid], by decide +kernel⟩) hlong'
  obtain ⟨hpairs, -, -⟩ := content_coherent hstock ⟨[short.toSlot], by simp, rfl⟩ ⟨[], List.nil_subset _, rfl⟩
  obtain ⟨hequal, -, hhash⟩ := hpairs short.toSlot (by simp) long.toSlot (by simp)
  exact ⟨short, long, _, hshort, hlong, hstock, by simp, by simp, hequal.2 hcontent, hhash (hequal.2 hcontent)⟩

end LosslessSyntax
