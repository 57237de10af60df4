import NexusLedger.Theorems.ChainStore

/-! What a step of a node does to its chain: the block calls it makes, one after the other, and nothing else
    to the blocks table. Each handler is summed up once. -/

namespace NexusLedger
open Blockchain

section
set_option linter.unusedSectionVars false
variable [Arithmetic]

/-! ### Effects -/

namespace Effect

def call? : Effect → Option (Blockchain × Call)
  | .call before c => some (before, c)
  | _ => none

def broadcast? : Effect → Option Message
  | .broadcast msg => some msg
  | _ => none

def reply? : Effect → Option Message
  | .reply msg => some msg
  | _ => none

end Effect

/-- The block calls among some effects, each with the chain it ran on. -/
def calls (effects : List Effect) : List (Blockchain × Call) := effects.filterMap (·.call?)

def broadcasts (effects : List Effect) : List Message := effects.filterMap (·.broadcast?)

def replies (effects : List Effect) : List Message := effects.filterMap (·.reply?)

/-- The calls lead from one chain to the other; between them no block row changes. None of them empties the chain. -/
inductive Traced (env : Env) : Blockchain → List (Blockchain × Call) → Blockchain → Prop
  | done {c d : Blockchain} (h : d.rows = c.rows) : Traced env c [] d
  | call {c d : Blockchain} (k : Call) {rest : List (Blockchain × Call)} (spares : ¬c.Empties k)
    (h : Traced env (c.exec env k).2 rest d) : Traced env c ((c, k) :: rest) d

namespace Traced
variable {env : Env} {c d : Blockchain} {ks : List (Blockchain × Call)}

theorem keeps {P : Blockchain → Prop} (h : Traced env c ks d)
    (congr : ∀ {c d : Blockchain}, d.rows = c.rows → P c → P d) (keep : ∀ x ∈ ks, P x.1 → P (x.1.exec env x.2).2) : P c → P d := by
  induction h with
  | done hrows => exact congr hrows
  | @call c d k rest _ _ ih =>
    intro hc
    exact ih (fun x hx => keep x (List.mem_cons_of_mem _ hx)) (keep (c, k) List.mem_cons_self hc)

/-- The chains that the calls run on keep what every call keeps. -/
theorem keeps_before {P : Blockchain → Prop} (h : Traced env c ks d)
    (keep : ∀ x ∈ ks, P x.1 → P (x.1.exec env x.2).2) (hc : P c) : ∀ x ∈ ks, P x.1 := by
  induction h with
  | done => exact fun x hx => absurd hx List.not_mem_nil
  | @call c d k rest _ _ ih =>
    rw [List.forall_mem_cons] at keep ⊢
    exact ⟨hc, ih keep.2 (keep.1 hc)⟩

theorem spares (h : Traced env c ks d) : ∀ x ∈ ks, ¬x.1.Empties x.2 := by
  induction h with
  | done => exact fun x hx => absurd hx List.not_mem_nil
  | @call c d k rest hspare _ ih => exact List.forall_mem_cons.mpr ⟨hspare, ih⟩

theorem chained (h : Traced env c ks d) (hc : c.Chained) : d.Chained := by
  induction h with
  | done hrows => exact hc.congr hrows
  | @call c d k rest hspare _ ih => exact ih (hc.exec hspare)

variable {P : Blockchain → Prop} {J : Blockchain → Call → Prop}

theorem of_adds (h : Traced env c ks d) (hadds : ∀ x ∈ ks, ∃ b, x.2 = .addBlock b)
    (congr : ∀ {c d : Blockchain}, d.rows = c.rows → (P d ↔ P c))
    (back : ∀ (c : Blockchain) b, P (c.addBlock b).2 → P c) (hd : P d) : P c := by
  induction h with
  | done hrows => exact (congr hrows).mp hd
  | @call c d k rest _ _ ih =>
    rw [List.forall_mem_cons] at hadds
    obtain ⟨⟨b, rfl⟩, hrest⟩ := hadds
    exact back c b (ih hrest hd)

/-- Where a property that is lost stays lost, the chain in the end shows whether one of the calls lost it. -/
theorem adds_iff (h : Traced env c ks d) (hadds : ∀ x ∈ ks, ∃ b, x.2 = .addBlock b) (hc : c.Chained) (hP : P c)
    (congr : ∀ {c d : Blockchain}, d.rows = c.rows → (P d ↔ P c))
    (back : ∀ (c : Blockchain) b, P (c.addBlock b).2 → P c)
    (add_iff : ∀ {c : Blockchain} {b}, c.Chained → P c → (P (c.addBlock b).2 ↔ ¬J c (.addBlock b))) :
    P d ↔ ∀ x ∈ ks, ¬J x.1 x.2 := by
  induction h with
  | done hrows => exact iff_of_true ((congr hrows).mpr hP) fun x hx => absurd hx List.not_mem_nil
  | @call c d k rest _ htail ih =>
    rw [List.forall_mem_cons] at hadds ⊢
    obtain ⟨⟨b, rfl⟩, hrest⟩ := hadds
    have hfirst : P (c.addBlock b).2 ↔ ¬J c (.addBlock b) := add_iff hc hP
    constructor
    · intro hd
      have hmid : P (c.addBlock b).2 := htail.of_adds hrest congr back hd
      exact ⟨hfirst.mp hmid, (ih hrest (hc.exec id) hmid).mp hd⟩
    · rintro ⟨hkeep, hkeeps⟩
      exact (ih hrest (hc.exec id) (hfirst.mpr hkeep)).mpr hkeeps

end Traced

/-! ### NEW_BLOCK -/

namespace Blockchain

/-- The first branch of the NEW_BLOCK handler: the block is the direct successor of the tip. -/
structure Extends (c : Blockchain) (b : Block) : Prop where
  height : b.height = c.getHeight + 1
  prevHash : ∃ tip, c.tip = some tip ∧ tip.hash.val = b.prevHash

theorem ne_succ (h : Int32) : h ≠ h + 1 := by
  intro heq
  have : h.toBitVec = h.toBitVec + 1#32 := congrArg Int32.toBitVec heq
  bv_omega

/-- Below another height the next one is no overflow. -/
theorem toInt_succ {h k : Int32} (hlt : h.toInt < k.toInt) : (h + 1).toInt = h.toInt + 1 := by
  have := k.toInt_lt
  have := h.le_toInt
  rw [Int32.toInt_add, Int.bmod_eq_of_le] <;> simp <;> omega

theorem Extends.not_competes {c : Blockchain} {b : Block} (h : c.Extends b) : ¬c.Competes b := fun hc =>
  ne_succ c.getHeight (hc.height.symm.trans h.height)

variable {env : Env} {c : Blockchain} {b last : Block}

theorem getBlock_tip (h : c.getBlock env c.getHeight = some last) :
    ∃ tip, c.tip = some tip ∧ tip.hash.val = last.hash ∧ tip.prevHash.val = last.prevHash := by
  obtain ⟨r, hr, hh, rfl⟩ := getBlock_eq_some_iff.mp h
  exact ⟨r, tip_eq_some_iff.mpr ⟨hr, hh⟩, rfl, rfl⟩

theorem extends_iff (h : c.getBlock env c.getHeight = some last) :
    c.Extends b ↔ b.height = c.getHeight + 1 ∧ b.prevHash = last.hash := by
  obtain ⟨tip, htip, hhash, -⟩ := getBlock_tip h
  constructor
  · rintro ⟨hheight, t, ht, hprev⟩
    rw [htip] at ht
    cases ht
    exact ⟨hheight, hprev.symm.trans hhash⟩
  · rintro ⟨hheight, hprev⟩
    exact ⟨hheight, tip, htip, hhash.trans hprev.symm⟩

theorem competes_iff (h : c.getBlock env c.getHeight = some last) :
    c.Competes b ↔ b.height = c.getHeight ∧ b.prevHash = last.prevHash := by
  obtain ⟨tip, htip, -, hprev'⟩ := getBlock_tip h
  constructor
  · rintro ⟨hheight, t, ht, hprev⟩
    rw [htip] at ht
    cases ht
    exact ⟨hheight, hprev.symm.trans hprev'⟩
  · rintro ⟨hheight, hprev⟩
    exact ⟨hheight, tip, htip, hprev'.trans hprev.symm⟩

/-- What is read from JSON is no NaN. -/
theorem valued_of_fromJson {payload : Json} (h : Block.fromJson env payload = .ok b) : b.difficulty.isNaN = false :=
  Double.isNaN_of_isFinite (Block.isFinite_of_fromJson h)

theorem not_empties_of_valued (now : Int64) (h : b.difficulty.isNaN = false) : ¬c.Empties (.replaceLastBlock b now) :=
  fun hempties => Bool.false_ne_true (h.symm.trans hempties.2.1)

theorem getBlock_of_tip (env : Env) {tip : BlockRow} (h : c.tip = some tip) :
    ∃ last, c.getBlock env c.getHeight = some last := by
  obtain ⟨hm, hh⟩ := tip_eq_some_iff.mp h
  exact ⟨_, getBlock_eq_some_iff.mpr ⟨tip, hm, hh, rfl⟩⟩

end Blockchain

namespace Node
variable {env : Env} {n : Node} {now : Int64} {payload : Json} {b : Block}

/-- What is sent when a block was taken. -/
def relay (n : Node) (now : Int64) (b : Block) (taken : Bool) : List Effect :=
  if taken then [.broadcast (n.newBlockMessage now b)] else []

/-- The node after a block call; a block that was taken ends the mining search. -/
def afterCall (n : Node) (result : Bool × Blockchain) : Node :=
  { n with blockchain := result.2, template := if result.1 then none else n.template }

theorem handleNewBlock_of_extends (hread : Block.fromJson env payload = .ok b) (h : n.blockchain.Extends b) :
    n.handleNewBlock env now payload =
      (n.afterCall (n.blockchain.addBlock b),
        .call n.blockchain (.addBlock b) :: n.relay now b (n.blockchain.addBlock b).1) := by
  obtain ⟨tip, htip, -⟩ := h.prevHash
  obtain ⟨last, hlast⟩ := getBlock_of_tip env htip
  have hcond := (extends_iff hlast).mp h
  unfold handleNewBlock
  simp only [hread, hlast, hcond, and_self, if_true]
  rcases n.blockchain.addBlock b with ⟨_ | _, d⟩ <;> rfl

theorem handleNewBlock_of_competes (hread : Block.fromJson env payload = .ok b) (h : n.blockchain.Competes b) :
    n.handleNewBlock env now payload =
      (n.afterCall (n.blockchain.replaceLastBlock env b now),
        .call n.blockchain (.replaceLastBlock b now) ::
          n.relay now b (n.blockchain.replaceLastBlock env b now).1) := by
  obtain ⟨tip, htip, -⟩ := h.prevHash
  obtain ⟨last, hlast⟩ := getBlock_of_tip env htip
  have hnot : ¬(b.height = n.blockchain.getHeight + 1 ∧ b.prevHash = last.hash) := fun he =>
    ((extends_iff hlast).mpr he).not_competes h
  have hcond := (competes_iff hlast).mp h
  unfold handleNewBlock
  simp only [hread, hlast, hnot, if_false]
  rw [if_pos hcond]
  rcases n.blockchain.replaceLastBlock env b now with ⟨_ | _, d⟩ <;> rfl

/-- A block above the tip that does not extend the chain makes the node ask for the blocks above its own. -/
theorem handleNewBlock_of_ahead (hread : Block.fromJson env payload = .ok b) {tip : BlockRow}
    (htip : n.blockchain.tip = some tip) (h : ¬n.blockchain.Extends b)
    (habove : n.blockchain.getHeight.toInt < b.height.toInt) :
    n.handleNewBlock env now payload = (n, [.reply (n.getBlocksMessage now (n.blockchain.getHeight + 1))]) := by
  obtain ⟨last, hlast⟩ := getBlock_of_tip env htip
  rw [extends_iff hlast] at h
  have hother : ¬(b.height = n.blockchain.getHeight ∧ b.prevHash = last.prevHash) := by
    rintro ⟨heq, -⟩
    rw [heq] at habove
    exact lt_irrefl _ habove
  have hsucc := toInt_succ habove
  have hahead : n.blockchain.getHeight + 1 < b.height ∨
      (b.height = n.blockchain.getHeight + 1 ∧ b.prevHash ≠ last.hash) := by
    by_cases heq : b.height = n.blockchain.getHeight + 1
    · exact Or.inr ⟨heq, fun hprev => h ⟨heq, hprev⟩⟩
    · have hne : b.height.toInt ≠ (n.blockchain.getHeight + 1).toInt := fun he => heq (Int32.toInt_inj.mp he)
      exact Or.inl (Int32.lt_iff_toInt_lt.mpr (by omega))
  unfold handleNewBlock
  simp only [hread, hlast, h, hother, if_false]
  rw [if_pos hahead]

/-- A difficulty that JSON does not have cannot be read: the handler ends there. -/
theorem handleNewBlock_of_not_finite (h : ¬b.difficulty.isFinite = true) :
    n.handleNewBlock env now (.obj b.headerMembers) = (n, []) := by
  simp only [handleNewBlock, Block.fromJson_headerMembers_of_not_finite env h]

/-- The NEW_BLOCK handler extends the chain, lets the block compete with the tip, or leaves the node alone. -/
theorem handleNewBlock_cases (env : Env) (n : Node) (now : Int64) (payload : Json) :
    (∃ b, Block.fromJson env payload = .ok b ∧ n.blockchain.Extends b) ∨
    (∃ b, Block.fromJson env payload = .ok b ∧ n.blockchain.Competes b) ∨
    (n.handleNewBlock env now payload).1 = n ∧
      ((n.handleNewBlock env now payload).2 = [] ∨
        ∃ h, (n.handleNewBlock env now payload).2 = [.reply (n.getBlocksMessage now h)]) := by
  cases hread : Block.fromJson env payload with
  | error e =>
    refine Or.inr (Or.inr ?_)
    simp [handleNewBlock, hread]
  | ok b =>
    cases hlast : n.blockchain.getBlock env n.blockchain.getHeight with
    | none =>
      refine Or.inr (Or.inr ?_)
      simp [handleNewBlock, hread, hlast]
    | some last =>
      by_cases he : n.blockchain.Extends b
      · exact Or.inl ⟨b, rfl, he⟩
      · by_cases hc : n.blockchain.Competes b
        · exact Or.inr (Or.inl ⟨b, rfl, hc⟩)
        · refine Or.inr (Or.inr ?_)
          rw [extends_iff hlast] at he
          rw [competes_iff hlast] at hc
          unfold handleNewBlock
          simp only [hread, hlast, he, hc, if_false]
          split
          · exact ⟨rfl, Or.inr ⟨_, rfl⟩⟩
          · exact ⟨rfl, Or.inl rfl⟩

end Node

/-! ### BLOCKS_RESPONSE -/

theorem addReceived_cons_of_skipped {c : Blockchain} {bj : Json} {rest : List Json} {b : Block}
    (hread : Block.readHeader bj = .ok b) (h : b.height ≤ c.getHeight) :
    Node.addReceived c (bj :: rest) = Node.addReceived c rest := by
  simp only [Node.addReceived, hread, h, if_true]

theorem addReceived_cons_of_above {c : Blockchain} {bj : Json} {rest : List Json} {b : Block}
    (hread : Block.readHeader bj = .ok b) (h : ¬b.height ≤ c.getHeight) :
    Node.addReceived c (bj :: rest) =
      ((Node.addReceived (c.addBlock b).2 rest).1,
        .call c (.addBlock b) :: (Node.addReceived (c.addBlock b).2 rest).2) := by
  simp only [Node.addReceived, hread, h, if_false]

/-- A step of the loop: a failed read ends it, a block at or below the height is skipped, any other one is
    handed to `addBlock`. -/
theorem addReceived_cases (c : Blockchain) (bj : Json) (rest : List Json) :
    Node.addReceived c (bj :: rest) = (c, []) ∨
    Node.addReceived c (bj :: rest) = Node.addReceived c rest ∨
    ∃ b, Block.readHeader bj = .ok b ∧ ¬b.height ≤ c.getHeight ∧
      Node.addReceived c (bj :: rest) =
        ((Node.addReceived (c.addBlock b).2 rest).1,
          .call c (.addBlock b) :: (Node.addReceived (c.addBlock b).2 rest).2) := by
  cases hread : Block.readHeader bj with
  | error e =>
    refine Or.inl ?_
    simp only [Node.addReceived, hread]
  | ok b =>
    by_cases h : b.height ≤ c.getHeight
    · exact Or.inr (Or.inl (addReceived_cons_of_skipped hread h))
    · exact Or.inr (Or.inr ⟨b, rfl, h, addReceived_cons_of_above hread h⟩)

theorem addReceived_effects (bs : List Json) (c : Blockchain) :
    ∀ e ∈ (Node.addReceived c bs).2, ∃ d b bj, bj ∈ bs ∧ Block.readHeader bj = .ok b ∧
      ¬b.height ≤ d.getHeight ∧ e = .call d (.addBlock b) := by
  induction bs generalizing c with
  | nil => intro e he; cases he
  | cons bj bs ih =>
    have tail : ∀ d : Blockchain, ∀ e ∈ (Node.addReceived d bs).2, ∃ d b bj', bj' ∈ bj :: bs ∧
        Block.readHeader bj' = .ok b ∧ ¬b.height ≤ d.getHeight ∧ e = .call d (.addBlock b) := by
      intro d e he
      obtain ⟨d, b, bj', hbj, h⟩ := ih d e he
      exact ⟨d, b, bj', List.mem_cons_of_mem _ hbj, h⟩
    intro e he
    rcases addReceived_cases c bj bs with h | h | ⟨b, hread, habove, h⟩
    · rw [h] at he
      cases he
    · rw [h] at he
      exact tail c e he
    · rw [h] at he
      rcases List.mem_cons.mp he with rfl | he
      · exact ⟨c, b, bj, List.mem_cons_self, hread, habove, rfl⟩
      · exact tail _ e he

theorem addReceived_traced (env : Env) (bs : List Json) (c : Blockchain) :
    Traced env c (calls (Node.addReceived c bs).2) (Node.addReceived c bs).1 := by
  induction bs generalizing c with
  | nil => exact .done rfl
  | cons bj bs ih =>
    rcases addReceived_cases c bj bs with h | h | ⟨b, -, -, h⟩
    · rw [h]
      exact .done rfl
    · rw [h]
      exact ih c
    · rw [h]
      exact .call (.addBlock b) id (ih _)

/-! ### Mining -/

namespace Node
variable {env : Env} {n : Node} {now : Int64}

theorem submit_of_mined {t : Template} {b : Block} (ht : n.template = some t)
    (hmined : t.block.search env 0 nonceLimit = some b) (hlow : ¬t.targetHeight ≤ n.blockchain.getHeight) :
    n.submit env now =
      ({ n with blockchain := (n.blockchain.addBlock b).2, template := none },
        .call n.blockchain (.addBlock b) :: n.relay now b (n.blockchain.addBlock b).1) := by
  unfold submit
  simp only [ht, hmined, hlow, if_false]
  rcases n.blockchain.addBlock b with ⟨_ | _, d⟩ <;> rfl

theorem submit_cases (env : Env) (n : Node) (now : Int64) :
    (∃ t b, n.template = some t ∧ t.block.search env 0 nonceLimit = some b ∧
      ¬t.targetHeight ≤ n.blockchain.getHeight) ∨
    n.submit env now = ({ n with template := none }, []) := by
  cases ht : n.template with
  | none =>
    refine Or.inr ?_
    unfold submit
    simp only [ht]
    rw [← ht]
  | some t =>
    cases hmined : t.block.search env 0 nonceLimit with
    | none =>
      refine Or.inr ?_
      unfold submit
      simp only [ht, hmined]
    | some b =>
      by_cases hlow : t.targetHeight ≤ n.blockchain.getHeight
      · refine Or.inr ?_
        unfold submit
        simp only [ht, hmined, hlow, if_true]
      · exact Or.inl ⟨t, b, rfl, hmined, hlow⟩

/-! ### Where the block calls of a step come from -/

/-- The ways a step comes to a block call. -/
inductive Origin (env : Env) (n : Node) : Event → Blockchain × Call → Prop
  | mined (now : Int64) {t : Template} {b : Block} (template : n.template = some t)
    (hit : t.block.search env 0 nonceLimit = some b) (low : ¬t.targetHeight ≤ n.blockchain.getHeight) :
    Origin env n (.own (.submit now)) (n.blockchain, .addBlock b)
  | extended (now : Int64) {msg : Message} {b : Block} (type : msg.type = .newBlock)
    (read : Block.fromJson env msg.payload = .ok b) (h : n.blockchain.Extends b) :
    Origin env n (.message now msg) (n.blockchain, .addBlock b)
  | competed (now : Int64) {msg : Message} {b : Block} (type : msg.type = .newBlock)
    (read : Block.fromJson env msg.payload = .ok b) (h : n.blockchain.Competes b) :
    Origin env n (.message now msg) (n.blockchain, .replaceLastBlock b now)
  | received (now : Int64) {msg : Message} {blocks : List Json} {bj : Json} {c : Blockchain} {b : Block}
    (type : msg.type = .blocksResponse) (payload : msg.payload = .arr blocks) (elem : bj ∈ blocks)
    (read : Block.readHeader bj = .ok b) (above : ¬b.height ≤ c.getHeight) :
    Origin env n (.message now msg) (c, .addBlock b)

theorem mem_calls {effects : List Effect} {x : Blockchain × Call} :
    x ∈ calls effects ↔ Effect.call x.1 x.2 ∈ effects := by
  unfold calls
  rw [List.mem_filterMap]
  constructor
  · rintro ⟨e, he, hx⟩
    cases e with
    | call before c =>
      cases hx
      exact he
    | broadcast msg => cases hx
    | reply msg => cases hx
  · intro h
    exact ⟨_, h, rfl⟩

@[simp] theorem calls_relay (b : Block) (taken : Bool) : calls (n.relay now b taken) = [] := by
  cases taken <;> rfl

@[simp] theorem calls_cons_call (c : Blockchain) (k : Call) (effects : List Effect) :
    calls (.call c k :: effects) = (c, k) :: calls effects := rfl

theorem ownStep_rows {e : OwnEvent} (h : ∀ now, e ≠ .submit now) :
    (n.ownStep env e).1.blockchain.rows = n.blockchain.rows ∧ calls (n.ownStep env e).2 = [] := by
  cases e with
  | http now body =>
    unfold ownStep handleHttp
    simp only
    split
    · exact ⟨rfl, rfl⟩
    · exact ⟨by simp [rows], rfl⟩
  | clean => exact ⟨by simp [ownStep, rows], rfl⟩
  | template now =>
    refine ⟨?_, rfl⟩
    unfold ownStep makeTemplate
    simp only
    split
    · rfl
    · simp [rows]
  | submit now => exact absurd rfl (h now)
  | abandon => exact ⟨rfl, rfl⟩
  | sync now => exact ⟨rfl, rfl⟩

theorem handleNewTransaction_rows (env : Env) (n : Node) (now : Int64) (payload : Json) :
    (n.handleNewTransaction env now payload).1.blockchain.rows = n.blockchain.rows ∧
      calls (n.handleNewTransaction env now payload).2 = [] := by
  unfold handleNewTransaction
  split
  · exact ⟨rfl, rfl⟩
  · rename_i tx _
    have hrows : (n.blockchain.addTransaction env tx now).2.rows = n.blockchain.rows := by simp [rows]
    split
    · rename_i c hc
      rw [hc] at hrows
      exact ⟨hrows, rfl⟩
    · rename_i c hc
      rw [hc] at hrows
      exact ⟨hrows, rfl⟩

theorem handleGetBlocks_frame (env : Env) (n : Node) (now : Int64) (payload : Json) :
    (n.handleGetBlocks env now payload).1 = n ∧ calls (n.handleGetBlocks env now payload).2 = [] := by
  unfold handleGetBlocks
  split
  · exact ⟨rfl, rfl⟩
  · split
    · exact ⟨rfl, rfl⟩
    · simp only
      split <;> exact ⟨rfl, rfl⟩

/-- What a step does to the block rows is the work of its block calls, and each of those has its origin. -/
theorem react_calls (env : Env) (n : Node) (e : Event) :
    Traced env n.blockchain (calls (n.react env e).2) (n.react env e).1.blockchain ∧
      ∀ x ∈ calls (n.react env e).2, Origin env n e x := by
  have quiet : ∀ {c : Blockchain} {effects : List Effect}, c.rows = n.blockchain.rows ∧ calls effects = [] →
      Traced env n.blockchain (calls effects) c ∧ ∀ x ∈ calls effects, Origin env n e x := by
    rintro _ _ ⟨hr, hc⟩
    rw [hc]
    exact ⟨.done hr, fun x hx => absurd hx List.not_mem_nil⟩
  cases e with
  | own own =>
    by_cases hsubmit : ∃ now, own = .submit now
    · obtain ⟨now, rfl⟩ := hsubmit
      rcases submit_cases env n now with ⟨t, b, ht, hmined, hlow⟩ | h
      · simp only [react, ownStep, submit_of_mined ht hmined hlow, calls_cons_call, calls_relay]
        refine ⟨.call (.addBlock b) id (.done rfl), fun x hx => ?_⟩
        rw [List.mem_singleton.mp hx]
        exact .mined now ht hmined hlow
      · simp only [react, ownStep, h]
        exact quiet ⟨rfl, rfl⟩
    · exact quiet (ownStep_rows (not_exists.mp hsubmit))
  | message now msg =>
    cases htype : msg.type with
    | newBlock =>
      simp only [react, handleMessage, htype]
      rcases handleNewBlock_cases env n now msg.payload with ⟨b, hread, hext⟩ | ⟨b, hread, hcomp⟩ | ⟨hn, heffects⟩
      · rw [handleNewBlock_of_extends hread hext]
        simp only [calls_cons_call, calls_relay]
        refine ⟨.call (.addBlock b) id (.done rfl), fun x hx => ?_⟩
        rw [List.mem_singleton.mp hx]
        exact .extended now htype hread hext
      · rw [handleNewBlock_of_competes hread hcomp]
        simp only [calls_cons_call, calls_relay]
        have hspare := not_empties_of_valued (c := n.blockchain) now (valued_of_fromJson hread)
        refine ⟨.call (.replaceLastBlock b now) hspare (.done rfl), fun x hx => ?_⟩
        rw [List.mem_singleton.mp hx]
        exact .competed now htype hread hcomp
      · refine quiet ⟨by rw [hn], ?_⟩
        rcases heffects with h | ⟨_, h⟩
        · rw [h]
          rfl
        · rw [h]
          rfl
    | blocksResponse =>
      simp only [react, handleMessage, htype]
      cases hpayload : msg.payload with
      | arr blocks =>
        refine ⟨addReceived_traced env blocks n.blockchain, fun x hx => ?_⟩
        obtain ⟨d, b, bj, hbj, hread, habove, heq⟩ := addReceived_effects blocks n.blockchain _ (mem_calls.mp hx)
        obtain ⟨c, k⟩ := x
        cases heq
        exact .received now htype hpayload hbj hread habove
      | _ => exact quiet ⟨rfl, rfl⟩
    | newTransaction =>
      simp only [react, handleMessage, htype]
      exact quiet (handleNewTransaction_rows env n now msg.payload)
    | getBlocks =>
      simp only [react, handleMessage, htype]
      obtain ⟨hn, hc⟩ := handleGetBlocks_frame env n now msg.payload
      exact quiet ⟨by rw [hn], hc⟩
    | _ =>
      simp only [react, handleMessage, htype]
      exact quiet ⟨rfl, rfl⟩

/-- A step makes one call of `replaceLastBlock`, or calls of `addBlock` only. -/
theorem calls_cases (env : Env) (n : Node) (e : Event) :
    (∀ x ∈ calls (n.react env e).2, ∃ b, x.2 = .addBlock b) ∨
    ∃ now msg b, e = .message now msg ∧ msg.type = .newBlock ∧ Block.fromJson env msg.payload = .ok b ∧
      n.blockchain.Competes b ∧ calls (n.react env e).2 = [(n.blockchain, .replaceLastBlock b now)] := by
  by_cases h : ∃ x ∈ calls (n.react env e).2, ∀ b, x.2 ≠ .addBlock b
  · obtain ⟨x, hx, hne⟩ := h
    refine Or.inr ?_
    cases (react_calls env n e).2 x hx with
    | mined now ht hmined hlow => exact absurd rfl (hne _)
    | extended now htype hread hext => exact absurd rfl (hne _)
    | received now htype hpayload hbj hread habove => exact absurd rfl (hne _)
    | @competed now msg b htype hread hcomp =>
      refine ⟨now, msg, b, rfl, htype, hread, hcomp, ?_⟩
      simp only [react, handleMessage, htype, handleNewBlock_of_competes hread hcomp, calls_cons_call, calls_relay]
  · refine Or.inl fun x hx => ?_
    by_contra hne
    exact h ⟨x, hx, not_exists.mp hne⟩

/-! ### Templates -/

/-- A step keeps the template, drops it, or makes one from the present chain. -/
theorem step_template (env : Env) (n : Node) (e : Event) :
    (n.step env e).template = n.template ∨ (n.step env e).template = none ∨
      ∃ now, (n.step env e).template =
        some
          { block := (n.blockchain.createBlock env n.nodeId now).1
            targetHeight := n.blockchain.getHeight + 1 } := by
  have called : ∀ r : Bool × Blockchain, (n.afterCall r).template = n.template ∨ (n.afterCall r).template = none ∨
      ∃ now, (n.afterCall r).template =
        some
          { block := (n.blockchain.createBlock env n.nodeId now).1
            targetHeight := n.blockchain.getHeight + 1 } := by
    rintro ⟨_ | _, d⟩
    · exact Or.inl rfl
    · exact Or.inr (Or.inl rfl)
  cases e with
  | own own =>
    cases own with
    | http now body =>
      refine Or.inl ?_
      simp only [step, react, ownStep, handleHttp]
      split <;> rfl
    | clean => exact Or.inl rfl
    | template now =>
      simp only [step, react, ownStep, makeTemplate]
      split
      · exact Or.inl rfl
      · exact Or.inr (Or.inr ⟨now, rfl⟩)
    | submit now =>
      refine Or.inr (Or.inl ?_)
      rcases submit_cases env n now with ⟨t, b, ht, hmined, hlow⟩ | h
      · simp only [step, react, ownStep, submit_of_mined ht hmined hlow]
      · simp only [step, react, ownStep, h]
    | abandon => exact Or.inr (Or.inl rfl)
    | sync now => exact Or.inl rfl
  | message now msg =>
    cases htype : msg.type with
    | newBlock =>
      simp only [step, react, handleMessage, htype]
      rcases handleNewBlock_cases env n now msg.payload with ⟨b, hread, hext⟩ | ⟨b, hread, hcomp⟩ | ⟨hn, -⟩
      · rw [handleNewBlock_of_extends hread hext]
        exact called _
      · rw [handleNewBlock_of_competes hread hcomp]
        exact called _
      · rw [hn]
        exact Or.inl rfl
    | blocksResponse =>
      refine Or.inl ?_
      simp only [step, react, handleMessage, htype, handleBlocksResponse]
      split <;> rfl
    | newTransaction =>
      refine Or.inl ?_
      simp only [step, react, handleMessage, htype, handleNewTransaction]
      split
      · rfl
      · split <;> rfl
    | getBlocks =>
      simp only [step, react, handleMessage, htype]
      rw [(handleGetBlocks_frame env n now msg.payload).1]
      exact Or.inl rfl
    | _ =>
      refine Or.inl ?_
      simp only [step, react, handleMessage, htype]

theorem step_traced (env : Env) (n : Node) (e : Event) :
    Traced env n.blockchain (calls (n.react env e).2) (n.step env e).blockchain := (react_calls env n e).1

theorem step_chained (env : Env) (n : Node) (e : Event) (h : n.blockchain.Chained) :
    (n.step env e).blockchain.Chained := (step_traced env n e).chained h

/-- A property of the block rows, exact for each kind of call, is exact for a step. -/
theorem step_iff_calls {P : Blockchain → Prop} {J : Blockchain → Call → Prop} (env : Env) (n : Node) (e : Event)
    (hc : n.blockchain.Chained) (hP : P n.blockchain)
    (congr : ∀ {c d : Blockchain}, d.rows = c.rows → (P d ↔ P c))
    (back : ∀ (c : Blockchain) b, P (c.addBlock b).2 → P c)
    (add_iff : ∀ {c : Blockchain} {b}, c.Chained → P c → (P (c.addBlock b).2 ↔ ¬J c (.addBlock b)))
    (replace_iff : ∀ {c : Blockchain} {b now}, b.difficulty.isNaN = false → P c →
      (P (c.replaceLastBlock env b now).2 ↔ ¬J c (.replaceLastBlock b now))) :
    P (n.step env e).blockchain ↔ ∀ x ∈ calls (n.react env e).2, ¬J x.1 x.2 := by
  have htraced := step_traced env n e
  rcases calls_cases env n e with hadds | ⟨now, msg, b, -, -, hread, -, hcalls⟩
  · exact htraced.adds_iff hadds hc hP congr back add_iff
  · rw [hcalls] at htraced ⊢
    obtain ⟨-⟩ | ⟨-, -, hdone⟩ := htraced
    obtain ⟨hrows⟩ := hdone
    rw [congr hrows, List.forall_mem_singleton]
    exact replace_iff (valued_of_fromJson hread) hP

/-! ### Messages of other nodes -/

/-- The message that brings a block as another node broadcasts it. -/
def newBlockEvent (sender : Node) (sent now : Int64) (b : Block) : Event :=
  .message now (sender.newBlockMessage sent b)

theorem react_newBlockEvent (env : Env) (n sender : Node) (sent now : Int64) (b : Block) :
    n.react env (newBlockEvent sender sent now b) = n.handleNewBlock env now (.obj b.headerMembers) := rfl

end Node

end

/-! ### A sample run -/

namespace Node

attribute [local instance] Arithmetic.binary64

def sampleTxHash : String := "9790377fe14b1927cd98b21b4872b1be45955c0b39d3d18e22d48180bfcd10c4"

def sampleCoinbaseHash : String := "0f9401452a6530aab32475b8d886307a5c70ae290d834e8cfd8faef6fc2c4ffa"

def sampleMerkleRoot : String := "9a4e3c7a370a177e31164680cedfd1cfaec19acaa8b5f6c51d25cc6e269a7a85"

def sampleBlockHash : String := "0000b1f55508bc65f49e06b7d44e0c6cf7a911e3779642172cc4e38c4c5f5e7f"

/-- SHA-256 and the JSON text for everything that the sample run hashes and dumps, and SHA-256 for the header
    `"1"`, the genesis hash, and otherwise defaults. -/
def sampleEnv : Env where
  sha256 s :=
    (List.lookup s
      [("genesis_mineralice100.0011700000000", sampleTxHash),
        ("SYSTEMalpha10001700143364", sampleCoinbaseHash),
        (sampleCoinbaseHash ++ sampleTxHash, sampleMerkleRoot),
        ("1" ++ zeroHash ++ sampleMerkleRoot ++ "170014336404alpha", sampleBlockHash),
        ("empty", "2e1cfa82b035c26cbbbdae632cea070514eb8b773f616aaeaf668e2f0be8f10d"),
        ("1" ++ zeroHash ++ "002", "26954c9ef08c2d2314ffeba0a3cfba7bcf42ef263e128beb45c9fb9139d26c9f")]).getD ""
  dump _ :=
    "\x7b\"amount\":10.0,\"data\":\"\",\"fee\":0.001,\"from\":\"genesis_miner\",\"nonce\":1," ++
      "\"signature\":\"http_sig\",\"status\":\"pending\",\"timestamp\":1700000000,\"to\":\"alice\"," ++
      "\"txHash\":\"" ++ sampleTxHash ++ "\"\x7d"
  indeterminate := 0
  longestString := 2 ^ 63 - 2
  textDouble _ := 0
  textInt64 _ := 0
  realText x := .bind (if x = 0 then "0.0" else showDouble x)

/-- The header of the block that the sample run mines. -/
def sampleBlock : Block where
  height := 1
  hash := sampleBlockHash
  prevHash := zeroHash
  merkleRoot := sampleMerkleRoot
  timestamp := 1700143364
  nonce := 0
  difficulty := 4
  minedBy := "alpha"
  transactions := []

/-- The payment of the sample run as it is read from HTTP. -/
def samplePayment : Transaction where
  txHash := sampleTxHash
  fromAddress := "genesis_miner"
  toAddress := "alice"
  amount := 10
  fee := thousandth
  signature := "http_sig"
  timestamp := 1700000000
  data := ""
  status := "pending"
  nonce := 1

/-- A payment of 10 from the genesis wallet comes in over HTTP; the node mines it at the first nonce. -/
def sampleRound : List OwnEvent :=
  [.http 1700000000 (.obj [("from", .str "genesis_miner"), ("to", .str "alice"), ("amount", .float 10)]),
    .template 1700143364,
    .submit 1700143364]

def sampleEvents : List Event := sampleRound.map .own

def sampleMiner : Node := sampleEvents.foldl (step sampleEnv) (start "alpha" 1700000000)

end Node

end NexusLedger
