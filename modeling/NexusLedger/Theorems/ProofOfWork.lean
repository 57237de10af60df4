import NexusLedger.Theorems.Tip

/-! Which accepted blocks carry their proof of work. The miner builds its blocks to pass `validate`; the message
    handlers never ask for it. -/

namespace NexusLedger
open Blockchain

section
set_option linter.unusedSectionVars false
variable [Arithmetic]

/-! ### Mined blocks -/

namespace Block
variable {env : Env} {b mined : Block}

/-- A mined block validates when its Merkle root was right before the search. -/
theorem validate_of_search {nonce fuel : Nat} (h : b.search env nonce fuel = some mined)
    (hroot : b.merkleRoot = b.calculateMerkleRoot env) :
    mined.validate env = some true ∧ mined.difficulty = b.difficulty := by
  obtain ⟨k, rfl, hit⟩ := search_eq_some h
  have hhash : (b.withNonce env k).hash = (b.withNonce env k).calculateHash env := rfl
  have hroot' : (b.withNonce env k).merkleRoot = (b.withNonce env k).calculateMerkleRoot env := hroot
  exact ⟨validate_iff.mpr ⟨hhash, hit, hroot'⟩, rfl⟩

end Block

namespace Blockchain
variable {env : Env} {c : Blockchain}

theorem createBlock_merkleRoot (env : Env) (c : Blockchain) (miner : String) (now : Int64) :
    (c.createBlock env miner now).1.merkleRoot = (c.createBlock env miner now).1.calculateMerkleRoot env := rfl

/-! ### Accepted blocks -/

/-- The chain that the block of a call is put on: without the tip, when it is to replace the tip. -/
def base (c : Blockchain) : Call → Blockchain
  | .addBlock _ => c
  | .replaceLastBlock _ _ => { c with db := c.db.deleteBlock c.getHeight }

/-- The difficulty of the block is the one that the chain demands. -/
def RightDifficulty (env : Env) (c : Blockchain) (k : Call) : Prop :=
  k.block.difficulty = .number ((c.base k).getCurrentDifficulty env).toInt

/-- The block has its proof of work, at the difficulty that the chain demands. -/
def Proven (env : Env) (c : Blockchain) (k : Call) : Prop :=
  k.block.validate env = some true ∧ c.RightDifficulty env k

end Blockchain

namespace Node

/-- The template of a running search has the Merkle root of its transactions. -/
def Rooted (env : Env) (n : Node) : Prop :=
  ∀ t, n.template = some t → t.block.merkleRoot = t.block.calculateMerkleRoot env

theorem step_rooted (env : Env) (n : Node) (e : Event) (h : n.Rooted env) : (n.step env e).Rooted env := by
  intro t ht
  rcases step_template env n e with heq | heq | ⟨now, heq⟩
  · exact h t (heq ▸ ht)
  · rw [heq] at ht
    cases ht
  · rw [heq] at ht
    cases ht
    exact createBlock_merkleRoot env n.blockchain n.nodeId now

/-- The condition on a step. A block from a message that fits on the chain must be proven, for nobody checks
    it; a mined block that fits must still have the right difficulty, for the chain may have changed under its
    template. -/
def Checked (env : Env) (n : Node) (e : Event) : Prop :=
  ∀ k ∈ calls (n.react env e).2, k.1.Fits k.2 →
    match e with
    | .message _ _ => k.1.Proven env k.2
    | .own _ => k.1.RightDifficulty env k.2

theorem checked_iff (env : Env) (n : Node) (e : Event) (h : n.Rooted env) :
    (∀ k ∈ calls (n.react env e).2, (k.1.exec env k.2).1 = true → k.1.Proven env k.2) ↔ n.Checked env e := by
  refine forall₂_congr fun k hk => ?_
  rw [exec_accepts_iff]
  refine imp_congr_right fun _ => ?_
  cases (react_calls env n e).2 k hk with
  | mined now ht hmined hlow =>
    obtain ⟨hvalid, -⟩ := Block.validate_of_search hmined (h _ ht)
    exact ⟨fun hp => hp.2, fun hd => ⟨hvalid, hd⟩⟩
  | extended now htype hread hext => exact Iff.rfl
  | competed now htype hread hcomp => exact Iff.rfl
  | received now htype hpayload hbj hread habove => exact Iff.rfl

/-- In a run of a node every accepted block has its proof of work at the demanded difficulty exactly when the
    messages bring no block that fits without one, and no template outlives its difficulty. -/
theorem proof_of_work_iff (env : Env) (nodeId : String) (now : Int64) (events : List Event) :
    (∀ x ∈ Transition.steps (step env) (start nodeId now) events, ∀ k ∈ calls (x.1.react env x.2).2,
        (k.1.exec env k.2).1 = true → k.1.Proven env k.2) ↔
      ∀ x ∈ Transition.steps (step env) (start nodeId now) events, x.1.Checked env x.2 := by
  have hrooted : ∀ x ∈ Transition.steps (step env) (start nodeId now) events, x.1.Rooted env :=
    Transition.invariant_steps (step_rooted env) fun t ht => by cases ht
  exact forall₂_congr fun x hx => checked_iff env x.1 x.2 (hrooted x hx)

end Node

end

namespace Node

attribute [local instance] Arithmetic.binary64

/-- A header that nobody mined is accepted. -/
theorem unproven_block_accepted :
    ¬∀ x ∈ Transition.steps (step sampleEnv) (start "node" 0)
        [newBlockEvent (start "peer" 0) 0 0 (firstBlock "a1")],
      ∀ k ∈ calls (x.1.react sampleEnv x.2).2, (k.1.exec sampleEnv k.2).1 = true → k.1.Proven sampleEnv k.2 := by
  intro h
  have hfits := successor_firstBlock "node" (show cText "a1" ≠ cText zeroHash by decide +kernel)
  have hcalls : calls ((start "node" 0).react sampleEnv (newBlockEvent (start "peer" 0) 0 0 (firstBlock "a1"))).2 =
      [((start "node" 0).blockchain, .addBlock (firstBlock "a1"))] := by
    rw [react_newBlockEvent, handleNewBlock_of_extends (Block.fromJson_headerMembers _ rfl) hfits.extends,
      calls_cons_call, calls_relay]
    rfl
  have hproven := h _ List.mem_cons_self ((start "node" 0).blockchain, .addBlock (firstBlock "a1"))
    (by rw [hcalls]; exact List.mem_cons_self) (addBlock_accepts_iff.mpr hfits.appends)
  have hvalid := hproven.1
  revert hvalid
  decide +kernel

end Node

end NexusLedger
