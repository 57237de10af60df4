import NexusLedger.Theorems.Codecs
import NexusLedger.Theorems.Contents

/-! Whether the flood of a transaction ends. The row that its admission leaves stays for good, so a node knows
    the hash from then on; but `addTransaction` does not ask for it. -/

namespace NexusLedger
open Blockchain

section
set_option linter.unusedSectionVars false
variable [Arithmetic]

/-! ### The record of an admission -/

namespace LedgerDB
variable {db db' : LedgerDB} {txHash : String}

/-- A row holds the hash without a height, as an admission writes it. -/
def Recorded (db : LedgerDB) (txHash : String) : Prop :=
  ∃ t ∈ db.transactions.rows, t.blockHeight = none ∧ t.txHash = .bind txHash

theorem Recorded.mono (h : db.Recorded txHash) (hsub : db.transactions.rows ⊆ db'.transactions.rows) :
    db'.Recorded txHash := by
  obtain ⟨t, ht, hnone, hhash⟩ := h
  exact ⟨t, hsub ht, hnone, hhash⟩

/-- No block is deleted with it. -/
theorem Recorded.deleteBlock (h : db.Recorded txHash) (height : Int32) : (db.deleteBlock height).Recorded txHash := by
  obtain ⟨t, ht, hnone, hhash⟩ := h
  refine ⟨t, List.mem_filter.mpr ⟨ht, ?_⟩, hnone, hhash⟩
  simp [hnone]

theorem subset_addTransactions (db : LedgerDB) (txs : List Transaction) (height : Int32) :
    db.transactions.rows ⊆ (db.addTransactions txs height).transactions.rows := by
  obtain ⟨added, hrows, -⟩ := addTransactions_append db txs height
  rw [hrows]
  exact List.subset_append_left _ _

end LedgerDB

namespace Blockchain
variable {env : Env} {c : Blockchain} {tx : Transaction} {txHash : String}

/-- The hash is in the mempool or in the transactions table. -/
def Knows (c : Blockchain) (txHash : String) : Prop :=
  txHash ∈ c.mempool ∨ CString.bind txHash ∈ c.db.transactions.rows.map (·.txHash)

theorem knows_of_recorded (h : c.db.Recorded txHash) : c.Knows txHash := by
  obtain ⟨t, ht, -, hhash⟩ := h
  exact Or.inr (List.mem_map.mpr ⟨t, ht, hhash⟩)

/-- An admitted pending transaction whose numbers are numbers meets the CHECKs of its table. -/
theorem recorded_of_admits (env : Env) (now : Int64) (ha : c.Admits tx) (hpending : tx.status = "pending")
    (hamount : tx.amount.isNaN = false) (hfee : tx.fee.isNaN = false) (hnew : ¬c.Knows tx.txHash) :
    (c.addTransaction env tx now).2.db.Recorded tx.txHash := by
  have hpositive : 0 < tx.amount := (Double.not_le_iff hamount rfl).mp ha.1
  have hnonneg : 0 ≤ tx.fee := (Double.not_lt_iff hfee rfl).mp ha.2.1
  have hstorable : ¬c.db.Unstorable tx := by
    unfold LedgerDB.Unstorable
    rw [Bool.not_eq_false, LedgerDB.fits_txRow_iff]
    refine ⟨?_, fun hmem => hnew (Or.inr hmem)⟩
    simp [transactionsSchema, Transaction.row, hpending, hpositive, hnonneg]
  refine ⟨tx.row none, ?_, rfl, rfl⟩
  rw [(addTransaction_of_admits env now ha).1, LedgerDB.addTransaction_of_storable hstorable]
  exact List.mem_append_right _ List.mem_cons_self

theorem subset_restore (env : Env) (c : Blockchain) (txs : List Transaction) (now : Int64) :
    c.db.transactions.rows ⊆ (c.restore env txs now).db.transactions.rows :=
  restore_keeps env now (I := fun d => c.db.transactions.rows ⊆ d.db.transactions.rows)
    (fun _ _ _ _ hd => List.Subset.trans hd (subset_addTransaction env now)) (List.Subset.refl _)

theorem recorded_addBlock (h : c.db.Recorded txHash) (b : Block) : (c.addBlock b).2.db.Recorded txHash := by
  by_cases ha : c.Appends b
  · refine h.mono ?_
    rw [(addBlock_of_appends ha).2.2]
    exact LedgerDB.subset_addTransactions _ _ _
  · rw [addBlock_of_not_appends ha]
    exact h

theorem recorded_replaceLastBlock (env : Env) (h : c.db.Recorded txHash) (b : Block) (now : Int64) :
    (c.replaceLastBlock env b now).2.db.Recorded txHash := by
  by_cases hc : c.Competes b
  · have hdeleted := h.deleteBlock c.getHeight
    by_cases hf : c.FreshBelow b
    · obtain ⟨-, htransactions, heq⟩ := replaceLastBlock_eq_of_fresh env now hc hf
      rw [heq]
      refine hdeleted.mono ?_
      rw [cleanMempool_transactions]
      refine List.Subset.trans ?_ (subset_restore env _ _ now)
      rw [htransactions]
      exact LedgerDB.subset_addTransactions _ _ _
    · rw [replaceLastBlock_of_not_fresh hc hf]
      exact hdeleted
  · rw [replaceLastBlock_of_not_competes hc]
    exact h

/-- What was recorded once stays recorded. -/
theorem recorded_operate (h : c.db.Recorded txHash) (op : Operation) : (operate env c op).db.Recorded txHash := by
  cases op with
  | addTransaction tx now => exact h.mono (subset_addTransaction env now)
  | createBlock miner now => exact h.mono (by simp [operate])
  | cleanMempool => exact h.mono (by simp [operate])
  | removeFromMempool k => exact h
  | call k =>
    cases k with
    | addBlock b => exact recorded_addBlock h b
    | replaceLastBlock b now => exact recorded_replaceLastBlock env h b now

end Blockchain

/-! ### The relay -/

namespace Node
variable {env : Env} {n : Node} {e : Event} {tx : Transaction} {txHash : String}

/-- A NEW_TRANSACTION message that brings the transaction. -/
def Announces (env : Env) (tx : Transaction) : Event → Prop
  | .own _ => False
  | .message now msg => msg.type = .newTransaction ∧ readNewTransaction env now msg.payload = .ok tx

/-- The transaction that the step is about is passed on. -/
def Relays (env : Env) (n : Node) (e : Event) (txHash : String) : Prop :=
  ∃ tx, Announces env tx e ∧ tx.txHash = txHash ∧ broadcasts (n.react env e).2 ≠ []

/-- A transaction whose hash is known is not passed on. -/
def QuietOnKnown (env : Env) (n : Node) (e : Event) : Prop :=
  ∀ tx, Announces env tx e → n.blockchain.Knows tx.txHash → broadcasts (n.react env e).2 = []

/-- A transaction that comes again while it passes the checks of its admission. -/
def Repeats (env : Env) (n : Node) (e : Event) : Prop :=
  ∃ tx, Announces env tx e ∧ n.blockchain.Knows tx.txHash ∧ n.blockchain.Admits tx

/-- The checks alone decide whether a transaction is passed on. -/
theorem broadcasts_of_announces (h : Announces env tx e) :
    broadcasts (n.react env e).2 ≠ [] ↔ n.blockchain.Admits tx := by
  cases e with
  | own own => cases h
  | message now msg =>
    obtain ⟨htype, hread⟩ := h
    rw [← addTransaction_accepts_iff env now]
    simp only [react, handleMessage, htype, handleNewTransaction, hread]
    rcases hadd : n.blockchain.addTransaction env tx now with ⟨_ | _, d⟩ <;>
      simp [broadcasts, Effect.broadcast?]

theorem quietOnKnown_iff : n.QuietOnKnown env e ↔ ¬n.Repeats env e := by
  constructor
  · rintro hquiet ⟨tx, hann, hknown, hadmits⟩
    exact (broadcasts_of_announces hann).mpr hadmits (hquiet tx hann hknown)
  · intro hrepeats tx hann hknown
    by_contra hsent
    exact hrepeats ⟨tx, hann, hknown, (broadcasts_of_announces hann).mp hsent⟩

theorem pending_of_announces (h : Announces env tx e) : tx.status = "pending" := by
  cases e with
  | own own => cases h
  | message now msg => exact (pending_of_readNewTransaction h.2).1

/-- JSON has no other numbers than finite ones. -/
theorem isFinite_of_announces (h : Announces env tx e) : tx.amount.isFinite = true ∧ tx.fee.isFinite = true := by
  cases e with
  | own own => cases h
  | message now msg =>
    have hread := h.2
    simp only [readNewTransaction, Json.Read.bind_eq_ok] at hread
    obtain ⟨_, -, _, -, _, hamount, _, hfee, _, -, _, -, hread⟩ := hread
    cases hread
    exact ⟨Json.isFinite_of_value rfl hamount, Json.isFinite_of_value rfl hfee⟩

theorem step_recorded (h : n.blockchain.db.Recorded txHash) : (n.step env e).blockchain.db.Recorded txHash :=
  step_chain (I := fun c => c.db.Recorded txHash) h fun x _ hx => recorded_operate hx x.2

/-- What is passed on was new to the node, and is recorded then. -/
theorem recorded_of_relays (hrepeats : ¬n.Repeats env e) (h : n.Relays env e txHash) :
    ¬n.blockchain.db.Recorded txHash ∧ (n.step env e).blockchain.db.Recorded txHash := by
  obtain ⟨tx, hann, rfl, hsent⟩ := h
  have hadmits := (broadcasts_of_announces hann).mp hsent
  have hnew : ¬n.blockchain.Knows tx.txHash := fun hknown => hrepeats ⟨tx, hann, hknown, hadmits⟩
  refine ⟨fun hrec => hnew (knows_of_recorded hrec), ?_⟩
  have hpending := pending_of_announces hann
  obtain ⟨hamount, hfee⟩ := isFinite_of_announces hann
  cases e with
  | own own => cases hann
  | message now msg =>
    obtain ⟨htype, hread⟩ := hann
    simp only [step, react, handleMessage, htype]
    rw [handleNewTransaction_fst env n now hread]
    exact recorded_of_admits env now hadmits hpending (Double.isNaN_of_isFinite hamount)
      (Double.isNaN_of_isFinite hfee) hnew

/-- A node keeps quiet about what it knows, and passes each hash on at most once, exactly in the runs where
    nothing that it knows passes the checks of its admission again. Whatever the network is, the part of a
    node in it is such a run. -/
theorem relay_stops_iff (env : Env) (nodeId : String) (now : Int64) (events : List Event) :
    ((∀ x ∈ Transition.steps (step env) (start nodeId now) events, x.1.QuietOnKnown env x.2) ∧
      (Transition.steps (step env) (start nodeId now) events).Pairwise fun x y =>
        ∀ txHash, x.1.Relays env x.2 txHash → ¬y.1.Relays env y.2 txHash) ↔
    ∀ x ∈ Transition.steps (step env) (start nodeId now) events, ¬x.1.Repeats env x.2 := by
  constructor
  · rintro ⟨hquiet, -⟩ x hx
    exact quietOnKnown_iff.mp (hquiet x hx)
  · intro h
    refine ⟨fun x hx => quietOnKnown_iff.mpr (h x hx), ?_⟩
    exact Transition.pairwise_once (M := fun (n : Node) txHash => n.blockchain.db.Recorded txHash)
      (fun _ _ _ hrec => step_recorded hrec) (fun _ _ _ hc hrelays => recorded_of_relays hc hrelays) h

end Node

end

namespace Node

attribute [local instance] Arithmetic.binary64

/-- The sample payment as a peer passes it on. -/
def gossipEvent (sender : String) : Event :=
  .message 1700000000 ((start sender 1700000000).newTransactionMessage 1700000000 gossipPayment)

/-- The only neighbour of a node passes on what it got from it, in the same second: the payment goes back and
    forth between the two. -/
theorem payment_relayed_twice :
    ¬((∀ x ∈ Transition.steps (step gossipEnv) (start "alpha" 1700000000) [gossipEvent "beta", gossipEvent "beta"],
        x.1.QuietOnKnown gossipEnv x.2) ∧
      (Transition.steps (step gossipEnv) (start "alpha" 1700000000)
        [gossipEvent "beta", gossipEvent "beta"]).Pairwise fun x y =>
          ∀ txHash, x.1.Relays gossipEnv x.2 txHash → ¬y.1.Relays gossipEnv y.2 txHash) := by
  rintro ⟨-, honce⟩
  have hread : Announces gossipEnv gossipPayment (gossipEvent "beta") := ⟨rfl, by decide +kernel⟩
  rw [Transition.steps_cons, List.pairwise_cons] at honce
  refine honce.1 _ List.mem_cons_self gossipPayment.txHash ⟨gossipPayment, hread, rfl, ?_⟩
    ⟨gossipPayment, hread, rfl, ?_⟩ <;> decide +kernel

end Node

end NexusLedger
