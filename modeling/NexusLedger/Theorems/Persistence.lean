import NexusLedger.Theorems.Templates
import NexusLedger.Theorems.Replacement

/-! The mempool table beside the mempool in memory. `addToMempool` is the only statement that writes the table, and
    none deletes from it: when the two hold the same hashes. -/

namespace NexusLedger

section
set_option linter.unusedSectionVars false
variable [Arithmetic]

namespace LedgerDB
variable {db db' : LedgerDB}

/-- The column `tx_hash` of the mempool table. -/
def mempoolHashes (db : LedgerDB) : List String := db.mempool.rows.map (·.txHash.val)

/-! ### Statements that leave the table -/

@[simp] theorem ensureWalletExists_mempool (db : LedgerDB) (address : String) :
    (db.ensureWalletExists address).2.mempool = db.mempool := by
  unfold ensureWalletExists
  split
  · rfl
  · split <;> rfl

@[simp] theorem getBalance_mempool (db : LedgerDB) (address : String) :
    (db.getBalance address).2.mempool = db.mempool := by
  simp [getBalance]

@[simp] theorem updateNonce_mempool (db : LedgerDB) (address : String) (nonce : UInt64) :
    (db.updateNonce address nonce).2.mempool = db.mempool := rfl

@[simp] theorem addTransaction_mempool (db : LedgerDB) (tx : Transaction) (height : Int32) :
    (db.addTransaction tx height).2.mempool = db.mempool := by
  unfold addTransaction
  split <;> rfl

@[simp] theorem addTransactions_mempool (db : LedgerDB) (txs : List Transaction) (height : Int32) :
    (db.addTransactions txs height).mempool = db.mempool := by
  induction txs generalizing db with
  | nil => rfl
  | cons tx txs ih => rw [addTransactions_cons, ih, addTransaction_mempool]

@[simp] theorem addBlock_mempool (db : LedgerDB) (b : Block) : (db.addBlock b).2.mempool = db.mempool := by
  unfold addBlock
  split <;> simp

@[simp] theorem deleteBlock_mempool (db : LedgerDB) (height : Int32) :
    (db.deleteBlock height).mempool = db.mempool := rfl

/-! ### The statement that writes it -/

theorem addToMempool_congr (h : db.mempool = db'.mempool) (tx : Transaction) (now : Int64) :
    (db.addToMempool tx now).2.mempool = (db'.addToMempool tx now).2.mempool := by
  unfold addToMempool
  rw [h]
  split
  · rfl
  · exact h

/-- The hash is there afterwards, up to its first NUL, whether it is new or not. -/
theorem mem_mempoolHashes_addToMempool {tx : Transaction} {now : Int64} {k : String} :
    k ∈ (db.addToMempool tx now).2.mempoolHashes ↔ k ∈ db.mempoolHashes ∨ k = cText tx.txHash := by
  have hthere := mem_addToMempool db tx now
  unfold addToMempool at hthere ⊢
  split
  · rename_i u hu
    simp only [mempoolHashes, (Table.insert_eq_some hu).2, List.map_append, List.mem_append, List.map_cons,
      List.map_nil, List.mem_singleton, CString.bind_val]
  · rename_i hnone
    rw [hnone] at hthere
    obtain ⟨r, hr, heq⟩ := hthere
    refine (or_iff_left_of_imp ?_).symm
    rintro rfl
    exact List.mem_map.mpr ⟨r, hr, by rw [heq, CString.bind_val]⟩

end LedgerDB

namespace Blockchain
open LedgerDB
variable {env : Env} {c d : Blockchain} {tx : Transaction} {b : Block} {miner : String} {now : Int64}

/-- The mempool table has the hashes of the mempool. -/
def Mirrors (c : Blockchain) : Prop := ∀ k, k ∈ c.mempool ↔ k ∈ c.db.mempoolHashes

theorem mirrors_genesis (now : Int64) : (genesis now).Mirrors := fun _ =>
  iff_of_false Finmap.notMem_empty List.not_mem_nil

/-- Where the table is not written, the mempool has to keep its hashes. -/
theorem Mirrors.kept_iff (h : c.Mirrors) (htable : d.db.mempool = c.db.mempool) :
    d.Mirrors ↔ ∀ k, k ∈ d.mempool ↔ k ∈ c.mempool := by
  unfold Mirrors mempoolHashes
  rw [htable]
  exact forall_congr' fun k => by rw [h k]; rfl

/-! ### Cleaning -/

theorem findInvalid_mempool (mempool : Finmap fun _ : String => Transaction) (l : List TxPriority) (db : LedgerDB) :
    (findInvalid mempool l db).2.mempool = db.mempool :=
  findInvalid_keeps mempool (I := fun d => d.mempool = db.mempool) (fun d a h => (getBalance_mempool d a).trans h) l rfl

theorem cleanMempool_mempoolTable (c : Blockchain) : c.cleanMempool.2.db.mempool = c.db.mempool := by
  simp [cleanMempool, findInvalid_mempool]

/-- `cleanMempool` finds nothing. -/
def Solvent (c : Blockchain) : Prop := ∀ p ∈ c.entries, failing c.mempool c.db p = false

instance (c : Blockchain) : Decidable c.Solvent := inferInstanceAs (Decidable (∀ p ∈ c.entries, _))

theorem keys_cleanMempool_iff : (∀ k, k ∈ c.cleanMempool.2.mempool ↔ k ∈ c.mempool) ↔ c.Solvent := by
  constructor
  · intro hkeys p hp
    by_contra hfails
    rw [Bool.not_eq_false, failing_iff] at hfails
    obtain ⟨tx, htx, hnot⟩ := hfails
    obtain ⟨x, hx⟩ := Finmap.mem_iff.mp ((hkeys p.txHash).mpr (Finmap.mem_iff.mpr ⟨tx, htx⟩))
    obtain ⟨hk, hstays⟩ := lookup_cleanMempool_iff.mp hx
    rw [htx, Option.some.injEq] at hk
    rcases hstays with hpays | hnone
    · exact hnot (hk ▸ hpays)
    · exact hnone p hp rfl
  · intro hsolvent k
    rw [Finmap.mem_iff, Finmap.mem_iff]
    refine exists_congr fun tx => lookup_cleanMempool_iff.trans (and_iff_left_of_imp fun hk => ?_)
    by_contra hgoes
    rw [not_or, not_forall] at hgoes
    obtain ⟨hnot, p, hp⟩ := hgoes
    rw [Classical.not_imp, not_not] at hp
    obtain ⟨hp, rfl⟩ := hp
    have hfails : failing c.mempool c.db p = true := failing_iff.mpr ⟨tx, hk, hnot⟩
    rw [hsolvent p hp] at hfails
    cases hfails

theorem Mirrors.cleanMempool_iff (h : c.Mirrors) : c.cleanMempool.2.Mirrors ↔ c.Solvent :=
  (h.kept_iff (cleanMempool_mempoolTable c)).trans keys_cleanMempool_iff

/-! ### Templates and blocks -/

theorem selectTransactions_mempool (mempool : Finmap fun _ : String => Transaction) (l : List TxPriority)
    (db : LedgerDB) (n : Nat) : (selectTransactions mempool l db n).2.mempool = db.mempool :=
  selectTransactions_keeps mempool (I := fun d => d.mempool = db.mempool)
    (fun d a h => (getBalance_mempool d a).trans h) l n rfl

theorem createBlock_mempoolTable (env : Env) (c : Blockchain) (miner : String) (now : Int64) :
    (c.createBlock env miner now).2.db.mempool = c.db.mempool := by
  unfold createBlock
  simp only
  split <;> simp [selectTransactions_mempool]

/-- A template that takes nothing clears the mempool. -/
theorem Mirrors.createBlock_iff (h : c.Mirrors) : (c.createBlock env miner now).2.Mirrors ↔
    c.mempool = ∅ ∨ ∃ p ∈ c.entries, payable c.mempool c.db p = true := by
  have hsome : c.selected ≠ [] ↔ ∃ p ∈ c.entries, payable c.mempool c.db p = true := by
    rw [ne_eq, selected_eq_nil_iff]
    simp only [not_forall, Bool.not_eq_false, exists_prop]
  rw [h.kept_iff (createBlock_mempoolTable env c miner now), mempool_createBlock, ← hsome]
  split
  · rename_i hnil
    simp only [hnil, ne_eq, not_true, or_false]
    constructor
    · intro hkeys
      refine Finmap.ext_lookup fun k => ?_
      rw [Finmap.lookup_empty, Finmap.lookup_eq_none]
      exact fun hk => Finmap.notMem_empty ((hkeys k).mpr hk)
    · intro hempty k
      rw [hempty]
  · rename_i hnil
    simp only [hnil, ne_eq, not_false_eq_true, or_true, implies_true]

theorem drained_eq_iff {txs : List Transaction} {m : Finmap fun _ : String => Transaction} :
    drained m txs = m ↔ ∀ tx ∈ txs, tx.fromAddress ≠ "SYSTEM" → tx.txHash ∉ m := by
  constructor
  · intro heq tx htx hfrom hk
    rw [← heq, mem_drained] at hk
    exact hk.2 tx htx hfrom rfl
  · intro hnone
    refine Finmap.ext_lookup fun k => ?_
    cases hk : m.lookup k with
    | none => exact Finmap.lookup_eq_none.mpr fun hmem => Finmap.lookup_eq_none.mp hk (mem_drained.mp hmem).1
    | some tx =>
      have hmem : k ∈ m := Finmap.mem_iff.mpr ⟨tx, hk⟩
      obtain ⟨x, hx⟩ := Finmap.mem_iff.mp (mem_drained.mpr ⟨hmem, fun y hy hfrom heq => hnone y hy hfrom (heq ▸ hmem)⟩)
      rw [hx, ← lookup_drained hx, hk]

theorem solvent_congr (htransactions : d.db.transactions = c.db.transactions) (hmempool : d.mempool = c.mempool)
    (hentries : d.entries = c.entries) : d.Solvent ↔ c.Solvent := by
  unfold Solvent
  rw [hentries, hmempool]
  refine forall₂_congr fun p _ => ?_
  rw [← Bool.not_eq_true, ← Bool.not_eq_true, failing_iff, failing_iff]
  simp only [pays_congr htransactions]

/-- A block that is stored leaves the mempool whole if it settles nothing in it, and all in it can be paid for
    after it. -/
def Passes (c : Blockchain) (b : Block) : Prop :=
  (∀ tx ∈ b.transactions, tx.fromAddress ≠ "SYSTEM" → tx.txHash ∉ c.mempool) ∧
    ({ c with db := c.db.addTransactions b.transactions b.height } : Blockchain).Solvent

theorem Mirrors.addBlock_iff (h : c.Mirrors) : (c.addBlock b).2.Mirrors ↔ (c.Appends b → c.Passes b) := by
  by_cases ha : c.Appends b
  · obtain ⟨blocks, -, heq⟩ := addBlock_eq_of_appends ha
    rw [heq]
    let e : Blockchain :=
      { c with
        db := { c.db with blocks }.addTransactions b.transactions b.height
        mempool := drained c.mempool b.transactions }
    have htable : e.cleanMempool.2.db.mempool = c.db.mempool :=
      (cleanMempool_mempoolTable e).trans (addTransactions_mempool _ _ _)
    have hsame : ({ c.db with blocks } : LedgerDB).transactions = c.db.transactions := rfl
    have hstored : e.db.transactions = (c.db.addTransactions b.transactions b.height).transactions :=
      addTransactions_congr hsame b.transactions b.height
    have hsolvent : drained c.mempool b.transactions = c.mempool →
        (e.Solvent ↔ ({ c with db := c.db.addTransactions b.transactions b.height } : Blockchain).Solvent) := fun heq =>
      solvent_congr hstored heq rfl
    have hsub : ∀ k, k ∈ e.cleanMempool.2.mempool → k ∈ drained c.mempool b.transactions := fun k hk =>
      (cleanMempool_shrinks e).mem hk
    rw [h.kept_iff htable, Passes, ← drained_eq_iff]
    simp only [ha, true_imp_iff]
    constructor
    · intro hkeys
      have hdrained : drained c.mempool b.transactions = c.mempool := by
        rw [drained_eq_iff]
        intro tx htx hfrom hk
        exact (mem_drained.mp (hsub _ ((hkeys _).mpr hk))).2 tx htx hfrom rfl
      refine ⟨hdrained, (hsolvent hdrained).mp (keys_cleanMempool_iff.mp fun k => ?_)⟩
      exact (hkeys k).trans (by rw [show e.mempool = c.mempool from hdrained])
    · rintro ⟨hdrained, hpaid⟩ k
      rw [keys_cleanMempool_iff.mpr ((hsolvent hdrained).mpr hpaid) k, show e.mempool = c.mempool from hdrained]
  · rw [addBlock_of_not_appends ha]
    exact iff_of_true h fun happends => absurd happends ha

/-! ### Admission -/

theorem enqueue_mempoolTable (env : Env) (c : Blockchain) (tx : Transaction) (now : Int64) :
    (c.enqueue env tx now).db.mempool = (c.db.addToMempool tx now).2.mempool := by
  simp only [enqueue, evict_db]
  exact addToMempool_congr (addTransaction_mempool _ _ _) tx now

theorem addTransaction_mempoolTable (env : Env) (c : Blockchain) (tx : Transaction) (now : Int64) :
    (c.addTransaction env tx now).2.db.mempool =
      if (c.addTransaction env tx now).1 then (c.db.addToMempool tx now).2.mempool else c.db.mempool := by
  have hentered : ∀ db : LedgerDB, db.mempool = c.db.mempool →
      (({ c with db } : Blockchain).enqueue env tx now).db.mempool = (c.db.addToMempool tx now).2.mempool :=
    fun db hdb => (enqueue_mempoolTable env _ tx now).trans (addToMempool_congr hdb tx now)
  unfold addTransaction
  split
  · rfl
  · split
    · rfl
    · split
      · exact hentered _ (ensureWalletExists_mempool _ _)
      · simp only
        split
        · simp
        · simp only [updateNonce, if_true]
          exact hentered _ (by simp)

/-- An admitted transaction enters both with one hash if the table does not cut it, and nothing is evicted for it. -/
structure Enters (env : Env) (c : Blockchain) (tx : Transaction) (now : Int64) : Prop where
  whole : cText tx.txHash = tx.txHash
  room : (c.inserted env tx now).mempoolByPriority.size ≤ maxMempool

theorem Mirrors.addTransaction (h : c.Mirrors) (htx : c.Admits tx → c.Enters env tx now) :
    (c.addTransaction env tx now).2.Mirrors := by
  have htable := addTransaction_mempoolTable env c tx now
  by_cases ha : c.Admits tx
  · rw [(addTransaction_accepts_iff env now).mpr ha, if_pos rfl] at htable
    obtain ⟨db, -, heq⟩ := addTransaction_eq_enqueue env now ha
    have hroom : (({ c with db } : Blockchain).inserted env tx now).mempoolByPriority.size ≤ maxMempool := (htx ha).room
    have hmempool : (c.addTransaction env tx now).2.mempool = c.mempool.insert tx.txHash tx := by
      rw [heq]
      exact congrArg Blockchain.mempool (evict_of_le hroom)
    intro k
    have hhashes : k ∈ (c.addTransaction env tx now).2.db.mempoolHashes ↔
        k ∈ c.db.mempoolHashes ∨ k = cText tx.txHash := by
      have hadded : k ∈ (c.db.addToMempool tx now).2.mempoolHashes ↔ _ := mem_mempoolHashes_addToMempool
      rw [← hadded, mempoolHashes, htable, mempoolHashes]
    rw [hmempool, Finmap.mem_insert, hhashes, (htx ha).whole, h k, or_comm]
  · have hfalse : (c.addTransaction env tx now).1 = false :=
      Bool.eq_false_iff.mpr fun htrue => ha ((addTransaction_accepts_iff env now).mp htrue)
    rw [hfalse, if_neg Bool.false_ne_true] at htable
    rw [h.kept_iff htable, (addTransaction_of_not_admits env now ha).2]
    exact fun k => Iff.rfl

/-! ### Replacement -/

/-- At each turn of the loop that gives transactions back, the admitted one enters both. -/
def GivesBackWhole (env : Env) (c : Blockchain) (txs : List Transaction) (now : Int64) : Prop :=
  ∀ x ∈ Transition.steps (giveBack env now) c txs, Returned x.2 → x.1.Admits x.2 → x.1.Enters env x.2 now

theorem Mirrors.restore {txs : List Transaction} (h : c.Mirrors) (hback : GivesBackWhole env c txs now) :
    (c.restore env txs now).Mirrors :=
  restore_of_steps (fun _ _ _ hturn hd => hd.addTransaction hturn) h hback

/-- A block that takes the place of the tip leaves the mempool whole if all that comes back enters both, and all in it
    can be paid for then. -/
def ReplacesWhole (env : Env) (c : Blockchain) (b : Block) (now : Int64) : Prop :=
  GivesBackWhole env { c with db := c.replaced b } (c.db.getTransactionsByBlock env c.getHeight) now ∧
    ({ c with db := c.replaced b }.restore env (c.db.getTransactionsByBlock env c.getHeight) now).Solvent

theorem Mirrors.replaceLastBlock (h : c.Mirrors) (hb : c.Competes b → c.FreshBelow b → c.ReplacesWhole env b now) :
    (c.replaceLastBlock env b now).2.Mirrors := by
  by_cases hc : c.Competes b
  · by_cases hf : c.FreshBelow b
    · rw [(replaceLastBlock_eq_of_fresh env now hc hf).2.2]
      have hreplaced : (c.replaced b).mempool = c.db.mempool := by simp [replaced]
      have hstored : ({ c with db := c.replaced b } : Blockchain).Mirrors :=
        (h.kept_iff hreplaced).mpr fun k => Iff.rfl
      exact (hstored.restore (hb hc hf).1).cleanMempool_iff.mpr (hb hc hf).2
    · rw [replaceLastBlock_of_not_fresh hc hf]
      exact (h.kept_iff (deleteBlock_mempool c.db c.getHeight)).mpr fun k => Iff.rfl
  · rw [replaceLastBlock_of_not_competes hc]
    exact h

/-! ### Runs -/

/-- When an operation leaves no hash in the table alone. -/
def Retains (env : Env) (c : Blockchain) : Operation → Prop
  | .addTransaction tx now => c.Admits tx → c.Enters env tx now
  | .createBlock _ _ => c.mempool = ∅ ∨ ∃ p ∈ c.entries, payable c.mempool c.db p = true
  | .cleanMempool => c.Solvent
  | .removeFromMempool txHash => txHash ∉ c.mempool
  | .call (.addBlock b) => c.Appends b → c.Passes b
  | .call (.replaceLastBlock b now) => c.Competes b → c.FreshBelow b → c.ReplacesWhole env b now

theorem Mirrors.operate {op : Operation} (h : c.Mirrors) (hop : c.Retains env op) : (operate env c op).Mirrors := by
  cases op with
  | addTransaction tx now => exact h.addTransaction hop
  | createBlock miner now => exact h.createBlock_iff.mpr hop
  | cleanMempool => exact h.cleanMempool_iff.mpr hop
  | removeFromMempool txHash => exact (h.kept_iff (d := c.removeFromMempool txHash) rfl).mpr (keys_removeFromMempool hop)
  | call call =>
    cases call with
    | addBlock b => exact h.addBlock_iff.mpr hop
    | replaceLastBlock b now => exact h.replaceLastBlock hop

/-- From the genesis database on, the mempool table has the hashes of the mempool in every state of a run in which no
    operation takes a transaction out of the mempool, and no admitted hash has a NUL. -/
theorem mempool_mirrored (env : Env) (started : Int64) (ops : List Operation)
    (h : ∀ x ∈ Transition.steps (operate env) (genesis started) ops, x.1.Retains env x.2) :
    ∀ c ∈ Transition.states (operate env) (genesis started) ops, c.Mirrors :=
  Transition.invariant_of_steps (fun _ _ hop hc => hc.operate hop) (mirrors_genesis started) h

end Blockchain

end

namespace Blockchain

attribute [local instance] Arithmetic.binary64

/-- The payment is admitted and stays, through a template, a cleaning and a block that is stored and replaced. -/
theorem retains_sampleOperations :
    ∀ x ∈ Transition.steps (operate Node.sampleEnv) (genesis 1700000000) sampleOperations,
      x.1.Retains Node.sampleEnv x.2 := by
  have hentered : sampleOpened.Enters Node.sampleEnv Node.samplePayment 1700000000 :=
    ⟨by decide +kernel, by decide +kernel⟩
  have hoffered : ∃ p ∈ (sampleState 1).entries, payable (sampleState 1).mempool (sampleState 1).db p = true := by
    decide +kernel
  have hsolvent : (sampleState 2).Solvent := by decide +kernel
  have hpasses : (sampleState 4).Passes (plainBlock 1 "a1" zeroHash) :=
    ⟨fun tx htx => absurd htx List.not_mem_nil, by decide +kernel⟩
  have hreplaces : (sampleState 5).ReplacesWhole Node.sampleEnv (plainBlock 1 "b1" zeroHash) 1700143364 := by
    rw [ReplacesWhole, nothing_back_sampleState]
    exact ⟨fun x hx => absurd hx List.not_mem_nil, by decide +kernel⟩
  simp only [sampleOperations, Transition.steps_cons, Transition.steps_nil, List.forall_mem_cons]
  exact ⟨fun _ => hentered, Or.inr hoffered, hsolvent, removed_notMem_sampleState, fun _ => hpasses, fun _ _ => hreplaces,
    fun x hx => absurd hx List.not_mem_nil⟩

theorem mempool_mirrored_sampleOperations :
    (sampleOperations.foldl (operate Node.sampleEnv) (genesis 1700000000)).Mirrors :=
  mempool_mirrored Node.sampleEnv 1700000000 sampleOperations retains_sampleOperations _
    (Transition.foldl_mem_states _ _ _)

/-- A payment that a block settles stays in the table. -/
theorem settled_payment_in_table :
    ¬∀ c ∈ Transition.states (operate Node.sampleEnv) (genesis 1700000000) settledOperations, c.Mirrors := by
  intro h
  have hlast := h _ (Transition.foldl_mem_states _ _ _)
  have htable : Node.sampleTxHash ∈
      (settledOperations.foldl (operate Node.sampleEnv) (genesis 1700000000)).db.mempoolHashes := by decide +kernel
  have hnone : (settledOperations.foldl (operate Node.sampleEnv) (genesis 1700000000)).mempool.lookup
      Node.sampleTxHash = none := by decide +kernel
  exact Finmap.lookup_eq_none.mp hnone ((hlast Node.sampleTxHash).mpr htable)

end Blockchain

end NexusLedger
