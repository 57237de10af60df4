import NexusLedger.Theorems.ChainStore

/-! The transactions table and the mempool. A row enters by an insert that UNIQUE and CHECK may refuse, at
    admission without a height and at block acceptance with one; the mempool only shrinks otherwise. -/

namespace NexusLedger

/-! ### Rows -/

theorem confirmed_row {tx : Transaction} {blockHeight : Option Int32} :
    (tx.row blockHeight).confirmed = true ↔ cText tx.status = "confirmed" := beq_iff_eq

namespace LedgerDB
variable {db : LedgerDB} {tx : Transaction} {height : Int32}

/-- Whether a transaction is stored depends on its own columns and on its hash, not on its height. -/
theorem fits_txRow_iff {t : Table transactionsSchema} {blockHeight : Option Int32} :
    t.fits (tx.row blockHeight) = true ↔
      transactionsSchema.check (tx.row none) = true ∧ CString.bind tx.txHash ∉ t.rows.map (·.txHash) := by
  rw [Table.fits_iff]
  simp only [transactionsSchema, Transaction.row, Bool.or_eq_false_iff, beq_eq_false_iff_ne, ne_eq,
    Bool.and_eq_false_iff, List.mem_map, not_exists, not_and]
  refine and_congr_right fun _ => forall₂_congr fun r _ => ?_
  refine ⟨fun h => h.1, fun h => ⟨h, ?_⟩⟩
  cases hidx : r.txIndex with
  | none =>
    exact Or.inl (Or.inl (Or.inr rfl))
  | some i =>
    exact Or.inr (by simp)

/-- A transaction that no insert would take, now or after further inserts. -/
def Unstorable (db : LedgerDB) (tx : Transaction) : Prop := db.transactions.fits (tx.row none) = false

theorem Unstorable.mono {db' : LedgerDB} (h : db.Unstorable tx)
    (hsub : db.transactions.rows ⊆ db'.transactions.rows) : db'.Unstorable tx := by
  unfold Unstorable at *
  rw [← Bool.not_eq_true, fits_txRow_iff] at *
  exact fun hfits => h ⟨hfits.1, fun hmem => hfits.2 (List.map_subset _ hsub hmem)⟩

theorem addTransaction_of_unstorable (h : db.Unstorable tx) : (db.addTransaction tx height).2 = db := by
  have hnone : db.transactions.fits (tx.row (if 0 ≤ height then some height else none)) = false := by
    unfold Unstorable at h
    rw [← Bool.not_eq_true, fits_txRow_iff] at *
    exact h
  simp only [addTransaction, Table.insert_eq_none.mpr hnone]

theorem addTransaction_of_storable (h : ¬db.Unstorable tx) :
    (db.addTransaction tx height).2.transactions.rows =
      db.transactions.rows ++ [tx.row (if 0 ≤ height then some height else none)] := by
  have hfits : db.transactions.fits (tx.row (if 0 ≤ height then some height else none)) = true := by
    unfold Unstorable at h
    rw [Bool.not_eq_false, fits_txRow_iff] at h
    exact fits_txRow_iff.mpr h
  obtain ⟨u, hu, hrows⟩ := Table.insert_of_fits hfits
  simp only [addTransaction, hu, hrows]

/-- After the attempt to store it no further insert takes a transaction. -/
theorem unstorable_addTransaction (db : LedgerDB) (tx : Transaction) (height : Int32) :
    (db.addTransaction tx height).2.Unstorable tx := by
  by_cases h : db.Unstorable tx
  · rw [addTransaction_of_unstorable h]
    exact h
  · unfold Unstorable
    rw [← Bool.not_eq_true, fits_txRow_iff, addTransaction_of_storable h]
    rintro ⟨-, hnot⟩
    exact hnot (by simp [Transaction.row])

theorem addTransactions_of_unstorable {txs : List Transaction} (h : ∀ tx ∈ txs, db.Unstorable tx) :
    db.addTransactions txs height = db := by
  induction txs with
  | nil => rfl
  | cons tx txs ih =>
    rw [List.forall_mem_cons] at h
    rw [addTransactions_cons, addTransaction_of_unstorable h.1, ih h.2]

/-- The rows that a block brings are those of its transactions that the table takes. -/
theorem addTransactions_append (db : LedgerDB) (txs : List Transaction) (height : Int32) :
    ∃ added, (db.addTransactions txs height).transactions.rows = db.transactions.rows ++ added ∧
      ∀ t ∈ added, ∃ tx ∈ txs, ¬db.Unstorable tx ∧ t = tx.row (if 0 ≤ height then some height else none) := by
  induction txs generalizing db with
  | nil => exact ⟨[], by simp, by simp⟩
  | cons tx txs ih =>
    rw [addTransactions_cons]
    obtain ⟨added, hrows, hadded⟩ := ih (db.addTransaction tx height).2
    have hgrown := subset_addTransaction db tx height
    have tail : ∀ t ∈ added, ∃ tx' ∈ tx :: txs, ¬db.Unstorable tx' ∧
        t = tx'.row (if 0 ≤ height then some height else none) := by
      intro t ht
      obtain ⟨tx', htx', hnew, heq⟩ := hadded t ht
      exact ⟨tx', List.mem_cons_of_mem _ htx', fun hold => hnew (hold.mono hgrown), heq⟩
    by_cases h : db.Unstorable tx
    · rw [addTransaction_of_unstorable h] at hrows ⊢
      exact ⟨added, hrows, tail⟩
    · refine ⟨tx.row (if 0 ≤ height then some height else none) :: added, ?_, ?_⟩
      · simp [hrows, addTransaction_of_storable h]
      · rw [List.forall_mem_cons]
        exact ⟨⟨tx, List.mem_cons_self, h, rfl⟩, tail⟩

end LedgerDB

/-! ### The mempool -/

set_option linter.unusedSectionVars false
variable [Arithmetic]

namespace Blockchain
variable {env : Env} {c : Blockchain} {tx : Transaction} {k : String}

/-- Every entry of the one mempool is in the other. -/
def Within (c d : Blockchain) : Prop := ∀ k tx, c.mempool.lookup k = some tx → d.mempool.lookup k = some tx

theorem lookup_of_erase {m : Finmap fun _ : String => Transaction} {x : String}
    (h : (m.erase x).lookup k = some tx) : m.lookup k = some tx := by
  by_cases hk : k = x
  · subst hk
    rw [Finmap.lookup_erase] at h
    cases h
  · rwa [Finmap.lookup_erase_ne hk] at h

theorem removeAll_within (l : List TxPriority) (c : Blockchain) : (c.removeAll l).Within c := by
  induction l generalizing c with
  | nil => exact fun k tx h => h
  | cons p l ih => exact fun k tx h => lookup_of_erase (ih _ k tx h)

theorem cleanMempool_within (c : Blockchain) : c.cleanMempool.2.Within c :=
  removeAll_within (findInvalid c.mempool c.mempoolByPriority.elems c.db).1
    { c with db := (findInvalid c.mempool c.mempoolByPriority.elems c.db).2 }

theorem evict_within (n : Nat) (c : Blockchain) : (c.evict n).Within c :=
  evict_keeps (I := fun d => d.Within c) (fun _ _ _ hd k tx h => hd k tx (lookup_of_erase h)) n fun _ _ h => h

theorem enqueue_lookup {x : Transaction} {now : Int64} (h : (c.enqueue env x now).mempool.lookup k = some tx) :
    c.mempool.lookup k = some tx ∨ tx = x := by
  have hinsert : (c.mempool.insert x.txHash x).lookup k = some tx := evict_within _ _ k tx h
  by_cases hk : k = x.txHash
  · subst hk
    rw [Finmap.lookup_insert] at hinsert
    exact Or.inr (Option.some.inj hinsert).symm
  · rw [Finmap.lookup_insert_of_ne _ hk] at hinsert
    exact Or.inl hinsert

theorem lookup_drained {txs : List Transaction} {m : Finmap fun _ : String => Transaction}
    (h : (drained m txs).lookup k = some tx) : m.lookup k = some tx := by
  induction txs generalizing m with
  | nil => exact h
  | cons x txs ih =>
    rw [drained_cons] at h
    split at h
    · exact lookup_of_erase (ih h)
    · exact ih h

theorem addBlock_within (c : Blockchain) (b : Block) : (c.addBlock b).2.Within c := by
  by_cases ha : c.Appends b
  · obtain ⟨blocks, -, heq⟩ := addBlock_eq_of_appends ha
    rw [heq]
    exact fun k tx h => lookup_drained (cleanMempool_within _ k tx h)
  · rw [addBlock_of_not_appends ha]
    exact fun k tx h => h

theorem createBlock_within (env : Env) (c : Blockchain) (miner : String) (now : Int64) :
    (c.createBlock env miner now).2.Within c := by
  intro k tx h
  unfold createBlock at h
  simp only at h
  split at h
  · simp at h
  · exact h

/-! ### Admission -/

/-- The checks of `addTransaction`. -/
def Admits (c : Blockchain) (tx : Transaction) : Prop :=
  ¬tx.amount ≤ 0 ∧ ¬tx.fee < 0 ∧
    (tx.fromAddress = "SYSTEM" ∨ ¬c.db.viewBalance (.bind tx.fromAddress) < Arithmetic.add tx.amount tx.fee)

theorem getBalance_of_ensured (db : LedgerDB) (tx : Transaction) :
    (((db.ensureWalletExists tx.fromAddress).2.ensureWalletExists tx.toAddress).2.getBalance tx.fromAddress).1 =
      db.viewBalance (.bind tx.fromAddress) := by
  rw [LedgerDB.getBalance_fst]
  exact LedgerDB.viewBalance_congr (by simp) _

/-- What follows the checks starts from the same transactions, mempool and index. -/
theorem addTransaction_eq_enqueue (env : Env) (now : Int64) (h : c.Admits tx) :
    ∃ db : LedgerDB, db.transactions = c.db.transactions ∧
      c.addTransaction env tx now = (true, { c with db }.enqueue env tx now) := by
  obtain ⟨hamount, hfee, hbalance⟩ := h
  unfold addTransaction
  rw [if_neg hamount, if_neg hfee]
  by_cases hsystem : tx.fromAddress = "SYSTEM"
  · rw [if_pos hsystem]
    refine ⟨_, ?_, rfl⟩
    simp
  · have hpays := hbalance.resolve_left hsystem
    rw [← getBalance_of_ensured] at hpays
    rw [if_neg hsystem]
    simp only
    rw [if_neg hpays]
    simp only [LedgerDB.updateNonce, if_true]
    refine ⟨_, ?_, rfl⟩
    simp

theorem addTransaction_of_admits (env : Env) (now : Int64) (h : c.Admits tx) :
    (c.addTransaction env tx now).2.db.transactions = (c.db.addTransaction tx (-1)).2.transactions ∧
      ∀ k x, (c.addTransaction env tx now).2.mempool.lookup k = some x → c.mempool.lookup k = some x ∨ x = tx := by
  obtain ⟨db, hdb, heq⟩ := addTransaction_eq_enqueue env now h
  rw [heq, enqueue_transactions]
  exact ⟨LedgerDB.addTransaction_congr hdb tx (-1), fun k x hk => enqueue_lookup (c := { c with db }) hk⟩

/-- A rejected transaction leaves a wallet at most. -/
theorem addTransaction_eq_of_not_admits (env : Env) (now : Int64) (h : ¬c.Admits tx) :
    ∃ db : LedgerDB, db.transactions = c.db.transactions ∧
      c.addTransaction env tx now = (false, { c with db }) := by
  unfold addTransaction
  split
  · exact ⟨c.db, rfl, rfl⟩
  · rename_i hamount
    split
    · exact ⟨c.db, rfl, rfl⟩
    · rename_i hfee
      have hsystem : tx.fromAddress ≠ "SYSTEM" := fun hs => h ⟨hamount, hfee, Or.inl hs⟩
      have hpays : c.db.viewBalance (.bind tx.fromAddress) < Arithmetic.add tx.amount tx.fee := by
        by_contra hpays
        exact h ⟨hamount, hfee, Or.inr hpays⟩
      rw [← getBalance_of_ensured] at hpays
      rw [if_neg hsystem]
      simp only
      rw [if_pos hpays]
      refine ⟨_, ?_, rfl⟩
      simp

theorem addTransaction_of_not_admits (env : Env) (now : Int64) (h : ¬c.Admits tx) :
    (c.addTransaction env tx now).2.db.transactions = c.db.transactions ∧
      (c.addTransaction env tx now).2.mempool = c.mempool := by
  obtain ⟨db, hdb, heq⟩ := addTransaction_eq_of_not_admits env now h
  rw [heq]
  exact ⟨hdb, rfl⟩

theorem subset_addTransaction (env : Env) (now : Int64) :
    c.db.transactions.rows ⊆ (c.addTransaction env tx now).2.db.transactions.rows := by
  by_cases h : c.Admits tx
  · rw [(addTransaction_of_admits env now h).1]
    exact LedgerDB.subset_addTransaction c.db tx (-1)
  · rw [(addTransaction_of_not_admits env now h).1]
    exact List.Subset.refl _

theorem addTransaction_accepts_iff (env : Env) (now : Int64) : (c.addTransaction env tx now).1 = true ↔ c.Admits tx := by
  by_cases h : c.Admits tx
  · obtain ⟨db, -, heq⟩ := addTransaction_eq_enqueue env now h
    simp [heq, h]
  · obtain ⟨db, -, heq⟩ := addTransaction_eq_of_not_admits env now h
    simp [heq, h]

/-! ### Giving back -/

/-- A transaction that `replaceLastBlock` gives back to the mempool. -/
def Returned (tx : Transaction) : Prop := tx.fromAddress ≠ "SYSTEM" ∧ 0 < tx.amount ∧ 0 ≤ tx.fee

/-- The loop body of `replaceLastBlock`. -/
def giveBack (env : Env) (now : Int64) (c : Blockchain) (tx : Transaction) : Blockchain :=
  if tx.fromAddress ≠ "SYSTEM" ∧ 0 < tx.amount ∧ 0 ≤ tx.fee then (c.addTransaction env tx now).2 else c

theorem restore_eq (env : Env) (c : Blockchain) (txs : List Transaction) (now : Int64) :
    c.restore env txs now = txs.foldl (giveBack env now) c := rfl

theorem giveBack_of_returned {now : Int64} (h : Returned tx) : c.giveBack env now tx = (c.addTransaction env tx now).2 :=
  if_pos h

theorem giveBack_of_not_returned {now : Int64} (h : ¬Returned tx) : c.giveBack env now tx = c := if_neg h

/-- What the admission of a returned transaction keeps under a condition on its turn, giving them back keeps when every
    turn meets the condition. -/
theorem restore_of_steps {env : Env} {now : Int64} {I : Blockchain → Prop} {C : Blockchain → Transaction → Prop}
    {txs : List Transaction}
    (keep : ∀ (d : Blockchain) (tx : Transaction), Returned tx → C d tx → I d → I (d.addTransaction env tx now).2)
    (h : I c) (hsteps : ∀ x ∈ Transition.steps (giveBack env now) c txs, Returned x.2 → C x.1 x.2) :
    I (c.restore env txs now) := by
  have turn : ∀ (d : Blockchain) (tx : Transaction), (Returned tx → C d tx) → I d → I (d.giveBack env now tx) := by
    intro d tx hcond hd
    by_cases hback : Returned tx
    · rw [giveBack_of_returned hback]
      exact keep d tx hback (hcond hback) hd
    · rw [giveBack_of_not_returned hback]
      exact hd
  rw [restore_eq]
  exact Transition.invariant_of_steps turn h hsteps _ (Transition.foldl_mem_states _ _ _)

/-- What the admission of a returned transaction keeps, giving all of them back keeps. -/
theorem restore_keeps (env : Env) (now : Int64) {I : Blockchain → Prop} {txs : List Transaction}
    (keep : ∀ tx ∈ txs, Returned tx → ∀ d : Blockchain, I d → I (d.addTransaction env tx now).2) (h : I c) :
    I (c.restore env txs now) := by
  have keep' : ∀ (d : Blockchain) (tx : Transaction), Returned tx → tx ∈ txs → I d →
      I (d.addTransaction env tx now).2 := fun d tx hback htx => keep tx htx hback d
  exact restore_of_steps keep' h fun x hx _ => Transition.snd_mem_of_mem_steps _ x hx

end Blockchain

end NexusLedger
