import NexusLedger.Node

/-! What each operation leaves as it is. Balance queries touch only the wallets; the mempool operations
    touch no block; a transaction row enters only by an insert. -/

namespace NexusLedger

/-! ### Statements of the store -/

namespace LedgerDB
variable (db : LedgerDB)

@[simp] theorem ensureWalletExists_blocks (address : String) :
    (db.ensureWalletExists address).2.blocks = db.blocks := by
  unfold ensureWalletExists
  split
  · rfl
  · split <;> rfl

@[simp] theorem ensureWalletExists_transactions (address : String) :
    (db.ensureWalletExists address).2.transactions = db.transactions := by
  unfold ensureWalletExists
  split
  · rfl
  · split <;> rfl

/-- After the call the wallet is there: nothing else keeps its address out. -/
theorem ensureWalletExists_wallet (address : String) :
    ∃ w ∈ (db.ensureWalletExists address).2.wallets.rows, w.address = .bind address := by
  unfold ensureWalletExists
  split
  · rename_i h
    obtain ⟨w, hw, hadd⟩ := List.any_eq_true.mp h
    exact ⟨w, hw, beq_iff_eq.mp hadd⟩
  · rename_i h
    have hfits : db.wallets.fits { address := .bind address, nonce := 0 } = true := by
      refine Table.fits_iff.mpr ⟨rfl, fun w hw => ?_⟩
      have := mt List.any_eq_true.mpr h
      simp only [not_exists, not_and] at this
      simpa [walletsSchema] using this w hw
    obtain ⟨u, hu, hrows⟩ := Table.insert_of_fits hfits
    simp only [hu]
    exact ⟨_, by rw [hrows]; exact List.mem_append_right _ (List.mem_singleton_self _), rfl⟩

section
variable [Arithmetic]

@[simp] theorem getBalance_blocks (address : String) : (db.getBalance address).2.blocks = db.blocks := by
  simp [getBalance]

@[simp] theorem getBalance_transactions (address : String) :
    (db.getBalance address).2.transactions = db.transactions := by
  simp [getBalance]

theorem viewBalance_congr {db db' : LedgerDB} (h : db'.transactions = db.transactions) (address : CString) :
    db'.viewBalance address = db.viewBalance address := by
  unfold viewBalance
  rw [h]

/-- The view reads the confirmed rows alone. -/
theorem viewBalance_of_confirmed {db db' : LedgerDB}
    (h : db'.transactions.rows.filter (·.confirmed) = db.transactions.rows.filter (·.confirmed)) (address : CString) :
    db'.viewBalance address = db.viewBalance address := by
  have hfilter : ∀ db : LedgerDB, (db.transactions.rows.filter fun t =>
      t.confirmed && (t.toAddress == address || t.fromAddress == address)) =
        (db.transactions.rows.filter (·.confirmed)).filter fun t =>
          t.toAddress == address || t.fromAddress == address := by
    intro db
    rw [List.filter_filter]
    exact List.filter_congr fun t _ => Bool.and_comm _ _
  unfold viewBalance
  rw [hfilter, hfilter, h]

theorem lookup_walletBalance {address : CString} (h : ∃ w ∈ db.wallets.rows, w.address = address) :
    db.walletBalance.lookup address = some (db.viewBalance address) := by
  unfold walletBalance
  obtain ⟨w, hw, hadd⟩ := h
  revert hw
  induction db.wallets.rows with
  | nil => intro hw; cases hw
  | cons x rows ih =>
    intro hw
    rw [List.map_cons, List.lookup_cons]
    by_cases hx : address = x.address
    · simp [hx]
    · rw [beq_eq_false_iff_ne.mpr hx]
      rcases List.mem_cons.mp hw with rfl | hw
      · exact absurd hadd.symm hx
      · exact ih hw

/-- `getBalance` is the sum that the view takes over the confirmed transactions. -/
theorem getBalance_fst (address : String) : (db.getBalance address).1 = db.viewBalance (.bind address) := by
  unfold getBalance
  simp only
  rw [lookup_walletBalance _ (ensureWalletExists_wallet db address), Option.getD_some]
  exact viewBalance_congr (ensureWalletExists_transactions db address) _

end

@[simp] theorem updateNonce_blocks (address : String) (nonce : UInt64) :
    (db.updateNonce address nonce).2.blocks = db.blocks := rfl

@[simp] theorem updateNonce_transactions (address : String) (nonce : UInt64) :
    (db.updateNonce address nonce).2.transactions = db.transactions := rfl

@[simp] theorem addTransaction_blocks (tx : Transaction) (height : Int32) :
    (db.addTransaction tx height).2.blocks = db.blocks := by
  unfold addTransaction
  split <;> rfl

@[simp] theorem addToMempool_blocks (tx : Transaction) (now : Int64) :
    (db.addToMempool tx now).2.blocks = db.blocks := by
  unfold addToMempool
  split <;> rfl

@[simp] theorem addToMempool_transactions (tx : Transaction) (now : Int64) :
    (db.addToMempool tx now).2.transactions = db.transactions := by
  unfold addToMempool
  split <;> rfl

theorem addTransactions_cons (tx : Transaction) (txs : List Transaction) (height : Int32) :
    db.addTransactions (tx :: txs) height = (db.addTransaction tx height).2.addTransactions txs height := rfl

@[simp] theorem addTransactions_nil (height : Int32) : db.addTransactions [] height = db := rfl

@[simp] theorem addTransactions_blocks (txs : List Transaction) (height : Int32) :
    (db.addTransactions txs height).blocks = db.blocks := by
  induction txs generalizing db with
  | nil => rfl
  | cons tx txs ih => rw [addTransactions_cons, ih, addTransaction_blocks]

theorem addTransaction_congr {db db' : LedgerDB} (h : db.transactions = db'.transactions) (tx : Transaction)
    (height : Int32) :
    (db.addTransaction tx height).2.transactions = (db'.addTransaction tx height).2.transactions := by
  unfold addTransaction
  rw [h]
  split
  · rfl
  · exact h

theorem addTransactions_congr {db db' : LedgerDB} (h : db.transactions = db'.transactions) (txs : List Transaction)
    (height : Int32) :
    (db.addTransactions txs height).transactions = (db'.addTransactions txs height).transactions := by
  induction txs generalizing db db' with
  | nil => exact h
  | cons tx txs ih =>
    rw [addTransactions_cons, addTransactions_cons]
    exact ih (addTransaction_congr h tx height)

theorem addTransaction_rows (tx : Transaction) (height : Int32) :
    (db.addTransaction tx height).2.transactions.rows = db.transactions.rows ∨
      (db.addTransaction tx height).2.transactions.rows =
        db.transactions.rows ++ [tx.row (if 0 ≤ height then some height else none)] := by
  unfold addTransaction
  split
  · rename_i u hu
    exact Or.inr (Table.insert_eq_some hu).2
  · exact Or.inl rfl

theorem subset_addTransaction (tx : Transaction) (height : Int32) :
    db.transactions.rows ⊆ (db.addTransaction tx height).2.transactions.rows := by
  rcases addTransaction_rows db tx height with h | h
  · rw [h]
    exact List.Subset.refl _
  · rw [h]
    exact List.subset_append_left _ _

end LedgerDB

/-! ### Operations of the chain -/

namespace Blockchain
variable (env : Env) (c : Blockchain)

@[simp] theorem removeAll_db (l : List TxPriority) : (c.removeAll l).db = c.db := by
  unfold removeAll
  induction l generalizing c with
  | nil => rfl
  | cons p l ih => rw [List.foldl_cons, ih]

/-- What the loss of the last entry, and of the transaction it names, keeps, eviction keeps. -/
theorem evict_keeps {c : Blockchain} {I : Blockchain → Prop}
    (drop : ∀ (d : Blockchain) (lowest : TxPriority), d.mempoolByPriority.last? = some lowest → I d →
      I { d with
          mempool := d.mempool.erase lowest.txHash
          mempoolByPriority := d.mempoolByPriority.eraseLast }) (n : Nat) (h : I c) : I (c.evict n) := by
  induction n generalizing c with
  | zero => exact h
  | succ n ih =>
    unfold evict
    split
    · split
      · rename_i lowest hlast
        exact ih (drop c lowest hlast h)
      · exact h
    · exact h

@[simp] theorem evict_db (n : Nat) : (c.evict n).db = c.db :=
  evict_keeps (I := fun d => d.db = c.db) (fun _ _ _ hd => hd) n rfl

section
variable [Arithmetic]

section
variable (mempool : Finmap fun _ : String => Transaction)

/-- What a balance query keeps, the first loop of `cleanMempool` keeps. -/
theorem findInvalid_keeps {I : LedgerDB → Prop} (keep : ∀ db address, I db → I (db.getBalance address).2)
    (l : List TxPriority) {db : LedgerDB} (h : I db) : I (findInvalid mempool l db).2 := by
  induction l generalizing db with
  | nil => exact h
  | cons p l ih =>
    unfold findInvalid
    split
    · exact ih h
    · split
      · exact ih h
      · exact ih (keep db _ h)

/-- What a balance query keeps, the selection loop of `createBlock` keeps. -/
theorem selectTransactions_keeps {I : LedgerDB → Prop} (keep : ∀ db address, I db → I (db.getBalance address).2)
    (l : List TxPriority) {db : LedgerDB} (n : Nat) (h : I db) : I (selectTransactions mempool l db n).2 := by
  induction l generalizing db n with
  | nil => exact h
  | cons p l ih =>
    unfold selectTransactions
    split
    · exact h
    · split
      · exact ih n h
      · split
        · exact ih _ h
        · simp only
          split
          · exact ih n (keep db _ h)
          · exact ih (n + 1) (keep db _ h)

theorem getBalance_frame {db₀ : LedgerDB} (db : LedgerDB) (address : String)
    (h : db.blocks = db₀.blocks ∧ db.transactions = db₀.transactions) :
    (db.getBalance address).2.blocks = db₀.blocks ∧ (db.getBalance address).2.transactions = db₀.transactions := by
  rw [LedgerDB.getBalance_blocks, LedgerDB.getBalance_transactions]
  exact h

theorem findInvalid_frame (l : List TxPriority) (db : LedgerDB) :
    (findInvalid mempool l db).2.blocks = db.blocks ∧
      (findInvalid mempool l db).2.transactions = db.transactions :=
  findInvalid_keeps mempool getBalance_frame l ⟨rfl, rfl⟩

theorem selectTransactions_frame (l : List TxPriority) (db : LedgerDB) (n : Nat) :
    (selectTransactions mempool l db n).2.blocks = db.blocks ∧
      (selectTransactions mempool l db n).2.transactions = db.transactions :=
  selectTransactions_keeps mempool getBalance_frame l n ⟨rfl, rfl⟩

theorem mem_selectTransactions {l : List TxPriority} {db : LedgerDB} {n : Nat} {tx : Transaction}
    (h : tx ∈ (selectTransactions mempool l db n).1) : ∃ p ∈ l, mempool.lookup p.txHash = some tx := by
  induction l generalizing db n with
  | nil => cases h
  | cons p l ih =>
    have tail : ∀ {db n}, tx ∈ (selectTransactions mempool l db n).1 →
        ∃ q ∈ p :: l, mempool.lookup q.txHash = some tx := by
      intro db n h
      obtain ⟨q, hq, hl⟩ := ih h
      exact ⟨q, List.mem_cons_of_mem _ hq, hl⟩
    unfold selectTransactions at h
    split at h
    · cases h
    · split at h
      · exact tail h
      · rename_i tx' htx'
        split at h
        · rcases List.mem_cons.mp h with rfl | h
          · exact ⟨p, List.mem_cons_self, htx'⟩
          · exact tail h
        · simp only at h
          split at h
          · exact tail h
          · rcases List.mem_cons.mp h with rfl | h
            · exact ⟨p, List.mem_cons_self, htx'⟩
            · exact tail h

end

@[simp] theorem cleanMempool_blocks : c.cleanMempool.2.db.blocks = c.db.blocks := by
  simp [cleanMempool, findInvalid_frame]

@[simp] theorem cleanMempool_transactions : c.cleanMempool.2.db.transactions = c.db.transactions := by
  simp [cleanMempool, findInvalid_frame]

@[simp] theorem enqueue_blocks (tx : Transaction) (now : Int64) : (c.enqueue env tx now).db.blocks = c.db.blocks := by
  simp [enqueue]

theorem enqueue_transactions (tx : Transaction) (now : Int64) :
    (c.enqueue env tx now).db.transactions = (c.db.addTransaction tx (-1)).2.transactions := by
  simp [enqueue]

@[simp] theorem addTransaction_blocks (tx : Transaction) (now : Int64) :
    (c.addTransaction env tx now).2.db.blocks = c.db.blocks := by
  unfold addTransaction
  split
  · rfl
  · split
    · rfl
    · split
      · simp
      · simp only
        split
        · simp
        · simp [LedgerDB.updateNonce]

@[simp] theorem restore_blocks (txs : List Transaction) (now : Int64) :
    (c.restore env txs now).db.blocks = c.db.blocks := by
  unfold restore
  induction txs generalizing c with
  | nil => rfl
  | cons tx txs ih =>
    rw [List.foldl_cons, ih]
    split
    · exact addTransaction_blocks env c tx now
    · rfl

@[simp] theorem createBlock_blocks (miner : String) (now : Int64) :
    (c.createBlock env miner now).2.db.blocks = c.db.blocks := by
  unfold createBlock
  simp only
  split <;> simp [selectTransactions_frame]

@[simp] theorem createBlock_transactions (miner : String) (now : Int64) :
    (c.createBlock env miner now).2.db.transactions = c.db.transactions := by
  unfold createBlock
  simp only
  split <;> simp [selectTransactions_frame]

end

end Blockchain

end NexusLedger
