import NexusLedger.Theorems.Admission
import NexusLedger.Theorems.Selection
import NexusLedger.Theorems.Storage

/-! What becomes of the transactions when `replaceLastBlock` takes a block for the tip. Those of the old block
    come back as the reader of the transactions table makes them out, and those of the new one stay where they
    are in the mempool. -/

namespace NexusLedger

section
set_option linter.unusedSectionVars false
variable [Arithmetic]

namespace Blockchain
variable {env : Env} {c d : Blockchain} {tx : Transaction} {k : String} {b o : Block} {now : Int64}

/-! ### What cleaning leaves -/

theorem lookup_removeAll (l : List TxPriority) (c : Blockchain) (k : String) :
    (c.removeAll l).mempool.lookup k = if k ∈ l.map (·.txHash) then none else c.mempool.lookup k := by
  unfold removeAll
  induction l generalizing c with
  | nil => simp
  | cons p l ih =>
    rw [List.foldl_cons, ih]
    by_cases hk : k = p.txHash
    · subst hk
      simp [Finmap.lookup_erase]
    · simp only [List.map_cons, List.mem_cons, hk, false_or, Finmap.lookup_erase_ne hk]

/-- A transaction stays if its sender can pay, or if the index does not name it. -/
theorem lookup_cleanMempool_iff : c.cleanMempool.2.mempool.lookup k = some tx ↔
    c.mempool.lookup k = some tx ∧ (Pays c.db tx ∨ ∀ p ∈ c.entries, p.txHash ≠ k) := by
  have hclean : c.cleanMempool.2.mempool.lookup k =
      if k ∈ (c.entries.filter (failing c.mempool c.db)).map (·.txHash) then none else c.mempool.lookup k := by
    rw [← findInvalid_eq]
    exact lookup_removeAll _ { c with db := (findInvalid c.mempool c.entries c.db).2 } k
  have hnamed : c.mempool.lookup k = some tx →
      (k ∈ (c.entries.filter (failing c.mempool c.db)).map (·.txHash) ↔
        ¬(Pays c.db tx ∨ ∀ p ∈ c.entries, p.txHash ≠ k)) := by
    intro hk
    rw [List.mem_map, not_or, not_forall]
    constructor
    · rintro ⟨p, hp, rfl⟩
      obtain ⟨hp, hfails⟩ := List.mem_filter.mp hp
      obtain ⟨x, hx, hnot⟩ := failing_iff.mp hfails
      rw [hk, Option.some.injEq] at hx
      exact ⟨hx ▸ hnot, p, fun h => h hp rfl⟩
    · rintro ⟨hnot, p, hp⟩
      rw [Classical.not_imp, not_not] at hp
      obtain ⟨hp, rfl⟩ := hp
      exact ⟨p, List.mem_filter.mpr ⟨hp, failing_iff.mpr ⟨tx, hk, hnot⟩⟩, rfl⟩
  rw [hclean]
  constructor
  · intro h
    split at h
    · cases h
    · rename_i hout
      rw [hnamed h, not_not] at hout
      exact ⟨h, hout⟩
  · rintro ⟨hk, hstays⟩
    rw [if_neg fun hmem => (hnamed hk).mp hmem hstays]
    exact hk

/-! ### What comes back -/

/-- The loop of `replaceLastBlock` puts a transaction into the mempool. -/
def ComesBack (c : Blockchain) (tx : Transaction) : Prop := Returned tx ∧ c.Admits tx

instance (c : Blockchain) : DecidablePred c.ComesBack := fun _ =>
  inferInstanceAs (Decidable ((_ ∧ _ ∧ _) ∧ _ ∧ _ ∧ (_ ∨ _)))

def comingBack (c : Blockchain) (txs : List Transaction) : List Transaction := txs.filter fun tx => c.ComesBack tx

theorem comingBack_congr (h : ∀ a, d.db.viewBalance a = c.db.viewBalance a) (txs : List Transaction) :
    d.comingBack txs = c.comingBack txs := by
  refine List.filter_congr fun tx _ => decide_eq_decide.mpr ?_
  rw [ComesBack, ComesBack, Admits, Admits, h]

/-- `d` is `c` with some transactions put in: nothing is evicted, and no balance changes. -/
structure Takeback (c : Blockchain) (txs : List Transaction) (d : Blockchain) : Prop where
  balances : ∀ a, d.db.viewBalance a = c.db.viewBalance a
  mempool : d.mempool = txs.foldl (fun m tx => m.insert tx.txHash tx) c.mempool
  size : d.mempoolByPriority.size ≤ c.mempoolByPriority.size + txs.length
  entries : c.entries ⊆ d.entries
  named : ∀ p ∈ d.entries, p ∈ c.entries ∨ ∃ tx ∈ txs, p.txHash = tx.txHash

namespace Takeback
variable {txs txs' : List Transaction}

theorem of_eq (hmempool : d.mempool = c.mempool) (hindex : d.mempoolByPriority = c.mempoolByPriority)
    (htransactions : d.db.transactions = c.db.transactions) : c.Takeback [] d where
  balances := LedgerDB.viewBalance_congr htransactions
  mempool := hmempool
  size := le_of_eq (congrArg OrderedSet.size hindex)
  entries := by
    rw [Blockchain.entries, Blockchain.entries, hindex]
    exact List.Subset.refl _
  named p hp := by
    rw [Blockchain.entries, hindex] at hp
    exact Or.inl hp

theorem trans {e : Blockchain} (h₁ : c.Takeback txs d) (h₂ : d.Takeback txs' e) : c.Takeback (txs ++ txs') e where
  balances a := (h₂.balances a).trans (h₁.balances a)
  mempool := by rw [h₂.mempool, h₁.mempool, List.foldl_append]
  size := by
    rw [List.length_append]
    have hfirst := h₁.size
    have hsecond := h₂.size
    omega
  entries p hp := h₂.entries (h₁.entries hp)
  named p hp := by
    rcases h₂.named p hp with hd | ⟨tx, htx, heq⟩
    · rcases h₁.named p hd with hc | ⟨tx, htx, heq⟩
      · exact Or.inl hc
      · exact Or.inr ⟨tx, List.mem_append_left _ htx, heq⟩
    · exact Or.inr ⟨tx, List.mem_append_right _ htx, heq⟩

end Takeback

theorem size_inserted_le (env : Env) (c : Blockchain) (tx : Transaction) (now : Int64) :
    (c.inserted env tx now).mempoolByPriority.size ≤ c.mempoolByPriority.size + 1 := by
  by_cases h : c.Ties env tx now
  · exact le_of_eq_of_le (congrArg List.length (entries_inserted_of_ties h)) (Nat.le_succ _)
  · exact le_of_eq (OrderedSet.size_insert _ _ (free_of_not_ties h))

theorem takeback_addTransaction (env : Env) (now : Int64) (ha : c.Admits tx)
    (hroom : c.mempoolByPriority.size < maxMempool) (hstatus : cText tx.status ≠ "confirmed") :
    c.Takeback [tx] (c.addTransaction env tx now).2 := by
  rcases addTransaction_cases env now ha (le_of_lt hroom) with ⟨-, hmempool, hindex⟩ | ⟨_, -, hfull, -⟩
  · refine ⟨fun a => viewBalance_addTransaction_of_pending hstatus ha, hmempool, ?_, fun p hp => ?_, fun p hp => ?_⟩
    · rw [hindex]
      exact size_inserted_le env c tx now
    · rw [Blockchain.entries, hindex]
      exact subset_entries_inserted env c tx now hp
    · rw [Blockchain.entries, hindex] at hp
      by_cases hties : c.Ties env tx now
      · exact Or.inl (entries_inserted_of_ties hties ▸ hp)
      · refine ((mem_entries_inserted hties).mp hp).symm.imp_right fun heq => ?_
        exact ⟨tx, List.mem_singleton_self _, congrArg TxPriority.txHash heq⟩
  · exact absurd hfull (ne_of_lt hroom)

theorem takeback_of_not_comesBack (env : Env) (now : Int64) (h : ¬c.ComesBack tx) :
    c.Takeback [] (c.giveBack env now tx) := by
  by_cases hback : Returned tx
  · obtain ⟨db, hdb, heq⟩ := addTransaction_eq_of_not_admits env now fun ha => h ⟨hback, ha⟩
    rw [giveBack_of_returned hback, heq]
    exact Takeback.of_eq rfl rfl hdb
  · rw [giveBack_of_not_returned hback]
    exact Takeback.of_eq rfl rfl rfl

/-- With room in the index for all of them, the loop puts in what passes the checks at its start. -/
theorem takeback_restore (env : Env) (now : Int64) {txs : List Transaction}
    (hroom : c.mempoolByPriority.size + (c.comingBack txs).length ≤ maxMempool)
    (hstatus : ∀ tx ∈ c.comingBack txs, cText tx.status ≠ "confirmed") :
    c.Takeback (c.comingBack txs) (c.restore env txs now) := by
  rw [restore_eq]
  induction txs generalizing c with
  | nil => exact Takeback.of_eq rfl rfl rfl
  | cons tx txs ih =>
    rw [List.foldl_cons]
    by_cases h : c.ComesBack tx
    · have hcons : c.comingBack (tx :: txs) = [tx] ++ c.comingBack txs :=
        List.filter_cons_of_pos (decide_eq_true h)
      rw [hcons] at hroom hstatus ⊢
      rw [List.length_append, List.length_singleton] at hroom
      have hstep : c.Takeback [tx] (c.giveBack env now tx) := by
        rw [giveBack_of_returned h.1]
        exact takeback_addTransaction env now h.2 (by omega) (hstatus tx (List.mem_cons_self ..))
      have hsize : (c.giveBack env now tx).mempoolByPriority.size ≤ c.mempoolByPriority.size + 1 := hstep.size
      have hsame := comingBack_congr hstep.balances txs
      rw [← hsame] at hroom hstatus ⊢
      exact hstep.trans (ih (by omega) fun x hx => hstatus x (List.mem_append_right _ hx))
    · have hcons : c.comingBack (tx :: txs) = [] ++ c.comingBack txs :=
        List.filter_cons_of_neg fun hdec => h (of_decide_eq_true hdec)
      rw [hcons] at hroom hstatus ⊢
      have hstep := takeback_of_not_comesBack env now h
      have hsize : (c.giveBack env now tx).mempoolByPriority.size ≤ c.mempoolByPriority.size := hstep.size
      have hsame := comingBack_congr hstep.balances txs
      rw [← hsame] at hroom hstatus ⊢
      exact hstep.trans (ih (le_trans (Nat.add_le_add_right hsize _) hroom) hstatus)

/-- Of transactions with different hashes each is found under its own. -/
theorem lookup_foldl_insert {txs : List Transaction} {m : Finmap fun _ : String => Transaction}
    (h : (txs.map (·.txHash)).Nodup) :
    (txs.foldl (fun m tx => m.insert tx.txHash tx) m).lookup k = some tx ↔
      (tx ∈ txs ∧ tx.txHash = k) ∨ ((∀ x ∈ txs, x.txHash ≠ k) ∧ m.lookup k = some tx) := by
  induction txs generalizing m with
  | nil => simp
  | cons y txs ih =>
    rw [List.map_cons, List.nodup_cons] at h
    obtain ⟨hy, htxs⟩ := h
    rw [List.foldl_cons, ih htxs, List.mem_cons, List.forall_mem_cons]
    by_cases hk : k = y.txHash
    · subst hk
      have hnot : ∀ x ∈ txs, x.txHash ≠ y.txHash := fun x hx heq => hy (List.mem_map.mpr ⟨x, hx, heq⟩)
      rw [Finmap.lookup_insert, Option.some.injEq]
      constructor
      · rintro (⟨htx, heq⟩ | ⟨-, rfl⟩)
        · exact absurd heq (hnot tx htx)
        · exact Or.inl ⟨Or.inl rfl, rfl⟩
      · rintro (⟨rfl | htx, heq⟩ | ⟨⟨hne, -⟩, -⟩)
        · exact Or.inr ⟨hnot, rfl⟩
        · exact absurd heq (hnot tx htx)
        · exact absurd rfl hne
    · rw [Finmap.lookup_insert_of_ne _ hk]
      constructor
      · rintro (⟨htx, heq⟩ | ⟨hnot, hm⟩)
        · exact Or.inl ⟨Or.inr htx, heq⟩
        · exact Or.inr ⟨⟨Ne.symm hk, hnot⟩, hm⟩
      · rintro (⟨rfl | htx, heq⟩ | ⟨⟨-, hnot⟩, hm⟩)
        · exact absurd heq.symm hk
        · exact Or.inl ⟨htx, heq⟩
        · exact Or.inr ⟨hnot, hm⟩

/-- No two rows that are read back have one hash. -/
theorem nodup_getTransactionsByBlock (env : Env) (db : LedgerDB) (height : Int32) :
    ((db.getTransactionsByBlock env height).map (·.txHash)).Nodup := by
  have hrows : (db.transactions.rows.filter fun t => t.blockHeight == some height).Pairwise
      fun t u => t.txHash.val ≠ u.txHash.val := by
    refine (db.transactions.distinct.imp fun {t u} htu heq => ?_).filter _
    have hsame : t.txHash = u.txHash := Subtype.ext heq
    simp [transactionsSchema, hsame] at htu
  rw [LedgerDB.getTransactionsByBlock, List.map_map, List.Nodup, List.pairwise_map]
  exact hrows

/-! ### The replacement -/

/-- What comes back of the block at the tip once another is in its place, as the table is read. -/
def copies (env : Env) (c : Blockchain) (b : Block) : List Transaction :=
  ({ c with db := c.replaced b } : Blockchain).comingBack (c.db.getTransactionsByBlock env c.getHeight)

/-- The index has room for what comes back, and the table takes none of it as confirmed. -/
structure RoomFor (env : Env) (c : Blockchain) (b : Block) : Prop where
  room : c.mempoolByPriority.size + (c.copies env b).length ≤ maxMempool
  unconfirmed : ∀ tx ∈ c.copies env b, cText tx.status ≠ "confirmed"

theorem pays_of_mem_copies (h : tx ∈ c.copies env b) : Pays (c.replaced b) tx :=
  (of_decide_eq_true (List.mem_filter.mp h).2).2.2.2

/-- The replacement comes down to the new balances: what came back can pay by them, and the rest of the mempool is
    cleaned by them. -/
theorem replaced_of_roomFor (now : Int64) (hc : c.Competes b) (hf : c.FreshBelow b) (hroom : c.RoomFor env b) :
    (∀ a, (c.replaceLastBlock env b now).2.db.viewBalance a = (c.replaced b).viewBalance a) ∧
      ∀ k tx, (c.replaceLastBlock env b now).2.mempool.lookup k = some tx ↔
        (tx ∈ c.copies env b ∧ tx.txHash = k) ∨
          ((∀ x ∈ c.copies env b, x.txHash ≠ k) ∧ c.mempool.lookup k = some tx ∧
            (Pays (c.replaced b) tx ∨ ∀ p ∈ c.entries, p.txHash ≠ k)) := by
  have hback := takeback_restore env now (c := { c with db := c.replaced b }) hroom.room hroom.unconfirmed
  have hnodup : ((c.copies env b).map (·.txHash)).Nodup :=
    (nodup_getTransactionsByBlock env c.db c.getHeight).sublist (List.filter_sublist.map _)
  have hpays : ∀ tx, Pays (({ c with db := c.replaced b } : Blockchain).restore env
      (c.db.getTransactionsByBlock env c.getHeight) now).db tx ↔ Pays (c.replaced b) tx := by
    intro tx
    rw [Pays, Pays, hback.balances]
  rw [(replaceLastBlock_eq_of_fresh env now hc hf).2.2]
  refine ⟨fun a => (LedgerDB.viewBalance_congr (cleanMempool_transactions _) a).trans (hback.balances a), fun k tx => ?_⟩
  rw [lookup_cleanMempool_iff, hback.mempool, hpays]
  rw [show ({ c with db := c.replaced b } : Blockchain).comingBack _ = c.copies env b from rfl] at hback ⊢
  rw [lookup_foldl_insert hnodup]
  constructor
  · rintro ⟨hcopy | ⟨hnot, hk⟩, hstays⟩
    · exact Or.inl hcopy
    · exact Or.inr ⟨hnot, hk, hstays.imp_right fun hnone p hp => hnone p (hback.entries hp)⟩
  · rintro (⟨hcopy, heq⟩ | ⟨hnot, hk, hstays⟩)
    · exact ⟨Or.inl ⟨hcopy, heq⟩, Or.inl (pays_of_mem_copies hcopy)⟩
    · refine ⟨Or.inr ⟨hnot, hk⟩, hstays.imp_right fun hnone p hp => ?_⟩
      rcases hback.named p hp with hold | ⟨x, hx, heq⟩
      · exact hnone p hold
      · exact heq ▸ hnot x hx

/-! ### Neither lost nor twice -/

/-- After the replacement of `o` by `b`: what was in the old block and can be paid for is in the new one or in the
    mempool as it was, and nothing of the new block is in the mempool. -/
structure Swapped (c : Blockchain) (o b : Block) : Prop where
  kept : ∀ tx ∈ o.transactions, tx.fromAddress ≠ "SYSTEM" →
    Arithmetic.add tx.amount tx.fee ≤ (c.getBalance tx.fromAddress).1 →
      tx ∈ b.transactions ∨ c.mempool.lookup tx.txHash = some tx
  dropped : ∀ tx ∈ b.transactions, tx.txHash ∉ c.mempool

/-- Before it: what can be paid for on the chain with `b` is in `b`, comes back unaltered, or is pending already
    and nothing comes back under its hash; and under a hash of `b` nothing comes back, and what is pending has an
    index entry and cannot be paid for. -/
structure Swaps (env : Env) (c : Blockchain) (o b : Block) : Prop where
  kept : ∀ tx ∈ o.transactions, tx.fromAddress ≠ "SYSTEM" →
    Arithmetic.add tx.amount tx.fee ≤ (c.replaced b).viewBalance (.bind tx.fromAddress) →
      tx ∈ b.transactions ∨ tx ∈ c.copies env b ∨
        ((∀ x ∈ c.copies env b, x.txHash ≠ tx.txHash) ∧ c.mempool.lookup tx.txHash = some tx)
  dropped : ∀ tx ∈ b.transactions, (∀ x ∈ c.copies env b, x.txHash ≠ tx.txHash) ∧
    ∀ x, c.mempool.lookup tx.txHash = some x → ¬Pays (c.replaced b) x ∧ ∃ p ∈ c.entries, p.txHash = tx.txHash

/-- Whatever the old block was: where the index has room for what comes back, a replacement loses and doubles
    nothing exactly when the table or the mempool gives back what was mined, and nothing has to be dropped. -/
theorem replacement_swaps_iff (env : Env) (c : Blockchain) (o b : Block) (now : Int64) (hroom : c.RoomFor env b) :
    ((c.replaceLastBlock env b now).1 = true → (c.replaceLastBlock env b now).2.Swapped o b) ↔
      (c.Competes b → c.FreshBelow b → c.Swaps env o b) := by
  have haccepts : (c.replaceLastBlock env b now).1 = true ↔ c.Competes b ∧ c.FreshBelow b :=
    exec_accepts_iff (.replaceLastBlock b now)
  rw [haccepts, and_imp]
  refine forall_congr' fun hc => forall_congr' fun hf => ?_
  obtain ⟨hbalances, hlookup⟩ := replaced_of_roomFor now hc hf hroom
  have hbalance : ∀ tx : Transaction, ((c.replaceLastBlock env b now).2.getBalance tx.fromAddress).1 =
      (c.replaced b).viewBalance (.bind tx.fromAddress) := fun tx =>
    (LedgerDB.getBalance_fst _ _).trans (hbalances _)
  constructor
  · rintro ⟨hkept, hdropped⟩
    have hgone : ∀ tx ∈ b.transactions, ∀ x, (c.replaceLastBlock env b now).2.mempool.lookup tx.txHash ≠ some x :=
      fun tx htx x hx => hdropped tx htx (Finmap.mem_iff.mpr ⟨x, hx⟩)
    have hnone : ∀ tx ∈ b.transactions, ∀ x ∈ c.copies env b, x.txHash ≠ tx.txHash :=
      fun tx htx x hx heq => hgone tx htx x ((hlookup _ _).mpr (Or.inl ⟨hx, heq⟩))
    refine ⟨fun tx htx hfrom hcan => ?_, fun tx htx => ⟨hnone tx htx, fun x hx => ?_⟩⟩
    · refine (hkept tx htx hfrom (by rwa [hbalance])).imp_right fun hpending => ?_
      rcases (hlookup _ _).mp hpending with ⟨hcopy, -⟩ | ⟨hnot, hold, -⟩
      · exact Or.inl hcopy
      · exact Or.inr ⟨hnot, hold⟩
    · have hfails : ¬(Pays (c.replaced b) x ∨ ∀ p ∈ c.entries, p.txHash ≠ tx.txHash) := fun hstays =>
        hgone tx htx x ((hlookup _ _).mpr (Or.inr ⟨hnone tx htx, hx, hstays⟩))
      rw [not_or] at hfails
      refine ⟨hfails.1, ?_⟩
      by_contra hnot
      exact hfails.2 fun p hp heq => hnot ⟨p, hp, heq⟩
  · rintro ⟨hkept, hdropped⟩
    refine ⟨fun tx htx hfrom hcan => ?_, fun tx htx hmem => ?_⟩
    · rw [hbalance] at hcan
      refine (hkept tx htx hfrom hcan).imp_right fun hback => (hlookup _ _).mpr ?_
      rcases hback with hcopy | ⟨hnot, hpending⟩
      · exact Or.inl ⟨hcopy, rfl⟩
      · exact Or.inr ⟨hnot, hpending, Or.inl (Or.inr (Double.not_lt_of_le hcan))⟩
    · obtain ⟨x, hx⟩ := Finmap.mem_iff.mp hmem
      obtain ⟨hnone, hfails⟩ := hdropped tx htx
      rcases (hlookup _ _).mp hx with ⟨hcopy, heq⟩ | ⟨-, hold, hpays | hnot⟩
      · exact hnone x hcopy heq
      · exact (hfails x hold).1 hpays
      · obtain ⟨p, hp, heq⟩ := (hfails x hold).2
        exact hnot p hp heq

end Blockchain

end

namespace Blockchain

attribute [local instance] Arithmetic.binary64

/-- The chain that made the mined block and took it. -/
def minedState : Blockchain := ((pendingState.createBlock Node.sampleEnv "alpha" 1700143364).2.addBlock payingBlock).2

/-- The store has the coinbase alone of the block, and with the amount of 0 that it reads back it stays out. -/
theorem roomFor_minedState : minedState.RoomFor Node.sampleEnv (plainBlock 1 "b1" zeroHash) := by
  obtain ⟨hnone, hsize⟩ : minedState.copies Node.sampleEnv (plainBlock 1 "b1" zeroHash) = [] ∧
      minedState.mempoolByPriority.size ≤ maxMempool := by decide +kernel
  refine ⟨?_, fun tx htx => ?_⟩
  · rw [hnone]
    exact hsize
  · rw [hnone] at htx
    cases htx

theorem replacement_swaps_iff_minedState :
    ((minedState.replaceLastBlock Node.sampleEnv (plainBlock 1 "b1" zeroHash) 1700143400).1 = true →
        (minedState.replaceLastBlock Node.sampleEnv (plainBlock 1 "b1" zeroHash) 1700143400).2.Swapped payingBlock
          (plainBlock 1 "b1" zeroHash)) ↔
      (minedState.Competes (plainBlock 1 "b1" zeroHash) → minedState.FreshBelow (plainBlock 1 "b1" zeroHash) →
        minedState.Swaps Node.sampleEnv payingBlock (plainBlock 1 "b1" zeroHash)) :=
  replacement_swaps_iff Node.sampleEnv minedState payingBlock (plainBlock 1 "b1" zeroHash) 1700143400
    roomFor_minedState

/-- A block without transactions takes the place of the one with the payment. -/
theorem payment_lost :
    (pendingState.createBlock Node.sampleEnv "alpha" 1700143364).1.transactions = payingBlock.transactions ∧
      minedState.tip = some payingBlock.row ∧
      (minedState.replaceLastBlock Node.sampleEnv (plainBlock 1 "b1" zeroHash) 1700143400).1 = true ∧
      ¬(minedState.replaceLastBlock Node.sampleEnv (plainBlock 1 "b1" zeroHash) 1700143400).2.Swapped payingBlock
        (plainBlock 1 "b1" zeroHash) := by
  obtain ⟨hmade, htip, haccepts, hgone, hcan⟩ :
      (pendingState.createBlock Node.sampleEnv "alpha" 1700143364).1.transactions = payingBlock.transactions ∧
        minedState.tip = some payingBlock.row ∧
        (minedState.replaceLastBlock Node.sampleEnv (plainBlock 1 "b1" zeroHash) 1700143400).1 = true ∧
        (minedState.replaceLastBlock Node.sampleEnv (plainBlock 1 "b1" zeroHash) 1700143400).2.mempool.lookup
          Node.samplePayment.txHash = none ∧
        Arithmetic.add Node.samplePayment.amount Node.samplePayment.fee ≤
          ((minedState.replaceLastBlock Node.sampleEnv (plainBlock 1 "b1" zeroHash) 1700143400).2.getBalance
            Node.samplePayment.fromAddress).1 := by decide +kernel
  refine ⟨hmade, htip, haccepts, fun h => ?_⟩
  have hmem : Node.samplePayment ∈ payingBlock.transactions := List.mem_cons_of_mem _ List.mem_cons_self
  rcases h.kept Node.samplePayment hmem (by decide) hcan with hnew | hpending
  · cases hnew
  · rw [hgone] at hpending
    cases hpending

end Blockchain

end NexusLedger
