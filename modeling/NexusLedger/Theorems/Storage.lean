import NexusLedger.Theorems.Staleness
import NexusLedger.Theorems.Settlement

/-! What the store holds of a block that was accepted. The row of the block and the rows of its transactions go
    in one by one: the table may refuse some of the transactions, and text is cut off at its first NUL. -/

namespace NexusLedger
open Blockchain

section
set_option linter.unusedSectionVars false
variable [Arithmetic]

/-! ### The rows of a block -/

namespace LedgerDB
variable {db : LedgerDB} {txs : List Transaction} {height : Int32}

/-- The table takes all of the transactions: each one meets the CHECKs, and no hash is stored or comes twice. -/
structure Takes (db : LedgerDB) (txs : List Transaction) : Prop where
  checked : ∀ tx ∈ txs, transactionsSchema.check (tx.row none) = true
  fresh : ∀ tx ∈ txs, CString.bind tx.txHash ∉ db.transactions.rows.map (·.txHash)
  distinct : (txs.map fun tx => CString.bind tx.txHash).Nodup

theorem takes_cons_iff {tx : Transaction} (height : Int32) :
    db.Takes (tx :: txs) ↔ ¬db.Unstorable tx ∧ (db.addTransaction tx height).2.Takes txs := by
  have hstorable : ¬db.Unstorable tx ↔
      transactionsSchema.check (tx.row none) = true ∧ CString.bind tx.txHash ∉ db.transactions.rows.map (·.txHash) := by
    rw [Unstorable, Bool.not_eq_false, fits_txRow_iff]
  constructor
  · rintro ⟨hchecked, hfresh, hdistinct⟩
    rw [List.forall_mem_cons] at hchecked hfresh
    rw [List.map_cons, List.nodup_cons] at hdistinct
    have hnew : ¬db.Unstorable tx := hstorable.mpr ⟨hchecked.1, hfresh.1⟩
    refine ⟨hnew, hchecked.2, fun x hx => ?_, hdistinct.2⟩
    rw [addTransaction_of_storable hnew, List.map_append, List.mem_append, List.map_singleton, List.mem_singleton]
    rintro (hold | heq)
    · exact hfresh.2 x hx hold
    · exact hdistinct.1 (List.mem_map.mpr ⟨x, hx, heq⟩)
  · rintro ⟨hnew, hchecked, hfresh, hdistinct⟩
    rw [addTransaction_of_storable hnew, List.map_append, List.map_singleton] at hfresh
    have hother : ∀ x ∈ txs, CString.bind x.txHash ∉ db.transactions.rows.map (·.txHash) ∧
        CString.bind x.txHash ≠ .bind tx.txHash := by
      intro x hx
      have := hfresh x hx
      rw [List.mem_append, List.mem_singleton, not_or] at this
      exact this
    refine ⟨List.forall_mem_cons.mpr ⟨(hstorable.mp hnew).1, hchecked⟩,
      List.forall_mem_cons.mpr ⟨(hstorable.mp hnew).2, fun x hx => (hother x hx).1⟩, ?_⟩
    rw [List.map_cons, List.nodup_cons]
    refine ⟨fun hmem => ?_, hdistinct⟩
    obtain ⟨x, hx, heq⟩ := List.mem_map.mp hmem
    exact (hother x hx).2 heq

/-- The rows that the transactions of a block bring are those of some of them, in their order, and of all of them
    exactly when the table takes all. -/
theorem addTransactions_kept (db : LedgerDB) (txs : List Transaction) (height : Int32) :
    ∃ kept : List Transaction, kept.Sublist txs ∧
      (db.addTransactions txs height).transactions.rows =
        db.transactions.rows ++ kept.map (·.row (if 0 ≤ height then some height else none)) ∧
      (kept = txs ↔ db.Takes txs) := by
  induction txs generalizing db with
  | nil => exact ⟨[], List.Sublist.refl _, by simp, ⟨fun _ => ⟨by simp, by simp, by simp⟩, fun _ => rfl⟩⟩
  | cons tx txs ih =>
    rw [addTransactions_cons, takes_cons_iff height]
    obtain ⟨kept, hsub, hrows, hall⟩ := ih (db.addTransaction tx height).2
    by_cases h : db.Unstorable tx
    · rw [addTransaction_of_unstorable h] at hrows ⊢
      refine ⟨kept, hsub.cons tx, hrows, ?_⟩
      simp only [h, not_true, false_and, iff_false]
      intro heq
      have := hsub.length_le
      rw [heq, List.length_cons] at this
      omega
    · refine ⟨tx :: kept, hsub.cons_cons tx, ?_, ?_⟩
      · rw [hrows, addTransaction_of_storable h, List.map_cons, List.append_assoc, List.singleton_append]
      · simp [h, hall]

/-- Every row with a height belongs to a stored block. -/
def Placed (db : LedgerDB) : Prop :=
  ∀ t ∈ db.transactions.rows, ∀ h, t.blockHeight = some h → ∃ r ∈ db.blocks.rows, r.height = h

theorem Placed.congr {db' : LedgerDB} (h : db.Placed) (hblocks : db'.blocks = db.blocks)
    (htxs : db'.transactions = db.transactions) : db'.Placed := by
  unfold Placed
  rw [hblocks, htxs]
  exact h

/-- An unconfirmed row has no height. -/
theorem Placed.addTransaction (h : db.Placed) (tx : Transaction) : (db.addTransaction tx (-1)).2.Placed := by
  intro t ht k hk
  rw [addTransaction_blocks]
  rcases addTransaction_rows db tx (-1) with hrows | hrows
  · exact h t (hrows ▸ ht) k hk
  · rw [hrows, List.mem_append, List.mem_singleton] at ht
    rcases ht with ht | rfl
    · exact h t ht k hk
    · cases hk

theorem Placed.addTransactions (h : db.Placed) (hblock : ∃ r ∈ db.blocks.rows, r.height = height)
    (txs : List Transaction) : (db.addTransactions txs height).Placed := by
  obtain ⟨kept, -, hrows, -⟩ := addTransactions_kept db txs height
  intro t ht k hk
  rw [addTransactions_blocks]
  rw [hrows, List.mem_append] at ht
  rcases ht with ht | ht
  · exact h t ht k hk
  · obtain ⟨tx, -, rfl⟩ := List.mem_map.mp ht
    have hheight : k = height := by
      replace hk : (if 0 ≤ height then some height else none) = some k := hk
      split at hk
      · exact (Option.some.inj hk).symm
      · cases hk
    exact hheight ▸ hblock

theorem Placed.deleteBlock (h : db.Placed) (height : Int32) : (db.deleteBlock height).Placed := by
  intro t ht k hk
  obtain ⟨ht, hother⟩ := List.mem_filter.mp ht
  obtain ⟨r, hr, hrk⟩ := h t ht k hk
  have hne : ¬k = height := by simpa [hk] using hother
  exact ⟨r, List.mem_filter.mpr ⟨hr, by simp [hrk, hne]⟩, hrk⟩

/-- A block is stored before its transactions are. -/
theorem Placed.grown (h : db.Placed) {blocks : Table blocksSchema} {b : Block}
    (hrows : blocks.rows = db.blocks.rows ++ [b.row]) :
    ({ db with blocks }.addTransactions b.transactions b.height).Placed := by
  have hgrown : ({ db with blocks } : LedgerDB).Placed := by
    intro t ht k hk
    obtain ⟨r, hr, hrk⟩ := h t ht k hk
    refine ⟨r, ?_, hrk⟩
    rw [hrows]
    exact List.mem_append_left _ hr
  refine hgrown.addTransactions ⟨b.row, ?_, rfl⟩ _
  rw [hrows]
  exact List.mem_append_right _ (List.mem_singleton_self _)

theorem Placed.addBlock (h : db.Placed) (b : Block) : (db.addBlock b).2.Placed := by
  unfold LedgerDB.addBlock
  split
  · rename_i blocks hblocks
    exact h.grown (Table.insert_eq_some hblocks).2
  · exact h

end LedgerDB

namespace Blockchain
variable {env : Env} {c : Blockchain} {b : Block}

theorem placed_addTransaction (env : Env) (tx : Transaction) (now : Int64) (h : c.db.Placed) :
    (c.addTransaction env tx now).2.db.Placed := by
  by_cases ha : c.Admits tx
  · refine (h.addTransaction tx).congr ?_ (addTransaction_of_admits env now ha).1
    rw [addTransaction_blocks, LedgerDB.addTransaction_blocks]
  · exact h.congr (addTransaction_blocks env c tx now) (addTransaction_of_not_admits env now ha).1

theorem placed_addBlock (b : Block) (h : c.db.Placed) : (c.addBlock b).2.db.Placed := by
  by_cases ha : c.Appends b
  · obtain ⟨blocks, hrows, heq⟩ := addBlock_eq_of_appends ha
    rw [heq]
    exact (h.grown hrows).congr (cleanMempool_blocks _) (cleanMempool_transactions _)
  · rw [addBlock_of_not_appends ha]
    exact h

theorem placed_replaceLastBlock (env : Env) (b : Block) (now : Int64) (h : c.db.Placed) :
    (c.replaceLastBlock env b now).2.db.Placed := by
  by_cases hc : c.Competes b
  · by_cases hf : c.FreshBelow b
    · rw [(replaceLastBlock_eq_of_fresh env now hc hf).2.2]
      have hstored : ({ c with db := c.replaced b } : Blockchain).db.Placed := (h.deleteBlock c.getHeight).addBlock b
      refine LedgerDB.Placed.congr ?_ (cleanMempool_blocks _) (cleanMempool_transactions _)
      exact restore_keeps env now (I := fun d : Blockchain => d.db.Placed)
        (fun tx _ _ d hd => placed_addTransaction env tx now hd) hstored
    · rw [replaceLastBlock_of_not_fresh hc hf]
      exact h.deleteBlock c.getHeight
  · rw [replaceLastBlock_of_not_competes hc]
    exact h

theorem placed_operate (env : Env) (op : Operation) (h : c.db.Placed) : (operate env c op).db.Placed := by
  cases op with
  | addTransaction tx now => exact placed_addTransaction env tx now h
  | createBlock miner now =>
    exact h.congr (createBlock_blocks env c miner now) (createBlock_transactions env c miner now)
  | cleanMempool => exact h.congr (cleanMempool_blocks c) (cleanMempool_transactions c)
  | removeFromMempool txHash => exact h
  | call k =>
    cases k with
    | addBlock b => exact placed_addBlock b h
    | replaceLastBlock b now => exact placed_replaceLastBlock env b now h

theorem placed_of_mem_states {started : Int64} {ops : List Operation}
    (hc : c ∈ Transition.states (operate env) (genesis started) ops) : c.db.Placed := by
  refine Transition.invariant (I := fun d : Blockchain => d.db.Placed) (fun d op hd => placed_operate env op hd) ?_ c hc
  intro t ht h hh
  rw [List.mem_singleton.mp ht] at hh
  cases hh
  exact ⟨genesisRow started, List.mem_singleton_self _, rfl⟩

end Blockchain

end

/-! ### Reading a block back -/

namespace Block
variable {env : Env} {a b : Block}

/-- The header of a block, without its transactions. -/
def SameHeader (a b : Block) : Prop := { a with transactions := b.transactions } = b

theorem calculateMerkleRoot_congr (env : Env) (h : a.transactions.map (·.txHash) = b.transactions.map (·.txHash)) :
    a.calculateMerkleRoot env = b.calculateMerkleRoot env := by
  unfold calculateMerkleRoot
  cases ha : a.transactions with
  | nil =>
    rw [ha, List.map_nil, eq_comm, List.map_eq_nil_iff] at h
    rw [h]
  | cons x xs =>
    cases hb : b.transactions with
    | nil => simp [ha, hb] at h
    | cons y ys =>
      rw [ha, hb] at h
      simp only [h]

/-- Validation reads the header and the hashes of the transactions. -/
theorem validate_congr (hheader : a.SameHeader b) (h : a.transactions.map (·.txHash) = b.transactions.map (·.txHash)) :
    a.validate env = b.validate env := by
  have hroot := calculateMerkleRoot_congr env h
  unfold SameHeader at hheader
  rw [← hheader] at hroot ⊢
  unfold validate
  rw [hroot]
  rfl

/-- No text of the header has a NUL, and no hash of a transaction. -/
structure NulFree (b : Block) : Prop where
  hash : cText b.hash = b.hash
  prevHash : cText b.prevHash = b.prevHash
  merkleRoot : cText b.merkleRoot = b.merkleRoot
  minedBy : cText b.minedBy = b.minedBy
  txHashes : ∀ tx ∈ b.transactions, cText tx.txHash = tx.txHash

theorem sameHeader_toBlock_iff {txs : List Transaction} :
    SameHeader { b.header.toBlock with transactions := txs } b ↔
      (cText b.hash = b.hash ∧ cText b.prevHash = b.prevHash ∧ cText b.merkleRoot = b.merkleRoot ∧
        cText b.minedBy = b.minedBy) ∧ b.difficulty.stored = b.difficulty := by
  cases b
  simp [SameHeader, Block.header, Header.toBlock]
  tauto

end Block

section
set_option linter.unusedSectionVars false
variable [Arithmetic]

namespace Blockchain
open LedgerDB
variable {env : Env} {c : Blockchain} {b : Block}

/-- The block at its height has its header, its hashes in their order and as many rows as `tx_count` says, and it
    validates if the block did. -/
def StoredWhole (env : Env) (c : Blockchain) (b : Block) : Prop :=
  ∃ stored, c.getBlock env b.height = some stored ∧ stored.SameHeader b ∧
    stored.transactions.map (·.txHash) = b.transactions.map (·.txHash) ∧
    (∃ r, c.db.rowAt b.height = some r ∧
      r.txCount = (c.db.transactions.rows.filter fun t => t.blockHeight == some b.height).length) ∧
    (b.validate env = some true → stored.validate env = some true)

/-- In a state where no row is at a height without a block, what is read at the height of a new block are its own
    rows. -/
theorem rows_at_new_block (h : c.db.Placed) (hnonneg : 0 ≤ c.getHeight.toInt) (ha : c.Appends b) :
    ∃ kept : List Transaction, kept.Sublist b.transactions ∧ (kept = b.transactions ↔ c.db.Takes b.transactions) ∧
      (c.addBlock b).2.db.transactions.rows.filter (fun t => t.blockHeight == some b.height) =
        kept.map (·.row (some b.height)) := by
  obtain ⟨kept, hsub, hrows, hall⟩ := addTransactions_kept c.db b.transactions b.height
  refine ⟨kept, hsub, hall, ?_⟩
  have habove := ha.above
  have hheight : (0 : Int32) ≤ b.height := by
    rw [Int32.le_iff_toInt_le]
    exact le_of_lt (lt_of_le_of_lt hnonneg habove)
  have hold : (c.db.transactions.rows.filter fun t => t.blockHeight == some b.height) = [] := by
    rw [List.filter_eq_nil_iff]
    intro t ht heq
    obtain ⟨r, hr, hrh⟩ := h t ht b.height (beq_iff_eq.mp heq)
    have hle := height_le (c := c) hr
    rw [hrh] at hle
    exact absurd habove (not_lt_of_ge hle)
  have hnew : ((kept.map (·.row (some b.height))).filter fun t => t.blockHeight == some b.height) =
      kept.map (·.row (some b.height)) := by
    rw [List.filter_eq_self]
    intro t ht
    obtain ⟨tx, -, rfl⟩ := List.mem_map.mp ht
    exact beq_self_eq_true _
  rw [(addBlock_of_appends ha).2.2, hrows, if_pos hheight, List.filter_append, hold, hnew, List.nil_append]

/-- What is read there is the header and, of each row, the texts up to their first NUL. -/
theorem getBlock_of_appends (env : Env) (ha : c.Appends b) {kept : List Transaction}
    (hrows : (c.addBlock b).2.db.transactions.rows.filter (fun t => t.blockHeight == some b.height) =
      kept.map (·.row (some b.height))) :
    (c.addBlock b).2.db.rowAt b.height = some b.row ∧
      (c.addBlock b).2.getBlock env b.height = some { b.header.toBlock with
        transactions := kept.map fun tx => (tx.row (some b.height)).toTransaction env } := by
  have hrow : (c.addBlock b).2.db.rowAt b.height = some b.row := by
    have htip := tip_of_appends ha
    rwa [Blockchain.tip, getHeight_of_appends ha] at htip
  refine ⟨hrow, ?_⟩
  rw [getBlock, getBlockByHeight, hrow, Option.map_some, getTransactionsByBlock, hrows, List.map_map]
  rfl

theorem txHashes_toTransaction (env : Env) (height : Option Int32) (txs : List Transaction) :
    (txs.map fun tx => (tx.row height).toTransaction env).map (·.txHash) = txs.map fun tx => cText tx.txHash := by
  rw [List.map_map]
  rfl

/-- In every state reached from a fresh database, an accepted block is stored whole exactly when its texts have no
    NUL, its difficulty is not the negative zero, and the table takes all of its transactions. -/
theorem stored_whole_iff (env : Env) (started : Int64) (ops : List Operation) :
    ∀ c ∈ Transition.states (operate env) (genesis started) ops, ∀ b : Block,
      ((c.addBlock b).1 = true → (c.addBlock b).2.StoredWhole env b) ↔
        (c.Appends b → b.NulFree ∧ b.difficulty ≠ .negZero ∧ c.db.Takes b.transactions) := by
  intro c hc b
  rw [addBlock_accepts_iff]
  refine forall_congr' fun ha => ?_
  have hchained := (ordered_of_mem_states hc).chained fun hnil => not_fits_of_nil hnil (.addBlock b) ha
  obtain ⟨tip, htip⟩ := exists_tip hchained.nonempty
  obtain ⟨htm, hth⟩ := tip_eq_some_iff.mp htip
  obtain ⟨kept, hsub, hall, hrows⟩ :=
    rows_at_new_block (placed_of_mem_states hc) (hth ▸ hchained.nonneg tip htm) ha
  obtain ⟨hrow, hblock⟩ := getBlock_of_appends env ha hrows
  constructor
  · rintro ⟨stored, hstored, hheader, hmap, -, -⟩
    rw [hblock, Option.some.injEq] at hstored
    subst hstored
    rw [txHashes_toTransaction] at hmap
    have hkept : kept = b.transactions := by
      refine hsub.eq_of_length ?_
      simpa using congrArg List.length hmap
    rw [hkept, List.map_inj_left] at hmap
    obtain ⟨⟨hhash, hprev, hroot, hminer⟩, hdifficulty⟩ := Block.sameHeader_toBlock_iff.mp hheader
    exact ⟨⟨hhash, hprev, hroot, hminer, hmap⟩, (Double.stored_eq_self_iff ha.valued).mp hdifficulty, hall.mp hkept⟩
  · rintro ⟨hnul, hdifficulty, htakes⟩
    have hkept := hall.mpr htakes
    have hheader : Block.SameHeader { b.header.toBlock with
        transactions := kept.map fun tx => (tx.row (some b.height)).toTransaction env } b :=
      Block.sameHeader_toBlock_iff.mpr
        ⟨⟨hnul.hash, hnul.prevHash, hnul.merkleRoot, hnul.minedBy⟩,
          (Double.stored_eq_self_iff ha.valued).mpr hdifficulty⟩
    have hmap : (kept.map fun tx => (tx.row (some b.height)).toTransaction env).map (·.txHash) =
        b.transactions.map (·.txHash) := by
      rw [txHashes_toTransaction, hkept]
      exact List.map_congr_left hnul.txHashes
    refine ⟨_, hblock, hheader, hmap, ⟨b.row, hrow, ?_⟩, fun hvalid => ?_⟩
    · rw [hrows, hkept, List.length_map]
      rfl
    · rw [Block.validate_congr hheader hmap]
      exact hvalid

end Blockchain

end

namespace Blockchain

attribute [local instance] Arithmetic.binary64

theorem stored_whole_iff_plainBlock :
    (((genesis 1700000000).addBlock (plainBlock 1 "a1" zeroHash)).1 = true →
        ((genesis 1700000000).addBlock (plainBlock 1 "a1" zeroHash)).2.StoredWhole Node.sampleEnv
          (plainBlock 1 "a1" zeroHash)) ↔
      ((genesis 1700000000).Appends (plainBlock 1 "a1" zeroHash) →
        (plainBlock 1 "a1" zeroHash).NulFree ∧ (plainBlock 1 "a1" zeroHash).difficulty ≠ .negZero ∧
          (genesis 1700000000).db.Takes (plainBlock 1 "a1" zeroHash).transactions) :=
  stored_whole_iff Node.sampleEnv 1700000000 [] (genesis 1700000000) (List.mem_singleton_self _)
    (plainBlock 1 "a1" zeroHash)

/-- The mined block of the sample run, with the payment that was admitted before. -/
def payingBlock : Block :=
  { Node.sampleBlock with
    transactions := [Transaction.createCoinbase Node.sampleEnv 1700143364 "alpha" reward, Node.samplePayment] }

/-- The chain that has admitted the payment. -/
def pendingState : Blockchain := ((genesis 1700000000).addTransaction Node.sampleEnv Node.samplePayment 1700000000).2

theorem payment_not_stored :
    (pendingState.addBlock payingBlock).1 = true ∧ payingBlock.validate Node.sampleEnv = some true ∧
      ((pendingState.addBlock payingBlock).2.getBlock Node.sampleEnv 1).map (fun b => b.transactions.map (·.txHash)) =
        some [Node.sampleCoinbaseHash] ∧
      ((pendingState.addBlock payingBlock).2.getBlock Node.sampleEnv 1).bind (·.validate Node.sampleEnv) = some false ∧
      ¬(pendingState.addBlock payingBlock).2.StoredWhole Node.sampleEnv payingBlock := by
  obtain ⟨haccepts, hvalid, hread, hinvalid⟩ :
      (pendingState.addBlock payingBlock).1 = true ∧ payingBlock.validate Node.sampleEnv = some true ∧
        ((pendingState.addBlock payingBlock).2.getBlock Node.sampleEnv 1).map
          (fun b => b.transactions.map (·.txHash)) = some [Node.sampleCoinbaseHash] ∧
        ((pendingState.addBlock payingBlock).2.getBlock Node.sampleEnv 1).bind (·.validate Node.sampleEnv) =
          some false := by decide +kernel
  refine ⟨haccepts, hvalid, hread, hinvalid, ?_⟩
  rintro ⟨stored, hstored, -, hmap, -⟩
  rw [show (pendingState.addBlock payingBlock).2.getBlock Node.sampleEnv 1 = some stored from hstored, Option.map_some,
    hmap] at hread
  revert hread
  decide +kernel

end Blockchain

section
variable [Arithmetic]

namespace Blockchain
variable {env : Env} {c : Blockchain} {b : Block}

/-! ### A replacement that fails -/

/-- Where `replaceLastBlock` fails it leaves the chain as it was, except when it comes to the insert, and that is
    refused: the hash of the block is stored below the tip, or its difficulty is NaN. -/
theorem failed_replacement_iff (env : Env) (c : Blockchain) (b : Block) (now : Int64) :
    ((c.replaceLastBlock env b now).1 = false → (c.replaceLastBlock env b now).2 = c) ↔
      (c.Competes b → c.FreshBelow b) := by
  by_cases hc : c.Competes b
  · by_cases hf : c.FreshBelow b
    · have haccepts : (c.replaceLastBlock env b now).1 = true := (replaceLastBlock_of_fresh hc hf).1
      simp [hf, haccepts]
    · have hrows : (c.replaceLastBlock env b now).2.rows = c.below := by rw [replaceLastBlock_of_not_fresh hc hf]; rfl
      simp only [hc, hf, imp_false, not_true, iff_false]
      intro h
      rw [h (by rw [replaceLastBlock_of_not_fresh hc hf])] at hrows
      -- The tip was there before.
      obtain ⟨tip, htip, -⟩ := hc.prevHash
      obtain ⟨hm, hh⟩ := tip_eq_some_iff.mp htip
      exact (mem_below.mp (hrows ▸ hm)).2 hh
  · simp [hc, replaceLastBlock_of_not_competes hc]

end Blockchain

end

namespace Blockchain

attribute [local instance] Arithmetic.binary64

/-- A block on genesis. -/
def extendedStore : Blockchain := ((genesis 0).addBlock (plainBlock 1 "a1" zeroHash)).2

/-- A replacement that carries the genesis hash fails, and the tip is gone. -/
theorem tip_lost_in_failure :
    extendedStore.getHeight = 1 ∧
      (extendedStore.replaceLastBlock headerEnv (plainBlock 1 zeroHash zeroHash) 0).2.getHeight = 0 ∧
      ¬((extendedStore.replaceLastBlock headerEnv (plainBlock 1 zeroHash zeroHash) 0).1 = false →
        (extendedStore.replaceLastBlock headerEnv (plainBlock 1 zeroHash zeroHash) 0).2 = extendedStore) := by
  obtain ⟨hbefore, hfails, hafter⟩ : extendedStore.getHeight = 1 ∧
      (extendedStore.replaceLastBlock headerEnv (plainBlock 1 zeroHash zeroHash) 0).1 = false ∧
      (extendedStore.replaceLastBlock headerEnv (plainBlock 1 zeroHash zeroHash) 0).2.getHeight = 0 := by
    decide +kernel
  refine ⟨hbefore, hafter, fun h => ?_⟩
  have hsame := congrArg getHeight (h hfails)
  rw [hbefore, hafter] at hsame
  exact absurd hsame (by decide)

end Blockchain

end NexusLedger
