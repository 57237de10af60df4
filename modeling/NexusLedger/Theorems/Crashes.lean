import NexusLedger.Lib.Journal
import NexusLedger.Statements
import NexusLedger.Theorems.Staleness

/-! Calls as sequences of statements. Run to its end a call leaves what the model of the call says; cut off at any
    statement, and with the start that follows, it leaves a chain. -/

namespace NexusLedger
set_option linter.unusedSectionVars false
variable [Arithmetic]

open Statement

/-! ### The statements of a call, run to their end -/

namespace LedgerDB

theorem ensureWalletExists_eq_apply (db : LedgerDB) (address : String) :
    (db.ensureWalletExists address).2 = (db.walletStatements address).foldl apply db := by
  unfold ensureWalletExists walletStatements
  split
  · rfl
  · rw [List.foldl_cons, List.foldl_nil, apply, Table.insertOrIgnore]
    split
    · rename_i wallets hwallets
      rw [hwallets, Option.getD_some]
    · rename_i hnone
      rw [hnone, Option.getD_none]

theorem getBalance_eq_apply (db : LedgerDB) (address : String) :
    (db.getBalance address).2 = (db.walletStatements address).foldl apply db := ensureWalletExists_eq_apply db address

theorem addTransaction_eq_apply (db : LedgerDB) (tx : Transaction) (height : Int32) :
    (db.addTransaction tx height).2 = apply db (transactionStatement tx height) := by
  unfold addTransaction
  rw [transactionStatement, apply, Table.insertOrIgnore]
  split
  · rename_i transactions htransactions
    rw [htransactions, Option.getD_some]
  · rename_i hnone
    rw [hnone, Option.getD_none]

theorem addToMempool_eq_apply (db : LedgerDB) (tx : Transaction) (now : Int64) :
    (db.addToMempool tx now).2 = apply db (.insertMempool tx now) := by
  unfold addToMempool
  rw [apply, Table.insertOrIgnore]
  split
  · rename_i mempool hmempool
    rw [hmempool, Option.getD_some]
  · rename_i hnone
    rw [hnone, Option.getD_none]

theorem addTransactions_eq_apply (db : LedgerDB) (txs : List Transaction) (height : Int32) :
    db.addTransactions txs height = (txs.map (transactionStatement · height)).foldl apply db := by
  rw [addTransactions, List.foldl_map]
  congr 1
  funext db tx
  exact addTransaction_eq_apply db tx height

theorem addBlock_eq_apply (db : LedgerDB) (block : Block) :
    (db.addBlock block).2 = (db.blockStatements block).foldl apply db := by
  rw [blockStatements, List.foldl_cons, apply, Table.insertOrIgnore, addBlock]
  by_cases hfits : db.blocks.fits block.row = true
  · obtain ⟨blocks, hblocks, -⟩ := Table.insert_of_fits hfits
    rw [hblocks, if_pos hfits, Option.getD_some]
    exact addTransactions_eq_apply _ _ _
  · rw [Table.insert_eq_none.mpr (Bool.eq_false_iff.mpr hfits), if_neg hfits, Option.getD_none]
    rfl

theorem deleteBlock_eq_apply (db : LedgerDB) (height : Int32) :
    db.deleteBlock height = apply (apply db (.deleteBlocks height)) (.deleteTransactions height) := rfl

end LedgerDB

namespace Blockchain
open LedgerDB
variable {env : Env} {c d : Blockchain} {b : Block} {tx : Transaction} {now : Int64}

section
variable (mempool : Finmap fun _ : String => Transaction)

theorem findInvalid_eq_apply (l : List TxPriority) (db : LedgerDB) :
    (findInvalid mempool l db).2 = (findInvalidStatements mempool l db).foldl apply db := by
  induction l generalizing db with
  | nil => rfl
  | cons priority rest ih =>
    unfold findInvalid findInvalidStatements
    cases mempool.lookup priority.txHash with
    | none => exact ih db
    | some tx =>
      simp only
      by_cases hsystem : tx.fromAddress = "SYSTEM"
      · rw [if_pos hsystem, if_pos hsystem]
        exact ih db
      · rw [if_neg hsystem, if_neg hsystem, List.foldl_append, ← getBalance_eq_apply]
        exact ih _

theorem selectTransactions_eq_apply (l : List TxPriority) (db : LedgerDB) (n : Nat) :
    (selectTransactions mempool l db n).2 = (selectStatements mempool l db n).foldl apply db := by
  induction l generalizing db n with
  | nil => rfl
  | cons priority rest ih =>
    unfold selectTransactions selectStatements
    by_cases hfull : 10 ≤ n
    · rw [if_pos hfull, if_pos hfull]
      rfl
    · rw [if_neg hfull, if_neg hfull]
      cases mempool.lookup priority.txHash with
      | none => exact ih db n
      | some tx =>
        simp only
        by_cases hsystem : tx.fromAddress = "SYSTEM"
        · rw [if_pos hsystem, if_pos hsystem]
          exact ih db (n + 1)
        · rw [if_neg hsystem, if_neg hsystem, List.foldl_append, ← getBalance_eq_apply]
          by_cases hpays : (db.getBalance tx.fromAddress).1 < Arithmetic.add tx.amount tx.fee
          · rw [if_pos hpays, if_pos hpays]
            exact ih _ n
          · rw [if_neg hpays, if_neg hpays]
            exact ih _ (n + 1)

end

theorem cleanMempool_eq_apply (c : Blockchain) : c.cleanMempool.2.db = c.cleanMempoolStatements.foldl apply c.db := by
  rw [cleanMempoolStatements, ← findInvalid_eq_apply]
  simp [cleanMempool]

theorem createBlock_eq_apply (env : Env) (c : Blockchain) (miner : String) (now : Int64) :
    (c.createBlock env miner now).2.db = c.createBlockStatements.foldl apply c.db := by
  rw [createBlockStatements, ← selectTransactions_eq_apply]
  unfold createBlock
  simp only
  split <;> rfl

/-- The rest of `addTransaction` writes the transaction twice: to its table and to the table of the mempool. -/
theorem enqueue_eq_apply (env : Env) (c : Blockchain) (tx : Transaction) (now : Int64) :
    (c.enqueue env tx now).db =
      [transactionStatement tx (-1), .insertMempool tx now].foldl apply c.db := by
  rw [List.foldl_cons, List.foldl_cons, List.foldl_nil, ← addTransaction_eq_apply, ← addToMempool_eq_apply]
  simp [enqueue]

theorem addTransaction_eq_apply (env : Env) (c : Blockchain) (tx : Transaction) (now : Int64) :
    (c.addTransaction env tx now).2.db = (c.addTransactionStatements tx now).foldl apply c.db := by
  unfold addTransaction addTransactionStatements
  by_cases hamount : tx.amount ≤ 0
  · rw [if_pos hamount, if_pos hamount]
    rfl
  · rw [if_neg hamount, if_neg hamount]
    by_cases hfee : tx.fee < 0
    · rw [if_pos hfee, if_pos hfee]
      rfl
    · rw [if_neg hfee, if_neg hfee]
      by_cases hsystem : tx.fromAddress = "SYSTEM"
      · rw [if_pos hsystem, if_pos hsystem, enqueue_eq_apply, List.foldl_append, ← ensureWalletExists_eq_apply]
      · rw [if_neg hsystem, if_neg hsystem]
        simp only
        have hwallets : (((c.db.ensureWalletExists tx.fromAddress).2.ensureWalletExists tx.toAddress).2.getBalance
            tx.fromAddress).2 = (c.db.walletStatements tx.fromAddress ++
              (c.db.ensureWalletExists tx.fromAddress).2.walletStatements tx.toAddress ++
              ((c.db.ensureWalletExists tx.fromAddress).2.ensureWalletExists tx.toAddress).2.walletStatements
                tx.fromAddress).foldl apply c.db := by
          rw [List.foldl_append, List.foldl_append, ← ensureWalletExists_eq_apply, ← ensureWalletExists_eq_apply,
            ← getBalance_eq_apply]
        split
        · exact hwallets
        · rw [List.foldl_append, ← hwallets, List.foldl_cons]
          exact enqueue_eq_apply env _ tx now

theorem addBlock_eq_apply (c : Blockchain) (b : Block) :
    (c.addBlock b).2.db = (c.addBlockStatements b).foldl apply c.db := by
  unfold addBlock addBlockStatements
  simp only
  by_cases hheight : b.height ≤ c.getHeight
  · rw [if_pos hheight, if_pos hheight]
    rfl
  · rw [if_neg hheight, if_neg hheight]
    by_cases hprev : 0 < b.height ∧ (c.db.rowAt c.getHeight).map (·.hash.val) ≠ some b.prevHash
    · rw [if_pos hprev, if_pos hprev]
      rfl
    · rw [if_neg hprev, if_neg hprev]
      have hblock := LedgerDB.addBlock_eq_apply c.db b
      cases hstored : c.db.addBlock b with
      | mk stored db =>
        rw [hstored] at hblock
        cases stored with
        | false => exact hblock
        | true =>
          simp only
          rw [List.foldl_append, ← hblock]
          exact cleanMempool_eq_apply _

theorem restore_eq_apply (env : Env) (c : Blockchain) (txs : List Transaction) (now : Int64) :
    (c.restore env txs now).db = (restoreStatements env c now txs).foldl apply c.db := by
  unfold restore
  induction txs generalizing c with
  | nil => rfl
  | cons tx txs ih =>
    rw [List.foldl_cons, ih, restoreStatements]
    by_cases hback : tx.fromAddress ≠ "SYSTEM" ∧ 0 < tx.amount ∧ 0 ≤ tx.fee
    · rw [if_pos hback, if_pos hback, List.foldl_append, ← addTransaction_eq_apply env]
    · rw [if_neg hback, if_neg hback]

theorem replaceLastBlock_eq_apply (env : Env) (c : Blockchain) (b : Block) (now : Int64) :
    (c.replaceLastBlock env b now).2.db = (c.replaceLastBlockStatements env b now).foldl apply c.db := by
  unfold replaceLastBlock replaceLastBlockStatements
  simp only
  by_cases hheight : c.getHeight ≠ b.height
  · rw [if_pos hheight, if_pos hheight]
    rfl
  · rw [if_neg hheight, if_neg hheight]
    cases c.getBlock env c.getHeight with
    | none => rfl
    | some old =>
      simp only
      by_cases hprev : old.prevHash ≠ b.prevHash
      · rw [if_pos hprev, if_pos hprev]
        rfl
      · rw [if_neg hprev, if_neg hprev, List.cons_append, List.cons_append, List.foldl_cons, List.foldl_cons,
          ← deleteBlock_eq_apply, List.foldl_append, ← LedgerDB.addBlock_eq_apply]
        cases hstored : (c.db.deleteBlock c.getHeight).addBlock b with
        | mk stored db =>
          cases stored with
          | false => rfl
          | true =>
            simp only
            rw [List.foldl_append, cleanMempool_eq_apply, restore_eq_apply]

/-- A call that returns has run all its statements. -/
theorem operate_eq_apply (env : Env) (c : Blockchain) (op : Operation) :
    (operate env c op).db = (c.statements env op).foldl apply c.db := by
  cases op with
  | addTransaction tx now => exact addTransaction_eq_apply env c tx now
  | createBlock miner now => exact createBlock_eq_apply env c miner now
  | cleanMempool => exact cleanMempool_eq_apply c
  | removeFromMempool txHash => rfl
  | call call =>
    cases call with
    | addBlock b => exact addBlock_eq_apply c b
    | replaceLastBlock b now => exact replaceLastBlock_eq_apply env c b now

/-! ### The statements that can change the blocks table -/

/-- No statement of a list writes to the blocks table. -/
def Quiet (ws : List Statement) : Prop := ∀ w ∈ ws, ∀ db : LedgerDB, (apply db w).blocks = db.blocks

theorem quiet_nil : Quiet [] := fun _ hw => absurd hw List.not_mem_nil

theorem quiet_cons {w : Statement} {ws : List Statement} (hw : ∀ db : LedgerDB, (apply db w).blocks = db.blocks)
    (h : Quiet ws) : Quiet (w :: ws) := List.forall_mem_cons.mpr ⟨hw, h⟩

theorem Quiet.append {ws vs : List Statement} (hw : Quiet ws) (hv : Quiet vs) : Quiet (ws ++ vs) :=
  List.forall_mem_append.mpr ⟨hw, hv⟩

theorem Quiet.blocks_eq {ws : List Statement} {db db' : LedgerDB} (h : Quiet ws) (hcut : Journal.Cut apply db ws db') :
    db'.blocks = db.blocks :=
  hcut.keeps (I := fun d => d.blocks = db.blocks) (fun w hw d hd => (h w hw d).trans hd) rfl

theorem quiet_walletStatements (db : LedgerDB) (address : String) : Quiet (db.walletStatements address) := by
  unfold walletStatements
  split
  · exact quiet_nil
  · exact quiet_cons (fun _ => rfl) quiet_nil

theorem quiet_findInvalidStatements (mempool : Finmap fun _ : String => Transaction) (l : List TxPriority)
    (db : LedgerDB) : Quiet (findInvalidStatements mempool l db) := by
  induction l generalizing db with
  | nil => exact quiet_nil
  | cons priority rest ih =>
    unfold findInvalidStatements
    split
    · exact ih db
    · split
      · exact ih db
      · exact (quiet_walletStatements db _).append (ih _)

theorem quiet_selectStatements (mempool : Finmap fun _ : String => Transaction) (l : List TxPriority)
    (db : LedgerDB) (n : Nat) : Quiet (selectStatements mempool l db n) := by
  induction l generalizing db n with
  | nil => exact quiet_nil
  | cons priority rest ih =>
    unfold selectStatements
    split
    · exact quiet_nil
    · split
      · exact ih db n
      · split
        · exact ih db (n + 1)
        · simp only
          refine (quiet_walletStatements db _).append ?_
          split
          · exact ih _ n
          · exact ih _ (n + 1)

theorem quiet_addTransactionStatements (c : Blockchain) (tx : Transaction) (now : Int64) :
    Quiet (c.addTransactionStatements tx now) := by
  have henqueued : Quiet
      [transactionStatement tx (-1), .insertMempool tx now] :=
    quiet_cons (fun _ => rfl) (quiet_cons (fun _ => rfl) quiet_nil)
  unfold addTransactionStatements
  split
  · exact quiet_nil
  · split
    · exact quiet_nil
    · split
      · exact (quiet_walletStatements _ _).append henqueued
      · have hwallets := ((quiet_walletStatements c.db tx.fromAddress).append
          (quiet_walletStatements (c.db.ensureWalletExists tx.fromAddress).2 tx.toAddress)).append
          (quiet_walletStatements ((c.db.ensureWalletExists tx.fromAddress).2.ensureWalletExists tx.toAddress).2
            tx.fromAddress)
        simp only
        split
        · exact hwallets
        · exact hwallets.append (quiet_cons (fun _ => rfl) henqueued)

theorem quiet_restoreStatements (env : Env) (c : Blockchain) (now : Int64) (txs : List Transaction) :
    Quiet (restoreStatements env c now txs) := by
  induction txs generalizing c with
  | nil => exact quiet_nil
  | cons tx txs ih =>
    unfold restoreStatements
    split
    · exact (quiet_addTransactionStatements c tx now).append (ih _)
    · exact ih c

/-- The row of a block is the only statement of `LedgerDB::addBlock` that writes to the table. -/
theorem blockStatements_eq (db : LedgerDB) (b : Block) :
    ∃ ws, Quiet ws ∧ db.blockStatements b = .insertBlock b :: ws := by
  refine ⟨_, ?_, rfl⟩
  split
  · intro w hw
    obtain ⟨tx, -, rfl⟩ := List.mem_map.mp hw
    exact fun _ => rfl
  · exact quiet_nil

theorem addBlockStatements_eq (c : Blockchain) (b : Block) :
    c.addBlockStatements b = [] ∨ ∃ ws, Quiet ws ∧ c.addBlockStatements b = .insertBlock b :: ws := by
  obtain ⟨ws, hws, hblock⟩ := blockStatements_eq c.db b
  unfold addBlockStatements
  split
  · exact Or.inl rfl
  · split
    · exact Or.inl rfl
    · split
      · exact Or.inr ⟨ws, hws, hblock⟩
      · refine Or.inr ⟨_, hws.append ?_, by rw [hblock, List.cons_append]⟩
        exact quiet_findInvalidStatements _ _ _

theorem replaceLastBlockStatements_eq (env : Env) (c : Blockchain) (b : Block) (now : Int64) :
    c.replaceLastBlockStatements env b now = [] ∨
      c.Competes b ∧ ∃ ws, Quiet ws ∧ c.replaceLastBlockStatements env b now =
        .deleteBlocks c.getHeight :: .deleteTransactions c.getHeight :: .insertBlock b :: ws := by
  obtain ⟨ws, hws, hblock⟩ := blockStatements_eq (c.db.deleteBlock c.getHeight) b
  unfold replaceLastBlockStatements
  simp only
  split
  · exact Or.inl rfl
  · rename_i hheight
    rw [not_not] at hheight
    split
    · exact Or.inl rfl
    · rename_i old hold
      obtain ⟨r, hr, hrh, rfl⟩ := getBlock_eq_some_iff.mp hold
      split
      · exact Or.inl rfl
      · rename_i hprev
        rw [not_not] at hprev
        refine Or.inr ⟨⟨hheight.symm, r, tip_eq_some_iff.mpr ⟨hr, hrh⟩, hprev⟩, ?_⟩
        rw [hblock]
        refine ⟨_, hws.append ?_, by rw [List.cons_append, List.cons_append, List.cons_append]⟩
        split
        · exact quiet_nil
        · exact (quiet_restoreStatements env _ now _).append (quiet_findInvalidStatements _ _ _)

/-! ### Calls that are cut off -/

/-- What a call that is cut off leaves in the blocks table: what was there, what the call was to leave, or, while the
    tip is exchanged, the rows without it. -/
theorem rows_of_cut (env : Env) (op : Operation) {db : LedgerDB} (hcut : Journal.Cut apply c.db (c.statements env op) db) :
    db.blocks.rows = c.rows ∨ db.blocks.rows = (operate env c op).rows ∨
      ∃ b now, op = .call (.replaceLastBlock b now) ∧ c.Competes b ∧ db.blocks.rows = c.below := by
  have hquiet : Quiet (c.statements env op) → db.blocks.rows = c.rows := fun h =>
    congrArg Table.rows (h.blocks_eq hcut)
  have hend : ∀ (w : Statement) (ws vs : List Statement), Quiet vs → c.statements env op = ws ++ w :: vs →
      Journal.Cut apply (apply (ws.foldl apply c.db) w) vs db → db.blocks.rows = (operate env c op).rows := by
    intro w ws vs hvs heq hafter
    rw [hvs.blocks_eq hafter, rows, operate_eq_apply, heq, List.foldl_append, List.foldl_cons,
      hvs.blocks_eq (Journal.cut_self _ vs)]
  cases op with
  | addTransaction tx now => exact Or.inl (hquiet (quiet_addTransactionStatements c tx now))
  | createBlock miner now => exact Or.inl (hquiet (quiet_selectStatements _ _ _ _))
  | cleanMempool => exact Or.inl (hquiet (quiet_findInvalidStatements _ _ _))
  | removeFromMempool txHash => exact Or.inl (hquiet quiet_nil)
  | call call =>
    cases call with
    | addBlock b =>
      rcases addBlockStatements_eq c b with heq | ⟨ws, hws, heq⟩
      · exact Or.inl (hquiet (by rw [statements, heq]; exact quiet_nil))
      · rw [statements, heq, Journal.cut_cons] at hcut
        rcases hcut with rfl | hcut
        · exact Or.inl rfl
        · exact Or.inr (Or.inl (hend _ [] ws hws heq hcut))
    | replaceLastBlock b now =>
      rcases replaceLastBlockStatements_eq env c b now with heq | ⟨hc, ws, hws, heq⟩
      · exact Or.inl (hquiet (by rw [statements, heq]; exact quiet_nil))
      · rw [statements, heq, Journal.cut_cons, Journal.cut_cons, Journal.cut_cons] at hcut
        rcases hcut with rfl | rfl | rfl | hcut
        · exact Or.inl rfl
        · exact Or.inr (Or.inr ⟨b, now, rfl, hc, rfl⟩)
        · exact Or.inr (Or.inr ⟨b, now, rfl, hc, rfl⟩)
        · exact Or.inr (Or.inl (hend _ [.deleteBlocks c.getHeight, .deleteTransactions c.getHeight] ws hws heq hcut))

/-! ### A start on what is there -/

section
variable {I : LedgerDB → Prop} {db : LedgerDB}

/-- What each statement of the schema keeps, the starts that were not done keep. -/
theorem aborted_keeps (keep : ∀ now, ∀ w ∈ schemaStatements now, ∀ d, I d → I (apply d w))
    (aborted : List (Int64 × Nat)) (h : I db) :
    I (aborted.foldl (fun db a => ((schemaStatements a.1).take a.2).foldl apply db) db) := by
  induction aborted generalizing db with
  | nil => exact h
  | cons a aborted ih =>
    refine ih (Journal.foldl_keeps (fun w hw d hd => ?_) h)
    exact keep a.1 w (List.mem_of_mem_take hw) d hd

/-- What each statement of the schema keeps, a start keeps. -/
theorem start_keeps (keep : ∀ now, ∀ w ∈ schemaStatements now, ∀ d, I d → I (apply d w))
    (aborted : List (Int64 × Nat)) (now : Int64) (h : I db) : I (db.start aborted now) :=
  Journal.foldl_keeps (keep now) (aborted_keeps keep aborted h)

end

theorem forall_schemaStatements {P : Statement → Prop} {now : Int64} (hwallet : P (.insertWallet "genesis_miner"))
    (hblock : P (.insertGenesisBlock now)) (htx : P (.insertGenesisTransaction now)) :
    ∀ w ∈ schemaStatements now, P w := by
  simp only [schemaStatements, List.forall_mem_cons]
  exact ⟨hwallet, hblock, htx, fun _ hw => absurd hw List.not_mem_nil⟩

/-- The genesis row is passed over where a row is at its height. -/
theorem insertGenesisBlock_blocks {db : LedgerDB} (h : ∃ r ∈ db.blocks.rows, r.height = 0) (now : Int64) :
    (apply db (.insertGenesisBlock now)).blocks = db.blocks := by
  obtain ⟨r, hr, hzero⟩ := h
  exact Table.insertOrIgnore_of_clash hr (by simp [blocksSchema, hzero, genesisRow, Block.header, genesisBlock])

theorem insertGenesisBlock_rows_of_nil {db : LedgerDB} (h : db.blocks.rows = []) (now : Int64) :
    (apply db (.insertGenesisBlock now)).blocks.rows = [genesisRow now] := by
  have hfits : db.blocks.fits (genesisRow now) = true := by
    rw [Table.fits_iff, h]
    exact ⟨rfl, fun _ hr => absurd hr List.not_mem_nil⟩
  rw [apply, Table.insertOrIgnore_of_fits hfits, h, List.nil_append]

theorem start_blocks {db : LedgerDB} (h : ∃ r ∈ db.blocks.rows, r.height = 0) (aborted : List (Int64 × Nat))
    (now : Int64) : (db.start aborted now).blocks = db.blocks :=
  start_keeps (I := fun d => d.blocks = db.blocks)
    (fun t => forall_schemaStatements (fun _ hd => hd)
      (fun _ hd => (insertGenesisBlock_blocks (hd ▸ h) t).trans hd) (fun _ hd => hd)) aborted now rfl

/-- A start on no block leaves a genesis block, by its own clock or by that of an earlier one. -/
theorem start_rows_of_nil {db : LedgerDB} (h : db.blocks.rows = []) (aborted : List (Int64 × Nat)) (now : Int64) :
    ∃ started, (db.start aborted now).blocks.rows = [genesisRow started] := by
  have hkeep : ∀ (d : LedgerDB) (t : Int64), (d.blocks.rows = [] ∨ ∃ started, d.blocks.rows = [genesisRow started]) →
      ∃ started, (apply d (.insertGenesisBlock t)).blocks.rows = [genesisRow started] := by
    rintro d t (hnil | ⟨started, hrows⟩)
    · exact ⟨t, insertGenesisBlock_rows_of_nil hnil t⟩
    · refine ⟨started, ?_⟩
      rw [insertGenesisBlock_blocks ⟨genesisRow started, hrows ▸ List.mem_singleton_self _, rfl⟩, hrows]
  exact hkeep _ now (aborted_keeps
    (I := fun d => d.blocks.rows = [] ∨ ∃ started, d.blocks.rows = [genesisRow started])
    (fun t => forall_schemaStatements (fun _ hd => hd) (fun d hd => Or.inr (hkeep d t hd)) (fun _ hd => hd))
    aborted (Or.inl h))

/-- A chain whose first row is at height 0. -/
structure Rooted (c : Blockchain) : Prop where
  chained : c.Chained
  root : ∃ r ∈ c.rows, r.height = 0

theorem rooted_of_genesis {started : Int64} (h : c.rows = [genesisRow started]) : c.Rooted :=
  ⟨(chained_genesis started).congr h, genesisRow started, h ▸ List.mem_singleton_self _, rfl⟩

theorem Rooted.congr (h : c.Rooted) (hrows : d.rows = c.rows) : d.Rooted :=
  ⟨h.chained.congr hrows, hrows ▸ h.root⟩

/-- Without its tip a chain has still its first row, or none. -/
theorem Rooted.root_below (h : c.Rooted) (hne : c.below ≠ []) : ∃ r ∈ c.below, r.height = 0 := by
  obtain ⟨root, hroot, hzero⟩ := h.root
  refine ⟨root, mem_below.mpr ⟨hroot, fun heq => hne ?_⟩, hzero⟩
  -- At height 0 the tip is the only row.
  rw [List.eq_nil_iff_forall_not_mem]
  intro r hr
  obtain ⟨hr, hother⟩ := mem_below.mp hr
  have hle := height_le hr
  have hpos := h.chained.nonneg r hr
  rw [← heq, hzero] at hle hother
  exact hother (Int32.toInt_inj.mp (le_antisymm hle hpos))

theorem Rooted.below (h : c.Rooted) (hne : c.below ≠ []) (hrows : d.rows = c.below) : d.Rooted where
  chained := by
    rw [h.chained.below_eq] at hrows hne
    exact
      { linked := hrows ▸ h.chained.linked.dropLast
        nonempty := hrows ▸ hne
        nonneg := fun r hr => h.chained.nonneg r ((List.dropLast_subset _) (hrows ▸ hr)) }
  root := hrows ▸ h.root_below hne

theorem Rooted.exec (h : c.Rooted) {call : Call} (hspare : ¬c.Empties call) : (c.exec env call).2.Rooted := by
  refine ⟨h.chained.exec hspare, ?_⟩
  by_cases hfits : c.Fits call
  · obtain ⟨root, hroot, hzero⟩ := h.root
    by_cases hheight : call.block.height = 0
    · exact ⟨call.block.row, (tip_eq_some_iff.mp (tip_of_fits hfits)).1, hheight⟩
    · exact ⟨root, mem_rows_of_fits hfits hroot fun heq => hheight (heq.symm.trans hzero), hzero⟩
  · -- A call that is refused may have dropped the tip, for a hash below it or for NaN.
    cases call with
    | addBlock b =>
      rw [Blockchain.exec, addBlock_of_not_appends hfits]
      exact h.root
    | replaceLastBlock b now =>
      rw [Blockchain.exec]
      by_cases hc : c.Competes b
      · have hstored : ¬c.FreshBelow b := fun hf => hfits ⟨hc, hf⟩
        rw [replaceLastBlock_of_not_fresh hc hstored]
        exact h.root_below (below_ne_nil hc hstored hspare)
      · rw [replaceLastBlock_of_not_competes hc]
        exact h.root

/-- The chain starts at height 0, or a replacement has emptied the blocks table. -/
def Grounded (c : Blockchain) : Prop := c.rows = [] ∨ c.Rooted

theorem Grounded.congr (h : c.Grounded) (hrows : d.rows = c.rows) : d.Grounded :=
  h.imp hrows.trans fun hc => hc.congr hrows

/-- The operation is a replacement that leaves no block. -/
def Operation.Empties (op : Operation) (c : Blockchain) : Prop := ∃ k, op = .call k ∧ c.Empties k

theorem Rooted.operate (h : c.Rooted) {op : Operation} (hspare : ¬op.Empties c) : (operate env c op).Rooted := by
  by_cases hcall : ∃ k, op = .call k
  · obtain ⟨k, rfl⟩ := hcall
    exact h.exec fun hempties => hspare ⟨k, rfl, hempties⟩
  · exact h.congr (operate_rows (not_exists.mp hcall))

theorem Grounded.operate (env : Env) (h : c.Grounded) (op : Operation) : (operate env c op).Grounded := by
  rcases h with hnil | h
  · exact Or.inl (operate_rows_of_nil env hnil op)
  · by_cases hempties : op.Empties c
    · obtain ⟨k, rfl, hk⟩ := hempties
      exact Or.inl (rows_of_empties hk)
    · exact Or.inr (h.operate hempties)

/-- All rows but the last one. -/
theorem dropLast_prefix_operate (env : Env) (h : c.Grounded) (op : Operation) :
    c.rows.dropLast <+: (operate env c op).rows := by
  rcases h with hnil | h
  · rw [hnil]
    exact List.nil_prefix
  · by_cases hcall : ∃ k, op = .call k
    · obtain ⟨k, rfl⟩ := hcall
      rw [Blockchain.operate]
      by_cases hempties : c.Empties k
      · cases k with
        | addBlock b => exact absurd hempties id
        | replaceLastBlock b now =>
          rw [← h.chained.below_eq, hempties.2.2]
          exact List.nil_prefix
      · have hstep : blockLinks.Step c.rows (c.exec env k).2.rows := h.chained.exec_step hempties
        generalize (c.exec env k).2.rows = after at hstep
        cases hstep with
        | kept => exact List.dropLast_prefix _
        | extended r _ => exact (List.dropLast_prefix _).trans (List.prefix_append _ _)
        | replaced r _ _ => exact List.prefix_append _ _
        | dropped r _ _ => exact List.prefix_refl _
    · rw [operate_rows (not_exists.mp hcall)]
      exact List.dropLast_prefix _

/-! ### Lives -/

/-- What may be in the blocks table when a call is cut off: a root, or nothing where the call found no other block. -/
theorem root_of_cut (env : Env) (h : c.Grounded) (op : Operation) (k : Nat) :
    let rows := (((c.statements env op).take k).foldl apply c.db).blocks.rows
    (∃ r ∈ rows, r.height = 0) ∧ (rows = c.rows ∨ rows = (operate env c op).rows ∨
        ∃ b t, op = .call (.replaceLastBlock b t) ∧ c.Competes b ∧ rows = c.below ∧ c.below ≠ []) ∨
      rows = [] ∧ (c.rows = [] ∨ ∃ b t, op = .call (.replaceLastBlock b t) ∧ c.Competes b ∧ c.below = []) := by
  intro rows
  have hcut : rows = c.rows ∨ rows = (operate env c op).rows ∨
      ∃ b now, op = .call (.replaceLastBlock b now) ∧ c.Competes b ∧ rows = c.below := rows_of_cut env op ⟨k, rfl⟩
  rcases h with hnil | h
  · refine Or.inr ⟨?_, Or.inl hnil⟩
    rcases hcut with hrows | hrows | ⟨b, t, -, -, hrows⟩
    · exact hrows.trans hnil
    · exact hrows.trans (operate_rows_of_nil env hnil op)
    · refine hrows.trans ?_
      rw [Blockchain.below, hnil]
      rfl
  · rcases hcut with hrows | hrows | ⟨b, t, rfl, hc, hrows⟩
    · exact Or.inl ⟨by rw [hrows]; exact h.root, Or.inl hrows⟩
    · by_cases hempties : op.Empties c
      · obtain ⟨call, rfl, hcall⟩ := hempties
        cases call with
        | addBlock b => exact absurd hcall id
        | replaceLastBlock b t =>
          exact Or.inr ⟨hrows.trans (rows_of_empties hcall), Or.inr ⟨b, t, rfl, hcall.1, hcall.2.2⟩⟩
      · exact Or.inl ⟨by rw [hrows]; exact (h.operate hempties).root, Or.inr (Or.inl hrows)⟩
    · by_cases hnil : c.below = []
      · exact Or.inr ⟨hrows.trans hnil, Or.inr ⟨b, t, rfl, hc, hnil⟩⟩
      · exact Or.inl ⟨by rw [hrows]; exact h.root_below hnil, Or.inr (Or.inr ⟨b, t, rfl, hc, hrows, hnil⟩)⟩

/-- What a cut leaves once the process has started again. -/
theorem rows_of_crash (env : Env) (h : c.Grounded) (op : Operation) (k : Nat) (aborted : List (Int64 × Nat))
    (now : Int64) :
    let d := c.live env (.crash op k aborted now)
    (∃ r ∈ d.rows, r.height = 0) ∧ (d.rows = c.rows ∨ d.rows = (operate env c op).rows ∨
        ∃ b t, op = .call (.replaceLastBlock b t) ∧ c.Competes b ∧ d.rows = c.below ∧ c.below ≠ []) ∨
      (∃ reborn, d.rows = [genesisRow reborn]) ∧
        (c.rows = [] ∨ ∃ b t, op = .call (.replaceLastBlock b t) ∧ c.Competes b ∧ c.below = []) := by
  intro d
  rcases root_of_cut env h op k with ⟨hroot, hrows⟩ | ⟨hnil, hwhy⟩
  · have hkept : d.rows = (((c.statements env op).take k).foldl apply c.db).blocks.rows :=
      congrArg Table.rows (start_blocks hroot aborted now)
    rw [hkept]
    exact Or.inl ⟨hroot, hrows⟩
  · exact Or.inr ⟨start_rows_of_nil hnil aborted now, hwhy⟩

/-- A start leaves a chain. -/
theorem rooted_of_restart (env : Env) (h : c.Grounded) (aborted : List (Int64 × Nat)) (now : Int64) :
    (c.live env (.restart aborted now)).Rooted := by
  rcases h with hnil | h
  · obtain ⟨started, hrows⟩ := start_rows_of_nil (show c.db.blocks.rows = [] from hnil) aborted now
    exact rooted_of_genesis hrows
  · exact h.congr (congrArg Table.rows (start_blocks h.root aborted now))

theorem rooted_of_crash (env : Env) (h : c.Grounded) (op : Operation) (k : Nat) (aborted : List (Int64 × Nat))
    (now : Int64) : (c.live env (.crash op k aborted now)).Rooted := by
  rcases rows_of_crash env h op k aborted now with ⟨⟨r, hr, -⟩, hrows⟩ | ⟨⟨started, hrows⟩, -⟩
  · have hne := List.ne_nil_of_mem hr
    rcases hrows with hrows | hrows | ⟨b, t, -, -, hrows, hleft⟩
    · exact (h.congr hrows).resolve_left hne
    · exact ((h.operate env op).congr hrows).resolve_left hne
    · refine (h.resolve_left fun hnil => hleft ?_).below hleft hrows
      rw [Blockchain.below, hnil]
      rfl
  · exact rooted_of_genesis hrows

theorem Grounded.live (env : Env) (h : c.Grounded) (phase : Phase) : (c.live env phase).Grounded := by
  cases phase with
  | operate op => exact h.operate env op
  | restart aborted now => exact Or.inr (rooted_of_restart env h aborted now)
  | crash op k aborted now => exact Or.inr (rooted_of_crash env h op k aborted now)

/-- The only phase that empties the table. -/
theorem Grounded.emptied (h : c.Grounded) {phase : Phase} (hnil : (c.live env phase).rows = []) :
    c.rows = [] ∨ ∃ op, phase = .operate op ∧ op.Empties c := by
  rcases h with hbefore | h
  · exact Or.inl hbefore
  · cases phase with
    | operate op =>
      refine Or.inr ⟨op, rfl, ?_⟩
      by_contra hspare
      exact (h.operate hspare).chained.nonempty hnil
    | restart aborted now => exact absurd hnil (rooted_of_restart env (Or.inr h) aborted now).chained.nonempty
    | crash op k aborted now => exact absurd hnil (rooted_of_crash env (Or.inr h) op k aborted now).chained.nonempty

theorem Grounded.dropLast_prefix (env : Env) (h : c.Grounded) (phase : Phase) :
    c.rows.dropLast <+: (c.live env phase).rows := by
  rcases h with hnil | h
  · rw [hnil]
    exact List.nil_prefix
  · cases phase with
    | operate op => exact dropLast_prefix_operate env (Or.inr h) op
    | restart aborted now =>
      rw [show (c.live env (.restart aborted now)).rows = c.rows from
        congrArg Table.rows (start_blocks h.root aborted now)]
      exact List.dropLast_prefix _
    | crash op k aborted now =>
      rcases rows_of_crash env (Or.inr h) op k aborted now with
        ⟨-, hrows | hrows | ⟨b, t, -, -, hrows, -⟩⟩ | ⟨-, hnil | ⟨b, t, -, -, hnil⟩⟩
      · rw [hrows]
        exact List.dropLast_prefix _
      · rw [hrows]
        exact dropLast_prefix_operate env (Or.inr h) op
      · rw [hrows, h.chained.below_eq]
      · exact absurd hnil h.chained.nonempty
      · rw [← h.chained.below_eq, hnil]
        exact List.nil_prefix

theorem grounded_born (aborted : List (Int64 × Nat)) (started : Int64) :
    (opened (LedgerDB.empty.start aborted started)).Grounded := by
  obtain ⟨t, ht⟩ := start_rows_of_nil (show LedgerDB.empty.blocks.rows = [] from rfl) aborted started
  exact Or.inr (rooted_of_genesis ht)

/-- A node's ledger through its whole life: started on no database, in calls that return, calls that are cut off between
    any two of their statements, and starts that are cut off as well. Every state is a chain from height 0, or has no
    block since a call replaced the only one by one whose difficulty is NaN. No phase touches a row below the last, and a
    call that is cut off leaves the rows as they were, as the call was to leave them, without the tip that it was to
    exchange, or, where that leaves none, the genesis row of the start. -/
theorem crash_safety (env : Env) (aborted : List (Int64 × Nat)) (started : Int64) (phases : List Phase) :
    let born := opened (LedgerDB.empty.start aborted started)
    (∀ c ∈ Transition.states (live env) born phases, c.rows = [] ∨ c.Rooted) ∧
      ∀ x ∈ Transition.steps (live env) born phases,
        ((x.1.live env x.2).rows = [] → x.1.rows = [] ∨ ∃ op, x.2 = .operate op ∧ op.Empties x.1) ∧
        x.1.rows.dropLast <+: (x.1.live env x.2).rows ∧
        ∀ op k again now, x.2 = .crash op k again now →
          (x.1.live env x.2).Rooted ∧
            ((x.1.live env x.2).rows = x.1.rows ∨ (x.1.live env x.2).rows = (operate env x.1 op).rows ∨
              (∃ b t, op = .call (.replaceLastBlock b t) ∧ x.1.Competes b ∧ (x.1.live env x.2).rows = x.1.below ∧
                x.1.below ≠ []) ∨
              (∃ reborn, (x.1.live env x.2).rows = [genesisRow reborn]) ∧
                (x.1.rows = [] ∨ ∃ b t, op = .call (.replaceLastBlock b t) ∧ x.1.Competes b ∧ x.1.below = [])) := by
  intro born
  have hborn : born.Grounded := grounded_born aborted started
  refine ⟨Transition.invariant (I := Grounded) (fun c phase hc => hc.live env phase) hborn, fun x hx => ?_⟩
  have hgrounded : x.1.Grounded :=
    Transition.invariant_steps (I := Grounded) (fun c phase hc => hc.live env phase) hborn x hx
  refine ⟨hgrounded.emptied, hgrounded.dropLast_prefix env x.2, fun op k again now hcrash => ?_⟩
  rw [hcrash]
  refine ⟨rooted_of_crash env hgrounded op k again now, ?_⟩
  rcases rows_of_crash env hgrounded op k again now with ⟨-, hrows | hrows | hrows⟩ | hrows
  · exact Or.inl hrows
  · exact Or.inr (Or.inl hrows)
  · exact Or.inr (Or.inr (Or.inl hrows))
  · exact Or.inr (Or.inr (Or.inr hrows))

end Blockchain

end NexusLedger
