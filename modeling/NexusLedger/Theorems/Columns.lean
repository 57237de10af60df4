import NexusLedger.Theorems.Transactions
import NexusLedger.Theorems.NodeSteps

/-! What the readers of the transactions table make of a row that was just written. -/

namespace NexusLedger

/-- Two transactions agree in every field that has a column. -/
def Transaction.SameColumns (a b : Transaction) : Prop := { a with nonce := b.nonce } = b

namespace LedgerDB
open Node (sampleEnv samplePayment)
variable {env : Env} {db : LedgerDB} {tx : Transaction} {height : Int32}

/-- The height that `addTransaction` binds: a negative one becomes NULL. -/
def boundHeight (height : Int32) : Option Int32 := if 0 ≤ height then some height else none

theorem addTransaction_eq_true (h : (db.addTransaction tx height).1 = true) :
    db.transactions.fits (tx.row (boundHeight height)) = true ∧
      (db.addTransaction tx height).2.transactions.rows = db.transactions.rows ++ [tx.row (boundHeight height)] := by
  unfold addTransaction at h ⊢
  split at h
  · rename_i u hu
    exact Table.insert_eq_some hu
  · cases h

/-- The new row is the one that its hash finds: no other row may hold it. -/
theorem getTransactionByHash_addTransaction (env : Env) (h : (db.addTransaction tx height).1 = true) :
    (db.addTransaction tx height).2.getTransactionByHash env tx.txHash =
      some ((tx.row (boundHeight height)).toTransaction env) := by
  obtain ⟨hfits, hrows⟩ := addTransaction_eq_true h
  have hnew := (fits_txRow_iff.mp hfits).2
  have hold : (db.transactions.rows.find? fun t => t.txHash == .bind tx.txHash) = none := by
    rw [List.find?_eq_none]
    intro t ht heq
    exact hnew (List.mem_map.mpr ⟨t, ht, beq_iff_eq.mp heq⟩)
  unfold getTransactionByHash
  rw [hrows, List.find?_append, hold]
  simp [Transaction.row]

/-- What a stored transaction should read back as. -/
def RoundTrips (env : Env) (db : LedgerDB) (tx : Transaction) (height : Int32) : Prop :=
  ∃ t, (db.addTransaction tx height).2.getTransactionByHash env tx.txHash = some t ∧ t.SameColumns tx ∧
    (0 ≤ height → t ∈ (db.addTransaction tx height).2.getTransactionsByBlock env height)

/-- The status read is the data, the data read is the timestamp: no row that the CHECK on the status lets in
    reads back as the transaction it was bound from. -/
theorem not_sameColumns_of_fits (env : Env) {t : Table transactionsSchema} {blockHeight : Option Int32}
    (h : t.fits (tx.row blockHeight) = true) : ¬((tx.row blockHeight).toTransaction env).SameColumns tx := by
  intro hsame
  have hdata : toString tx.timestamp.toInt = tx.data := congrArg Transaction.data hsame
  have hstatus : cText tx.data = tx.status := congrArg Transaction.status hsame
  have hcheck : cText tx.status = "pending" ∨ cText tx.status = "confirmed" ∨ cText tx.status = "invalid" := by
    have := (Table.fits_iff.mp h).1
    simp only [transactionsSchema, Transaction.row, Bool.and_eq_true, Bool.or_eq_true, beq_iff_eq, or_assoc] at this
    exact this.2
  rw [← hstatus, cText_cText, ← hdata] at hcheck
  -- A letter of each word that no number has.
  rcases hcheck with heq | heq | heq
  · exact cText_toString_ne _ (c := 'p') (by decide) (by decide) (by decide) heq
  · exact cText_toString_ne _ (c := 'c') (by decide) (by decide) (by decide) heq
  · exact cText_toString_ne _ (c := 'v') (by decide) (by decide) (by decide) heq

/-- A transaction that was stored never reads back as it was. -/
theorem not_roundTrips_of_stored (env : Env) (db : LedgerDB) (tx : Transaction) (height : Int32)
    (h : (db.addTransaction tx height).1 = true) : ¬RoundTrips env db tx height := by
  rintro ⟨t, hget, hsame, -⟩
  rw [getTransactionByHash_addTransaction env h] at hget
  cases hget
  exact not_sameColumns_of_fits env (addTransaction_eq_true h).1 hsame

theorem not_roundTrips_of_stored_samplePayment : ¬RoundTrips sampleEnv (schema 0) samplePayment (-1) :=
  not_roundTrips_of_stored sampleEnv (schema 0) samplePayment (-1) (by decide +kernel)

/-- The transaction that the payment reads back as: 0 from nobody to its sender, with the amount as the fee. -/
def sampleMisread : Transaction where
  txHash := Node.sampleTxHash
  fromAddress := ""
  toAddress := "genesis_miner"
  amount := 0
  fee := 10
  signature := "0.001"
  timestamp := 0
  data := "1700000000"
  status := ""
  nonce := 0

theorem samplePayment_misread :
    ((schema 0).addTransaction samplePayment 1).1 = true ∧
      ((schema 0).addTransaction samplePayment 1).2.getTransactionByHash sampleEnv samplePayment.txHash =
        some sampleMisread ∧
      ¬RoundTrips sampleEnv (schema 0) samplePayment 1 := by
  have hget : ((schema 0).addTransaction samplePayment 1).2.getTransactionByHash sampleEnv samplePayment.txHash =
      some sampleMisread := by decide +kernel
  refine ⟨by decide +kernel, hget, ?_⟩
  rintro ⟨t, ht, hsame, -⟩
  rw [hget] at ht
  cases ht
  exact absurd (congrArg Transaction.fromAddress hsame) (by decide)

end LedgerDB

end NexusLedger
