import NexusLedger.Theorems.Crashes
import NexusLedger.Theorems.Settlement

/-! What a start changes. The schema inserts its genesis rows again where they are missing; the exchange of a block at
    height 0 takes the genesis reward away, and the next start gives it back. -/

namespace NexusLedger

section
set_option linter.unusedSectionVars false
variable [Arithmetic]

open Statement

namespace LedgerDB
variable {db : LedgerDB}

/-! ### What every statement keeps -/

/-- What the schema looks for in the other tables: its wallet is there, and only its transaction has an index. -/
structure Seeded (db : LedgerDB) : Prop where
  wallet : ∃ w ∈ db.wallets.rows, w.address = .bind "genesis_miner"
  indexed : ∀ t ∈ db.transactions.rows, t.txIndex.isSome → t.txHash = .bind zeroHash

theorem wallet_insertOrIgnore {wallets : Table walletsSchema} {a : CString} (h : ∃ w ∈ wallets.rows, w.address = a)
    (row : WalletRow) : ∃ w ∈ (wallets.insertOrIgnore row).rows, w.address = a := by
  obtain ⟨w, hw, haddress⟩ := h
  by_cases hfits : wallets.fits row = true
  · exact ⟨w, by rw [Table.insertOrIgnore_of_fits hfits]; exact List.mem_append_left _ hw, haddress⟩
  · rw [Table.insertOrIgnore, Table.insert_eq_none.mpr (Bool.eq_false_iff.mpr hfits)]
    exact ⟨w, hw, haddress⟩

theorem indexed_insertOrIgnore {transactions : Table transactionsSchema} {row : TransactionRow}
    (h : ∀ t ∈ transactions.rows, t.txIndex.isSome → t.txHash = .bind zeroHash)
    (hrow : row.txIndex.isSome → row.txHash = .bind zeroHash) :
    ∀ t ∈ (transactions.insertOrIgnore row).rows, t.txIndex.isSome → t.txHash = .bind zeroHash := by
  by_cases hfits : transactions.fits row = true
  · rw [Table.insertOrIgnore_of_fits hfits, List.forall_mem_append, List.forall_mem_singleton]
    exact ⟨h, hrow⟩
  · rw [Table.insertOrIgnore, Table.insert_eq_none.mpr (Bool.eq_false_iff.mpr hfits)]
    exact h

theorem indexed_apply (h : ∀ t ∈ db.transactions.rows, t.txIndex.isSome → t.txHash = .bind zeroHash)
    (w : Statement) : ∀ t ∈ (apply db w).transactions.rows, t.txIndex.isSome → t.txHash = .bind zeroHash := by
  cases w with
  | insertTransaction tx blockHeight => exact indexed_insertOrIgnore h fun hindex => nomatch hindex
  | insertGenesisTransaction now => exact indexed_insertOrIgnore h fun _ => rfl
  | deleteTransactions height => exact fun t ht => h t (List.mem_filter.mp ht).1
  | _ => exact h

theorem Seeded.apply (h : db.Seeded) (w : Statement) : (apply db w).Seeded := by
  refine ⟨?_, indexed_apply h.indexed w⟩
  cases w with
  | insertWallet address => exact wallet_insertOrIgnore h.wallet _
  | updateNonce address nonce =>
    obtain ⟨w, hw, haddress⟩ := h.wallet
    exact ⟨_, List.mem_map_of_mem hw, (setNonce_address _ _ w).trans haddress⟩
  | _ => exact h.wallet

/-- The transaction with the hash of the genesis transaction is there. -/
def Issued (db : LedgerDB) : Prop := ∃ t ∈ db.transactions.rows, t.txHash = .bind zeroHash

end LedgerDB

namespace Blockchain
open LedgerDB
variable {env : Env} {c : Blockchain}

end Blockchain

end

namespace Blockchain
open LedgerDB

attribute [local instance] Arithmetic.unrounded

instance (db : LedgerDB) : Decidable db.Issued := inferInstanceAs (Decidable (∃ t ∈ db.transactions.rows, _))

instance (db : LedgerDB) : Decidable db.Finite := inferInstanceAs (Decidable (∀ t ∈ db.transactions.rows, _))

end Blockchain

end NexusLedger
