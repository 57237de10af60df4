import NexusLedger.Theorems.NodeSteps
import NexusLedger.Theorems.Transactions

/-! The rows of the wallets table. A balance query and an admission make the wallets they look for, so a query
    leaves the store as it is only where the wallet is there. -/

namespace NexusLedger

section
set_option linter.unusedSectionVars false
variable [Arithmetic]

/-! ### Rows -/

namespace LedgerDB
variable {db : LedgerDB} {a b : String} {tx : Transaction}

/-- The address has its row. -/
def HasWallet (db : LedgerDB) (address : String) : Prop := ∃ w ∈ db.wallets.rows, w.address = .bind address

theorem ensureWalletExists_of_hasWallet (h : db.HasWallet a) : db.ensureWalletExists a = (true, db) := by
  obtain ⟨w, hw, hadd⟩ := h
  have hany : (db.wallets.rows.any fun w => w.address == .bind a) = true :=
    List.any_eq_true.mpr ⟨w, hw, beq_iff_eq.mpr hadd⟩
  exact if_pos hany

theorem ensureWalletExists_subset (db : LedgerDB) (a : String) :
    db.wallets.rows ⊆ (db.ensureWalletExists a).2.wallets.rows := by
  unfold ensureWalletExists
  split
  · exact List.Subset.refl _
  · split
    · rename_i u hu
      rw [(Table.insert_eq_some hu).2]
      exact List.subset_append_left _ _
    · exact List.Subset.refl _

theorem HasWallet.ensure (h : db.HasWallet b) (a : String) : (db.ensureWalletExists a).2.HasWallet b := by
  obtain ⟨w, hw, hadd⟩ := h
  exact ⟨w, ensureWalletExists_subset db a hw, hadd⟩

theorem hasWallet_ensure (db : LedgerDB) (a : String) : (db.ensureWalletExists a).2.HasWallet a :=
  ensureWalletExists_wallet db a

theorem getBalance_of_hasWallet (h : db.HasWallet a) : (db.getBalance a).2 = db := by
  unfold getBalance
  rw [ensureWalletExists_of_hasWallet h]

theorem HasWallet.getBalance (h : db.HasWallet b) (a : String) : (db.getBalance a).2.HasWallet b := h.ensure a

theorem hasWallet_getBalance (db : LedgerDB) (a : String) : (db.getBalance a).2.HasWallet a := hasWallet_ensure db a

end LedgerDB

/-! ### A rejected transaction -/

namespace Blockchain
open LedgerDB
variable {env : Env} {c : Blockchain} {tx : Transaction} {now : Int64}

/-- `addTransaction` gets as far as the balance of the sender, which does not cover the amount and the fee. -/
def Declined (c : Blockchain) (tx : Transaction) : Prop :=
  ¬tx.amount ≤ 0 ∧ ¬tx.fee < 0 ∧ tx.fromAddress ≠ "SYSTEM" ∧
    c.db.viewBalance (.bind tx.fromAddress) < Arithmetic.add tx.amount tx.fee

/-- The store once the balance of the sender is known. -/
def queried (c : Blockchain) (tx : Transaction) : LedgerDB :=
  (((c.db.ensureWalletExists tx.fromAddress).2.ensureWalletExists tx.toAddress).2.getBalance tx.fromAddress).2

theorem addTransaction_of_declined (env : Env) (now : Int64) (h : c.Declined tx) :
    c.addTransaction env tx now = (false, { c with db := c.queried tx }) := by
  obtain ⟨hamount, hfee, hsystem, hlow⟩ := h
  rw [← getBalance_of_ensured] at hlow
  unfold addTransaction
  rw [if_neg hamount, if_neg hfee, if_neg hsystem]
  simp only
  rw [if_pos hlow]
  rfl

/-- What is not declined is admitted, or it fails before anything is written. -/
theorem addTransaction_of_not_declined (env : Env) (now : Int64) (h : ¬c.Declined tx) (ha : ¬c.Admits tx) :
    c.addTransaction env tx now = (false, c) := by
  unfold addTransaction
  by_cases hamount : tx.amount ≤ 0
  · rw [if_pos hamount]
  · rw [if_neg hamount]
    by_cases hfee : tx.fee < 0
    · rw [if_pos hfee]
    · have hsystem : tx.fromAddress ≠ "SYSTEM" := fun hs => ha ⟨hamount, hfee, Or.inl hs⟩
      have hcan : ¬c.db.viewBalance (.bind tx.fromAddress) < Arithmetic.add tx.amount tx.fee :=
        fun hlow => h ⟨hamount, hfee, hsystem, hlow⟩
      exact absurd ⟨hamount, hfee, Or.inr hcan⟩ ha

theorem queried_eq_iff : c.queried tx = c.db ↔ c.db.HasWallet tx.fromAddress ∧ c.db.HasWallet tx.toAddress := by
  constructor
  · intro h
    have hfrom : (c.queried tx).HasWallet tx.fromAddress := hasWallet_getBalance _ _
    have hto : (c.queried tx).HasWallet tx.toAddress := (hasWallet_ensure _ _).getBalance _
    rw [h] at hfrom hto
    exact ⟨hfrom, hto⟩
  · rintro ⟨hfrom, hto⟩
    unfold queried
    rw [ensureWalletExists_of_hasWallet hfrom, ensureWalletExists_of_hasWallet hto, getBalance_of_hasWallet hfrom]

/-- A rejected transaction leaves no trace exactly when it fails on its amount or its fee, or when its sender and
    its recipient have their wallets. -/
theorem rejected_traceless_iff (env : Env) (c : Blockchain) (tx : Transaction) (now : Int64) :
    ((c.addTransaction env tx now).1 = false → (c.addTransaction env tx now).2 = c) ↔
      (c.Declined tx → c.db.HasWallet tx.fromAddress ∧ c.db.HasWallet tx.toAddress) := by
  by_cases hdeclined : c.Declined tx
  · rw [addTransaction_of_declined env now hdeclined]
    simp only [hdeclined, true_imp_iff, ← queried_eq_iff]
    exact ⟨fun h => congrArg Blockchain.db h, fun h => by rw [h]⟩
  · simp only [hdeclined, false_imp_iff, iff_true]
    intro hfalse
    have ha : ¬c.Admits tx := fun ha => by
      rw [(addTransaction_accepts_iff env now).mpr ha] at hfalse
      cases hfalse
    rw [addTransaction_of_not_declined env now hdeclined ha]

end Blockchain

end

namespace Blockchain

attribute [local instance] Arithmetic.binary64

/-- A payment between two names that nobody has heard of. -/
def unknownPayment : Transaction := { Node.samplePayment with fromAddress := "mallory", toAddress := "bob" }

/-- It is rejected, and both names have wallets now. -/
theorem unknown_names_stored :
    ((genesis 1700000000).addTransaction Node.sampleEnv unknownPayment 1700000000).1 = false ∧
      ((genesis 1700000000).addTransaction Node.sampleEnv unknownPayment 1700000000).2.db.wallets.rows.map (·.address) =
        (genesis 1700000000).db.wallets.rows.map (·.address) ++ [.bind "mallory", .bind "bob"] ∧
      ¬(((genesis 1700000000).addTransaction Node.sampleEnv unknownPayment 1700000000).1 = false →
        ((genesis 1700000000).addTransaction Node.sampleEnv unknownPayment 1700000000).2 = genesis 1700000000) := by
  obtain ⟨hrejected, hrows⟩ :
      ((genesis 1700000000).addTransaction Node.sampleEnv unknownPayment 1700000000).1 = false ∧
        ((genesis 1700000000).addTransaction Node.sampleEnv unknownPayment 1700000000).2.db.wallets.rows.map
            (·.address) =
          (genesis 1700000000).db.wallets.rows.map (·.address) ++ [.bind "mallory", .bind "bob"] := by
    decide +kernel
  refine ⟨hrejected, hrows, fun h => ?_⟩
  rw [h hrejected] at hrows
  have hlength := congrArg List.length hrows
  simp at hlength

end Blockchain

end NexusLedger
