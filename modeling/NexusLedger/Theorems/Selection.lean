import NexusLedger.Theorems.Settlement
import NexusLedger.Theorems.Pool

/-! The two walks over the priority index: `createBlock` takes what can pay, `cleanMempool` drops what cannot.
    A balance query may create a wallet, but it changes no balance, so each walk is a filter. -/

namespace NexusLedger

section
variable [Arithmetic]

namespace Blockchain
variable {env : Env} {c : Blockchain} {db db' : LedgerDB} {tx : Transaction} {p : TxPriority} {k : String}

/-! ### The test -/

/-- The sender is `SYSTEM` or can pay. -/
def Pays (db : LedgerDB) (tx : Transaction) : Prop :=
  tx.fromAddress = "SYSTEM" ∨ ¬db.viewBalance (.bind tx.fromAddress) < Arithmetic.add tx.amount tx.fee

instance (db : LedgerDB) : DecidablePred (Pays db) := fun _ => inferInstanceAs (Decidable (_ ∨ _))

theorem pays_congr (h : db'.transactions = db.transactions) : Pays db' tx ↔ Pays db tx := by
  unfold Pays
  rw [LedgerDB.viewBalance_congr h]

theorem pays_iff_of_not_system (h : tx.fromAddress ≠ "SYSTEM") :
    Pays db tx ↔ ¬(db.getBalance tx.fromAddress).1 < Arithmetic.add tx.amount tx.fee := by
  rw [LedgerDB.getBalance_fst, Pays]
  exact ⟨fun hpays => hpays.resolve_left h, Or.inr⟩

/-- The test in the words of `getBalance`. -/
theorem pays_iff : Pays c.db tx ↔
    (tx.fromAddress = "SYSTEM" ∨ ¬(c.getBalance tx.fromAddress).1 < Arithmetic.add tx.amount tx.fee) := by
  rw [show (c.getBalance tx.fromAddress).1 = _ from LedgerDB.getBalance_fst c.db tx.fromAddress]
  rfl

section
variable (mempool : Finmap fun _ : String => Transaction) (db : LedgerDB)

/-- The entry names a transaction of the mempool that can pay. -/
def payable (p : TxPriority) : Bool :=
  match mempool.lookup p.txHash with
  | some tx => decide (Pays db tx)
  | none => false

/-- The entry names a transaction of the mempool that cannot pay. -/
def failing (p : TxPriority) : Bool := (mempool.lookup p.txHash).isSome && !payable mempool db p

theorem payable_getBalance (address : String) : payable mempool (db.getBalance address).2 = payable mempool db := by
  funext p
  unfold payable
  split
  · exact decide_eq_decide.mpr (pays_congr (LedgerDB.getBalance_transactions db address))
  · rfl

theorem failing_getBalance (address : String) : failing mempool (db.getBalance address).2 = failing mempool db := by
  funext p
  rw [failing, payable_getBalance, failing]

variable {mempool db}

theorem payable_iff : payable mempool db p = true ↔ ∃ tx, mempool.lookup p.txHash = some tx ∧ Pays db tx := by
  unfold payable
  split <;> simp_all

theorem failing_iff : failing mempool db p = true ↔ ∃ tx, mempool.lookup p.txHash = some tx ∧ ¬Pays db tx := by
  unfold failing payable
  split <;> simp_all

end

/-! ### The walks -/

/-- The selection loop of `createBlock`, with `n` transactions taken before. -/
theorem selectTransactions_eq (mempool : Finmap fun _ : String => Transaction) (l : List TxPriority) (db : LedgerDB)
    (n : Nat) :
    (selectTransactions mempool l db n).1 =
      ((l.filter (payable mempool db)).take (10 - n)).filterMap fun p => mempool.lookup p.txHash := by
  induction l generalizing db n with
  | nil => simp [selectTransactions]
  | cons p l ih =>
    unfold selectTransactions
    split
    · rename_i hfull
      rw [Nat.sub_eq_zero_of_le hfull, List.take_zero, List.filterMap_nil]
    · rename_i hroom
      have hcount : 10 - n = 10 - (n + 1) + 1 := by omega
      split
      · rename_i hnone
        have hp : payable mempool db p = false := by simp [payable, hnone]
        rw [ih, List.filter_cons_of_neg (by simp [hp])]
      · rename_i tx htx
        split
        · rename_i hsystem
          have hp : payable mempool db p = true := payable_iff.mpr ⟨tx, htx, Or.inl hsystem⟩
          simp only [List.filter_cons_of_pos hp, hcount, List.take_succ_cons, List.filterMap_cons, htx, ih]
        · rename_i hsystem
          simp only
          split
          · rename_i hlow
            have hp : ¬payable mempool db p = true := by
              rw [payable_iff]
              rintro ⟨x, hx, hpays⟩
              rw [htx] at hx
              cases hx
              exact (pays_iff_of_not_system hsystem).mp hpays hlow
            rw [ih, payable_getBalance, List.filter_cons_of_neg hp]
          · rename_i hlow
            have hp : payable mempool db p = true := payable_iff.mpr ⟨tx, htx, (pays_iff_of_not_system hsystem).mpr hlow⟩
            simp only [List.filter_cons_of_pos hp, hcount, List.take_succ_cons, List.filterMap_cons, htx, ih,
              payable_getBalance]

/-- The first loop of `cleanMempool`. -/
theorem findInvalid_eq (mempool : Finmap fun _ : String => Transaction) (l : List TxPriority) (db : LedgerDB) :
    (findInvalid mempool l db).1 = l.filter (failing mempool db) := by
  induction l generalizing db with
  | nil => simp [findInvalid]
  | cons p l ih =>
    unfold findInvalid
    split
    · rename_i hnone
      have hp : failing mempool db p = false := by simp [failing, hnone]
      rw [ih, List.filter_cons_of_neg (by simp [hp])]
    · rename_i tx htx
      split
      · rename_i hsystem
        have hp : failing mempool db p = false := by simp [failing, payable, htx, Pays, hsystem]
        rw [ih, List.filter_cons_of_neg (by simp [hp])]
      · rename_i hsystem
        have hp : failing mempool db p = true ↔ (db.getBalance tx.fromAddress).1 < Arithmetic.add tx.amount tx.fee := by
          simp [failing, payable, htx, pays_iff_of_not_system hsystem]
        simp only
        split
        · rename_i hlow
          rw [ih, failing_getBalance, List.filter_cons_of_pos (hp.mpr hlow)]
        · rename_i hlow
          rw [ih, failing_getBalance, List.filter_cons_of_neg fun h => hlow (hp.mp h)]

/-! ### What is selected -/

/-- The entries that `createBlock` takes. -/
def taken (c : Blockchain) : List TxPriority := c.mempoolByPriority.pick (payable c.mempool c.db) 10

theorem selected_eq (c : Blockchain) : c.selected = c.taken.filterMap fun p => c.mempool.lookup p.txHash :=
  selectTransactions_eq c.mempool c.entries c.db 0

theorem forall₂_taken (c : Blockchain) :
    List.Forall₂ (fun p tx => c.mempool.lookup p.txHash = some tx) c.taken c.selected := by
  have hall : ∀ l : List TxPriority, (∀ p ∈ l, payable c.mempool c.db p = true) →
      List.Forall₂ (fun p tx => c.mempool.lookup p.txHash = some tx) l
        (l.filterMap fun p => c.mempool.lookup p.txHash) := by
    intro l hl
    induction l with
    | nil => exact List.Forall₂.nil
    | cons p l ih =>
      rw [List.forall_mem_cons] at hl
      obtain ⟨tx, htx, -⟩ := payable_iff.mp hl.1
      simp only [List.filterMap_cons, htx]
      exact List.Forall₂.cons htx (ih hl.2)
  rw [selected_eq]
  exact hall c.taken fun p hp => (OrderedSet.mem_pick hp).2

theorem mem_selected_iff : tx ∈ c.selected ↔ ∃ p ∈ c.taken, c.mempool.lookup p.txHash = some tx := by
  rw [selected_eq, List.mem_filterMap]

theorem pays_of_selected (h : tx ∈ c.selected) : Pays c.db tx := by
  obtain ⟨p, hp, hlookup⟩ := mem_selected_iff.mp h
  obtain ⟨x, hx, hpays⟩ := payable_iff.mp (OrderedSet.mem_pick hp).2
  rw [hlookup] at hx
  cases hx
  exact hpays

theorem selected_eq_nil_iff : c.selected = [] ↔ ∀ p ∈ c.entries, payable c.mempool c.db p = false := by
  have hlength := (forall₂_taken c).length_eq
  rw [← OrderedSet.pick_eq_nil (by decide : 0 < 10), ← List.length_eq_zero_iff, ← hlength, List.length_eq_zero_iff]
  rfl

/-- Whatever the mempool, the index and the ledger hold, after the coinbase a block takes from the index, in its
    order, at most ten entries that the mempool has and whose sender has no balance below amount and fee as they add
    up in doubles; one that it leaves out although it could be taken comes after ten taken ones. -/
theorem greedy_selection (env : Env) (c : Blockchain) (miner : String) (now : Int64) :
    ∃ (taken : List TxPriority) (txs : List Transaction),
      (c.createBlock env miner now).1.transactions = Transaction.createCoinbase env now miner reward :: txs ∧
      List.Forall₂ (fun p tx => c.mempool.lookup p.txHash = some tx) taken txs ∧
      taken.Sublist c.entries ∧
      taken.Pairwise (fun p q =>
        q.feePerByte < p.feePerByte ∨ (q.feePerByte.Equals p.feePerByte ∧ p.timestamp < q.timestamp)) ∧
      txs.length ≤ 10 ∧
      (∀ tx ∈ txs, tx.fromAddress = "SYSTEM" ∨
        ¬(c.getBalance tx.fromAddress).1 < Arithmetic.add tx.amount tx.fee) ∧
      ∀ p ∈ c.entries, ∀ tx, c.mempool.lookup p.txHash = some tx →
        (tx.fromAddress = "SYSTEM" ∨ ¬(c.getBalance tx.fromAddress).1 < Arithmetic.add tx.amount tx.fee) →
          p ∉ taken → taken.length = 10 ∧ ∀ q ∈ taken,
            p.feePerByte < q.feePerByte ∨ (p.feePerByte.Equals q.feePerByte ∧ q.timestamp < p.timestamp) := by
  have hsorted : c.taken.Pairwise fun p q => TxPriority.order.lt p q = true :=
    c.mempoolByPriority.sorted.sublist OrderedSet.pick_sublist
  refine ⟨c.taken, c.selected, rfl, forall₂_taken c, OrderedSet.pick_sublist, hsorted.imp precedes_iff.mp, ?_, ?_, ?_⟩
  · rw [← (forall₂_taken c).length_eq]
    exact OrderedSet.length_pick_le
  · exact fun tx htx => pays_iff.mp (pays_of_selected htx)
  · intro p hp tx htx hcan hnot
    have hpass : payable c.mempool c.db p = true := payable_iff.mpr ⟨tx, htx, pays_iff.mpr hcan⟩
    obtain ⟨hfull, hbefore⟩ := OrderedSet.pick_full hp hpass hnot
    exact ⟨hfull, fun q hq => precedes_iff.mp (hbefore q hq)⟩

end Blockchain

end

namespace Blockchain

attribute [local instance] Arithmetic.binary64

/-- The genesis wallet pays all that it has, for a fee that is lost when the two are added. -/
def lostFeePayment : Transaction :=
  { Node.samplePayment with txHash := "p1", amount := 10000, fee := .number (1 / 2 ^ 44) }

def lostFeeState : Blockchain :=
  ((opened (.schema 1700000000)).addTransaction Node.sampleEnv lostFeePayment 1700000000).2

/-- The payment is selected, and its sender does not have the amount and the fee. -/
theorem underpaid_selected :
    ¬∃ txs : List Transaction, (lostFeeState.createBlock Node.sampleEnv "alpha" 1700143364).1.transactions =
        Transaction.createCoinbase Node.sampleEnv 1700143364 "alpha" reward :: txs ∧
      ∀ tx ∈ txs, tx.fromAddress = "SYSTEM" ∨
        tx.amount.value + tx.fee.value ≤ (lostFeeState.getBalance tx.fromAddress).1.value := by
  rintro ⟨txs, htxs, hpay⟩
  have hselected : lostFeeState.selected = [lostFeePayment] := by decide +kernel
  rw [transactions_createBlock, hselected, List.cons.injEq] at htxs
  rw [← htxs.2, List.forall_mem_singleton] at hpay
  revert hpay
  decide +kernel

end Blockchain

end NexusLedger
