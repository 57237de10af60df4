import NexusLedger.Theorems.Wallets
import NexusLedger.Theorems.Replacement

/-! `cleanMempool` over containers that need not agree: what leaves both of them, and why a second call finds
    nothing to do. -/

namespace NexusLedger
set_option linter.unusedSectionVars false
variable [Arithmetic]

namespace Blockchain
open LedgerDB
variable {c : Blockchain} {db : LedgerDB} {mempool : Finmap fun _ : String => Transaction} {l : List TxPriority}
  {p : TxPriority} {tx : Transaction}

/-! ### The index -/

theorem entries_removeAll (hsub : ∀ p ∈ l, p ∈ c.entries) (hl : l.Nodup) :
    (c.removeAll l).entries = c.entries.filter fun q => !l.contains q := by
  unfold removeAll
  induction l generalizing c with
  | nil => simp
  | cons p l ih =>
    rw [List.forall_mem_cons] at hsub
    obtain ⟨hp, hl⟩ := List.nodup_cons.mp hl
    have herase : (c.mempoolByPriority.erase p).elems = c.entries.filter fun q => !(q == p) := by
      refine List.filter_congr fun q hq => ?_
      rw [Bool.not_inj_iff, Bool.eq_iff_iff, OrderedSet.equiv_iff hsub.1 hq, beq_iff_eq]
      exact eq_comm
    have hmem : ∀ q ∈ l, q ∈ (c.mempoolByPriority.erase p).elems := fun q hq =>
      (OrderedSet.mem_erase hsub.1).mpr ⟨hsub.2 q hq, fun heq => hp (heq ▸ hq)⟩
    rw [List.foldl_cons, ih hmem hl]
    show (c.mempoolByPriority.erase p).elems.filter _ = _
    rw [herase, List.filter_filter]
    refine List.filter_congr fun q _ => ?_
    rw [List.contains_cons, Bool.not_or, Bool.and_comm]

/-- The index keeps its order; the entries of transactions that cannot be paid for are gone. -/
theorem entries_cleanMempool (c : Blockchain) :
    c.cleanMempool.2.entries = c.entries.filter fun p => !failing c.mempool c.db p := by
  have hfound : (findInvalid c.mempool c.entries c.db).1 = c.entries.filter (failing c.mempool c.db) := findInvalid_eq ..
  have hsub : ∀ p ∈ (findInvalid c.mempool c.entries c.db).1, p ∈ c.entries :=
    fun p hp => (findInvalid_sublist c.mempool c.entries c.db).subset hp
  have hnodup := c.mempoolByPriority.nodup.sublist (findInvalid_sublist c.mempool c.entries c.db)
  have hremoved := entries_removeAll (c := { c with db := (findInvalid c.mempool c.entries c.db).2 }) hsub hnodup
  refine hremoved.trans (List.filter_congr fun p hp => ?_)
  rw [hfound, Bool.not_inj_iff, Bool.eq_iff_iff, List.contains_iff_mem, List.mem_filter]
  exact and_iff_right hp

/-! ### The wallets -/

/-- Every sender that the first loop asks about has its wallet. -/
def SendersKnown (mempool : Finmap fun _ : String => Transaction) (l : List TxPriority) (db : LedgerDB) : Prop :=
  ∀ p ∈ l, ∀ tx, mempool.lookup p.txHash = some tx → tx.fromAddress ≠ "SYSTEM" → db.HasWallet tx.fromAddress

theorem findInvalid_of_sendersKnown (h : SendersKnown mempool l db) : (findInvalid mempool l db).2 = db := by
  induction l with
  | nil => rfl
  | cons p l ih =>
    obtain ⟨hp, hl⟩ := List.forall_mem_cons.mp h
    unfold findInvalid
    split
    · exact ih hl
    · rename_i tx htx
      split
      · exact ih hl
      · rename_i hsystem
        simp only
        rw [getBalance_of_hasWallet (hp tx htx hsystem)]
        exact ih hl

theorem hasWallet_findInvalid {a : String} (h : db.HasWallet a) : (findInvalid mempool l db).2.HasWallet a :=
  findInvalid_keeps mempool (I := fun d => d.HasWallet a) (fun _ address hd => hd.getBalance address) l h

theorem sendersKnown_findInvalid (mempool : Finmap fun _ : String => Transaction) (l : List TxPriority)
    (db : LedgerDB) : SendersKnown mempool l (findInvalid mempool l db).2 := by
  induction l generalizing db with
  | nil => exact fun p hp => absurd hp List.not_mem_nil
  | cons p l ih =>
    refine List.forall_mem_cons.mpr ⟨fun tx htx hsystem => ?_, ?_⟩
    · simp only [findInvalid, htx, if_neg hsystem]
      exact hasWallet_findInvalid (hasWallet_getBalance db tx.fromAddress)
    · unfold findInvalid
      split
      · exact ih db
      · split
        · exact ih db
        · exact ih _

/-! ### Cleaning once and again -/

/-- The sender is not `SYSTEM` and cannot pay. -/
def Invalid (c : Blockchain) (tx : Transaction) : Prop :=
  tx.fromAddress ≠ "SYSTEM" ∧ (c.getBalance tx.fromAddress).1 < Arithmetic.add tx.amount tx.fee

theorem invalid_iff : c.Invalid tx ↔ ¬Pays c.db tx := by
  rw [pays_iff, not_or, not_not]
  rfl

theorem cleanMempool_db (c : Blockchain) :
    c.cleanMempool.2.db = (findInvalid c.mempool c.entries c.db).2 := removeAll_db ..

theorem getBalance_cleanMempool (c : Blockchain) (a : String) :
    (c.cleanMempool.2.getBalance a).1 = (c.getBalance a).1 := by
  have hafter : (c.cleanMempool.2.getBalance a).1 = c.cleanMempool.2.db.viewBalance (.bind a) := getBalance_fst ..
  have hbefore : (c.getBalance a).1 = c.db.viewBalance (.bind a) := getBalance_fst ..
  rw [hafter, hbefore, viewBalance_congr (cleanMempool_transactions c)]

theorem size_cleanMempool (c : Blockchain) :
    c.cleanMempool.1 + c.cleanMempool.2.mempoolByPriority.size = c.mempoolByPriority.size := by
  have hcount : c.cleanMempool.1 = (c.entries.filter (failing c.mempool c.db)).length :=
    congrArg List.length (findInvalid_eq c.mempool c.entries c.db)
  have hrest : c.cleanMempool.2.mempoolByPriority.size =
      (c.entries.filter fun p => !failing c.mempool c.db p).length :=
    congrArg List.length (entries_cleanMempool c)
  rw [hcount, hrest]
  exact (List.length_eq_length_filter_add _).symm

/-- What the first call left can be paid for, and every sender it asks about has its wallet by then. -/
theorem cleanMempool_idempotent (c : Blockchain) : c.cleanMempool.2.cleanMempool = (0, c.cleanMempool.2) := by
  have hnone : (findInvalid c.cleanMempool.2.mempool c.cleanMempool.2.entries c.cleanMempool.2.db).1 = [] := by
    rw [findInvalid_eq, List.filter_eq_nil_iff]
    intro p hp hfails
    rw [entries_cleanMempool, List.mem_filter] at hp
    obtain ⟨tx, htx, hnot⟩ := failing_iff.mp hfails
    rw [pays_congr (cleanMempool_transactions c)] at hnot
    have hbefore : failing c.mempool c.db p = true :=
      failing_iff.mpr ⟨tx, (lookup_cleanMempool_iff.mp htx).1, hnot⟩
    rw [hbefore] at hp
    exact absurd hp.2 (by decide)
  have hknown : SendersKnown c.cleanMempool.2.mempool c.cleanMempool.2.entries c.cleanMempool.2.db := by
    intro p hp tx htx hsystem
    rw [entries_cleanMempool, List.mem_filter] at hp
    rw [cleanMempool_db]
    exact sendersKnown_findInvalid c.mempool c.entries c.db p hp.1 tx (lookup_cleanMempool_iff.mp htx).1 hsystem
  have hdb : (findInvalid c.cleanMempool.2.mempool c.cleanMempool.2.entries c.cleanMempool.2.db).2 =
      c.cleanMempool.2.db := findInvalid_of_sendersKnown hknown
  generalize c.cleanMempool.2 = d at hnone hdb
  unfold cleanMempool
  simp only
  rw [show findInvalid d.mempool d.mempoolByPriority.elems d.db = ([], d.db) from Prod.ext hnone hdb]
  rfl

/-- Whatever the two containers hold, what leaves the mempool is what the index names and its sender cannot pay for,
    and what leaves the index are the entries that name it. Their number is returned, no row of a block or a
    transaction and no balance changes, and a second call changes nothing. -/
theorem cleanMempool_exact (c : Blockchain) :
    (∀ k tx, c.cleanMempool.2.mempool.lookup k = some tx ↔
        c.mempool.lookup k = some tx ∧ ¬(c.Invalid tx ∧ ∃ p ∈ c.entries, p.txHash = k)) ∧
      (∀ p, p ∈ c.cleanMempool.2.entries ↔
        p ∈ c.entries ∧ ¬∃ tx, c.mempool.lookup p.txHash = some tx ∧ c.Invalid tx) ∧
      c.cleanMempool.1 + c.cleanMempool.2.mempoolByPriority.size = c.mempoolByPriority.size ∧
      c.cleanMempool.2.db.blocks = c.db.blocks ∧
      c.cleanMempool.2.db.transactions = c.db.transactions ∧
      (∀ a, (c.cleanMempool.2.getBalance a).1 = (c.getBalance a).1) ∧
      c.cleanMempool.2.cleanMempool = (0, c.cleanMempool.2) := by
  refine ⟨fun k tx => ?_, fun p => ?_, size_cleanMempool c, cleanMempool_blocks c, cleanMempool_transactions c,
    getBalance_cleanMempool c, cleanMempool_idempotent c⟩
  · rw [lookup_cleanMempool_iff, invalid_iff, not_and_or, not_not, not_exists]
    simp only [not_and, ne_eq]
  · rw [entries_cleanMempool, List.mem_filter, Bool.not_eq_true', ← Bool.not_eq_true, failing_iff]
    simp only [invalid_iff]

end Blockchain

end NexusLedger
