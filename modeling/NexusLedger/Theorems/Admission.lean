import NexusLedger.Theorems.Pool
import NexusLedger.Theorems.Settlement

/-! What `addTransaction` leaves of the transaction that it accepts. The index takes one entry for each fee and
    second, its limit may evict what just came in, and the tables refuse a hash that they have. -/

namespace NexusLedger

section
set_option linter.unusedSectionVars false
variable [Arithmetic]

/-- `fee_per_byte`. -/
def Transaction.feePerByte (env : Env) (tx : Transaction) : Double :=
  Arithmetic.div tx.fee (.ofInt (tx.toJson env).utf8ByteSize)

namespace LedgerDB
variable {db : LedgerDB} {tx : Transaction}

/-- The row of an unconfirmed transaction is there after the insert if it was there before, or if the table takes
    it. -/
theorem row_mem_addTransaction_iff :
    tx.row none ∈ (db.addTransaction tx (-1)).2.transactions.rows ↔
      tx.row none ∈ db.transactions.rows ∨ ¬db.Unstorable tx := by
  by_cases h : db.Unstorable tx
  · rw [addTransaction_of_unstorable h]
    simp [h]
  · have hneg : (if (0 : Int32) ≤ -1 then some (-1 : Int32) else none) = none := by decide
    rw [addTransaction_of_storable h, hneg]
    simp [h]

theorem mem_addToMempool (db : LedgerDB) (tx : Transaction) (now : Int64) :
    ∃ r ∈ (db.addToMempool tx now).2.mempool.rows, r.txHash = .bind tx.txHash := by
  unfold addToMempool
  split
  · rename_i u hu
    refine ⟨{ txHash := .bind tx.txHash, receivedAt := now }, ?_, rfl⟩
    rw [(Table.insert_eq_some hu).2]
    exact List.mem_append_right _ (List.mem_singleton_self _)
  · rename_i hu
    -- Only a row with the hash keeps a new one out.
    rw [Table.insert_eq_none, ← Bool.not_eq_true, Table.fits_iff] at hu
    simpa [mempoolSchema] using hu

end LedgerDB

namespace Blockchain
variable {env : Env} {c d : Blockchain} {tx : Transaction} {now : Int64}

/-! ### The limit -/

theorem evict_of_le {n : Nat} (h : c.mempoolByPriority.size ≤ maxMempool) : c.evict n = c := by
  cases n with
  | zero => rfl
  | succ n =>
    unfold evict
    exact if_neg (not_lt_of_ge h)

theorem evict_of_full {n : Nat} {lowest : TxPriority} (h : c.mempoolByPriority.size = maxMempool + 1)
    (hlast : c.mempoolByPriority.last? = some lowest) :
    c.evict (n + 1) =
      { c with
        mempool := c.mempool.erase lowest.txHash
        mempoolByPriority := c.mempoolByPriority.eraseLast } := by
  unfold evict
  rw [if_pos (by omega)]
  simp only [hlast]
  refine evict_of_le ?_
  rw [OrderedSet.size_eraseLast, h]
  exact le_refl _

/-- Below the limit both containers keep what was put in; at the limit the last entry goes, with the transaction
    that it names. -/
theorem addTransaction_cases (env : Env) (now : Int64) (h : c.Admits tx)
    (hsize : c.mempoolByPriority.size ≤ maxMempool) :
    ((c.inserted env tx now).mempoolByPriority.size ≤ maxMempool ∧
      (c.addTransaction env tx now).2.mempool = (c.inserted env tx now).mempool ∧
      (c.addTransaction env tx now).2.mempoolByPriority = (c.inserted env tx now).mempoolByPriority) ∨
    ∃ lowest, (c.inserted env tx now).mempoolByPriority.last? = some lowest ∧
      c.mempoolByPriority.size = maxMempool ∧ ¬c.Ties env tx now ∧
      (c.addTransaction env tx now).2.mempool = (c.inserted env tx now).mempool.erase lowest.txHash ∧
      (c.addTransaction env tx now).2.mempoolByPriority = (c.inserted env tx now).mempoolByPriority.eraseLast := by
  obtain ⟨db, -, heq⟩ := addTransaction_eq_enqueue env now h
  let e : Blockchain := ({ c with db } : Blockchain).inserted env tx now
  have hafter : (c.addTransaction env tx now).2.mempool = (e.evict e.mempoolByPriority.size).mempool ∧
      (c.addTransaction env tx now).2.mempoolByPriority = (e.evict e.mempoolByPriority.size).mempoolByPriority := by
    rw [heq]
    exact ⟨rfl, rfl⟩
  by_cases hroom : e.mempoolByPriority.size ≤ maxMempool
  · rw [evict_of_le hroom] at hafter
    exact Or.inl ⟨hroom, hafter⟩
  · have hties : ¬c.Ties env tx now := by
      intro hties
      have hsame : e.mempoolByPriority.size = c.mempoolByPriority.size :=
        congrArg List.length (entries_inserted_of_ties hties)
      omega
    have hgrown : e.mempoolByPriority.size = c.mempoolByPriority.size + 1 :=
      OrderedSet.size_insert _ _ (free_of_not_ties hties)
    obtain ⟨lowest, hlast⟩ := OrderedSet.exists_last (s := e.mempoolByPriority) (by omega)
    rw [hgrown, evict_of_full (by omega) hlast] at hafter
    exact Or.inr ⟨lowest, hlast, by omega, hties, hafter⟩

/-! ### Presence -/

/-- An entry for the transaction, with its fee per byte. -/
def Listed (env : Env) (c : Blockchain) (tx : Transaction) : Prop :=
  ∃ p ∈ c.entries, p.txHash = tx.txHash ∧ p.feePerByte.Same (tx.feePerByte env)

/-- The transaction is in both mempool containers, unconfirmed in the transactions table, and in the mempool
    table. -/
structure Present (env : Env) (c : Blockchain) (tx : Transaction) : Prop where
  pending : c.mempool.lookup tx.txHash = some tx
  listed : c.Listed env tx
  stored : tx.row none ∈ c.db.transactions.rows
  noted : ∃ r ∈ c.db.mempool.rows, r.txHash = .bind tx.txHash

/-- What keeps an admitted transaction. If it ties with an entry, then the index has its own already; if the index
    is full, then the last entry comes after the new one and is not of the same hash; and the transactions table
    has the row already, or takes it. -/
structure Stays (env : Env) (c : Blockchain) (tx : Transaction) (now : Int64) : Prop where
  listed : c.Ties env tx now → c.Listed env tx
  room : ¬c.Ties env tx now → c.mempoolByPriority.size = maxMempool →
    ∃ lowest, c.mempoolByPriority.last? = some lowest ∧
      TxPriority.order.lt (newEntry env tx now) lowest = true ∧ lowest.txHash ≠ tx.txHash
  storable : tx.row none ∈ c.db.transactions.rows ∨ ¬c.db.Unstorable tx

theorem listed_inserted_iff : (c.inserted env tx now).Listed env tx ↔ ¬c.Ties env tx now ∨ c.Listed env tx := by
  by_cases h : c.Ties env tx now
  · simp only [Listed, entries_inserted_of_ties h, h, not_true, false_or]
  · have hnew : newEntry env tx now ∈ (c.inserted env tx now).entries := (mem_entries_inserted h).mpr (Or.inl rfl)
    simp only [h, not_false_eq_true, true_or, iff_true]
    exact ⟨newEntry env tx now, hnew, rfl, rfl⟩

theorem lookup_inserted (env : Env) (c : Blockchain) (tx : Transaction) (now : Int64) :
    (c.inserted env tx now).mempool.lookup tx.txHash = some tx := Finmap.lookup_insert _

/-- Where nothing is evicted, an admitted transaction is pending, and listed unless it ties with the entries of
    others alone. -/
theorem contained_of_room (hmempool : d.mempool = (c.inserted env tx now).mempool)
    (hindex : d.mempoolByPriority = (c.inserted env tx now).mempoolByPriority) :
    (d.mempool.lookup tx.txHash = some tx ∧ d.Listed env tx) ↔ (c.Ties env tx now → c.Listed env tx) := by
  have hlisted : d.Listed env tx ↔ ¬c.Ties env tx now ∨ c.Listed env tx := by
    rw [← listed_inserted_iff, Listed, Listed, Blockchain.entries, hindex]
  rw [hmempool, hlisted, imp_iff_not_or]
  exact and_iff_right (lookup_inserted env c tx now)

/-- Where the last entry is evicted, an admitted transaction stays exactly when that entry is not its own and names
    another hash. -/
theorem contained_of_evicted {old lowest : TxPriority} (hties : ¬c.Ties env tx now)
    (hold : c.mempoolByPriority.last? = some old)
    (hlast : (c.inserted env tx now).mempoolByPriority.last? = some lowest)
    (hmempool : d.mempool = (c.inserted env tx now).mempool.erase lowest.txHash)
    (hindex : d.mempoolByPriority = (c.inserted env tx now).mempoolByPriority.eraseLast) :
    (d.mempool.lookup tx.txHash = some tx ∧ d.Listed env tx) ↔
      TxPriority.order.lt (newEntry env tx now) old = true ∧ old.txHash ≠ tx.txHash := by
  have hwhich : (c.inserted env tx now).mempoolByPriority.last? =
      some (if TxPriority.order.lt (newEntry env tx now) old then old else newEntry env tx now) :=
    OrderedSet.last?_insert hold (free_of_not_ties hties)
  rw [hlast, Option.some.injEq] at hwhich
  have hpending : d.mempool.lookup tx.txHash = some tx ↔ lowest.txHash ≠ tx.txHash := by
    rw [hmempool]
    by_cases heq : lowest.txHash = tx.txHash
    · simp [heq, Finmap.lookup_erase]
    · rw [Finmap.lookup_erase_ne (Ne.symm heq), lookup_inserted]
      simp [heq]
  rw [hpending]
  by_cases hlt : TxPriority.order.lt (newEntry env tx now) old = true
  · rw [if_pos hlt] at hwhich
    subst hwhich
    refine ⟨fun h => ⟨hlt, h.1⟩, fun h => ⟨h.2, newEntry env tx now, ?_, rfl, rfl⟩⟩
    rw [Blockchain.entries, hindex, OrderedSet.mem_eraseLast hlast]
    exact ⟨(mem_entries_inserted hties).mpr (Or.inl rfl), fun heq => h.2 (congrArg TxPriority.txHash heq).symm⟩
  · rw [if_neg hlt] at hwhich
    exact ⟨fun h => absurd (congrArg TxPriority.txHash hwhich) h.1, fun h => absurd h.1 hlt⟩

/-- The two containers hold an admitted transaction afterwards exactly when it is neither tied out nor evicted. -/
theorem contained_iff (env : Env) (now : Int64) (h : c.Admits tx) (hsize : c.mempoolByPriority.size ≤ maxMempool) :
    ((c.addTransaction env tx now).2.mempool.lookup tx.txHash = some tx ∧
        (c.addTransaction env tx now).2.Listed env tx) ↔
      (c.Ties env tx now → c.Listed env tx) ∧
        (¬c.Ties env tx now → c.mempoolByPriority.size = maxMempool →
          ∃ lowest, c.mempoolByPriority.last? = some lowest ∧
            TxPriority.order.lt (newEntry env tx now) lowest = true ∧ lowest.txHash ≠ tx.txHash) := by
  rcases addTransaction_cases env now h hsize with
    ⟨hroom, hmempool, hindex⟩ | ⟨lowest, hlast, hfull, hties, hmempool, hindex⟩
  · have hnever : ¬c.Ties env tx now → c.mempoolByPriority.size ≠ maxMempool := by
      intro hties hfull
      have hgrown : (c.inserted env tx now).mempoolByPriority.size = c.mempoolByPriority.size + 1 :=
        OrderedSet.size_insert _ _ (free_of_not_ties hties)
      omega
    rw [contained_of_room hmempool hindex]
    exact (and_iff_left fun hties hfull => absurd hfull (hnever hties)).symm
  · obtain ⟨old, hold⟩ := OrderedSet.exists_last (s := c.mempoolByPriority) (by rw [hfull]; decide)
    rw [contained_of_evicted hties hold hlast hmempool hindex]
    constructor
    · exact fun hspare => ⟨fun htied => absurd htied hties, fun _ _ => ⟨old, hold, hspare⟩⟩
    · rintro ⟨-, hspare⟩
      obtain ⟨x, hx, hspare⟩ := hspare hties hfull
      rw [hold, Option.some.injEq] at hx
      exact hx ▸ hspare

theorem stored_iff (h : c.Admits tx) : tx.row none ∈ (c.addTransaction env tx now).2.db.transactions.rows ↔
    tx.row none ∈ c.db.transactions.rows ∨ ¬c.db.Unstorable tx := by
  rw [(addTransaction_of_admits env now h).1, LedgerDB.row_mem_addTransaction_iff]

theorem noted_of_admits (h : c.Admits tx) :
    ∃ r ∈ (c.addTransaction env tx now).2.db.mempool.rows, r.txHash = .bind tx.txHash := by
  obtain ⟨db, -, heq⟩ := addTransaction_eq_enqueue env now h
  rw [heq]
  exact LedgerDB.mem_addToMempool _ tx now

/-- In every reachable state, what `addTransaction` accepts is present afterwards exactly when it stays. -/
theorem accepted_present_iff (env : Env) (db : LedgerDB) (ops : List Operation) :
    ∀ c ∈ Transition.states (operate env) (opened db) ops, ∀ (tx : Transaction) (now : Int64),
      ((c.addTransaction env tx now).1 = true → (c.addTransaction env tx now).2.Present env tx) ↔
        (c.Admits tx → c.Stays env tx now) := by
  intro c hc tx now
  have hsize : c.mempoolByPriority.size ≤ maxMempool :=
    Transition.invariant (I := fun d : Blockchain => d.mempoolByPriority.size ≤ maxMempool)
      (fun d op hd => size_operate_le env op hd) (Nat.zero_le _) c hc
  rw [addTransaction_accepts_iff]
  refine forall_congr' fun ha => ⟨fun hpresent => ?_, fun hstays => ?_⟩
  · obtain ⟨hlisted, hroom⟩ := (contained_iff env now ha hsize).mp ⟨hpresent.pending, hpresent.listed⟩
    exact ⟨hlisted, hroom, (stored_iff ha).mp hpresent.stored⟩
  · obtain ⟨hpending, hlisted⟩ := (contained_iff env now ha hsize).mpr ⟨hstays.listed, hstays.room⟩
    exact ⟨hpending, hlisted, (stored_iff ha).mpr hstays.storable, noted_of_admits ha⟩

end Blockchain

end

namespace Blockchain

attribute [local instance] Arithmetic.binary64

theorem accepted_present_iff_samplePayment :
    ((sampleOpened.addTransaction Node.sampleEnv Node.samplePayment 1700000000).1 = true →
        (sampleOpened.addTransaction Node.sampleEnv Node.samplePayment 1700000000).2.Present Node.sampleEnv
          Node.samplePayment) ↔
      (sampleOpened.Admits Node.samplePayment → sampleOpened.Stays Node.sampleEnv Node.samplePayment 1700000000) :=
  accepted_present_iff Node.sampleEnv (.schema 1700000000) [] sampleOpened (List.mem_singleton_self _)
    Node.samplePayment 1700000000

/-- Another payment of the same second, with a text of the same length. -/
def secondPayment : Transaction :=
  { Node.samplePayment with
    txHash := "8850020b137167f73e4e902536e281b47f75574e3ee8130c267afd8f84b9ced5"
    amount := 20 }

theorem second_payment_not_listed :
    ((sampleState 1).addTransaction Node.sampleEnv secondPayment 1700000000).1 = true ∧
      ¬((sampleState 1).addTransaction Node.sampleEnv secondPayment 1700000000).2.Present Node.sampleEnv
        secondPayment := by
  have hentries : ((sampleState 1).addTransaction Node.sampleEnv secondPayment 1700000000).2.entries.map (·.txHash) =
      [Node.sampleTxHash] := by decide +kernel
  refine ⟨by decide +kernel, fun hpresent => ?_⟩
  obtain ⟨p, hp, hhash, -⟩ := hpresent.listed
  have hmem := List.mem_map_of_mem (f := TxPriority.txHash) hp
  rw [hentries, List.mem_singleton, hhash] at hmem
  revert hmem
  decide

end Blockchain

section
variable [Arithmetic]

namespace Blockchain
variable {env : Env} {c d : Blockchain} {tx : Transaction} {now : Int64}

/-! ### Fair eviction -/

/-- Each transaction of the mempool has an entry with its fee per byte, and no entry of its hash has a lower one. -/
structure Priced (env : Env) (c : Blockchain) : Prop where
  listed : c.Pooled fun k tx => ∃ p ∈ c.entries, p.txHash = k ∧ p.feePerByte.Same (tx.feePerByte env)
  lowest : ∀ p ∈ c.entries, ∀ tx, c.mempool.lookup p.txHash = some tx → ¬p.feePerByte < tx.feePerByte env

theorem Priced.shrink (h : c.Shrinks d) (hc : c.Priced env) : d.Priced env where
  listed k tx hk := by
    obtain ⟨p, hp, rfl, hfee⟩ := hc.listed k tx (h.within k tx hk)
    have hkept := (h.gone p hp).resolve_right fun hnot => hnot (Finmap.mem_iff.mpr ⟨tx, hk⟩)
    exact ⟨p, hkept, rfl, hfee⟩
  lowest p hp tx hk := hc.lowest p (h.entries hp) tx (h.within _ tx hk)

/-- The index lists the transaction already if it ties with an entry, and has no entry of its hash with a lower
    fee per byte. -/
structure Outbids (env : Env) (c : Blockchain) (tx : Transaction) (now : Int64) : Prop where
  listed : c.Ties env tx now → c.Listed env tx
  lowest : ∀ p ∈ c.entries, p.txHash = tx.txHash → ¬p.feePerByte < tx.feePerByte env

theorem Priced.inserted (hc : c.Priced env) (htx : c.Outbids env tx now) : (c.inserted env tx now).Priced env where
  listed := by
    refine Pooled.inserted (fun k x hk => ?_) ?_
    · obtain ⟨p, hp, heq, hfee⟩ := hc.listed k x hk
      exact ⟨p, subset_entries_inserted env c tx now hp, heq, hfee⟩
    · have hlisted : (c.inserted env tx now).Listed env tx := by
        rw [listed_inserted_iff]
        by_cases hties : c.Ties env tx now
        · exact Or.inr (htx.listed hties)
        · exact Or.inl hties
      exact hlisted
  lowest p hp x hk := by
    have hold : ∀ q ∈ c.entries, (c.inserted env tx now).mempool.lookup q.txHash = some x →
        ¬q.feePerByte < x.feePerByte env := by
      intro q hq hlookup
      by_cases hkey : q.txHash = tx.txHash
      · rw [hkey, lookup_inserted, Option.some.injEq] at hlookup
        exact hlookup ▸ htx.lowest q hq hkey
      · exact hc.lowest q hq x ((Finmap.lookup_insert_of_ne _ hkey).symm.trans hlookup)
    by_cases hties : c.Ties env tx now
    · rw [entries_inserted_of_ties hties] at hp
      exact hold p hp hk
    · rcases (mem_entries_inserted hties).mp hp with rfl | hp
      · have heq : (c.inserted env tx now).mempool.lookup (newEntry env tx now).txHash = some tx :=
          lookup_inserted env c tx now
        rw [heq, Option.some.injEq] at hk
        exact hk ▸ Double.lt_irrefl _
      · exact hold p hp hk

/-- A call puts a transaction in and evicts one that is then in the mempool. -/
def Evicts (env : Env) (c : Blockchain) (tx : Transaction) (now : Int64) (k : String) (evicted : Transaction) : Prop :=
  c.Admits tx ∧ (c.mempool.insert tx.txHash tx).lookup k = some evicted ∧
    (c.addTransaction env tx now).2.mempool.lookup k = none

/-- Nothing that remains after a call has a lower fee per byte than what the call evicts. -/
theorem evicts_lowest {k : String} {evicted : Transaction} (hsize : c.mempoolByPriority.size ≤ maxMempool)
    (hpriced : (c.inserted env tx now).Priced env) (h : c.Evicts env tx now k evicted) :
    ∀ k' x, (c.addTransaction env tx now).2.mempool.lookup k' = some x →
      ¬x.feePerByte env < evicted.feePerByte env := by
  obtain ⟨ha, hbefore, hgone⟩ := h
  have hafter := hpriced.shrink (addTransaction_shrinks env now ha)
  rcases addTransaction_cases env now ha hsize with
    ⟨-, hmempool, -⟩ | ⟨lowest, hlast, -, -, hmempool, hindex⟩
  · rw [hmempool] at hgone
    exact absurd (hgone.symm.trans hbefore) (by simp)
  · have hk : k = lowest.txHash := by
      by_contra hne
      rw [hmempool, Finmap.lookup_erase_ne hne] at hgone
      exact absurd (hgone.symm.trans hbefore) (by simp)
    rintro k' x hx ⟨a, ha, e, he, hlt⟩
    obtain ⟨p, hp, -, hfee⟩ := hafter.listed k' x hx
    rw [Blockchain.entries, hindex, OrderedSet.mem_eraseLast hlast] at hp
    -- The entry of what remains comes before the last one, so its fee is no lower.
    obtain ⟨y, hy, z, hz, hbefore'⟩ := TxPriority.lt_iff.mp (OrderedSet.lt_last hlast hp.1 hp.2)
    obtain rfl := Option.some_inj.mp (hy.symm.trans (hfee.trans ha))
    have hlow : z ≤ y := hbefore'.elim le_of_lt fun h => le_of_eq h.1.symm
    exact hpriced.lowest lowest (OrderedSet.mem_of_last hlast) evicted (hk ▸ hbefore)
      ⟨z, hz, e, he, lt_of_le_of_lt hlow hlt⟩

/-- A call of `addTransaction`. -/
def submit (env : Env) (c : Blockchain) (call : Transaction × Int64) : Blockchain :=
  (c.addTransaction env call.1 call.2).2

theorem size_submit_le (env : Env) (c : Blockchain) (call : Transaction × Int64)
    (h : c.mempoolByPriority.size ≤ maxMempool) : (submit env c call).mempoolByPriority.size ≤ maxMempool :=
  size_addTransaction_le env call.1 call.2 h

/-- In a run of `addTransaction` whose accepted transactions all meet the condition the mempool keeps to its
    limit, and nothing that remains pays less for a byte than what it evicts. -/
theorem mempool_limit_fair (env : Env) (db : LedgerDB) (calls : List (Transaction × Int64))
    (h : ∀ x ∈ Transition.steps (submit env) (opened db) calls, x.1.Admits x.2.1 → x.1.Outbids env x.2.1 x.2.2) :
    (∀ c ∈ Transition.states (submit env) (opened db) calls, c.getMempoolSize ≤ 10000) ∧
      ∀ x ∈ Transition.steps (submit env) (opened db) calls, ∀ k evicted, Evicts env x.1 x.2.1 x.2.2 k evicted →
        ∀ k' tx, (submit env x.1 x.2).mempool.lookup k' = some tx → ¬tx.feePerByte env < evicted.feePerByte env := by
  have hsize : ∀ c ∈ Transition.states (submit env) (opened db) calls, c.mempoolByPriority.size ≤ maxMempool :=
    Transition.invariant (size_submit_le env) (Nat.zero_le _)
  have hopened : (opened db).Priced env := by
    refine ⟨pooled_opened _ db, fun p hp => ?_⟩
    cases hp
  have hpriced : ∀ c ∈ Transition.states (submit env) (opened db) calls, c.Priced env :=
    Transition.invariant_of_steps
      (fun d call hcall hd => addTransaction_keeps (C := Outbids env) (fun _ _ hshrinks => Priced.shrink hshrinks)
        (fun _ _ _ htx hd => hd.inserted htx) hcall hd) hopened h
  refine ⟨fun c hc => ?_, fun x hx k evicted hevicts k' tx htx => ?_⟩
  · refine le_trans (card_le fun k hk => ?_) (hsize c hc)
    obtain ⟨tx, htx⟩ := Finmap.mem_iff.mp hk
    obtain ⟨p, hp, heq, -⟩ := (hpriced c hc).listed k tx htx
    exact ⟨p, hp, heq⟩
  · have hx₁ := Transition.fst_mem_states (submit env) x hx
    have hinserted := (hpriced x.1 hx₁).inserted (h x hx hevicts.1)
    exact evicts_lowest (hsize x.1 hx₁) hinserted hevicts k' tx htx

theorem viewBalance_addTransaction_of_pending {a : CString} (h : cText tx.status ≠ "confirmed") (ha : c.Admits tx) :
    (c.addTransaction env tx now).2.db.viewBalance a = c.db.viewBalance a := by
  rw [LedgerDB.viewBalance_congr (addTransaction_of_admits env now ha).1]
  rcases LedgerDB.addTransaction_rows c.db tx (-1) with hrows | hrows
  · exact LedgerDB.viewBalance_of_confirmed (by rw [hrows]) a
  · have hconf : ∀ blockHeight, (tx.row blockHeight).confirmed = false := fun _ => beq_eq_false_iff_ne.mpr h
    refine LedgerDB.viewBalance_of_confirmed ?_ a
    rw [hrows, List.filter_append, List.filter_cons_of_neg (by simp [hconf]), List.filter_nil, List.append_nil]

end Blockchain

end

namespace Blockchain

attribute [local instance] Arithmetic.binary64

variable {c : Blockchain}

/-- Two payments, one second apart. -/
def sampleCallsApart : List (Transaction × Int64) :=
  [(Node.samplePayment, 1700000000), (secondPayment, 1700000001)]

theorem mempool_limit_fair_sampleCallsApart :
    (sampleCallsApart.foldl (submit Node.sampleEnv) sampleOpened).getMempoolSize ≤ 10000 := by
  refine (mempool_limit_fair Node.sampleEnv (.schema 1700000000) sampleCallsApart ?_).1 _
    (Transition.foldl_mem_states _ _ _)
  have hentries : (submit Node.sampleEnv (opened (.schema 1700000000)) (Node.samplePayment, 1700000000)).entries =
      [newEntry Node.sampleEnv Node.samplePayment 1700000000] := by decide +kernel
  simp only [sampleCallsApart, Transition.steps_cons, Transition.steps_nil, List.forall_mem_cons]
  refine ⟨fun _ => ⟨?_, fun p hp => ?_⟩, fun _ => ⟨?_, fun p hp heq => ?_⟩, fun x hx => absurd hx List.not_mem_nil⟩
  · rintro ⟨p, hp, -⟩
    cases hp
  · cases hp
  · rintro ⟨p, hp, hequiv⟩
    rw [hentries, List.mem_singleton] at hp
    subst hp
    exact absurd hequiv (by decide +kernel)
  · rw [show _ = _ from hentries, List.mem_singleton] at hp
    subst hp
    exact absurd heq (by decide)

/-! ### Ties without end -/

/-- A hash for each number. -/
def freeHash (k : Nat) : String := String.ofList (List.replicate k 'f')

theorem freeHash_injective : Function.Injective freeHash := by
  intro j k h
  have hlength := congrArg (fun s : String => s.toList.length) h
  simpa [freeHash] using hlength

/-- Payments of 1 without a fee, told apart by their hashes. -/
def freePayment (k : Nat) : Transaction := { Node.samplePayment with txHash := freeHash k, amount := 1, fee := 0 }

/-- The first `n` of them, all in one second. -/
def freeCalls (n : Nat) : List (Transaction × Int64) := (List.range n).map fun k => (freePayment k, 1700000000)

/-- All of them are pending behind one entry. -/
structure Flooded (n : Nat) (c : Blockchain) : Prop where
  keys : ∀ k, k ∈ c.mempool ↔ ∃ j < n, freeHash j = k
  single : c.mempoolByPriority.size ≤ 1
  tied : c.mempoolByPriority.size = 0 ∨
    ∃ p ∈ c.entries, p.feePerByte = (freePayment 0).feePerByte Node.sampleEnv ∧ p.timestamp = 1700000000
  balance : c.db.viewBalance (.bind "genesis_miner") = 10000

namespace Flooded
variable {n : Nat}

theorem admits (h : c.Flooded n) (k : Nat) : c.Admits (freePayment k) := by
  have hcheck : ¬(1 : Double) ≤ 0 ∧ ¬(0 : Double) < 0 ∧ ¬(10000 : Double) < Arithmetic.add 1 0 := by decide +kernel
  refine ⟨hcheck.1, hcheck.2.1, Or.inr ?_⟩
  show ¬c.db.viewBalance (.bind "genesis_miner") < Arithmetic.add 1 0
  rw [h.balance]
  exact hcheck.2.2

/-- The first payment makes the entry, and all later ones tie with it. -/
theorem ties_iff (h : c.Flooded n) (k : Nat) :
    c.Ties Node.sampleEnv (freePayment k) 1700000000 ↔ c.mempoolByPriority.size ≠ 0 := by
  constructor
  · rintro ⟨p, hp, -⟩ hzero
    rw [Blockchain.entries, List.length_eq_zero_iff.mp hzero] at hp
    cases hp
  · intro hne
    obtain ⟨p, hp, hfee, htime⟩ := h.tied.resolve_left hne
    have hself : ((freePayment 0).feePerByte Node.sampleEnv).Equals ((freePayment 0).feePerByte Node.sampleEnv) := by
      decide +kernel
    refine ⟨p, hp, equiv_iff.mpr (Or.inl ⟨?_, htime.symm⟩)⟩
    rw [hfee]
    exact hself

theorem single_inserted (h : c.Flooded n) (k : Nat) :
    (c.inserted Node.sampleEnv (freePayment k) 1700000000).mempoolByPriority.size ≤ 1 := by
  by_cases hties : c.Ties Node.sampleEnv (freePayment k) 1700000000
  · exact le_of_eq_of_le (congrArg List.length (entries_inserted_of_ties hties)) h.single
  · have hzero : c.mempoolByPriority.size = 0 := not_not.mp (mt (h.ties_iff k).mpr hties)
    have hgrown : (c.inserted Node.sampleEnv (freePayment k) 1700000000).mempoolByPriority.size =
        c.mempoolByPriority.size + 1 := OrderedSet.size_insert _ _ (free_of_not_ties hties)
    rw [hgrown, hzero]

theorem tied_inserted (h : c.Flooded n) (k : Nat) :
    ∃ p ∈ (c.inserted Node.sampleEnv (freePayment k) 1700000000).entries,
      p.feePerByte = (freePayment 0).feePerByte Node.sampleEnv ∧ p.timestamp = 1700000000 := by
  by_cases hties : c.Ties Node.sampleEnv (freePayment k) 1700000000
  · obtain ⟨p, hp, hfee, htime⟩ := h.tied.resolve_left ((h.ties_iff k).mp hties)
    exact ⟨p, subset_entries_inserted Node.sampleEnv c _ _ hp, hfee, htime⟩
  · exact ⟨_, (mem_entries_inserted hties).mpr (Or.inl rfl), rfl, rfl⟩

theorem mem_inserted_iff (h : c.Flooded n) (k : String) :
    k ∈ (c.inserted Node.sampleEnv (freePayment n) 1700000000).mempool ↔ ∃ j < n + 1, freeHash j = k := by
  show k ∈ c.mempool.insert (freePayment n).txHash (freePayment n) ↔ _
  rw [Finmap.mem_insert, h.keys]
  constructor
  · rintro (rfl | ⟨j, hj, heq⟩)
    · exact ⟨n, Nat.lt_succ_self n, rfl⟩
    · exact ⟨j, Nat.lt_succ_of_lt hj, heq⟩
  · rintro ⟨j, hj, heq⟩
    rcases Nat.lt_succ_iff_lt_or_eq.mp hj with hj | rfl
    · exact Or.inr ⟨j, hj, heq⟩
    · exact Or.inl heq.symm

/-- One more call, one more pending transaction: the index never fills up, so nothing is evicted. -/
theorem submit (h : c.Flooded n) :
    (Blockchain.submit Node.sampleEnv c (freePayment n, 1700000000)).Flooded (n + 1) := by
  have ha : c.Admits (freePayment n) := h.admits n
  have hpending : cText (freePayment n).status ≠ "confirmed" := by
    rw [show (freePayment n).status = "pending" from rfl, cText_pending]
    decide
  have hbalance :
      (c.addTransaction Node.sampleEnv (freePayment n) 1700000000).2.db.viewBalance (.bind "genesis_miner") = 10000 :=
    (viewBalance_addTransaction_of_pending hpending ha).trans h.balance
  rcases addTransaction_cases Node.sampleEnv 1700000000 ha (le_trans h.single (by decide)) with
    ⟨-, hmempool, hindex⟩ | ⟨lowest, -, hfull, -⟩
  · refine ⟨fun k => ?_, ?_, Or.inr ?_, hbalance⟩
    · rw [Blockchain.submit, hmempool]
      exact h.mem_inserted_iff k
    · rw [Blockchain.submit, hindex]
      exact h.single_inserted n
    · rw [Blockchain.submit, Blockchain.entries, hindex]
      exact h.tied_inserted n
  · have hsingle := h.single
    rw [hfull] at hsingle
    exact absurd hsingle (by decide)

/-- As many transactions are pending as there were calls. -/
theorem size (h : c.Flooded n) : c.getMempoolSize = n := by
  have hkeys : c.mempool.keys = (Finset.range n).image freeHash := by
    ext k
    rw [Finmap.mem_keys, h.keys, Finset.mem_image]
    simp
  rw [getMempoolSize, hkeys, Finset.card_image_of_injective _ freeHash_injective, Finset.card_range]

end Flooded

theorem flooded_freeCalls (n : Nat) : ((freeCalls n).foldl (submit Node.sampleEnv) sampleOpened).Flooded n := by
  induction n with
  | zero =>
    refine ⟨fun k => ?_, Nat.zero_le _, Or.inl rfl, ?_⟩
    · refine ⟨fun hk => absurd hk Finmap.notMem_empty, ?_⟩
      rintro ⟨j, hj, -⟩
      exact absurd hj (Nat.not_lt_zero j)
    · show (LedgerDB.schema 1700000000).viewBalance (.bind "genesis_miner") = 10000
      decide +kernel
  | succ n ih =>
    have hsnoc : freeCalls (n + 1) = freeCalls n ++ [(freePayment n, 1700000000)] := by
      simp [freeCalls, List.range_succ]
    rw [hsnoc, List.foldl_append]
    exact ih.submit

/-- Ten thousand and one calls in one second leave as many transactions pending. -/
theorem mempool_limit_passed :
    ¬∀ c ∈ Transition.states (submit Node.sampleEnv) sampleOpened (freeCalls 10001), c.getMempoolSize ≤ 10000 := by
  intro h
  have hlast := h _ (Transition.foldl_mem_states (submit Node.sampleEnv) sampleOpened (freeCalls 10001))
  rw [(flooded_freeCalls 10001).size] at hlast
  exact absurd hlast (by decide)

end Blockchain

end NexusLedger
