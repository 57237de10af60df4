import NexusLedger.Theorems.Operations

/-! The mempool and its priority index are two containers for one set. Every operation changes both, each in
    its own way: when they stay in step, and when they come apart. -/

namespace NexusLedger

section
set_option linter.unusedSectionVars false
variable [Arithmetic]

namespace Blockchain
variable {env : Env} {c d : Blockchain} {now : Int64} {tx : Transaction}

abbrev entries (c : Blockchain) : List TxPriority := c.mempoolByPriority.elems

/-- The map and the index hold the same transactions: each key has exactly one entry with its hash, and the
    hash of each entry is a key. -/
structure Indexed (c : Blockchain) : Prop where
  key : ∀ p ∈ c.entries, p.txHash ∈ c.mempool
  entry : ∀ k ∈ c.mempool, ∃ p ∈ c.entries, p.txHash = k
  unique : ∀ p ∈ c.entries, ∀ q ∈ c.entries, p.txHash = q.txHash → p = q

theorem indexed_opened (db : LedgerDB) : (opened db).Indexed where
  key p hp := by cases hp
  entry k hk := absurd hk Finmap.notMem_empty
  unique p hp := by cases hp

theorem Indexed.congr (h : c.Indexed) (hkeys : ∀ k, k ∈ d.mempool ↔ k ∈ c.mempool) (hentries : d.entries = c.entries) :
    d.Indexed where
  key p hp := (hkeys _).mpr (h.key p (hentries ▸ hp))
  entry k hk := hentries ▸ h.entry k ((hkeys k).mp hk)
  unique := hentries ▸ h.unique

/-- One entry leaves together with the transaction it names. -/
theorem Indexed.drop (h : c.Indexed) {p : TxPriority} (hp : p ∈ c.entries)
    (hmempool : d.mempool = c.mempool.erase p.txHash) (hentries : ∀ q, q ∈ d.entries ↔ q ∈ c.entries ∧ q ≠ p) :
    d.Indexed where
  key q hq := by
    obtain ⟨hold, hne⟩ := (hentries q).mp hq
    rw [hmempool, Finmap.mem_erase]
    exact ⟨fun heq => hne (h.unique q hold p hp heq), h.key q hold⟩
  entry k hk := by
    rw [hmempool, Finmap.mem_erase] at hk
    obtain ⟨q, hq, rfl⟩ := h.entry k hk.2
    exact ⟨q, (hentries q).mpr ⟨hq, fun heq => hk.1 (congrArg TxPriority.txHash heq)⟩, rfl⟩
  unique q hq r hr := h.unique q ((hentries q).mp hq).1 r ((hentries r).mp hr).1

/-- Where each key has an entry, the limit on the index is one on the map. -/
theorem card_le (h : ∀ k ∈ c.mempool, ∃ p ∈ c.entries, p.txHash = k) :
    c.mempool.keys.card ≤ c.mempoolByPriority.size := by
  have hsub : c.mempool.keys ⊆ (c.entries.map (·.txHash)).toFinset := by
    intro k hk
    obtain ⟨p, hp, rfl⟩ := h k (Finmap.mem_keys.mp hk)
    exact List.mem_toFinset.mpr (List.mem_map_of_mem hp)
  calc c.mempool.keys.card ≤ (c.entries.map (·.txHash)).toFinset.card := Finset.card_le_card hsub
    _ ≤ (c.entries.map (·.txHash)).length := List.toFinset_card_le _
    _ = c.mempoolByPriority.size := List.length_map _

/-! ### Eviction and cleaning -/

theorem Indexed.evict (n : Nat) (h : c.Indexed) : (c.evict n).Indexed := by
  refine evict_keeps (fun d lowest hlast hd => ?_) n h
  exact hd.drop (List.mem_of_getLast? hlast) rfl fun q => OrderedSet.mem_eraseLast hlast

theorem size_evict_le (n : Nat) (c : Blockchain) (h : c.mempoolByPriority.size ≤ maxMempool + n) :
    (c.evict n).mempoolByPriority.size ≤ maxMempool := by
  induction n generalizing c with
  | zero => exact h
  | succ n ih =>
    unfold evict
    split
    · split
      · refine ih _ ?_
        rw [OrderedSet.size_eraseLast]
        omega
      · rename_i hlong hlast
        have hnil : c.entries = [] := List.getLast?_eq_none_iff.mp hlast
        have : c.mempoolByPriority.size = 0 := congrArg List.length hnil
        omega
    · omega

/-- What the loss of one entry, and of the transaction it names, keeps, the loss of several entries keeps. -/
theorem removeAll_keeps {I : Blockchain → Prop}
    (drop : ∀ (d : Blockchain) (p : TxPriority), p ∈ d.entries → I d →
      I { d with mempool := d.mempool.erase p.txHash, mempoolByPriority := d.mempoolByPriority.erase p })
    {l : List TxPriority} (hsub : ∀ p ∈ l, p ∈ c.entries) (hl : l.Nodup) (h : I c) : I (c.removeAll l) := by
  unfold removeAll
  induction l generalizing c with
  | nil => exact h
  | cons p l ih =>
    rw [List.forall_mem_cons] at hsub
    obtain ⟨hp, hl⟩ := List.nodup_cons.mp hl
    rw [List.foldl_cons]
    refine ih (fun q hq => ?_) hl (drop c p hsub.1 h)
    exact (OrderedSet.mem_erase hsub.1).mpr ⟨hsub.2 q hq, fun heq => hp (heq ▸ hq)⟩

/-- What is cleaned out is removed from both containers, one entry after the other. -/
theorem Indexed.removeAll {l : List TxPriority} (h : c.Indexed) (hsub : ∀ p ∈ l, p ∈ c.entries) (hl : l.Nodup) :
    (c.removeAll l).Indexed :=
  removeAll_keeps (fun _ _ hp hd => hd.drop hp rfl fun _ => OrderedSet.mem_erase hp) hsub hl h

theorem size_removeAll_le (l : List TxPriority) (c : Blockchain) :
    (c.removeAll l).mempoolByPriority.size ≤ c.mempoolByPriority.size := by
  unfold removeAll
  induction l generalizing c with
  | nil => exact le_refl _
  | cons p l ih => exact le_trans (ih _) (List.length_filter_le _ _)

theorem findInvalid_sublist (mempool : Finmap fun _ : String => Transaction) :
    ∀ (l : List TxPriority) (db : LedgerDB), (findInvalid mempool l db).1.Sublist l
  | [], _ => List.Sublist.refl _
  | p :: l, db => by
    unfold findInvalid
    split
    · exact (findInvalid_sublist mempool l db).cons p
    · split
      · exact (findInvalid_sublist mempool l db).cons p
      · simp only
        split
        · exact (findInvalid_sublist mempool l _).cons_cons p
        · exact (findInvalid_sublist mempool l _).cons p

theorem Indexed.cleanMempool (h : c.Indexed) : c.cleanMempool.2.Indexed := by
  have hsub := findInvalid_sublist c.mempool c.entries c.db
  have hbefore : ({ c with db := (findInvalid c.mempool c.entries c.db).2 } : Blockchain).Indexed :=
    h.congr (fun _ => Iff.rfl) rfl
  exact hbefore.removeAll (fun p hp => hsub.subset hp) (c.mempoolByPriority.nodup.sublist hsub)

theorem size_cleanMempool_le (c : Blockchain) :
    c.cleanMempool.2.mempoolByPriority.size ≤ c.mempoolByPriority.size := size_removeAll_le _ _

/-! ### Admission -/

/-- The entry that `addTransaction` makes. -/
def newEntry (env : Env) (tx : Transaction) (now : Int64) : TxPriority where
  feePerByte := Arithmetic.div tx.fee (.ofInt (tx.toJson env).utf8ByteSize)
  txHash := tx.txHash
  timestamp := now

/-- `operator<` does not tell an entry apart from the new one: both have the same fee per byte, as it was computed, and
    the same timestamp, or the fee per byte of one of them is NaN. -/
def Ties (env : Env) (c : Blockchain) (tx : Transaction) (now : Int64) : Prop :=
  ∃ p ∈ c.entries, TxPriority.order.equiv (newEntry env tx now) p = true

theorem equiv_iff {a b : TxPriority} : TxPriority.order.equiv a b = true ↔
    (a.feePerByte.Equals b.feePerByte ∧ a.timestamp = b.timestamp) ∨ a.feePerByte.isNaN = true ∨
      b.feePerByte.isNaN = true := by
  have hlt : ∀ a b : TxPriority, TxPriority.order.lt a b = a.lt b := fun _ _ => rfl
  simp only [StrictOrder.equiv, hlt, Bool.and_eq_true, Bool.not_eq_true', ← Bool.not_eq_true, TxPriority.lt_iff,
    Double.equals_iff, ← Double.place_eq_none_iff, ← Int64.toInt_inj]
  cases a.feePerByte.place with
  | none => simp
  | some x =>
    cases b.feePerByte.place with
    | none => simp
    | some y =>
      simp only [Option.some.injEq, exists_eq_left', reduceCtorEq, or_false]
      constructor
      · rintro ⟨hab, hba⟩
        rw [not_or, not_lt] at hab hba
        have hxy : x = y := le_antisymm hab.1 hba.1
        subst hxy
        exact ⟨rfl, le_antisymm (not_lt.mp fun h => hba.2 ⟨rfl, h⟩) (not_lt.mp fun h => hab.2 ⟨rfl, h⟩)⟩
      · rintro ⟨rfl, htime⟩
        simp [htime]

theorem Indexed.enqueue (h : c.Indexed) (hcond : tx.txHash ∈ c.mempool ↔ c.Ties env tx now) :
    (c.enqueue env tx now).Indexed := by
  have hinserted : ({ c with
      mempool := c.mempool.insert tx.txHash tx
      mempoolByPriority := c.mempoolByPriority.insert (newEntry env tx now) } : Blockchain).Indexed := by
    by_cases hknown : tx.txHash ∈ c.mempool
    · -- The transaction is overwritten, and the index stays as it is.
      refine h.congr (fun k => ?_) ?_
      · rw [Finmap.mem_insert]
        exact ⟨fun hk => hk.elim (fun heq => heq ▸ hknown) id, Or.inr⟩
      · exact congrArg OrderedSet.elems (OrderedSet.insert_of_equiv (hcond.mp hknown))
    · have hfree : ∀ p ∈ c.entries, TxPriority.order.equiv (newEntry env tx now) p = false := by
        intro p hp
        by_contra hequiv
        exact hknown (hcond.mpr ⟨p, hp, by simpa using hequiv⟩)
      have hmem : ∀ p, p ∈ (c.mempoolByPriority.insert (newEntry env tx now)).elems ↔
          p = newEntry env tx now ∨ p ∈ c.entries := fun p => by
        rw [(OrderedSet.insert_perm hfree).mem_iff, List.mem_cons]
      have hother : ∀ p ∈ c.entries, p.txHash ≠ tx.txHash := fun p hp heq => hknown (heq ▸ h.key p hp)
      constructor
      · intro p hp
        rw [Finmap.mem_insert]
        rcases (hmem p).mp hp with rfl | hp
        · exact Or.inl rfl
        · exact Or.inr (h.key p hp)
      · intro k hk
        rcases Finmap.mem_insert.mp hk with rfl | hk
        · exact ⟨newEntry env tx now, (hmem _).mpr (Or.inl rfl), rfl⟩
        · obtain ⟨p, hp, heq⟩ := h.entry k hk
          exact ⟨p, (hmem p).mpr (Or.inr hp), heq⟩
      · intro p hp q hq heq
        rcases (hmem p).mp hp with rfl | hp <;> rcases (hmem q).mp hq with rfl | hq
        · rfl
        · exact absurd heq.symm (hother q hq)
        · exact absurd heq (hother p hp)
        · exact h.unique p hp q hq heq
  exact (hinserted.evict _).congr (fun _ => Iff.rfl) rfl

theorem size_enqueue_le (env : Env) (c : Blockchain) (tx : Transaction) (now : Int64) :
    (c.enqueue env tx now).mempoolByPriority.size ≤ maxMempool := size_evict_le _ _ (Nat.le_add_left _ _)

theorem Indexed.addTransaction (h : c.Indexed)
    (hcond : c.Admits tx → (tx.txHash ∈ c.mempool ↔ c.Ties env tx now)) : (c.addTransaction env tx now).2.Indexed := by
  by_cases ha : c.Admits tx
  · obtain ⟨db, -, heq⟩ := addTransaction_eq_enqueue env now ha
    rw [heq]
    have hbefore : ({ c with db } : Blockchain).Indexed := h.congr (fun _ => Iff.rfl) rfl
    exact hbefore.enqueue (hcond ha)
  · obtain ⟨db, -, heq⟩ := addTransaction_eq_of_not_admits env now ha
    rw [heq]
    exact h.congr (fun _ => Iff.rfl) rfl

theorem size_addTransaction_le (env : Env) (tx : Transaction) (now : Int64)
    (h : c.mempoolByPriority.size ≤ maxMempool) :
    (c.addTransaction env tx now).2.mempoolByPriority.size ≤ maxMempool := by
  by_cases ha : c.Admits tx
  · obtain ⟨db, -, heq⟩ := addTransaction_eq_enqueue env now ha
    rw [heq]
    exact size_enqueue_le env _ tx now
  · obtain ⟨db, -, heq⟩ := addTransaction_eq_of_not_admits env now ha
    rw [heq]
    exact h

/-! ### Blocks -/

theorem mem_drained {k : String} {txs : List Transaction} {m : Finmap fun _ : String => Transaction} :
    k ∈ drained m txs ↔ k ∈ m ∧ ∀ tx ∈ txs, tx.fromAddress ≠ "SYSTEM" → k ≠ tx.txHash := by
  induction txs generalizing m with
  | nil => simp [drained]
  | cons x txs ih =>
    rw [drained_cons, ih, List.forall_mem_cons]
    split <;> simp_all [Finmap.mem_erase, and_assoc, and_left_comm]

theorem Indexed.addBlock {b : Block} (h : c.Indexed)
    (hcond : c.Appends b → ∀ tx ∈ b.transactions, tx.fromAddress ≠ "SYSTEM" → tx.txHash ∉ c.mempool) :
    (c.addBlock b).2.Indexed := by
  by_cases ha : c.Appends b
  · obtain ⟨blocks, -, heq⟩ := addBlock_eq_of_appends ha
    rw [heq]
    refine Indexed.cleanMempool (h.congr (fun k => ?_) rfl)
    rw [mem_drained]
    exact ⟨fun hk => hk.1, fun hk => ⟨hk, fun tx htx hfrom heq => hcond ha tx htx hfrom (heq ▸ hk)⟩⟩
  · rw [addBlock_of_not_appends ha]
    exact h

theorem size_addBlock_le (c : Blockchain) (b : Block) :
    (c.addBlock b).2.mempoolByPriority.size ≤ c.mempoolByPriority.size := by
  by_cases ha : c.Appends b
  · obtain ⟨blocks, -, heq⟩ := addBlock_eq_of_appends ha
    rw [heq]
    exact size_cleanMempool_le _
  · rw [addBlock_of_not_appends ha]

theorem Indexed.createBlock (h : c.Indexed) (env : Env) (miner : String) (now : Int64) :
    (c.createBlock env miner now).2.Indexed := by
  unfold Blockchain.createBlock
  simp only
  split
  · exact (indexed_opened _).congr (fun _ => Iff.rfl) rfl
  · exact h.congr (fun _ => Iff.rfl) rfl

theorem size_createBlock_le (env : Env) (c : Blockchain) (miner : String) (now : Int64) :
    (c.createBlock env miner now).2.mempoolByPriority.size ≤ c.mempoolByPriority.size := by
  unfold createBlock
  simp only
  split
  · exact Nat.zero_le _
  · exact le_refl _

/-- At each turn of the loop that gives transactions back, the admitted one meets the condition. -/
def GivesBackInStep (env : Env) (c : Blockchain) (txs : List Transaction) (now : Int64) : Prop :=
  ∀ x ∈ Transition.steps (giveBack env now) c txs,
    Returned x.2 → x.1.Admits x.2 → (x.2.txHash ∈ x.1.mempool ↔ x.1.Ties env x.2 now)

theorem Indexed.restore {txs : List Transaction} (h : c.Indexed) (hcond : GivesBackInStep env c txs now) :
    (c.restore env txs now).Indexed :=
  restore_of_steps (fun _ _ _ hturn hd => hd.addTransaction hturn) h hcond

theorem size_restore_le (env : Env) (txs : List Transaction) (now : Int64)
    (h : c.mempoolByPriority.size ≤ maxMempool) :
    (c.restore env txs now).mempoolByPriority.size ≤ maxMempool :=
  restore_keeps env now (I := fun d => d.mempoolByPriority.size ≤ maxMempool)
    (fun tx _ _ _ hd => size_addTransaction_le env tx now hd) h

theorem Indexed.replaceLastBlock {b : Block} (h : c.Indexed)
    (hcond : c.Competes b → c.FreshBelow b →
      GivesBackInStep env { c with db := c.replaced b } (c.db.getTransactionsByBlock env c.getHeight) now) :
    (c.replaceLastBlock env b now).2.Indexed := by
  by_cases hc : c.Competes b
  · by_cases hf : c.FreshBelow b
    · rw [(replaceLastBlock_eq_of_fresh env now hc hf).2.2]
      have hbefore : ({ c with db := c.replaced b } : Blockchain).Indexed := h.congr (fun _ => Iff.rfl) rfl
      exact (hbefore.restore (hcond hc hf)).cleanMempool
    · rw [replaceLastBlock_of_not_fresh hc hf]
      exact h.congr (fun _ => Iff.rfl) rfl
  · rw [replaceLastBlock_of_not_competes hc]
    exact h

theorem size_replaceLastBlock_le (env : Env) (b : Block) (now : Int64) (h : c.mempoolByPriority.size ≤ maxMempool) :
    (c.replaceLastBlock env b now).2.mempoolByPriority.size ≤ maxMempool := by
  by_cases hc : c.Competes b
  · by_cases hf : c.FreshBelow b
    · rw [(replaceLastBlock_eq_of_fresh env now hc hf).2.2]
      exact le_trans (size_cleanMempool_le _) (size_restore_le env _ now h)
    · rw [replaceLastBlock_of_not_fresh hc hf]
      exact h
  · rw [replaceLastBlock_of_not_competes hc]
    exact h

/-! ### Runs -/

/-- When an operation changes the map and the index alike. -/
def InStep (env : Env) (c : Blockchain) : Operation → Prop
  | .addTransaction tx now => c.Admits tx → (tx.txHash ∈ c.mempool ↔ c.Ties env tx now)
  | .createBlock _ _ => True
  | .cleanMempool => True
  | .removeFromMempool txHash => txHash ∉ c.mempool
  | .call (.addBlock b) =>
    c.Appends b → ∀ tx ∈ b.transactions, tx.fromAddress ≠ "SYSTEM" → tx.txHash ∉ c.mempool
  | .call (.replaceLastBlock b now) => c.Competes b → c.FreshBelow b →
    GivesBackInStep env { c with db := c.replaced b } (c.db.getTransactionsByBlock env c.getHeight) now

theorem keys_removeFromMempool {txHash : String} (h : txHash ∉ c.mempool) (k : String) :
    k ∈ (c.removeFromMempool txHash).mempool ↔ k ∈ c.mempool := by
  show k ∈ c.mempool.erase txHash ↔ k ∈ c.mempool
  rw [Finmap.mem_erase]
  exact ⟨fun hk => hk.2, fun hk => ⟨fun heq => h (heq ▸ hk), hk⟩⟩

theorem Indexed.operate {op : Operation} (h : c.Indexed) (hop : c.InStep env op) : (operate env c op).Indexed := by
  cases op with
  | addTransaction tx now => exact h.addTransaction hop
  | createBlock miner now => exact h.createBlock env miner now
  | cleanMempool => exact h.cleanMempool
  | removeFromMempool txHash => exact h.congr (keys_removeFromMempool hop) rfl
  | call k =>
    cases k with
    | addBlock b => exact h.addBlock hop
    | replaceLastBlock b now => exact h.replaceLastBlock hop

theorem size_operate_le (env : Env) (op : Operation) (h : c.mempoolByPriority.size ≤ maxMempool) :
    (operate env c op).mempoolByPriority.size ≤ maxMempool := by
  cases op with
  | addTransaction tx now => exact size_addTransaction_le env tx now h
  | createBlock miner now => exact le_trans (size_createBlock_le env c miner now) h
  | cleanMempool => exact le_trans (size_cleanMempool_le c) h
  | removeFromMempool txHash => exact h
  | call k =>
    cases k with
    | addBlock b => exact le_trans (size_addBlock_le c b) h
    | replaceLastBlock b now => exact size_replaceLastBlock_le env b now h

/-- In a run whose operations all change the two containers alike, the index describes the mempool in every
    state, so its limit is one on the mempool. -/
theorem mempool_indexed (env : Env) (db : LedgerDB) (ops : List Operation)
    (h : ∀ x ∈ Transition.steps (operate env) (opened db) ops, x.1.InStep env x.2) :
    ∀ c ∈ Transition.states (operate env) (opened db) ops, c.Indexed ∧ c.getMempoolSize ≤ 10000 := by
  intro c hc
  have hindexed : c.Indexed :=
    Transition.invariant_of_steps (I := Indexed) (fun d op hop hd => hd.operate hop) (indexed_opened db) h c hc
  have hsize : c.mempoolByPriority.size ≤ maxMempool :=
    Transition.invariant (I := fun d : Blockchain => d.mempoolByPriority.size ≤ maxMempool)
      (fun d op hd => size_operate_le env op hd) (Nat.zero_le _) c hc
  exact ⟨hindexed, le_trans (card_le hindexed.entry) hsize⟩

end Blockchain

end

namespace Blockchain

attribute [local instance] Arithmetic.binary64

/-- The payment is admitted, another hash is removed, and a block without transactions is stored and replaced. -/
def sampleOperations : List Operation :=
  [.addTransaction Node.samplePayment 1700000000,
    .createBlock "alpha" 1700143364,
    .cleanMempool,
    .removeFromMempool "a1",
    .call (.addBlock (plainBlock 1 "a1" zeroHash)),
    .call (.replaceLastBlock (plainBlock 1 "b1" zeroHash) 1700143364)]

def sampleOpened : Blockchain := opened (.schema 1700000000)

/-- The chain after the first operations. -/
def sampleState (k : Nat) : Blockchain := (sampleOperations.take k).foldl (operate Node.sampleEnv) sampleOpened

/-- The hash that is removed is not in the mempool. -/
theorem removed_notMem_sampleState : "a1" ∉ (sampleState 3).mempool := by
  rw [← Finmap.lookup_eq_none]
  decide +kernel

/-- The block that is replaced gives nothing back. -/
theorem nothing_back_sampleState :
    (sampleState 5).db.getTransactionsByBlock Node.sampleEnv (sampleState 5).getHeight = [] := by decide +kernel

theorem inStep_sampleOperations :
    ∀ x ∈ Transition.steps (operate Node.sampleEnv) sampleOpened sampleOperations, x.1.InStep Node.sampleEnv x.2 := by
  simp only [sampleOperations, Transition.steps_cons, Transition.steps_nil, List.forall_mem_cons]
  refine ⟨fun _ => ?_, trivial, trivial, removed_notMem_sampleState, fun _ tx htx => absurd htx List.not_mem_nil, fun _ _ x hx => ?_, ?_⟩
  · constructor
    · intro hk
      exact absurd hk Finmap.notMem_empty
    · rintro ⟨p, hp, -⟩
      cases hp
  · have hnil : x.2 ∈ (sampleState 5).db.getTransactionsByBlock Node.sampleEnv (sampleState 5).getHeight :=
      Transition.snd_mem_of_mem_steps _ x hx
    rw [nothing_back_sampleState] at hnil
    cases hnil
  · exact fun x hx => absurd hx List.not_mem_nil

theorem mempool_indexed_sampleOperations : (sampleState 6).Indexed ∧ (sampleState 6).getMempoolSize ≤ 10000 :=
  mempool_indexed Node.sampleEnv (.schema 1700000000) sampleOperations inStep_sampleOperations _
    (Transition.foldl_mem_states _ _ _)

/-- The payment is admitted, and a block that carries it is stored. -/
def settledOperations : List Operation :=
  [.addTransaction Node.samplePayment 1700000000,
    .call (.addBlock { plainBlock 1 "a1" zeroHash with transactions := [Node.samplePayment] })]

/-- The entry of the payment outlives the payment. -/
theorem stale_entry : ¬(settledOperations.foldl (operate Node.sampleEnv) sampleOpened).Indexed := by
  intro h
  have hentries : (settledOperations.foldl (operate Node.sampleEnv) sampleOpened).entries.map (·.txHash) =
      [Node.sampleTxHash] := by decide +kernel
  have hnone : (settledOperations.foldl (operate Node.sampleEnv) sampleOpened).mempool.lookup Node.sampleTxHash =
      none := by decide +kernel
  obtain ⟨p, hp, heq⟩ := List.mem_map.mp (hentries ▸ List.mem_singleton_self Node.sampleTxHash)
  exact Finmap.lookup_eq_none.mp hnone (heq ▸ h.key p hp)

end Blockchain

end NexusLedger
