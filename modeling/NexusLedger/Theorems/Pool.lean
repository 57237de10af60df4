import NexusLedger.Theorems.MempoolIndex

/-! What an operation does to the mempool and its index. It puts a transaction into both of them, or both
    shrink, and then no entry leaves before the transaction that it names. A property that lasts while the two
    shrink thus hangs on the transactions that are admitted. -/

namespace NexusLedger
set_option linter.unusedSectionVars false
variable [Arithmetic]

namespace Blockchain
variable {env : Env} {c d e : Blockchain} {tx : Transaction} {now : Int64}

/-- A higher fee per byte comes first, then the older entry. -/
theorem precedes_iff {a b : TxPriority} : TxPriority.order.lt a b = true ↔
    b.feePerByte < a.feePerByte ∨ (b.feePerByte.Equals a.feePerByte ∧ a.timestamp < b.timestamp) := by
  rw [show TxPriority.order.lt a b = a.lt b from rfl, TxPriority.lt_iff, Double.lt_iff, Double.equals_iff,
    Int64.lt_iff_toInt_lt]
  grind

/-! ### Shrinking -/

/-- From `c` to `d` transactions and entries only leave, and the mempool no longer has the hash of an entry
    that left. -/
structure Shrinks (c d : Blockchain) : Prop where
  within : d.Within c
  entries : d.entries ⊆ c.entries
  gone : ∀ p ∈ c.entries, p ∈ d.entries ∨ p.txHash ∉ d.mempool

namespace Shrinks

theorem of_eq (hmempool : d.mempool = c.mempool) (hindex : d.mempoolByPriority = c.mempoolByPriority) :
    c.Shrinks d where
  within k tx hk := hmempool ▸ hk
  entries p hp := by
    rw [Blockchain.entries, hindex] at hp
    exact hp
  gone p hp := by
    left
    rw [Blockchain.entries, hindex]
    exact hp

theorem refl (c : Blockchain) : c.Shrinks c := of_eq rfl rfl

theorem mem (h : c.Shrinks d) {k : String} (hk : k ∈ d.mempool) : k ∈ c.mempool := by
  obtain ⟨tx, htx⟩ := Finmap.mem_iff.mp hk
  exact Finmap.mem_iff.mpr ⟨tx, h.within k tx htx⟩

theorem trans (h₁ : c.Shrinks d) (h₂ : d.Shrinks e) : c.Shrinks e where
  within k tx hk := h₁.within k tx (h₂.within k tx hk)
  entries p hp := h₁.entries (h₂.entries hp)
  gone p hp := by
    rcases h₁.gone p hp with hd | hd
    · exact h₂.gone p hd
    · exact Or.inr fun he => hd (h₂.mem he)

/-- The mempool alone loses transactions. -/
theorem of_within (hwithin : d.Within c) (hindex : d.mempoolByPriority = c.mempoolByPriority) : c.Shrinks d where
  within := hwithin
  entries := (of_eq (c := c) (d := { d with mempool := c.mempool }) rfl hindex).entries
  gone p hp := by
    left
    rw [Blockchain.entries, hindex]
    exact hp

/-- One entry leaves with the transaction that it names. -/
theorem drop {p : TxPriority} (hmempool : d.mempool = c.mempool.erase p.txHash)
    (hentries : ∀ q, q ∈ d.entries ↔ q ∈ c.entries ∧ q ≠ p) : c.Shrinks d where
  within k tx hk := lookup_of_erase (hmempool ▸ hk)
  entries q hq := ((hentries q).mp hq).1
  gone q hq := by
    by_cases heq : q = p
    · right
      rw [hmempool, heq]
      exact Finmap.notMem_erase_self
    · exact Or.inl ((hentries q).mpr ⟨hq, heq⟩)

end Shrinks

theorem evict_shrinks (n : Nat) (c : Blockchain) : c.Shrinks (c.evict n) := by
  refine evict_keeps (I := c.Shrinks) (fun d lowest hlast hd => hd.trans ?_) n (Shrinks.refl c)
  exact Shrinks.drop rfl fun q => OrderedSet.mem_eraseLast hlast

theorem removeAll_shrinks {l : List TxPriority} (hsub : ∀ p ∈ l, p ∈ c.entries) (hl : l.Nodup) :
    c.Shrinks (c.removeAll l) := by
  refine removeAll_keeps (I := c.Shrinks) (fun d p hp hd => hd.trans ?_) hsub hl (Shrinks.refl c)
  exact Shrinks.drop rfl fun q => OrderedSet.mem_erase hp

theorem cleanMempool_shrinks (c : Blockchain) : c.Shrinks c.cleanMempool.2 := by
  have hsub := findInvalid_sublist c.mempool c.entries c.db
  have hbefore : c.Shrinks { c with db := (findInvalid c.mempool c.entries c.db).2 } := Shrinks.of_eq rfl rfl
  exact hbefore.trans (removeAll_shrinks (fun p hp => hsub.subset hp) (c.mempoolByPriority.nodup.sublist hsub))

theorem addBlock_shrinks (c : Blockchain) (b : Block) : c.Shrinks (c.addBlock b).2 := by
  by_cases ha : c.Appends b
  · obtain ⟨blocks, -, heq⟩ := addBlock_eq_of_appends ha
    rw [heq]
    refine Shrinks.trans ?_ (cleanMempool_shrinks _)
    exact Shrinks.of_within (fun k tx hk => lookup_drained hk) rfl
  · rw [addBlock_of_not_appends ha]
    exact Shrinks.refl c

theorem createBlock_shrinks (env : Env) (c : Blockchain) (miner : String) (now : Int64) :
    c.Shrinks (c.createBlock env miner now).2 := by
  unfold createBlock
  simp only
  split
  · refine ⟨fun k tx hk => ?_, fun p hp => ?_, fun p _ => Or.inr Finmap.notMem_empty⟩
    · simp at hk
    · cases hp
  · exact Shrinks.of_eq rfl rfl

/-! ### Admission -/

/-- Both containers once a transaction is put in, before the limit is enforced. -/
def inserted (env : Env) (c : Blockchain) (tx : Transaction) (now : Int64) : Blockchain :=
  { c with
    mempool := c.mempool.insert tx.txHash tx
    mempoolByPriority := c.mempoolByPriority.insert (newEntry env tx now) }

theorem entries_inserted_of_ties (h : c.Ties env tx now) : (c.inserted env tx now).entries = c.entries :=
  congrArg OrderedSet.elems (OrderedSet.insert_of_equiv h)

theorem free_of_not_ties (h : ¬c.Ties env tx now) :
    ∀ p ∈ c.entries, TxPriority.order.equiv (newEntry env tx now) p = false := by
  intro p hp
  by_contra hequiv
  exact h ⟨p, hp, by simpa using hequiv⟩

theorem mem_entries_inserted (h : ¬c.Ties env tx now) {p : TxPriority} :
    p ∈ (c.inserted env tx now).entries ↔ p = newEntry env tx now ∨ p ∈ c.entries :=
  OrderedSet.mem_insert (free_of_not_ties h)

theorem subset_entries_inserted (env : Env) (c : Blockchain) (tx : Transaction) (now : Int64) :
    c.entries ⊆ (c.inserted env tx now).entries := by
  intro p hp
  by_cases h : c.Ties env tx now
  · rwa [entries_inserted_of_ties h]
  · exact (mem_entries_inserted h).mpr (Or.inr hp)

theorem enqueue_shrinks (env : Env) (c : Blockchain) (tx : Transaction) (now : Int64) :
    (c.inserted env tx now).Shrinks (c.enqueue env tx now) :=
  (evict_shrinks (c.inserted env tx now).mempoolByPriority.size _).trans (Shrinks.of_eq rfl rfl)

theorem addTransaction_shrinks (env : Env) (now : Int64) (h : c.Admits tx) :
    (c.inserted env tx now).Shrinks (c.addTransaction env tx now).2 := by
  obtain ⟨db, -, heq⟩ := addTransaction_eq_enqueue env now h
  rw [heq]
  have hbefore : (c.inserted env tx now).Shrinks (({ c with db } : Blockchain).inserted env tx now) :=
    Shrinks.of_eq rfl rfl
  exact hbefore.trans (enqueue_shrinks env _ tx now)

theorem addTransaction_shrinks_of_not_admits (env : Env) (now : Int64) (h : ¬c.Admits tx) :
    c.Shrinks (c.addTransaction env tx now).2 := by
  obtain ⟨db, -, heq⟩ := addTransaction_eq_of_not_admits env now h
  rw [heq]
  exact Shrinks.of_eq rfl rfl

/-! ### Operations -/

/-- Every transaction that an operation admits meets a condition, in the state that it finds. -/
def Admitting (C : Blockchain → Transaction → Int64 → Prop) (env : Env) (c : Blockchain) : Operation → Prop
  | .addTransaction tx now => c.Admits tx → C c tx now
  | .call (.replaceLastBlock b now) => c.Competes b → c.FreshBelow b →
    ∀ x ∈ Transition.steps (giveBack env now) { c with db := c.replaced b }
      (c.db.getTransactionsByBlock env c.getHeight), Returned x.2 → x.1.Admits x.2 → C x.1 x.2 now
  | _ => True

section
variable {I : Blockchain → Prop} {C : Blockchain → Transaction → Int64 → Prop}

theorem addTransaction_keeps (shrink : ∀ c d : Blockchain, c.Shrinks d → I c → I d)
    (enters : ∀ c tx now, C c tx now → I c → I (inserted env c tx now)) (htx : c.Admits tx → C c tx now) (h : I c) :
    I (c.addTransaction env tx now).2 := by
  by_cases ha : c.Admits tx
  · exact shrink _ _ (addTransaction_shrinks env now ha) (enters c tx now (htx ha) h)
  · exact shrink _ _ (addTransaction_shrinks_of_not_admits env now ha) h

/-- What lasts while the containers shrink, and when a transaction that meets the condition is put in, lasts
    through every operation. -/
theorem operate_keeps (shrink : ∀ c d : Blockchain, c.Shrinks d → I c → I d)
    (enters : ∀ c tx now, C c tx now → I c → I (inserted env c tx now)) {op : Operation}
    (hop : Admitting C env c op) (h : I c) : I (operate env c op) := by
  cases op with
  | addTransaction tx now => exact addTransaction_keeps shrink enters hop h
  | createBlock miner now => exact shrink _ _ (createBlock_shrinks env c miner now) h
  | cleanMempool => exact shrink _ _ (cleanMempool_shrinks c) h
  | removeFromMempool txHash =>
    exact shrink c _ (Shrinks.of_within (fun k tx hk => lookup_of_erase hk) rfl) h
  | call k =>
    cases k with
    | addBlock b => exact shrink _ _ (addBlock_shrinks c b) h
    | replaceLastBlock b now =>
      show I (c.replaceLastBlock env b now).2
      by_cases hc : c.Competes b
      · by_cases hf : c.FreshBelow b
        · rw [(replaceLastBlock_eq_of_fresh env now hc hf).2.2]
          refine shrink _ _ (cleanMempool_shrinks _) ?_
          have hstored : I { c with db := c.replaced b } := shrink c _ (Shrinks.of_eq rfl rfl) h
          exact restore_of_steps (fun _ _ _ hturn hd => addTransaction_keeps shrink enters hturn hd) hstored (hop hc hf)
        · rw [replaceLastBlock_of_not_fresh hc hf]
          exact shrink c _ (Shrinks.of_eq rfl rfl) h
      · rw [replaceLastBlock_of_not_competes hc]
        exact h

end

/-- Every transaction of the mempool meets a condition, together with its key. -/
def Pooled (M : String → Transaction → Prop) (c : Blockchain) : Prop :=
  ∀ k tx, c.mempool.lookup k = some tx → M k tx

theorem Pooled.shrink {M : String → Transaction → Prop} (h : c.Shrinks d) (hc : c.Pooled M) : d.Pooled M :=
  fun k tx hk => hc k tx (h.within k tx hk)

theorem Pooled.inserted {M : String → Transaction → Prop} (hc : c.Pooled M) (htx : M tx.txHash tx) :
    (c.inserted env tx now).Pooled M := by
  intro k x hk
  replace hk : (c.mempool.insert tx.txHash tx).lookup k = some x := hk
  by_cases hkey : k = tx.txHash
  · subst hkey
    rw [Finmap.lookup_insert] at hk
    cases hk
    exact htx
  · rw [Finmap.lookup_insert_of_ne _ hkey] at hk
    exact hc k x hk

theorem pooled_opened (M : String → Transaction → Prop) (db : LedgerDB) : (opened db).Pooled M := by
  intro k tx hk
  rw [show (opened db).mempool.lookup k = none from Finmap.lookup_empty k] at hk
  cases hk

theorem pooled_operate {M : String → Transaction → Prop} {C : Blockchain → Transaction → Int64 → Prop}
    (henters : ∀ c tx now, C c tx now → M tx.txHash tx) {op : Operation} (hop : Admitting C env c op)
    (h : c.Pooled M) : (operate env c op).Pooled M :=
  operate_keeps (fun _ _ hshrinks => Pooled.shrink hshrinks) (fun d tx now htx hd => hd.inserted (henters d tx now htx))
    hop h

end Blockchain

end NexusLedger
