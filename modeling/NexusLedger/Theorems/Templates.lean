import NexusLedger.Theorems.Admission
import NexusLedger.Theorems.Selection

/-! The block that `createBlock` returns, and the mempool that it leaves: whether a transaction that can pay
    stays, whether one is mined twice, and whether the senders can pay for the block as a whole. -/

namespace NexusLedger
open Blockchain

section
variable [Arithmetic]

namespace Blockchain
variable {env : Env} {c d : Blockchain} {db : LedgerDB} {tx : Transaction} {miner : String} {now : Int64}

/-! ### Clearing the mempool -/

/-- When nothing is selected the mempool ends up empty, whether it was cleared or had nothing. -/
theorem mempool_createBlock (env : Env) (c : Blockchain) (miner : String) (now : Int64) :
    (c.createBlock env miner now).2.mempool = if c.selected = [] then ∅ else c.mempool := by
  unfold createBlock
  simp only
  split
  · rename_i h
    exact (if_pos h.1).symm
  · rename_i h
    by_cases hnil : c.selected = []
    · rw [if_pos hnil]
      by_contra hne
      exact h ⟨hnil, hne⟩
    · exact (if_neg hnil).symm

/-- The sender is `SYSTEM` or has the amount and the fee, as they add up. -/
def HasCost (c : Blockchain) (tx : Transaction) : Prop :=
  tx.fromAddress = "SYSTEM" ∨ Arithmetic.add tx.amount tx.fee ≤ (c.getBalance tx.fromAddress).1

/-- Who has it is not told that he has less; where something is not a number both can be. -/
theorem HasCost.pays (h : c.HasCost tx) : Pays c.db tx := pays_iff.mpr (h.imp_right Double.not_lt_of_le)

/-- `createBlock` drops no transaction whose sender has its cost. -/
def KeepsPayable (env : Env) (c : Blockchain) : Prop :=
  ∀ (miner : String) (now : Int64) (k : String) (tx : Transaction), c.mempool.lookup k = some tx → c.HasCost tx →
    (c.createBlock env miner now).2.mempool.lookup k = some tx

/-- If the sender of a transaction of the mempool has its cost, then the index names one that passes the check. -/
def Offers (c : Blockchain) : Prop :=
  (∃ k tx, c.mempool.lookup k = some tx ∧ c.HasCost tx) → ∃ p ∈ c.entries, payable c.mempool c.db p = true

theorem keepsPayable_iff : c.KeepsPayable env ↔ c.Offers := by
  constructor
  · rintro hkeeps ⟨k, tx, hk, hcan⟩
    by_contra hnone
    simp only [not_exists, not_and, Bool.not_eq_true] at hnone
    have hkept := hkeeps "" 0 k tx hk hcan
    rw [mempool_createBlock, if_pos (selected_eq_nil_iff.mpr hnone), Finmap.lookup_empty] at hkept
    cases hkept
  · intro hoffers miner now k tx hk hcan
    obtain ⟨p, hp, hpass⟩ := hoffers ⟨k, tx, hk, hcan⟩
    have hsome : c.selected ≠ [] := by
      intro hnil
      rw [selected_eq_nil_iff] at hnil
      rw [hnil p hp] at hpass
      cases hpass
    rw [mempool_createBlock, if_neg hsome]
    exact hk

/-- Each transaction of the mempool has an entry. -/
def Covered (c : Blockchain) : Prop := ∀ k ∈ c.mempool, ∃ p ∈ c.entries, p.txHash = k

theorem Covered.offers (h : c.Covered) : c.Offers := by
  rintro ⟨k, tx, hk, hcan⟩
  obtain ⟨p, hp, rfl⟩ := h k (Finmap.mem_iff.mpr ⟨tx, hk⟩)
  exact ⟨p, hp, payable_iff.mpr ⟨tx, hk, hcan.pays⟩⟩

theorem Covered.shrink (h : c.Shrinks d) (hc : c.Covered) : d.Covered := by
  intro k hk
  obtain ⟨p, hp, rfl⟩ := hc k (h.mem hk)
  exact ⟨p, (h.gone p hp).resolve_right fun hnot => hnot hk, rfl⟩

/-- A transaction that ties with an entry has one of its own already. -/
def Finds (env : Env) (c : Blockchain) (tx : Transaction) (now : Int64) : Prop :=
  c.Ties env tx now → ∃ p ∈ c.entries, p.txHash = tx.txHash

theorem Covered.inserted (hc : c.Covered) (htx : Finds env c tx now) : (c.inserted env tx now).Covered := by
  intro k hk
  rcases Finmap.mem_insert.mp hk with rfl | hk
  · by_cases hties : c.Ties env tx now
    · obtain ⟨p, hp, heq⟩ := htx hties
      exact ⟨p, subset_entries_inserted env c tx now hp, heq⟩
    · exact ⟨newEntry env tx now, (mem_entries_inserted hties).mpr (Or.inl rfl), rfl⟩
  · obtain ⟨p, hp, heq⟩ := hc k hk
    exact ⟨p, subset_entries_inserted env c tx now hp, heq⟩

/-- In every reachable state `createBlock` keeps what can pay exactly when the index offers something that can;
    and so it is throughout a run in which no admitted transaction without an entry ties with one. -/
theorem payable_kept_iff (env : Env) (db : LedgerDB) (ops : List Operation) :
    (∀ c ∈ Transition.states (operate env) (opened db) ops, c.KeepsPayable env ↔ c.Offers) ∧
      ((∀ x ∈ Transition.steps (operate env) (opened db) ops, Admitting (Finds env) env x.1 x.2) →
        ∀ c ∈ Transition.states (operate env) (opened db) ops, c.KeepsPayable env) := by
  refine ⟨fun c _ => keepsPayable_iff, fun h c hc => ?_⟩
  have hopened : (opened db).Covered := fun k hk => absurd hk Finmap.notMem_empty
  have keep : ∀ (d : Blockchain) (op : Operation),
      Admitting (Finds env) env d op → d.Covered → (operate env d op).Covered :=
    fun d op hop hd => operate_keeps (fun _ _ hshrinks => Covered.shrink hshrinks)
      (fun _ _ _ htx hcovered => hcovered.inserted htx) hop hd
  exact keepsPayable_iff.mpr (Transition.invariant_of_steps keep hopened h c hc).offers

end Blockchain

end

namespace Blockchain

attribute [local instance] Arithmetic.binary64

/-- Both payments are admitted, and a block takes the first one, whose entry stands for both. -/
def tiedOperations : List Operation :=
  [.addTransaction Node.samplePayment 1700000000,
    .addTransaction secondPayment 1700000000,
    .call (.addBlock { plainBlock 1 "a1" zeroHash with transactions := [Node.samplePayment] })]

def tiedState : Blockchain := tiedOperations.foldl (operate Node.sampleEnv) (.opened (.schema 1700000000))

theorem second_payment_cleared :
    tiedState.mempool.lookup secondPayment.txHash = some secondPayment ∧
      Arithmetic.add secondPayment.amount secondPayment.fee ≤ (tiedState.getBalance secondPayment.fromAddress).1 ∧
      (tiedState.createBlock Node.sampleEnv "alpha" 1700143364).2.mempool.lookup secondPayment.txHash = none ∧
      ¬tiedState.KeepsPayable Node.sampleEnv := by
  obtain ⟨hpending, hcan, hgone⟩ :
      tiedState.mempool.lookup secondPayment.txHash = some secondPayment ∧
        Arithmetic.add secondPayment.amount secondPayment.fee ≤
          (tiedState.getBalance secondPayment.fromAddress).1 ∧
        (tiedState.createBlock Node.sampleEnv "alpha" 1700143364).2.mempool.lookup secondPayment.txHash = none := by
    decide +kernel
  refine ⟨hpending, hcan, hgone, fun hkeeps => ?_⟩
  rw [hkeeps "alpha" 1700143364 _ _ hpending (Or.inr hcan)] at hgone
  cases hgone

end Blockchain

section
set_option linter.unusedSectionVars false
variable [Arithmetic]

namespace Blockchain
variable {env : Env} {c d : Blockchain} {tx : Transaction} {miner : String} {now : Int64}

/-! ### Mining once -/

/-- Of each hash the index has one entry at most. -/
def Single (c : Blockchain) : Prop := ∀ p ∈ c.entries, ∀ q ∈ c.entries, p.txHash = q.txHash → p = q

theorem Single.shrink (h : c.Shrinks d) (hc : c.Single) : d.Single := fun p hp q hq =>
  hc p (h.entries hp) q (h.entries hq)

/-- A transaction whose hash the index has ties with an entry. -/
def Repeats (env : Env) (c : Blockchain) (tx : Transaction) (now : Int64) : Prop :=
  (∃ p ∈ c.entries, p.txHash = tx.txHash) → c.Ties env tx now

theorem Single.inserted (hc : c.Single) (htx : Repeats env c tx now) : (c.inserted env tx now).Single := by
  by_cases hties : c.Ties env tx now
  · intro p hp q hq
    rw [entries_inserted_of_ties hties] at hp hq
    exact hc p hp q hq
  · have hother : ∀ p ∈ c.entries, p.txHash ≠ tx.txHash := fun p hp heq => hties (htx ⟨p, hp, heq⟩)
    intro p hp q hq heq
    rcases (mem_entries_inserted hties).mp hp with rfl | hp <;> rcases (mem_entries_inserted hties).mp hq with rfl | hq
    · rfl
    · exact absurd heq.symm (hother q hq)
    · exact absurd heq (hother p hp)
    · exact hc p hp q hq heq

/-- With one entry a hash, and the mempool keyed by the hashes, no hash is selected twice. -/
theorem nodup_selected (hsingle : c.Single) (hkeys : c.Pooled fun k tx => tx.txHash = k) :
    (c.selected.map (·.txHash)).Nodup := by
  have hmap : List.Forall₂ (· = ·) (c.selected.map (·.txHash)) (c.taken.map (·.txHash)) := by
    rw [List.forall₂_map_left_iff, List.forall₂_map_right_iff]
    exact (forall₂_taken c).flip.imp fun {tx p} hlookup => hkeys p.txHash tx hlookup
  rw [List.forall₂_eq_eq_eq] at hmap
  have htaken : ∀ p ∈ c.taken, p ∈ c.entries := fun p hp => OrderedSet.pick_sublist.subset hp
  rw [hmap]
  refine List.Nodup.map_on (fun p hp q hq heq => hsingle p (htaken p hp) q (htaken q hq) heq) ?_
  exact c.mempoolByPriority.nodup.sublist OrderedSet.pick_sublist

theorem mem_drained_of_addBlock {b : Block} {k : String} (h : c.Appends b) (hk : k ∈ (c.addBlock b).2.mempool) :
    k ∈ drained c.mempool b.transactions := by
  obtain ⟨blocks, -, heq⟩ := addBlock_eq_of_appends h
  rw [heq] at hk
  exact (cleanMempool_shrinks _).mem hk

end Blockchain

namespace Ledger
variable {env : Env} {s : Ledger} {op : Operation} {k : String}

def opened (db : LedgerDB) : Ledger where
  chain := .opened db
  accepted := []

/-- An operation, with a record of the blocks that `addBlock` accepted. -/
def record (env : Env) (s : Ledger) (op : Operation) : Ledger where
  chain := operate env s.chain op
  accepted :=
    match op with
    | .call (.addBlock b) => if (s.chain.addBlock b).1 then s.accepted ++ [b] else s.accepted
    | _ => s.accepted

/-- A block that `addBlock` accepted had a transaction with the hash. -/
def Mined (s : Ledger) (k : String) : Prop := ∃ b ∈ s.accepted, ∃ tx ∈ b.transactions, tx.txHash = k

/-- The condition on an operation. What it admits has a hash that no accepted block had, and that the index has
    only if it ties with an entry; and the mempool drops every transaction of a block that `addBlock` accepts. -/
structure Renews (env : Env) (s : Ledger) (op : Operation) : Prop where
  admitted : Admitting (fun c tx now => Repeats env c tx now ∧ ¬s.Mined tx.txHash) env s.chain op
  dropped : ∀ b, op = .call (.addBlock b) → s.chain.Appends b → ∀ tx ∈ b.transactions, tx.txHash ∈ s.chain.mempool →
    ∃ x ∈ b.transactions, x.fromAddress ≠ "SYSTEM" ∧ x.txHash = tx.txHash

/-- One entry a hash, the mempool keyed by the hashes, and none of them mined before. -/
structure Unmined (s : Ledger) : Prop where
  single : s.chain.Single
  keys : s.chain.Pooled fun k tx => tx.txHash = k
  fresh : s.chain.Pooled fun k _ => ¬s.Mined k

theorem mined_record (h : (s.record env op).Mined k) :
    s.Mined k ∨ ∃ b, op = .call (.addBlock b) ∧ s.chain.Appends b ∧ ∃ tx ∈ b.transactions, tx.txHash = k := by
  obtain ⟨b, hb, htx⟩ := h
  unfold record at hb
  simp only at hb
  split at hb
  · rename_i b'
    split at hb
    · rename_i haccepted
      rw [List.mem_append, List.mem_singleton] at hb
      rcases hb with hb | rfl
      · exact Or.inl ⟨b, hb, htx⟩
      · exact Or.inr ⟨b, rfl, addBlock_accepts_iff.mp haccepted, htx⟩
    · exact Or.inl ⟨b, hb, htx⟩
  · exact Or.inl ⟨b, hb, htx⟩

theorem Unmined.record (h : s.Unmined) (hop : s.Renews env op) : (s.record env op).Unmined where
  single := operate_keeps (fun _ _ hshrinks => Single.shrink hshrinks) (fun _ _ _ htx hc => hc.inserted htx.1)
    hop.admitted h.single
  keys := pooled_operate (fun _ _ _ _ => rfl) hop.admitted h.keys
  fresh k tx hk hmined := by
    have hold : (Blockchain.operate env s.chain op).Pooled fun k _ => ¬s.Mined k :=
      pooled_operate (fun _ _ _ htx => htx.2) hop.admitted h.fresh
    rcases mined_record hmined with hmined | ⟨b, rfl, happends, x, hx, rfl⟩
    · exact hold k tx hk hmined
    · have hafter : x.txHash ∈ (s.chain.addBlock b).2.mempool := Finmap.mem_iff.mpr ⟨tx, hk⟩
      obtain ⟨y, hy, hfrom, heq⟩ := hop.dropped b rfl happends x hx ((addBlock_shrinks s.chain b).mem hafter)
      exact (mem_drained.mp (mem_drained_of_addBlock happends hafter)).2 y hy hfrom heq.symm

/-- The coinbase of a block has a hash that neither a pending nor a mined transaction has. -/
def NewCoinbase (env : Env) (s : Ledger) (miner : String) (now : Int64) : Prop :=
  (Transaction.createCoinbase env now miner reward).txHash ∉ s.chain.mempool ∧
    ¬s.Mined (Transaction.createCoinbase env now miner reward).txHash

/-- The block that `createBlock` returns has no hash twice, and none that was mined before. -/
def MinesOnce (env : Env) (s : Ledger) (miner : String) (now : Int64) : Prop :=
  ((s.chain.createBlock env miner now).1.transactions.map (·.txHash)).Nodup ∧
    ∀ tx ∈ (s.chain.createBlock env miner now).1.transactions, ¬s.Mined tx.txHash

theorem Unmined.minesOnce {miner : String} {now : Int64} (h : s.Unmined) (hnew : s.NewCoinbase env miner now) :
    s.MinesOnce env miner now := by
  have hpending : ∀ tx ∈ s.chain.selected, tx.txHash ∈ s.chain.mempool ∧ ¬s.Mined tx.txHash := by
    intro tx htx
    obtain ⟨p, -, hlookup⟩ := mem_selected_iff.mp htx
    have hkey : tx.txHash = p.txHash := h.keys _ tx hlookup
    rw [hkey]
    exact ⟨Finmap.mem_iff.mpr ⟨tx, hlookup⟩, h.fresh _ tx hlookup⟩
  unfold MinesOnce
  rw [transactions_createBlock, List.map_cons, List.nodup_cons, List.forall_mem_cons]
  refine ⟨⟨fun hmem => ?_, nodup_selected h.single h.keys⟩, hnew.2, fun tx htx => (hpending tx htx).2⟩
  obtain ⟨tx, htx, heq⟩ := List.mem_map.mp hmem
  exact hnew.1 (heq ▸ (hpending tx htx).1)

/-- In a run whose operations all meet the condition no transaction is mined twice, whoever mines and whenever,
    as long as the coinbase is a new one. -/
theorem mined_once (env : Env) (db : LedgerDB) (ops : List Operation)
    (h : ∀ x ∈ Transition.steps (record env) (opened db) ops, x.1.Renews env x.2) :
    ∀ s ∈ Transition.states (record env) (opened db) ops, ∀ (miner : String) (now : Int64),
      s.NewCoinbase env miner now → s.MinesOnce env miner now := by
  intro s hs miner now hnew
  have hopened : (opened db).Unmined := by
    refine ⟨fun p hp => ?_, pooled_opened _ db, pooled_opened _ db⟩
    cases hp
  have hunmined : s.Unmined :=
    Transition.invariant_of_steps (I := Unmined) (fun s op hop hs => hs.record hop) hopened h s hs
  exact hunmined.minesOnce hnew

end Ledger

end

namespace Ledger

attribute [local instance] Arithmetic.binary64

/-- The payment is admitted, and a block that carries it is accepted. -/
theorem mined_once_settledOperations :
    (settledOperations.foldl (record Node.sampleEnv) (opened (.schema 1700000000))).MinesOnce Node.sampleEnv "alpha"
      1700143364 := by
  refine mined_once Node.sampleEnv (.schema 1700000000) settledOperations ?_ _ (Transition.foldl_mem_states _ _ _)
    "alpha" 1700143364 ⟨?_, ?_⟩
  · simp only [settledOperations, Transition.steps_cons, Transition.steps_nil, List.forall_mem_cons]
    refine ⟨⟨fun _ => ⟨?_, ?_⟩, ?_⟩, ⟨trivial, ?_⟩, fun x hx => absurd hx List.not_mem_nil⟩
    · rintro ⟨p, hp, -⟩
      cases hp
    · rintro ⟨b, hb, -⟩
      cases hb
    · rintro b hb
      cases hb
    · rintro b hb - tx htx -
      cases hb
      rw [List.mem_singleton.mp htx]
      exact ⟨Node.samplePayment, List.mem_singleton_self _, by decide, rfl⟩
  · rw [← Finmap.lookup_eq_none]
    decide +kernel
  · unfold Mined
    decide +kernel

/-- The payment comes in twice, one second apart. -/
def repeatedOperations : List Operation :=
  [.addTransaction Node.samplePayment 1700000000, .addTransaction Node.samplePayment 1700000001]

theorem payment_mined_twice :
    ¬(repeatedOperations.foldl (record Node.sampleEnv) (opened (.schema 1700000000))).MinesOnce Node.sampleEnv "alpha"
      1700143364 := by
  rintro ⟨hnodup, -⟩
  revert hnodup
  decide +kernel

end Ledger

section
variable [Arithmetic]

/-! ### Paying for the whole block -/

namespace Blockchain
variable {env : Env} {c : Blockchain} {tx : Transaction} {a : CString} {before : List Transaction}

/-- The transaction brings something to the address, or takes something from it. `SYSTEM` pays nothing. -/
def Moves (a : CString) (tx : Transaction) : Prop :=
  CString.bind tx.toAddress = a ∨ (tx.fromAddress ≠ "SYSTEM" ∧ CString.bind tx.fromAddress = a)

/-- What a transaction makes of the balance of an address. -/
def settle (a : CString) (balance : Double) (tx : Transaction) : Double :=
  let balance := if CString.bind tx.toAddress = a then Arithmetic.add balance tx.amount else balance
  if tx.fromAddress ≠ "SYSTEM" ∧ CString.bind tx.fromAddress = a then
    Arithmetic.add balance (-Arithmetic.add tx.amount tx.fee)
  else balance

/-- The balance of the sender, after what the transactions before bring and take, covers the next one. -/
def Covers (c : Blockchain) (before : List Transaction) (tx : Transaction) : Prop :=
  ¬before.foldl (settle (.bind tx.fromAddress)) (c.getBalance tx.fromAddress).1 < Arithmetic.add tx.amount tx.fee

/-- Applied in their order the transactions take no sender but `SYSTEM` below zero. -/
def Affordable (c : Blockchain) (txs : List Transaction) : Prop :=
  ∀ before tx after, txs = before ++ tx :: after → tx.fromAddress ≠ "SYSTEM" → c.Covers before tx

/-- Of the coinbase and the first ten entries that can pay, each one is covered whose sender has part in one before. -/
def RepeatsPaid (env : Env) (c : Blockchain) (miner : String) (now : Int64) : Prop :=
  ∀ before tx after,
    Transaction.createCoinbase env now miner reward :: (c.taken.filterMap fun p => c.mempool.lookup p.txHash) =
      before ++ tx :: after → tx.fromAddress ≠ "SYSTEM" → (∃ x ∈ before, Moves (.bind tx.fromAddress) x) →
        c.Covers before tx

theorem settle_of_not_moves {balance : Double} (h : ¬Moves a tx) : settle a balance tx = balance := by
  obtain ⟨hto, hfrom⟩ := not_or.mp h
  simp only [settle, if_neg hto, if_neg hfrom]

/-- What has no part in the transactions before is as it was when it was checked. -/
theorem covers_first (hpays : Pays c.db tx) (hfrom : tx.fromAddress ≠ "SYSTEM")
    (hfirst : ∀ x ∈ before, ¬Moves (.bind tx.fromAddress) x) : c.Covers before tx := by
  have hkept : ∀ balance : Double, before.foldl (settle (.bind tx.fromAddress)) balance = balance := by
    induction before with
    | nil => exact fun _ => rfl
    | cons x before ih =>
      rw [List.forall_mem_cons] at hfirst
      intro balance
      rw [List.foldl_cons, settle_of_not_moves hfirst.1, ih hfirst.2]
  rw [Covers, hkept]
  exact (pays_iff.mp hpays).resolve_left hfrom

/-- In whatever state the block is made, it is affordable exactly when what has part in several of its transactions
    can pay for each of them in its turn. -/
theorem template_affordable_iff (env : Env) (c : Blockchain) (miner : String) (now : Int64) :
    c.Affordable (c.createBlock env miner now).1.transactions ↔ c.RepeatsPaid env miner now := by
  rw [transactions_createBlock, selected_eq]
  constructor
  · exact fun h before tx after heq hfrom _ => h before tx after heq hfrom
  · intro h before tx after heq hfrom
    by_cases hfirst : ∃ x ∈ before, Moves (.bind tx.fromAddress) x
    · exact h before tx after heq hfrom hfirst
    · simp only [not_exists, not_and] at hfirst
      rw [← selected_eq] at heq
      have hmem : tx ∈ Transaction.createCoinbase env now miner reward :: c.selected :=
        heq ▸ List.mem_append_right _ List.mem_cons_self
      rcases List.mem_cons.mp hmem with rfl | hmem
      · exact absurd rfl hfrom
      · exact covers_first (pays_of_selected hmem) hfrom hfirst

end Blockchain

end

namespace Blockchain

attribute [local instance] Arithmetic.binary64

/-- A payment of 6000 from the genesis wallet, which has 10000. -/
def largePayment : Transaction :=
  { Node.samplePayment with
    txHash := "341af727234478a83520d2742d4de5c2cc4c0ff836eff1246bda440d1088b45e"
    amount := 6000 }

/-- The same one second later. -/
def nextPayment : Transaction :=
  { largePayment with
    txHash := "f2bf4b18203c179c1a850971e0ce12eab823a807cfbb6bbeb2d3b6eecbf99a17"
    timestamp := 1700000001 }

def overspentState : Blockchain :=
  [Operation.addTransaction largePayment 1700000000, .addTransaction nextPayment 1700000001].foldl
    (operate Node.sampleEnv) (.opened (.schema 1700000000))

theorem genesis_wallet_overspent :
    ¬overspentState.Affordable (overspentState.createBlock Node.sampleEnv "alpha" 1700143364).1.transactions := by
  obtain ⟨htxs, hover⟩ : (overspentState.createBlock Node.sampleEnv "alpha" 1700143364).1.transactions =
      [Transaction.createCoinbase Node.sampleEnv 1700143364 "alpha" reward, largePayment] ++ [nextPayment] ∧
      ¬overspentState.Covers
        [Transaction.createCoinbase Node.sampleEnv 1700143364 "alpha" reward, largePayment] nextPayment := by
    unfold Covers
    decide +kernel
  exact fun h => hover (h _ nextPayment [] htxs (by decide))

end Blockchain

end NexusLedger
