import NexusLedger.Theorems.Operations

/-! What the transactions table and the mempool hold. A condition on the rows and one on the mempool that
    agree with each other last as long as what comes in from outside meets them. -/

namespace NexusLedger
open Blockchain
set_option linter.unusedSectionVars false
variable [Arithmetic]

namespace Blockchain
variable {env : Env} {c d : Blockchain} {R : TransactionRow → Prop} {M : Transaction → Prop}

/-- Every transaction row meets the one condition, every transaction of the mempool the other one. -/
structure Holds (R : TransactionRow → Prop) (M : Transaction → Prop) (c : Blockchain) : Prop where
  rows : ∀ t ∈ c.db.transactions.rows, R t
  pool : ∀ k tx, c.mempool.lookup k = some tx → M tx

theorem Holds.mono (h : c.Holds R M) (hrows : d.db.transactions.rows ⊆ c.db.transactions.rows)
    (hwithin : d.Within c) : d.Holds R M where
  rows t ht := h.rows t (hrows ht)
  pool k tx hk := h.pool k tx (hwithin k tx hk)

theorem Holds.congr (h : c.Holds R M) (htxs : d.db.transactions = c.db.transactions) (hwithin : d.Within c) :
    d.Holds R M := h.mono (htxs ▸ List.Subset.refl _) hwithin

theorem Holds.addTransaction (env : Env) (now : Int64) {tx : Transaction} (h : c.Holds R M)
    (htx : c.Admits tx → M tx) (hrow : M tx → R (tx.row none)) : (c.addTransaction env tx now).2.Holds R M := by
  by_cases ha : c.Admits tx
  · obtain ⟨hdb, hpool⟩ := addTransaction_of_admits env now ha
    constructor
    · intro t ht
      rw [hdb] at ht
      rcases LedgerDB.addTransaction_rows c.db tx (-1) with hr | hr
      · rw [hr] at ht
        exact h.rows t ht
      · rw [hr, List.mem_append, List.mem_singleton] at ht
        rcases ht with ht | rfl
        · exact h.rows t ht
        · exact hrow (htx ha)
    · intro k x hk
      rcases hpool k x hk with hold | rfl
      · exact h.pool k x hold
      · exact htx ha
  · obtain ⟨hdb, hpool⟩ := addTransaction_of_not_admits env now ha
    exact h.congr hdb fun k x hk => hpool ▸ hk

theorem Holds.restore (env : Env) (now : Int64) {txs : List Transaction} (h : c.Holds R M)
    (htxs : ∀ tx ∈ txs, Returned tx → M tx) (hrow : ∀ tx, M tx → R (tx.row none)) :
    (c.restore env txs now).Holds R M :=
  restore_keeps env now (fun tx htx hback _ hd => hd.addTransaction env now (fun _ => htxs tx htx hback) (hrow tx)) h

theorem holds_addTransactions {db : LedgerDB} {txs : List Transaction} {height : Int32}
    (hdb : ∀ t ∈ db.transactions.rows, R t) (htxs : ∀ tx ∈ txs, ¬db.Unstorable tx → ∀ h, R (tx.row h)) :
    ∀ t ∈ (db.addTransactions txs height).transactions.rows, R t := by
  obtain ⟨added, hrows, horigin⟩ := LedgerDB.addTransactions_append db txs height
  intro t ht
  rw [hrows, List.mem_append] at ht
  rcases ht with ht | ht
  · exact hdb t ht
  · obtain ⟨tx, htx, hnew, rfl⟩ := horigin t ht
    exact htxs tx htx hnew _

theorem Holds.addBlock {b : Block} (h : c.Holds R M)
    (hb : c.Appends b → ∀ tx ∈ b.transactions, ¬c.db.Unstorable tx → ∀ height, R (tx.row height)) :
    (c.addBlock b).2.Holds R M := by
  by_cases ha : c.Appends b
  · constructor
    · rw [(addBlock_of_appends ha).2.2]
      exact holds_addTransactions h.rows (hb ha)
    · exact fun k tx hk => h.pool k tx (addBlock_within c b k tx hk)
  · rw [addBlock_of_not_appends ha]
    exact h

theorem deleteBlock_rows (db : LedgerDB) (height : Int32) :
    (db.deleteBlock height).transactions.rows ⊆ db.transactions.rows := List.filter_subset_self _

theorem Holds.replaceLastBlock (env : Env) (now : Int64) {b : Block} (h : c.Holds R M)
    (hb : c.Competes b → c.FreshBelow b →
      (∀ tx ∈ b.transactions, ¬(c.db.deleteBlock c.getHeight).Unstorable tx → ∀ height, R (tx.row height)) ∧
        ∀ tx ∈ c.db.getTransactionsByBlock env c.getHeight, Returned tx → M tx)
    (hrow : ∀ tx, M tx → R (tx.row none)) : (c.replaceLastBlock env b now).2.Holds R M := by
  by_cases hc : c.Competes b
  · by_cases hf : c.FreshBelow b
    · obtain ⟨htxs, hback⟩ := hb hc hf
      obtain ⟨-, htransactions, heq⟩ := replaceLastBlock_eq_of_fresh env now hc hf
      have hstored : ({ c with db := c.replaced b } : Blockchain).Holds R M := by
        refine ⟨?_, h.pool⟩
        rw [htransactions]
        exact holds_addTransactions (fun t ht => h.rows t (deleteBlock_rows _ _ ht)) htxs
      rw [heq]
      exact (hstored.restore env now hback hrow).congr (by simp) (cleanMempool_within _)
    · rw [replaceLastBlock_of_not_fresh hc hf]
      exact h.mono (deleteBlock_rows _ _) fun k tx hk => hk
  · rw [replaceLastBlock_of_not_competes hc]
    exact h

/-- What an operation brings in meets the conditions: a transaction that is admitted, those of an accepted block
    that the table takes, and those that the block it replaces gives back. -/
def Brings (env : Env) (R : TransactionRow → Prop) (M : Transaction → Prop) (c : Blockchain) : Operation → Prop
  | .addTransaction tx _ => c.Admits tx → M tx
  | .call (.addBlock b) => c.Appends b → ∀ tx ∈ b.transactions, ¬c.db.Unstorable tx → ∀ height, R (tx.row height)
  | .call (.replaceLastBlock b _) => c.Competes b → c.FreshBelow b →
    (∀ tx ∈ b.transactions, ¬(c.db.deleteBlock c.getHeight).Unstorable tx → ∀ height, R (tx.row height)) ∧
      ∀ tx ∈ c.db.getTransactionsByBlock env c.getHeight, Returned tx → M tx
  | _ => True

theorem Holds.operate (h : c.Holds R M) (hrow : ∀ tx, M tx → R (tx.row none)) {op : Operation}
    (hop : Brings env R M c op) : (operate env c op).Holds R M := by
  cases op with
  | addTransaction tx now => exact h.addTransaction env now hop (hrow tx)
  | createBlock miner now => exact h.congr (by simp [Blockchain.operate]) (createBlock_within env c miner now)
  | cleanMempool => exact h.congr (by simp [Blockchain.operate]) (cleanMempool_within c)
  | removeFromMempool txHash => exact h.mono (List.Subset.refl _) fun k tx hk => lookup_of_erase hk
  | call k =>
    cases k with
    | addBlock b => exact h.addBlock hop
    | replaceLastBlock b now => exact h.replaceLastBlock env now hop hrow

theorem mem_createBlock {miner : String} {now : Int64} {tx : Transaction}
    (h : tx ∈ (c.createBlock env miner now).1.transactions) :
    tx = Transaction.createCoinbase env now miner reward ∨ ∃ k, c.mempool.lookup k = some tx := by
  rcases List.mem_cons.mp h with rfl | h
  · exact Or.inl rfl
  · obtain ⟨p, -, hlookup⟩ := mem_selectTransactions c.mempool h
    exact Or.inr ⟨p.txHash, hlookup⟩

end Blockchain

theorem transactions_of_search {env : Env} {b mined : Block} {nonce fuel : Nat}
    (h : b.search env nonce fuel = some mined) : mined.transactions = b.transactions := by
  obtain ⟨k, rfl, -⟩ := Block.search_eq_some h
  rfl

namespace Node
variable {env : Env} {n : Node} {e : Event} {R : TransactionRow → Prop} {M : Transaction → Prop}

/-- The chain holds such rows and transactions, and the search of the node works on such transactions. -/
structure Holds (R : TransactionRow → Prop) (M : Transaction → Prop) (n : Node) : Prop where
  chain : n.blockchain.Holds R M
  template : ∀ t, n.template = some t → ∀ tx ∈ t.block.transactions, ∀ height, R (tx.row height)

/-- What a step brings in from outside meets the conditions. -/
def Supplied (env : Env) (R : TransactionRow → Prop) (M : Transaction → Prop) (n : Node) : Event → Prop
  | .own (.http now body) => ∀ tx, n.readHttpTransaction env now body = .ok tx → n.blockchain.Admits tx → M tx
  | .own _ => True
  | .message now msg => ∀ x, Operates env n (.message now msg) x → Brings env R M x.1 x.2

theorem Holds.brings (h : n.Holds R M) (he : n.Supplied env R M e) :
    ∀ x, Operates env n e x → Brings env R M x.1 x.2 := by
  intro x hx
  cases e with
  | message now msg => exact he x hx
  | own own =>
    cases hx with
    | http now hread => exact he _ hread
    | clean => trivial
    | template now => trivial
    | call hcall =>
      obtain ⟨hcall, horigin⟩ : _ ∧ Origin env n _ _ := ⟨hcall, (react_calls env n _).2 _ hcall⟩
      cases horigin with
      | mined now ht hmined hlow =>
        intro _ tx htx _
        rw [transactions_of_search hmined] at htx
        exact h.template _ ht tx htx

theorem step_holds (h : n.Holds R M) (hrow : ∀ tx height, M tx → R (tx.row height))
    (hcoinbase : ∀ now miner height, R ((Transaction.createCoinbase env now miner reward).row height))
    (he : n.Supplied env R M e) : (n.step env e).Holds R M where
  chain := step_chain h.chain fun x hx hc => hc.operate (fun tx => hrow tx none) (h.brings he x hx)
  template t ht := by
    rcases step_template env n e with heq | heq | ⟨now, heq⟩
    · exact h.template t (heq ▸ ht)
    · rw [heq] at ht
      cases ht
    · rw [heq] at ht
      cases ht
      intro tx htx height
      rcases mem_createBlock htx with rfl | ⟨k, hk⟩
      · exact hcoinbase now n.nodeId height
      · exact hrow tx height (h.chain.pool k tx hk)

end Node

end NexusLedger
