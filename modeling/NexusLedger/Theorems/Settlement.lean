import NexusLedger.Theorems.Transactions
import NexusLedger.Theorems.NodeSteps

/-! Balances against a replay of the chain. The view sums the confirmed rows; a transaction is stored as pending
    when it is admitted, and the insert at block acceptance fails on its hash, so it stays pending. -/

namespace NexusLedger
open Blockchain

section
set_option linter.unusedSectionVars false
variable [Arithmetic]

/-! ### The balance of the view -/

namespace LedgerDB

/-- The confirmed rows hold finite numbers. -/
def Finite (db : LedgerDB) : Prop :=
  ∀ t ∈ db.transactions.rows, t.confirmed = true → t.amount.val.isFinite = true ∧ t.fee.val.isFinite = true

/-- What a confirmed row adds to the balance of an address in the view, as an exact number. -/
def entry (a : CString) (t : TransactionRow) : ℚ :=
  if t.toAddress = a then t.amount.val.value
  else if t.fromAddress = a then -t.amount.val.value - t.fee.val.value
  else 0

/-- What a row adds. -/
def effect (a : CString) (t : TransactionRow) : ℚ := if t.confirmed then entry a t else 0

/-- The opening of the ledger: the view takes it from `SYSTEM`. -/
theorem effect_opening (now : Int64) (a : CString) :
    effect a (genesisTransaction now) =
      if .bind "genesis_miner" = a then 10000 else if .bind "SYSTEM" = a then -10000 else 0 := by
  have hamount : (genesisTransaction now).amount.val.value = 10000 := rfl
  have hfee : (genesisTransaction now).fee.val.value = 0 := rfl
  have hconf : (genesisTransaction now).confirmed = true := rfl
  rw [effect, if_pos hconf, entry, hamount, hfee, sub_zero]
  rfl

theorem coalescedSum_of_sum {l : List Double}
    (h : (Arithmetic.sum l).isFinite = true ∧ (Arithmetic.sum l).value = (l.map Double.value).sum) :
    (coalescedSum l).isFinite = true ∧ (coalescedSum l).value = (l.map Double.value).sum := by
  unfold coalescedSum
  by_cases hnil : l = []
  · rw [if_pos (Or.inl hnil), hnil]
    exact ⟨rfl, rfl⟩
  · have hnumber : ¬(Arithmetic.sum l).isNaN = true := by simp [Double.isNaN_of_isFinite h.1]
    rw [if_neg (not_or.mpr ⟨hnil, hnumber⟩)]
    exact h

theorem coalescedSum_exact (hexact : Arithmetic.Exact) {l : List Double} (h : ∀ x ∈ l, x.isFinite = true) :
    (coalescedSum l).isFinite = true ∧ (coalescedSum l).value = (l.map Double.value).sum :=
  coalescedSum_of_sum (hexact.sum h)

theorem credit_exact (hexact : Arithmetic.Exact) {t : TransactionRow} (a : CString)
    (hamount : t.amount.val.isFinite = true) (hfee : t.fee.val.isFinite = true) :
    (credit a t).isFinite = true ∧ (credit a t).value = entry a t := by
  unfold credit entry
  split
  · exact ⟨hamount, rfl⟩
  · split
    · have hadd := hexact.add ((Double.isFinite_neg _).trans hamount) ((Double.isFinite_neg _).trans hfee)
      rw [Double.value_neg, Double.value_neg, ← sub_eq_add_neg] at hadd
      exact hadd
    · exact ⟨rfl, rfl⟩

/-- What the view sums up for an address. -/
def credits (db : LedgerDB) (a : CString) : List Double :=
  (db.transactions.rows.filter fun t => t.confirmed && (t.toAddress == a || t.fromAddress == a)).map (credit a)

theorem forall_mem_credits {db : LedgerDB} {a : CString} {P : Double → Prop}
    (h : ∀ t ∈ db.transactions.rows, t.confirmed = true → P (credit a t)) : ∀ x ∈ db.credits a, P x := by
  intro x hx
  obtain ⟨t, ht, rfl⟩ := List.mem_map.mp hx
  obtain ⟨ht, hcond⟩ := List.mem_filter.mp ht
  exact h t ht (Bool.and_eq_true_iff.mp hcond).1

theorem sum_credits {db : LedgerDB} {a : CString}
    (h : ∀ t ∈ db.transactions.rows, t.confirmed = true → (credit a t).value = entry a t) :
    ((db.credits a).map Double.value).sum = (db.transactions.rows.map (effect a)).sum := by
  unfold credits
  revert h
  induction db.transactions.rows with
  | nil => exact fun _ => rfl
  | cons t rows ih =>
    intro h
    rw [List.forall_mem_cons] at h
    rw [List.map_cons, List.sum_cons, ← ih h.2, List.filter_cons]
    by_cases hconf : t.confirmed = true
    · have hvalue := h.1 hconf
      by_cases hto : t.toAddress = a
      · simp [hconf, hto, effect, hvalue]
      · by_cases hfrom : t.fromAddress = a
        · simp [hconf, hfrom, effect, hvalue]
        · simp [hconf, hto, hfrom, effect, entry]
    · simp [hconf, effect]

/-- With exact sums the view adds up what the rows add. -/
theorem viewBalance_exact (hexact : Arithmetic.Exact) {db : LedgerDB} (hfinite : db.Finite) (a : CString) :
    (db.viewBalance a).isFinite = true ∧
      (db.viewBalance a).value = (db.transactions.rows.map (effect a)).sum := by
  have hcredit : ∀ t ∈ db.transactions.rows, t.confirmed = true →
      (credit a t).isFinite = true ∧ (credit a t).value = entry a t := fun t ht hconf =>
    credit_exact hexact a (hfinite t ht hconf).1 (hfinite t ht hconf).2
  obtain ⟨hsum, hvalue⟩ := coalescedSum_exact hexact (forall_mem_credits fun t ht hconf => (hcredit t ht hconf).1)
  exact ⟨hsum, hvalue.trans (sum_credits fun t ht hconf => (hcredit t ht hconf).2)⟩

theorem viewBalance_append (hexact : Arithmetic.Exact) {db db' : LedgerDB} {t : TransactionRow} (hfinite : db'.Finite)
    (h : db'.transactions.rows = db.transactions.rows ++ [t]) (a : CString) :
    (db'.viewBalance a).value = (db.viewBalance a).value + effect a t := by
  have hold : db.Finite := fun x hx => hfinite x (h ▸ List.mem_append_left _ hx)
  rw [(viewBalance_exact hexact hfinite a).2, (viewBalance_exact hexact hold a).2, h]
  simp

theorem Finite.congr {db db' : LedgerDB} (h : db.Finite) (hrows : db'.transactions = db.transactions) : db'.Finite :=
  fun t ht => h t (hrows ▸ ht)

theorem Finite.append {db db' : LedgerDB} {t : TransactionRow} (h : db.Finite)
    (hrows : db'.transactions.rows = db.transactions.rows ++ [t])
    (ht : t.confirmed = true → t.amount.val.isFinite = true ∧ t.fee.val.isFinite = true) : db'.Finite := by
  intro x hx
  rw [hrows, List.mem_append, List.mem_singleton] at hx
  rcases hx with hx | rfl
  · exact h x hx
  · exact ht

end LedgerDB

/-! ### Runs and their replay -/

/-- What a run consists of: admissions, and rounds of `createBlock`, `mine` and `addBlock`. -/
inductive Op
  | addTransaction (tx : Transaction) (now : Int64)
  | round (miner : String) (maxNonce : Int32) (now : Int64)

/-- A chain with the blocks that `addBlock` accepted, in height order. -/
structure Ledger where
  chain : Blockchain
  accepted : List Block

/-- One round: the block, if it was mined and accepted, and the chain after. -/
def Blockchain.round (env : Env) (c : Blockchain) (miner : String) (maxNonce : Int32) (now : Int64) :
    Option Block × Blockchain :=
  let (block, c) := c.createBlock env miner now
  match block.mine env maxNonce with
  -- A search that ends the program, or that finds nothing.
  | none | some (false, _) => (none, c)
  | some (true, mined) =>
    match c.addBlock mined with
    | (false, c) => (none, c)
    | (true, c) => (some mined, c)

/-- The amount and the fee are finite numbers. -/
def Transaction.Finite (tx : Transaction) : Prop := tx.amount.isFinite = true ∧ tx.fee.isFinite = true

/-- The transaction that an operation brings in has finite numbers. -/
def Op.Finite : Op → Prop
  | .addTransaction tx _ => tx.Finite
  | .round _ _ _ => True

/-- The hash of the transaction that an operation brings in. -/
def Op.txHash (env : Env) : Op → String
  | .addTransaction tx _ => tx.txHash
  | .round miner _ now => (Transaction.createCoinbase env now miner reward).txHash

/-- What a transaction adds to the balance of an address in the replay. `SYSTEM` is not debited. -/
def replayCredit (a : CString) (tx : Transaction) : ℚ :=
  (if CString.bind tx.toAddress = a then tx.amount.value else 0) -
    (if CString.bind tx.fromAddress = a ∧ a ≠ .bind "SYSTEM" then tx.amount.value + tx.fee.value else 0)

namespace Ledger

def start (now : Int64) : Ledger where
  chain := .genesis now
  accepted := []

def step (env : Env) (s : Ledger) : Op → Ledger
  | .addTransaction tx now => { s with chain := (s.chain.addTransaction env tx now).2 }
  | .round miner maxNonce now =>
    let (block, chain) := s.chain.round env miner maxNonce now
    { chain, accepted := s.accepted ++ block.toList }

/-- The balance of an address after the genesis transaction and those of the accepted blocks. -/
def replay (env : Env) (now : Int64) (s : Ledger) (a : CString) : ℚ :=
  (((genesisTransaction now).written env :: s.accepted.flatMap (·.transactions)).map (replayCredit a)).sum

/-- The store and the replay agree on every address but `SYSTEM`. -/
def Settled (env : Env) (now : Int64) (s : Ledger) : Prop :=
  ∀ a : String, CString.bind a ≠ .bind "SYSTEM" → (s.chain.getBalance a).1.Equals (.number (s.replay env now (.bind a)))

end Ledger

namespace Blockchain

/-- The transactions that `createBlock` takes from the mempool. -/
def selected (c : Blockchain) : List Transaction := (selectTransactions c.mempool c.mempoolByPriority.elems c.db 0).1

/-- The block of a round is mined and fits on the chain. -/
def Lands (env : Env) (c : Blockchain) (miner : String) (maxNonce : Int32) (now : Int64) : Prop :=
  ∃ mined, (c.createBlock env miner now).1.search env 0 maxNonce.toInt.toNat = some mined ∧
    (c.createBlock env miner now).2.Appends mined

/-- The condition on an operation. No admitted transaction may count as confirmed already, for the replay
    takes it from a block; and the transactions that an accepted block takes from the mempool must cancel out,
    for they stay pending. -/
def Settles (env : Env) (c : Blockchain) : Op → Prop
  | .addTransaction tx _ =>
    c.Admits tx → cText tx.status = "confirmed" →
      ∀ a : String, CString.bind a ≠ .bind "SYSTEM" → LedgerDB.entry (.bind a) (tx.row none) = 0
  | .round miner maxNonce now =>
    c.Lands env miner maxNonce now →
      ∀ a : String, CString.bind a ≠ .bind "SYSTEM" → (c.selected.map (replayCredit (.bind a))).sum = 0

end Blockchain

/-! ### One step -/

namespace LedgerDB

theorem effect_of_pending {tx : Transaction} (a : CString) (h : cText tx.status ≠ "confirmed")
    (blockHeight : Option Int32) : effect a (tx.row blockHeight) = 0 := by
  have hconf : (tx.row blockHeight).confirmed = false := beq_eq_false_iff_ne.mpr h
  simp [effect, hconf]

theorem effect_of_confirmed {tx : Transaction} (a : CString) (h : cText tx.status = "confirmed")
    (blockHeight : Option Int32) : effect a (tx.row blockHeight) = entry a (tx.row none) := by
  have hconf : (tx.row blockHeight).confirmed = true := beq_iff_eq.mpr h
  simp only [effect, hconf, if_true]
  rfl

/-- For a confirmed transaction from `SYSTEM` the view and the replay agree on every other address. -/
theorem entry_of_system {tx : Transaction} {a : CString} (hfrom : tx.fromAddress = "SYSTEM")
    (ha : a ≠ .bind "SYSTEM") : entry a (tx.row none) = replayCredit a tx := by
  have hnot : CString.bind tx.fromAddress ≠ a := by
    rw [hfrom]
    exact ha.symm
  simp [entry, replayCredit, Transaction.row, hnot, Double.value_stored]

theorem finite_row {tx : Transaction} (h : tx.Finite) (blockHeight : Option Int32) :
    (tx.row blockHeight).amount.val.isFinite = true ∧ (tx.row blockHeight).fee.val.isFinite = true :=
  h.imp Double.isFinite_stored.mpr Double.isFinite_stored.mpr

end LedgerDB

namespace Blockchain
variable {env : Env} {c : Blockchain}

/-- No insert would take a mempool transaction: each one was tried when it was admitted. -/
def Tried (c : Blockchain) : Prop := ∀ k tx, c.mempool.lookup k = some tx → c.db.Unstorable tx

theorem Tried.of_within {d : Blockchain} (h : c.Tried) (hwithin : d.Within c)
    (hrows : c.db.transactions.rows ⊆ d.db.transactions.rows) : d.Tried := fun k tx hk =>
  (h k tx (hwithin k tx hk)).mono hrows

theorem unstorable_congr {db db' : LedgerDB} {tx : Transaction} (h : db'.transactions = db.transactions) :
    db'.Unstorable tx ↔ db.Unstorable tx := by
  unfold LedgerDB.Unstorable
  rw [h]

theorem addTransaction_tried (env : Env) (tx : Transaction) (now : Int64) (h : c.Tried) :
    (c.addTransaction env tx now).2.Tried := by
  intro k x hk
  by_cases ha : c.Admits tx
  · obtain ⟨hrows, hmempool⟩ := addTransaction_of_admits env now ha
    rw [unstorable_congr hrows]
    rcases hmempool k x hk with hold | rfl
    · exact (h k x hold).mono (LedgerDB.subset_addTransaction c.db tx (-1))
    · exact LedgerDB.unstorable_addTransaction c.db x (-1)
  · obtain ⟨hrows, hmempool⟩ := addTransaction_of_not_admits env now ha
    rw [unstorable_congr hrows]
    exact h k x (hmempool ▸ hk)

theorem transactions_createBlock (env : Env) (c : Blockchain) (miner : String) (now : Int64) :
    (c.createBlock env miner now).1.transactions = Transaction.createCoinbase env now miner reward :: c.selected := rfl

theorem round_of_lands {miner : String} {maxNonce : Int32} {now : Int64} {mined : Block}
    (hmined : (c.createBlock env miner now).1.search env 0 maxNonce.toInt.toNat = some mined)
    (happends : (c.createBlock env miner now).2.Appends mined) :
    c.round env miner maxNonce now = (some mined, ((c.createBlock env miner now).2.addBlock mined).2) := by
  have haccepted := (addBlock_of_appends happends).1
  unfold round
  simp only [Block.mine_of_some hmined]
  rcases hadd : (c.createBlock env miner now).2.addBlock mined with ⟨_ | _, d⟩
  · rw [hadd] at haccepted
    cases haccepted
  · rfl

theorem round_of_not_lands {miner : String} {maxNonce : Int32} {now : Int64} (h : ¬c.Lands env miner maxNonce now) :
    c.round env miner maxNonce now = (none, (c.createBlock env miner now).2) := by
  unfold round
  cases hsearch : (c.createBlock env miner now).1.search env 0 maxNonce.toInt.toNat with
  | none =>
    rcases Block.mine_of_none hsearch with hmine | ⟨left, hmine⟩
    · simp only [hmine]
    · simp only [hmine]
  | some mined =>
    have hrefused := addBlock_of_not_appends fun happends => h ⟨mined, hsearch, happends⟩
    simp only [Block.mine_of_some hsearch, hrefused]

theorem effect_coinbase {miner : String} {now : Int64} {a : CString} (ha : a ≠ .bind "SYSTEM")
    (blockHeight : Option Int32) :
    LedgerDB.effect a ((Transaction.createCoinbase env now miner reward).row blockHeight) =
      replayCredit a (Transaction.createCoinbase env now miner reward) := by
  have hconf : cText (Transaction.createCoinbase env now miner reward).status = "confirmed" := cText_confirmed
  have hfrom : (Transaction.createCoinbase env now miner reward).fromAddress = "SYSTEM" := rfl
  rw [LedgerDB.effect_of_confirmed a hconf, LedgerDB.entry_of_system hfrom ha]

theorem storable_coinbase {db : LedgerDB} {miner : String} {now : Int64}
    (h : CString.bind (Transaction.createCoinbase env now miner reward).txHash ∉
      db.transactions.rows.map (·.txHash)) : ¬db.Unstorable (Transaction.createCoinbase env now miner reward) := by
  unfold LedgerDB.Unstorable
  rw [Bool.not_eq_false, LedgerDB.fits_txRow_iff]
  refine ⟨?_, h⟩
  simp [transactionsSchema, Transaction.row, Transaction.createCoinbase]
  exact ⟨by decide, by decide⟩

/-- The rows after a round that lands: the coinbase is the only new one. -/
theorem rows_of_lands {miner : String} {maxNonce : Int32} {now : Int64} {mined : Block} (htried : c.Tried)
    (hfresh : CString.bind (Transaction.createCoinbase env now miner reward).txHash ∉
      c.db.transactions.rows.map (·.txHash))
    (hmined : (c.createBlock env miner now).1.search env 0 maxNonce.toInt.toNat = some mined)
    (happends : (c.createBlock env miner now).2.Appends mined) :
    mined.transactions = Transaction.createCoinbase env now miner reward :: c.selected ∧
      ∃ blockHeight, (c.round env miner maxNonce now).2.db.transactions.rows =
        c.db.transactions.rows ++ [(Transaction.createCoinbase env now miner reward).row blockHeight] := by
  have htxs : mined.transactions = Transaction.createCoinbase env now miner reward :: c.selected := by
    obtain ⟨k, rfl, -⟩ := Block.search_eq_some hmined
    exact transactions_createBlock env c miner now
  refine ⟨htxs, if 0 ≤ mined.height then some mined.height else none, ?_⟩
  rw [round_of_lands hmined happends]
  simp only
  rw [(addBlock_of_appends happends).2.2, LedgerDB.addTransactions_congr (createBlock_transactions env c miner now),
    htxs, LedgerDB.addTransactions_cons]
  have hcoinbase :
      (c.db.addTransaction (Transaction.createCoinbase env now miner reward) mined.height).2.transactions.rows =
        c.db.transactions.rows ++ [(Transaction.createCoinbase env now miner reward).row
        (if 0 ≤ mined.height then some mined.height else none)] :=
    LedgerDB.addTransaction_of_storable (storable_coinbase hfresh)
  rw [LedgerDB.addTransactions_of_unstorable, hcoinbase]
  intro tx htx
  obtain ⟨p, -, hlookup⟩ := mem_selectTransactions c.mempool htx
  refine (htried _ tx hlookup).mono ?_
  rw [hcoinbase]
  exact List.subset_append_left _ _

theorem round_within (env : Env) (c : Blockchain) (miner : String) (maxNonce : Int32) (now : Int64) :
    (c.round env miner maxNonce now).2.Within c := by
  by_cases h : c.Lands env miner maxNonce now
  · obtain ⟨mined, hmined, happends⟩ := h
    rw [round_of_lands hmined happends]
    exact fun k tx hk => createBlock_within env c miner now k tx (addBlock_within _ mined k tx hk)
  · rw [round_of_not_lands h]
    exact createBlock_within env c miner now

end Blockchain

/-! ### Runs -/

namespace Ledger
variable {env : Env} {s : Ledger} {op : Op} {ops : List Op}

/-- What holds before the operations that are left: every mempool transaction was tried, the hashes to come are new
    and distinct, and all numbers are finite. -/
structure Ready (env : Env) (s : Ledger) (ops : List Op) : Prop where
  tried : s.chain.Tried
  finite : s.chain.db.Finite
  numbers : ∀ op ∈ ops, op.Finite
  fresh : ∀ op ∈ ops, CString.bind (op.txHash env) ∉ s.chain.db.transactions.rows.map (·.txHash)
  distinct : (ops.map fun op => CString.bind (op.txHash env)).Nodup

theorem Ready.fresh_coinbase {miner : String} {maxNonce : Int32} {now : Int64}
    (h : s.Ready env (.round miner maxNonce now :: ops)) :
    CString.bind (Transaction.createCoinbase env now miner reward).txHash ∉
      s.chain.db.transactions.rows.map (·.txHash) :=
  h.fresh (.round miner maxNonce now) List.mem_cons_self

/-- An operation adds at most one row, that of its own transaction. -/
theorem step_rows (h : s.Ready env (op :: ops)) :
    (s.step env op).chain.db.transactions.rows = s.chain.db.transactions.rows ∨
      ∃ t : TransactionRow, t.txHash = .bind (op.txHash env) ∧
        (t.amount.val.isFinite = true ∧ t.fee.val.isFinite = true) ∧
        (s.step env op).chain.db.transactions.rows = s.chain.db.transactions.rows ++ [t] := by
  cases op with
  | addTransaction tx now =>
    by_cases ha : s.chain.Admits tx
    · have hrows := (addTransaction_of_admits env now ha).1
      rcases LedgerDB.addTransaction_rows s.chain.db tx (-1) with hr | hr
      · exact Or.inl (by rw [step, hrows, hr])
      · exact Or.inr ⟨tx.row _, rfl, LedgerDB.finite_row (h.numbers _ List.mem_cons_self) _, by rw [step, hrows, hr]⟩
    · exact Or.inl (by rw [step, (addTransaction_of_not_admits env now ha).1])
  | round miner maxNonce now =>
    by_cases hl : s.chain.Lands env miner maxNonce now
    · obtain ⟨mined, hmined, happends⟩ := hl
      obtain ⟨-, blockHeight, hrows⟩ := rows_of_lands h.tried h.fresh_coinbase hmined happends
      exact Or.inr ⟨_, rfl, LedgerDB.finite_row ⟨rfl, rfl⟩ _, hrows⟩
    · refine Or.inl ?_
      simp only [step, round_of_not_lands hl]
      rw [createBlock_transactions]

theorem step_ready (h : s.Ready env (op :: ops)) : (s.step env op).Ready env ops := by
  have hrows := step_rows h
  have hsub : s.chain.db.transactions.rows ⊆ (s.step env op).chain.db.transactions.rows := by
    rcases hrows with hr | ⟨t, -, -, hr⟩
    · rw [hr]
      exact List.Subset.refl _
    · rw [hr]
      exact List.subset_append_left _ _
  have hnodup := List.nodup_cons.mp h.distinct
  refine ⟨?_, ?_, fun x hx => h.numbers x (List.mem_cons_of_mem _ hx), fun x hx hmem => ?_, hnodup.2⟩
  · cases op with
    | addTransaction tx now => exact addTransaction_tried env tx now h.tried
    | round miner maxNonce now => exact h.tried.of_within (round_within env s.chain miner maxNonce now) hsub
  · rcases hrows with hr | ⟨t, -, ht, hr⟩
    · exact fun x hx => h.finite x (hr ▸ hx)
    · exact h.finite.append hr fun _ => ht
  · have hold := h.fresh x (List.mem_cons_of_mem _ hx)
    rcases hrows with hr | ⟨t, ht, -, hr⟩
    · rw [hr] at hmem
      exact hold hmem
    · rw [hr, List.map_append, List.mem_append] at hmem
      rcases hmem with hmem | hmem
      · exact hold hmem
      · exact hnodup.1 (List.mem_map.mpr ⟨x, hx, (List.mem_singleton.mp hmem).trans ht⟩)

theorem settled_iff (hexact : Arithmetic.Exact) {now : Int64} (hfinite : s.chain.db.Finite) :
    s.Settled env now ↔ ∀ a : String, CString.bind a ≠ .bind "SYSTEM" →
      (s.chain.db.viewBalance (.bind a)).value = s.replay env now (.bind a) := by
  refine forall₂_congr fun a _ => ?_
  show (s.chain.db.getBalance a).1.Equals _ ↔ _
  rw [LedgerDB.getBalance_fst, Double.equals_number_iff,
    and_iff_right (LedgerDB.viewBalance_exact hexact hfinite (.bind a)).1]

theorem replay_append {now : Int64} {chain : Blockchain} {b : Block} (a : CString) :
    replay env now { chain, accepted := s.accepted ++ [b] } a =
      s.replay env now a + (b.transactions.map (replayCredit a)).sum := by
  simp [replay, add_assoc]

theorem settled_addTransaction_iff (hexact : Arithmetic.Exact) {now t : Int64} {tx : Transaction}
    (h : s.Ready env (.addTransaction tx t :: ops)) (hs : s.Settled env now) :
    (s.step env (.addTransaction tx t)).Settled env now ↔ s.chain.Settles env (.addTransaction tx t) := by
  have hfinite := (step_ready h).finite
  rw [settled_iff hexact h.finite] at hs
  rw [settled_iff hexact hfinite]
  have hreplay : ∀ a, (s.step env (.addTransaction tx t)).replay env now a = s.replay env now a := fun _ => rfl
  by_cases ha : s.chain.Admits tx
  · obtain ⟨hdb, -⟩ := addTransaction_of_admits env t ha
    have hview : ∀ a, (s.step env (.addTransaction tx t)).chain.db.viewBalance a =
        (s.chain.db.addTransaction tx (-1)).2.viewBalance a := LedgerDB.viewBalance_congr hdb
    have hfinite' : (s.chain.db.addTransaction tx (-1)).2.Finite := hfinite.congr hdb.symm
    by_cases hconf : cText tx.status = "confirmed"
    · -- The new row counts at once.
      have hstorable : ¬s.chain.db.Unstorable tx := by
        unfold LedgerDB.Unstorable
        rw [Bool.not_eq_false, LedgerDB.fits_txRow_iff]
        refine ⟨?_, h.fresh (.addTransaction tx t) List.mem_cons_self⟩
        obtain ⟨hamount, hfee⟩ := h.numbers (.addTransaction tx t) List.mem_cons_self
        have hpositive := (Double.not_le_iff (Double.isNaN_of_isFinite hamount) rfl).mp ha.1
        have hnonneg := (Double.not_lt_iff (Double.isNaN_of_isFinite hfee) rfl).mp ha.2.1
        simp [transactionsSchema, Transaction.row, hpositive, hnonneg, hconf]
      have hbalance : ∀ a, ((s.step env (.addTransaction tx t)).chain.db.viewBalance a).value =
          (s.chain.db.viewBalance a).value + LedgerDB.entry a (tx.row none) := by
        intro a
        rw [hview, LedgerDB.viewBalance_append hexact hfinite' (LedgerDB.addTransaction_of_storable hstorable),
          LedgerDB.effect_of_confirmed a hconf]
      simp only [hbalance, hreplay, Settles]
      constructor
      · intro hnext _ _ a hsys
        have := hnext a hsys
        rw [hs a hsys] at this
        exact left_eq_add.mp this.symm
      · intro hzero a hsys
        rw [hzero ha hconf a hsys, hs a hsys, add_zero]
    · refine iff_of_true (fun a hsys => ?_) fun _ hconf' => absurd hconf' hconf
      rw [hreplay, ← hs a hsys, hview]
      rcases LedgerDB.addTransaction_rows s.chain.db tx (-1) with hr | hr
      · rw [(LedgerDB.viewBalance_exact hexact hfinite' _).2, (LedgerDB.viewBalance_exact hexact h.finite _).2, hr]
      · rw [LedgerDB.viewBalance_append hexact hfinite' hr, LedgerDB.effect_of_pending _ hconf, add_zero]
  · refine iff_of_true (fun a hsys => ?_) fun ha' => absurd ha' ha
    rw [hreplay, ← hs a hsys]
    exact congrArg Double.value (LedgerDB.viewBalance_congr (addTransaction_of_not_admits env t ha).1 _)

theorem settled_round_iff (hexact : Arithmetic.Exact) {now t : Int64} {miner : String} {maxNonce : Int32}
    (h : s.Ready env (.round miner maxNonce t :: ops)) (hs : s.Settled env now) :
    (s.step env (.round miner maxNonce t)).Settled env now ↔ s.chain.Settles env (.round miner maxNonce t) := by
  have hfinite := (step_ready h).finite
  rw [settled_iff hexact h.finite] at hs
  rw [settled_iff hexact hfinite]
  by_cases hl : s.chain.Lands env miner maxNonce t
  · obtain ⟨mined, hmined, happends⟩ := id hl
    obtain ⟨htxs, blockHeight, hrows⟩ := rows_of_lands h.tried h.fresh_coinbase hmined happends
    have hbalance : ∀ a, a ≠ CString.bind "SYSTEM" →
        ((s.step env (.round miner maxNonce t)).chain.db.viewBalance a).value =
          (s.chain.db.viewBalance a).value + replayCredit a (Transaction.createCoinbase env t miner reward) := by
      intro a hsys
      rw [LedgerDB.viewBalance_append hexact hfinite hrows, effect_coinbase hsys]
    have hreplay : ∀ a, (s.step env (.round miner maxNonce t)).replay env now a = s.replay env now a +
        (replayCredit a (Transaction.createCoinbase env t miner reward) +
          (s.chain.selected.map (replayCredit a)).sum) := by
      intro a
      simp only [step, round_of_lands hmined happends, Option.toList_some, replay_append, htxs, List.map_cons,
        List.sum_cons]
    -- Both sides take the coinbase; only the replay takes the rest of the block.
    refine ⟨fun hnext _ a hsys => ?_, fun hzero a hsys => ?_⟩
    · have := hnext a hsys
      rw [hbalance _ hsys, hreplay, hs a hsys, ← add_assoc] at this
      exact left_eq_add.mp this
    · rw [hbalance _ hsys, hreplay, hs a hsys, hzero hl a hsys, add_zero]
  · refine iff_of_true (fun a hsys => ?_) fun hl' => absurd hl' hl
    simp only [step, round_of_not_lands hl, Option.toList_none, List.append_nil]
    rw [LedgerDB.viewBalance_congr (createBlock_transactions env s.chain miner t)]
    exact hs a hsys

theorem settled_step_iff (hexact : Arithmetic.Exact) {now : Int64} (h : s.Ready env (op :: ops)) (hs : s.Settled env now) :
    (s.step env op).Settled env now ↔ s.chain.Settles env op := by
  cases op with
  | addTransaction tx t => exact settled_addTransaction_iff hexact h hs
  | round miner maxNonce t => exact settled_round_iff hexact h hs

theorem finite_start (now : Int64) : (start now).chain.db.Finite := by
  intro t ht _
  rw [List.mem_singleton.mp ht]
  exact ⟨rfl, rfl⟩

theorem ready_start (now : Int64) (hnumbers : ∀ op ∈ ops, op.Finite)
    (h : ((zeroHash :: ops.map (·.txHash env)).map CString.bind).Nodup) : (start now).Ready env ops := by
  rw [List.map_cons, List.nodup_cons, List.map_map] at h
  refine ⟨fun k tx hk => by simp [start, genesis] at hk, finite_start now, hnumbers, fun op hop hmem => h.1 ?_, h.2⟩
  have heq : CString.bind (op.txHash env) = CString.bind zeroHash := List.mem_singleton.mp hmem
  rw [← heq]
  exact List.mem_map.mpr ⟨op, hop, rfl⟩

theorem settled_start (hexact : Arithmetic.Exact) (env : Env) (now : Int64) : (start now).Settled env now := by
  rw [settled_iff hexact (finite_start now)]
  intro a hsys
  have hgenesis : LedgerDB.effect (.bind a) (genesisTransaction now) =
      replayCredit (.bind a) ((genesisTransaction now).written env) := by
    have hconf : (genesisTransaction now).confirmed = true := beq_iff_eq.mpr cText_confirmed
    have hfrom : ¬(genesisTransaction now).fromAddress = CString.bind a := fun heq => hsys heq.symm
    simp [LedgerDB.effect, hconf, LedgerDB.entry, replayCredit, TransactionRow.written, hfrom]
  rw [(LedgerDB.viewBalance_exact hexact (finite_start now) _).2]
  simp [start, genesis, LedgerDB.schema, replay, hgenesis]

/-- With distinct transaction hashes and exact numbers the balances of a run always agree with the replay of the
    chain exactly when every operation meets its condition. -/
theorem ledger_settlement_iff (hexact : Arithmetic.Exact) (env : Env) (now : Int64) (ops : List Op)
    (hnumbers : ∀ op ∈ ops, op.Finite) (hdistinct : ((zeroHash :: ops.map (·.txHash env)).map CString.bind).Nodup) :
    (∀ s ∈ Transition.states (step env) (start now) ops, s.Settled env now) ↔
      ∀ x ∈ Transition.steps (step env) (start now) ops, x.1.chain.Settles env x.2 :=
  Transition.forall_states_iff (I := Ready env) (P := Settled env now)
    (C := fun s op => s.chain.Settles env op) (fun _ _ _ h => step_ready h) (fun _ _ _ h => settled_step_iff hexact h)
    (ready_start now hnumbers hdistinct) (settled_start hexact env now)

end Ledger

end

namespace Ledger

attribute [local instance] Arithmetic.unrounded

/-- The payment of the sample run, and the round that takes it into a block. -/
def sampleOps : List Op :=
  [.addTransaction
      { txHash := Node.sampleTxHash
        fromAddress := "genesis_miner"
        toAddress := "alice"
        amount := 10
        fee := Node.thousandth
        signature := "http_sig"
        timestamp := 1700000000
        data := ""
        status := "pending"
        nonce := 1 } 1700000000,
    .round "alpha" 1000000 1700143364]

theorem finite_sampleOps : ∀ op ∈ sampleOps, op.Finite := by
  simp [sampleOps, Op.Finite, Transaction.Finite]
  exact ⟨rfl, rfl⟩

theorem distinct_sampleOps :
    ((zeroHash :: sampleOps.map (·.txHash Node.sampleEnv)).map CString.bind).Nodup := by
  decide +kernel

theorem ledger_settlement_iff_sampleOps :
    (∀ s ∈ Transition.states (step Node.sampleEnv) (start 1700000000) sampleOps, s.Settled Node.sampleEnv 1700000000) ↔
      ∀ x ∈ Transition.steps (step Node.sampleEnv) (start 1700000000) sampleOps,
        x.1.chain.Settles Node.sampleEnv x.2 :=
  ledger_settlement_iff Arithmetic.exact_unrounded Node.sampleEnv 1700000000 sampleOps finite_sampleOps
    distinct_sampleOps

/-- After the sample run the chain has paid `alice` 10 and her balance is 0. -/
theorem payment_not_settled :
    Arithmetic.Exact ∧ (∀ op ∈ sampleOps, op.Finite) ∧
      ((zeroHash :: sampleOps.map (·.txHash Node.sampleEnv)).map CString.bind).Nodup ∧
      ¬∀ s ∈ Transition.states (step Node.sampleEnv) (start 1700000000) sampleOps,
        s.Settled Node.sampleEnv 1700000000 := by
  refine ⟨Arithmetic.exact_unrounded, finite_sampleOps, distinct_sampleOps, fun h => ?_⟩
  have hlast := h _ (Transition.foldl_mem_states (step Node.sampleEnv) (start 1700000000) sampleOps) "alice"
    (by decide +kernel)
  revert hlast
  decide +kernel

end Ledger

end NexusLedger
