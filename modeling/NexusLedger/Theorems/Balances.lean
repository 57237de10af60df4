import NexusLedger.Theorems.SharedLedger
import Mathlib.Data.Int.Interval

/-! What moves the balances of a network. A payment is stored as pending when it is admitted and never becomes
    confirmed, so each node knows of the opening balance and of rewards for blocks of its own. -/

namespace NexusLedger
open Blockchain

section
set_option linter.unusedSectionVars false
variable [Arithmetic]

/-! ### Confirmed rows of a node -/

namespace Blockchain
variable {env : Env} {c d : Blockchain} {b : Block} {op : Operation} {miner : String} {started : Int64}

/-- A row that pays the reward of a block. -/
structure Minted (miner : String) (t : TransactionRow) : Prop where
  fromAddress : t.fromAddress = .bind "SYSTEM"
  toAddress : t.toAddress = .bind miner
  amount : t.amount.val = reward
  fee : t.fee.val = 0

/-- The reward as a transaction. -/
structure Coinbase (miner : String) (tx : Transaction) : Prop where
  system : tx.fromAddress = "SYSTEM"
  plain : cText tx.data ≠ "confirmed"
  minted : ∀ height, Minted miner (tx.row height)

theorem coinbase_createCoinbase (env : Env) (now : Int64) (miner : String) :
    Coinbase miner (.createCoinbase env now miner reward) where
  system := rfl
  plain := by
    show cText "Coinbase" ≠ "confirmed"
    decide +kernel
  minted _ := ⟨rfl, rfl, rfl, rfl⟩

/-- The transactions of a block that a node made: its own reward, and others that are not confirmed. -/
def Payout (miner : String) (txs : List Transaction) : Prop :=
  ∃ coinbase, Coinbase miner coinbase ∧ ∀ tx ∈ txs, tx = coinbase ∨ Unconfirmed tx

theorem payout_nil (env : Env) (miner : String) : Payout miner [] :=
  ⟨_, coinbase_createCoinbase env 0 miner, fun _ htx => absurd htx List.not_mem_nil⟩

/-- The confirmed rows are that of genesis and rewards of the node, one for each height. -/
structure Funded (started : Int64) (miner : String) (c : Blockchain) : Prop where
  accounted : c.Accounted started
  minted : ∀ t ∈ c.db.transactions.rows, t.confirmed = true → t = genesisTransaction started ∨ Minted miner t
  once : ∀ t ∈ c.db.transactions.rows, ∀ u ∈ c.db.transactions.rows, t.confirmed = true → u.confirmed = true →
    t.blockHeight = u.blockHeight → t = u

theorem funded_genesis (miner : String) (now : Int64) : (genesis now).Funded now miner where
  accounted := accounted_genesis now
  minted _ ht _ := Or.inl (List.mem_singleton.mp ht)
  once _ ht _ hu _ _ _ := (List.mem_singleton.mp ht).trans (List.mem_singleton.mp hu).symm

/-- No new confirmed rows. -/
theorem Funded.of_subset (h : c.Funded started miner) (hd : d.Accounted started)
    (hsub : ∀ t ∈ d.db.transactions.rows, t.confirmed = true → t ∈ c.db.transactions.rows) :
    d.Funded started miner where
  accounted := hd
  minted t ht hconf := h.minted t (hsub t ht hconf) hconf
  once t ht u hu htc huc := h.once t (hsub t ht htc) u (hsub u hu huc) htc huc

theorem Payout.ordinary {txs : List Transaction} (h : Payout miner txs) : Ordinary txs := by
  obtain ⟨coinbase, hcoinbase, htxs⟩ := h
  intro tx htx
  rcases htxs tx htx with rfl | ⟨hstatus, hplain⟩
  · exact ⟨fun _ => hcoinbase.system, hcoinbase.plain⟩
  · exact ⟨fun hconf => absurd hconf hstatus, hplain⟩

/-- A confirmed row stands at genesis or at the height of a stored block. -/
theorem Accounted.height_of_confirmed (h : c.Accounted started) {t : TransactionRow}
    (ht : t ∈ c.db.transactions.rows) (hconf : t.confirmed = true) :
    ∃ height, t.blockHeight = some height ∧ height.toInt ≤ c.getHeight.toInt := by
  obtain ⟨rest, heq, hrest⟩ := h.rows
  rw [heq] at ht
  rcases List.mem_cons.mp ht with rfl | ht
  · exact ⟨0, rfl, h.chained.getHeight_nonneg⟩
  · obtain ⟨-, r, hr, hback, -⟩ := hrest t ht hconf
    exact ⟨r.height, hback, height_le hr⟩

/-- A block of the node's own brings at most one confirmed row, at a height that has none. -/
theorem Funded.addBlock (env : Env) (h : c.Funded started miner) (hb : Payout miner b.transactions) :
    (c.addBlock b).2.Funded started miner := by
  have haccounted := addBlock_accounted env h.accounted hb.ordinary
  by_cases ha : c.Appends b
  · obtain ⟨-, -, hdb⟩ := addBlock_of_appends ha
    obtain ⟨added, hadded, horigin⟩ := LedgerDB.addTransactions_append c.db b.transactions b.height
    obtain ⟨coinbase, hcoinbase, htxs⟩ := hb
    have hrows : (c.addBlock b).2.db.transactions.rows = c.db.transactions.rows ++ added := by rw [hdb, hadded]
    have hnonneg : 0 ≤ b.height := by
      have := h.accounted.chained.getHeight_nonneg
      have := ha.above
      rw [Int32.le_iff_toInt_le]
      show (0 : ℤ) ≤ b.height.toInt
      omega
    -- What is new and confirmed is the row of the reward.
    have hnew : ∀ t ∈ added, t.confirmed = true → t = coinbase.row (some b.height) := by
      intro t ht hconf
      obtain ⟨tx, htx, -, rfl⟩ := horigin t ht
      rw [if_pos hnonneg] at hconf ⊢
      rcases htxs tx htx with rfl | hplain
      · rfl
      · exact absurd (confirmed_row.mp hconf) hplain.1
    have hold : ∀ t ∈ c.db.transactions.rows, t.confirmed = true → t.blockHeight ≠ some b.height := by
      intro t ht hconf heq
      obtain ⟨height, hback, hle⟩ := h.accounted.height_of_confirmed ht hconf
      rw [hback, Option.some.injEq] at heq
      have habove := ha.above
      rw [heq] at hle
      omega
    refine ⟨haccounted, fun t ht hconf => ?_, fun t ht u hu htc huc heq => ?_⟩
    · rw [hrows] at ht
      rcases List.mem_append.mp ht with ht | ht
      · exact h.minted t ht hconf
      · exact Or.inr (hnew t ht hconf ▸ hcoinbase.minted _)
    · rw [hrows] at ht hu
      rcases List.mem_append.mp ht with ht | ht
      · rcases List.mem_append.mp hu with hu | hu
        · exact h.once t ht u hu htc huc heq
        · rw [hnew u hu huc] at heq
          exact absurd heq (hold t ht htc)
      · rcases List.mem_append.mp hu with hu | hu
        · rw [hnew t ht htc] at heq
          exact absurd heq.symm (hold u hu huc)
        · rw [hnew t ht htc, hnew u hu huc]
  · rw [addBlock_of_not_appends ha]
    exact h

/-- An operation whose confirmed transactions are rewards of the node. -/
def Operation.Pays (miner : String) : Operation → Prop
  | .addTransaction tx _ => Unconfirmed tx
  | .call (.addBlock b) => Payout miner b.transactions
  | .call (.replaceLastBlock b _) => b.transactions = [] ∧ 1 ≤ b.height.toInt ∧ b.difficulty.isNaN = false
  | _ => True

theorem Operation.Pays.sound (h : op.Pays miner) : op.Sound := by
  cases op with
  | call k =>
    cases k with
    | addBlock b => exact Payout.ordinary h
    | replaceLastBlock b now => exact h
  | addTransaction tx now => exact h
  | _ => trivial

/-- Every other operation leaves the confirmed rows or deletes some. -/
theorem Funded.operate (env : Env) (h : c.Funded started miner) (hop : op.Pays miner) :
    (operate env c op).Funded started miner := by
  have haccounted : (Blockchain.operate env c op).Accounted started := h.accounted.operate env hop.sound
  have hkept : ∀ {R : TransactionRow → Prop}, (R = fun t => t.confirmed = true → t ∈ c.db.transactions.rows) →
      Brings env R Unconfirmed c op → (Blockchain.operate env c op).Funded started miner := by
    rintro R rfl hbrings
    have hholds : c.Holds (fun t => t.confirmed = true → t ∈ c.db.transactions.rows) Unconfirmed :=
      ⟨fun t ht _ => ht, h.accounted.held.pool⟩
    refine h.of_subset haccounted (hholds.operate (fun tx htx hconf => ?_) hbrings).rows
    exact absurd (confirmed_row.mp hconf) htx.1
  cases op with
  | addTransaction tx now => exact hkept rfl fun _ => hop
  | call k =>
    cases k with
    | addBlock b => exact h.addBlock env hop
    | replaceLastBlock b now =>
      refine hkept rfl fun _ _ => ⟨fun tx htx => ?_, fun tx htx _ => ?_⟩
      · rw [hop.1] at htx
        cases htx
      · exact h.accounted.unconfirmed_getTransactionsByBlock env _ tx htx
  | _ => exact hkept rfl trivial

/-! ### The balances -/

/-- What an amount that `SYSTEM` pays to one address adds to the balance of an address. -/
def issued (amount : ℚ) (receiver : String) (a : CString) : ℚ :=
  if .bind receiver = a then amount else if .bind "SYSTEM" = a then -amount else 0

theorem effect_of_minted {t : TransactionRow} (h : Minted miner t) (hconf : t.confirmed = true) (a : CString) :
    LedgerDB.effect a t = issued reward.value miner a := by
  have hfee : (0 : Double).value = 0 := rfl
  rw [LedgerDB.effect, if_pos hconf, LedgerDB.entry, issued, h.toAddress, h.fromAddress, h.amount, h.fee, hfee, sub_zero]

/-- A row without a fee, of at most the opening amount. -/
def Plainly (t : TransactionRow) : Prop :=
  t.amount.val.Integral ∧ |t.amount.val.value| ≤ 10000 ∧ t.fee.val = 0

/-- Its amount is added or taken as it is. -/
theorem credit_of_plainly (hcounts : Arithmetic.Counts) {t : TransactionRow} (h : Plainly t) (a : CString) :
    (LedgerDB.credit a t).Integral ∧ (LedgerDB.credit a t).value = LedgerDB.entry a t ∧
      |(LedgerDB.credit a t).value| ≤ 10000 := by
  obtain ⟨hamount, hsmall, hfee⟩ := h
  have hzero : (0 : Double).Integral := ⟨rfl, 0, rfl⟩
  unfold LedgerDB.credit LedgerDB.entry
  split
  · exact ⟨hamount, rfl, hsmall⟩
  · split
    · obtain ⟨hfinite, n, hn⟩ := hamount
      have hminus : (-t.amount.val).Integral :=
        ⟨(Double.isFinite_neg _).trans hfinite, -n, by rw [Double.value_neg, hn, Int.cast_neg]⟩
      have hfree : (-t.fee.val).Integral ∧ (-t.fee.val).value = 0 := by
        rw [hfee]
        exact ⟨⟨rfl, 0, rfl⟩, rfl⟩
      have hvalue : (-t.amount.val).value = -t.amount.val.value := Double.value_neg _
      obtain ⟨hsum, htotal⟩ := hcounts.add hminus hfree.1 (by
        rw [hvalue, hfree.2, abs_neg, abs_zero]
        linarith)
      rw [hvalue, hfree.2, add_zero] at htotal
      refine ⟨⟨hsum, -n, ?_⟩, ?_, ?_⟩
      · rw [htotal, hn, Int.cast_neg]
      · rw [htotal, hfee]
        exact (sub_zero _).symm
      · rw [htotal, abs_neg]
        exact hsmall
    · exact ⟨hzero, rfl, show |(0 : ℚ)| ≤ 10000 by norm_num⟩

/-- There is a block for each height at most. -/
theorem rows_length_le (c : Blockchain) : c.rows.length ≤ 2 ^ 32 := by
  have hnodup : (c.rows.map fun r => r.height.toInt).Nodup := by
    have hheights := (heights_nodup c).map fun _ _ heq => Int32.toInt_inj.mp heq
    rwa [List.map_map] at hheights
  have hrange : (c.rows.map fun r => r.height.toInt).toFinset ⊆ Finset.Ico (-2 ^ 31) (2 ^ 31) := by
    intro h hmem
    obtain ⟨r, -, rfl⟩ := List.mem_map.mp (List.mem_toFinset.mp hmem)
    exact Finset.mem_Ico.mpr ⟨r.height.le_toInt, r.height.toInt_lt⟩
  have hcard := Finset.card_le_card hrange
  rw [List.toFinset_card_of_nodup hnodup, List.length_map, Int.card_Ico] at hcard
  exact hcard

/-- The view of such rows has an exact sum, as long as there are not many more than the heights. -/
theorem viewBalance_of_plainly (hcounts : Arithmetic.Counts) {db : LedgerDB} (a : CString)
    (hrows : ∀ t ∈ db.transactions.rows, t.confirmed = true → Plainly t)
    (hlength : (db.transactions.rows.filter (·.confirmed)).length ≤ 2 ^ 33) :
    (db.viewBalance a).isFinite = true ∧
      (db.viewBalance a).value = (db.transactions.rows.map (LedgerDB.effect a)).sum := by
  have hcredit := fun t ht hconf => credit_of_plainly hcounts (hrows t ht hconf) a
  have hlow : (db.credits a).length ≤ 2 ^ 33 := by
    refine le_trans ?_ hlength
    rw [LedgerDB.credits, List.length_map]
    exact (List.monotone_filter_right _ fun t ht => (Bool.and_eq_true_iff.mp ht).1).length_le
  have hbounded : ((db.credits a).map fun x => |x.value|).sum ≤ (db.credits a).length * 10000 := by
    have hsum := List.sum_le_card_nsmul ((db.credits a).map fun x => |x.value|) 10000 fun y hy => by
      obtain ⟨x, hx, rfl⟩ := List.mem_map.mp hy
      exact LedgerDB.forall_mem_credits (P := fun x => |x.value| ≤ 10000)
        (fun t ht hconf => (hcredit t ht hconf).2.2) x hx
    rwa [List.length_map, nsmul_eq_mul] at hsum
  have hsmall : ((db.credits a).map fun x => |x.value|).sum < 2 ^ 53 := by
    have hcast : ((db.credits a).length : ℚ) ≤ 2 ^ 33 := by exact_mod_cast hlow
    linarith
  obtain ⟨hsum, hvalue⟩ := LedgerDB.coalescedSum_of_sum
    (hcounts.sum (LedgerDB.forall_mem_credits fun t ht hconf => (hcredit t ht hconf).1) hsmall)
  exact ⟨hsum, hvalue.trans (LedgerDB.sum_credits fun t ht hconf => (hcredit t ht hconf).2.1)⟩

theorem transactions_nodup (db : LedgerDB) : db.transactions.rows.Nodup :=
  db.transactions.distinct.imp fun {t u} hdistinct heq => by
    subst heq
    simp [transactionsSchema] at hdistinct

/-- The rewards that a node counts are not more than the blocks it made. -/
theorem Funded.length_le (h : c.Funded started miner) {rest : List TransactionRow}
    (hrows : c.db.transactions.rows = genesisTransaction started :: rest)
    (hrest : ∀ t ∈ rest, t.confirmed = true → c.Backed t) :
    (rest.filter (·.confirmed)).length ≤ c.minedHashes.length := by
  have hnodup : ((rest.filter (·.confirmed)).map (·.blockHeight)).Nodup := by
    refine List.Nodup.map_on (fun t ht u hu heq => ?_) ?_
    · rw [List.mem_filter] at ht hu
      have hmem : ∀ x ∈ rest, x ∈ c.db.transactions.rows := fun x hx => hrows ▸ List.mem_cons_of_mem _ hx
      exact h.once t (hmem t ht.1) u (hmem u hu.1) ht.2 hu.2 heq
    · have hall := transactions_nodup c.db
      rw [hrows] at hall
      exact (List.nodup_cons.mp hall).2.filter _
  have hsub : (rest.filter (·.confirmed)).map (·.blockHeight) ⊆
      (c.rows.filter fun r => decide (1 ≤ r.height.toInt ∧ 0 < r.txCount)).map fun r => some r.height := by
    intro x hx
    obtain ⟨t, ht, rfl⟩ := List.mem_map.mp hx
    obtain ⟨ht, hconf⟩ := List.mem_filter.mp ht
    obtain ⟨-, r, hr, hback, hpos, hcount⟩ := hrest t ht hconf
    exact List.mem_map.mpr ⟨r, List.mem_filter.mpr ⟨hr, decide_eq_true ⟨hpos, hcount⟩⟩, hback.symm⟩
  have hle := (hnodup.subperm hsub).length_le
  rw [List.length_map, List.length_map] at hle
  rw [minedHashes, List.length_map]
  exact hle

/-- The confirmed rows hold the opening amount or a reward, and no fee. -/
theorem Funded.plainly (h : c.Funded started miner) :
    ∀ t ∈ c.db.transactions.rows, t.confirmed = true → Plainly t := by
  intro t ht hconf
  rcases h.minted t ht hconf with rfl | hminted
  · exact ⟨⟨rfl, 10000, rfl⟩, show |(10000 : ℚ)| ≤ 10000 by norm_num, rfl⟩
  · rw [Plainly, hminted.amount]
    exact ⟨⟨rfl, 100, rfl⟩, show |(100 : ℚ)| ≤ 10000 by norm_num, hminted.fee⟩

/-- Behind the opening the confirmed rows are rewards. -/
theorem Funded.sum_effect (h : c.Funded started miner) {rest : List TransactionRow}
    (hrows : c.db.transactions.rows = genesisTransaction started :: rest)
    (hrest : ∀ t ∈ rest, t.confirmed = true → c.Backed t) (a : CString) {l : List TransactionRow} (hl : l ⊆ rest) :
    (l.map (LedgerDB.effect a)).sum = (l.filter (·.confirmed)).length * issued reward.value miner a := by
  induction l with
  | nil => simp
  | cons t l ih =>
    have htail := ih fun x hx => hl (List.mem_cons_of_mem _ hx)
    have ht : t ∈ rest := hl List.mem_cons_self
    rw [List.map_cons, List.sum_cons, htail]
    by_cases hconf : t.confirmed = true
    · have hminted : Minted miner t := by
        refine (h.minted t (hrows ▸ List.mem_cons_of_mem _ ht) hconf).resolve_left ?_
        rintro rfl
        obtain ⟨-, r, -, hback, hpos, -⟩ := hrest _ ht hconf
        rw [← Option.some.inj hback] at hpos
        exact absurd hpos (by decide)
      rw [effect_of_minted hminted hconf, List.filter_cons_of_pos hconf, List.length_cons]
      push_cast
      ring
    · rw [LedgerDB.effect, if_neg hconf, List.filter_cons_of_neg hconf, zero_add]

/-- There are as many confirmed rows as heights at most. -/
theorem Funded.confirmed_length_le (h : c.Funded started miner) {rest : List TransactionRow}
    (hrows : c.db.transactions.rows = genesisTransaction started :: rest)
    (hrest : ∀ t ∈ rest, t.confirmed = true → c.Backed t) :
    (c.db.transactions.rows.filter (·.confirmed)).length ≤ 2 ^ 33 := by
  have hfew := h.length_le hrows hrest
  have hmined : c.minedHashes.length ≤ c.rows.length := by
    rw [minedHashes, List.length_map]
    exact List.length_filter_le _ _
  have hblocks := rows_length_le c
  have hhead := List.length_filter_le (·.confirmed) [genesisTransaction started]
  rw [hrows, ← List.singleton_append, List.filter_append, List.length_append]
  simp only [List.length_singleton] at hhead
  omega

/-- The opening balance, and one reward for each of some blocks of the node's own. -/
theorem Funded.getBalance (hcounts : Arithmetic.Counts) (h : c.Funded started miner) :
    ∃ k ≤ c.minedHashes.length, ∀ a : String, (c.getBalance a).1.Equals
      (.number (issued 10000 "genesis_miner" (.bind a) + k * issued reward.value miner (.bind a))) := by
  obtain ⟨rest, hrows, hrest⟩ := h.accounted.rows
  refine ⟨_, h.length_le hrows hrest, fun a => ?_⟩
  have hsum := h.sum_effect hrows hrest (.bind a) (List.Subset.refl rest)
  obtain ⟨hfinite, hvalue⟩ :=
    viewBalance_of_plainly hcounts (.bind a) h.plainly (h.confirmed_length_le hrows hrest)
  show (c.db.getBalance a).1.Equals _
  rw [LedgerDB.getBalance_fst, Double.equals_number_iff]
  refine ⟨hfinite, ?_⟩
  rw [hvalue, hrows, List.map_cons, List.sum_cons, hsum, LedgerDB.effect_opening]
  rfl

end Blockchain

/-! ### Nodes and networks -/

namespace Node
variable {env : Env} {n : Node} {e : Event} {started : Int64}

/-- The chain is funded by the node's own blocks, and the search of the node works on such a block. -/
structure Funded (started : Int64) (n : Node) : Prop where
  chain : n.blockchain.Funded started n.nodeId
  template : ∀ t, n.template = some t → Payout n.nodeId t.block.transactions

theorem funded_start (nodeId : String) (now : Int64) : (start nodeId now).Funded now where
  chain := funded_genesis nodeId now
  template t ht := by cases ht

theorem payout_createBlock {c : Blockchain} {miner : String} (h : c.Funded started miner) (env : Env) (now : Int64) :
    Payout miner (c.createBlock env miner now).1.transactions :=
  ⟨_, coinbase_createCoinbase env now miner, fun tx htx =>
    (mem_createBlock htx).imp_right fun ⟨k, hk⟩ => h.accounted.held.pool k tx hk⟩

theorem operates_pays (h : n.Funded started) (he : e.Honest) : ∀ x, Operates env n e x → x.2.Pays n.nodeId := by
  intro x hx
  cases hx with
  | http now hread => exact unconfirmed_of_pending (pending_of_readHttpTransaction hread)
  | gossip now htype hread => exact unconfirmed_of_pending (pending_of_readNewTransaction hread)
  | clean => trivial
  | template now => trivial
  | call hcall =>
    cases (react_calls env n _).2 _ hcall with
    | mined now ht hmined hlow =>
      show Payout _ _
      rw [transactions_of_search hmined]
      exact h.template _ ht
    | extended now htype hread hext =>
      show Payout _ _
      rw [(he.block htype hread).1]
      exact payout_nil env _
    | competed now htype hread hcomp =>
      obtain ⟨hnil, hpos⟩ := he.block htype hread
      exact ⟨hnil, hpos, valued_of_fromJson hread⟩
    | received now htype hpayload hbj hread habove =>
      show Payout _ _
      rw [Block.transactions_of_readHeader hread]
      exact payout_nil env _

theorem nodeId_afterCall (n : Node) (result : Bool × Blockchain) : (n.afterCall result).nodeId = n.nodeId := by
  obtain ⟨_ | _, d⟩ := result <;> rfl

theorem step_nodeId (env : Env) (n : Node) (e : Event) : (n.step env e).nodeId = n.nodeId := by
  cases e with
  | own own =>
    cases own with
    | http now body =>
      simp only [step, react, ownStep, handleHttp]
      split <;> rfl
    | template now =>
      simp only [step, react, ownStep, makeTemplate]
      split <;> rfl
    | submit now =>
      rcases submit_cases env n now with ⟨t, b, ht, hmined, hlow⟩ | heq
      · simp only [step, react, ownStep, submit_of_mined ht hmined hlow]
      · simp only [step, react, ownStep, heq]
    | _ => rfl
  | message now msg =>
    cases htype : msg.type with
    | newBlock =>
      simp only [step, react, handleMessage, htype]
      rcases handleNewBlock_cases env n now msg.payload with ⟨b, hread, hext⟩ | ⟨b, hread, hcomp⟩ | ⟨hn, -⟩
      · rw [handleNewBlock_of_extends hread hext]
        exact nodeId_afterCall n _
      · rw [handleNewBlock_of_competes hread hcomp]
        exact nodeId_afterCall n _
      · rw [hn]
    | blocksResponse =>
      simp only [step, react, handleMessage, htype, handleBlocksResponse]
      split <;> rfl
    | newTransaction =>
      simp only [step, react, handleMessage, htype, handleNewTransaction]
      split
      · rfl
      · split <;> rfl
    | getBlocks =>
      simp only [step, react, handleMessage, htype]
      rw [(handleGetBlocks_frame env n now msg.payload).1]
    | _ => simp only [step, react, handleMessage, htype]

theorem Funded.step (env : Env) (h : n.Funded started) (he : e.Honest) : (n.step env e).Funded started where
  chain := by
    rw [step_nodeId]
    exact step_chain h.chain fun x hx hc => hc.operate env (operates_pays h he x hx)
  template t ht := by
    rw [step_nodeId]
    rcases step_template env n e with heq | heq | ⟨now, heq⟩
    · exact h.template t (heq ▸ ht)
    · rw [heq] at ht
      cases ht
    · rw [heq] at ht
      cases ht
      exact payout_createBlock h.chain env now

end Node

namespace Network
variable {ι : Type} [DecidableEq ι] {env : Env} {s : Network ι} {started : ι → Int64}

/-- Every node is funded by its own blocks, and every message that was sent is honest. -/
structure Funded (nodeId : ι → String) (started : ι → Int64) (s : Network ι) : Prop where
  honest : s.Honest started
  nodes : ∀ i, (s.nodes i).Funded (started i) ∧ (s.nodes i).nodeId = nodeId i

theorem step_funded {nodeId : ι → String} (env : Env) (s : Network ι) (a : Action ι) (h : s.Funded nodeId started) :
    (s.step env a).Funded nodeId started where
  honest := step_honest env s a h.honest
  nodes i := by
    obtain ⟨hfunded, hid⟩ := h.nodes i
    rcases nodes_step env s a i with hold | ⟨peer, e, hev, hnew⟩
    · rw [hold]
      exact h.nodes i
    · rw [hnew]
      exact ⟨hfunded.step env (h.honest.event hev), (Node.step_nodeId env _ e).trans hid⟩

/-- No payment ever moves a balance: whatever is paid, relayed, mined and exchanged, on each node every address has its
    opening balance and the reward for `k` blocks that the node stores and mined itself. -/
theorem payments_never_settle (hcounts : Arithmetic.Counts) (env : Env) (nodeId : ι → String) (started : ι → Int64)
    (actions : List (Action ι)) :
    ∀ s ∈ Transition.states (step env) (start nodeId started) actions, ∀ i,
      ∃ k ≤ (s.nodes i).blockchain.minedHashes.length, ∀ a : String,
        ((s.nodes i).blockchain.getBalance a).1.Equals
          (.number (issued 10000 "genesis_miner" (.bind a) + k * issued reward.value (nodeId i) (.bind a))) := by
  intro s hs i
  have hstart : (start nodeId started).Funded nodeId started :=
    ⟨honest_start nodeId started, fun i => ⟨Node.funded_start (nodeId i) (started i), rfl⟩⟩
  obtain ⟨hfunded, hid⟩ := (Transition.invariant (I := Funded nodeId started) (step_funded env) hstart s hs).nodes i
  rw [← hid]
  exact hfunded.chain.getBalance hcounts

end Network

end

namespace Network

attribute [local instance] Arithmetic.binary64

/-- `alpha` mined the payment to `alice`, and the reward is all that it paid out. -/
theorem payments_never_settle_sampleNetwork :
    ((sampleNetwork.nodes "alpha").blockchain.getBalance "alice").1 = 0 ∧
    (sampleNetwork.nodes "alpha").blockchain.minedHashes.length = 1 ∧
    ∃ k ≤ (sampleNetwork.nodes "alpha").blockchain.minedHashes.length, ∀ a : String,
      ((sampleNetwork.nodes "alpha").blockchain.getBalance a).1.Equals
        (.number (issued 10000 "genesis_miner" (.bind a) + k * issued reward.value "alpha" (.bind a))) :=
  ⟨by decide +kernel, by decide +kernel,
    payments_never_settle Arithmetic.counts_binary64 Node.sampleEnv id (fun _ => 1700000000) sampleActions sampleNetwork
      (Transition.foldl_mem_states _ _ _) "alpha"⟩

end Network

end NexusLedger
