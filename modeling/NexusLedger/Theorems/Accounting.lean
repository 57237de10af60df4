import NexusLedger.Theorems.Contents

/-! Where the confirmed transactions of an honest node come from: from genesis and from the blocks it mined.
    From a message it stores the header of a block alone. -/

namespace NexusLedger
open Blockchain
set_option linter.unusedSectionVars false
variable [Arithmetic]

/-! ### Where the confirmed rows come from -/

namespace Blockchain
variable {env : Env} {c d : Blockchain} {t : TransactionRow} {started : Int64}

/-- A row that came in with a block of this node: it has the height of a stored block above genesis that was
    stored with its transactions. -/
def Backed (c : Blockchain) (t : TransactionRow) : Prop :=
  t.fromAddress = .bind "SYSTEM" ∧
    ∃ r ∈ c.rows, t.blockHeight = some r.height ∧ 1 ≤ r.height.toInt ∧ 0 < r.txCount

/-- A row whose data a reader does not take for the status of a confirmed transaction. -/
def Plain (t : TransactionRow) : Prop := t.data.val ≠ "confirmed"

/-- A transaction that is stored neither as confirmed nor with data that reads back as this status. -/
def Unconfirmed (tx : Transaction) : Prop := cText tx.status ≠ "confirmed" ∧ cText tx.data ≠ "confirmed"

/-- Every confirmed transaction is that of genesis or came in with a block of this node, and none is in the
    mempool. -/
structure Accounted (started : Int64) (c : Blockchain) : Prop where
  chained : c.Chained
  rows : ∃ rest, c.db.transactions.rows = genesisTransaction started :: rest ∧
    ∀ t ∈ rest, t.confirmed = true → c.Backed t
  held : c.Holds Plain Unconfirmed

theorem accounted_genesis (now : Int64) : (genesis now).Accounted now where
  chained := chained_genesis now
  rows := ⟨[], rfl, fun t ht => absurd ht List.not_mem_nil⟩
  held := by
    constructor
    · intro t ht
      rw [List.mem_singleton.mp ht]
      show cText "Genesis block reward" ≠ "confirmed"
      decide +kernel
    · intro k tx h
      simp [genesis] at h

theorem Accounted.congr (h : c.Accounted started) (hrows : d.rows = c.rows)
    (htxs : d.db.transactions = c.db.transactions) (hwithin : d.Within c) : d.Accounted started where
  chained := h.chained.congr hrows
  rows := by
    obtain ⟨rest, heq, hrest⟩ := h.rows
    refine ⟨rest, by rw [htxs, heq], fun t ht hconf => ?_⟩
    obtain ⟨hfrom, hr⟩ := hrest t ht hconf
    exact ⟨hfrom, hrows ▸ hr⟩
  held := h.held.congr htxs hwithin

/-- More rows, those of the new transactions either pending or backed. -/
theorem Accounted.append (h : c.Accounted started) (hchained : d.Chained) (hrows : c.rows ⊆ d.rows)
    {added : List TransactionRow} (htxs : d.db.transactions.rows = c.db.transactions.rows ++ added)
    (hadded : ∀ t ∈ added, t.confirmed = true → d.Backed t)
    (hheld : d.Holds Plain Unconfirmed) : d.Accounted started where
  chained := hchained
  rows := by
    obtain ⟨rest, heq, hrest⟩ := h.rows
    refine ⟨rest ++ added, by rw [htxs, heq, List.cons_append], fun t ht hconf => ?_⟩
    rcases List.mem_append.mp ht with ht | ht
    · obtain ⟨hfrom, r, hr, hback⟩ := hrest t ht hconf
      exact ⟨hfrom, r, hrows hr, hback⟩
    · exact hadded t ht hconf
  held := hheld

theorem addTransaction_accounted (env : Env) (now : Int64) {tx : Transaction} (h : c.Accounted started)
    (htx : Unconfirmed tx) : (c.addTransaction env tx now).2.Accounted started := by
  have hblocks : (c.addTransaction env tx now).2.rows = c.rows := by simp [rows]
  have hheld : (c.addTransaction env tx now).2.Holds Plain Unconfirmed :=
    h.held.addTransaction env now (fun _ => htx) (fun h => h.2)
  by_cases ha : c.Admits tx
  · obtain ⟨hdb, -⟩ := addTransaction_of_admits env now ha
    rcases LedgerDB.addTransaction_rows c.db tx (-1) with hr | hr
    · have hnone : (c.addTransaction env tx now).2.db.transactions.rows = c.db.transactions.rows ++ [] := by
        rw [hdb, hr, List.append_nil]
      exact h.append (h.chained.congr hblocks) (hblocks ▸ List.Subset.refl _) hnone (by simp) hheld
    · refine h.append (h.chained.congr hblocks) (hblocks ▸ List.Subset.refl _) (by rw [hdb, hr])
        (fun t ht hconf => ?_) hheld
      rw [List.mem_singleton.mp ht, confirmed_row] at hconf
      exact absurd hconf htx.1
  · obtain ⟨hdb, hpool⟩ := addTransaction_of_not_admits env now ha
    exact h.congr hblocks hdb fun k x hk => hpool ▸ hk

/-- The transactions of a block that the store lets in are pending or from `SYSTEM`, and plain. -/
def Ordinary (txs : List Transaction) : Prop :=
  ∀ tx ∈ txs, (cText tx.status = "confirmed" → tx.fromAddress = "SYSTEM") ∧ cText tx.data ≠ "confirmed"

theorem addBlock_accounted (env : Env) {b : Block} (h : c.Accounted started) (hb : Ordinary b.transactions) :
    (c.addBlock b).2.Accounted started := by
  by_cases ha : c.Appends b
  · obtain ⟨-, hrows, hdb⟩ := addBlock_of_appends ha
    obtain ⟨added, hadded, horigin⟩ := LedgerDB.addTransactions_append c.db b.transactions b.height
    have hchained : (c.exec env (.addBlock b)).2.Chained := h.chained.exec id
    have hpos : 1 ≤ b.height.toInt := by
      have := h.chained.getHeight_nonneg
      have := ha.above
      omega
    refine h.append hchained (hrows ▸ List.subset_append_left _ _) (by rw [hdb, hadded])
      (fun t ht hconf => ?_) (h.held.addBlock fun _ tx htx _ _ => (hb tx htx).2)
    obtain ⟨tx, htx, -, rfl⟩ := horigin t ht
    have hnonneg : 0 ≤ b.height := by
      rw [Int32.le_iff_toInt_le]
      exact le_trans (by decide) hpos
    refine ⟨congrArg CString.bind ((hb tx htx).1 (confirmed_row.mp hconf)), b.row, by simp [hrows], ?_, hpos,
      List.length_pos_of_mem htx⟩
    rw [if_pos hnonneg]
    rfl
  · rw [addBlock_of_not_appends ha]
    exact h

theorem restore_accounted (env : Env) (now : Int64) {txs : List Transaction} (h : c.Accounted started)
    (htxs : ∀ tx ∈ txs, Unconfirmed tx) : (c.restore env txs now).Accounted started :=
  restore_keeps env now (fun tx htx _ _ hd => addTransaction_accounted env now hd (htxs tx htx)) h

/-- Without the block at the top its rows are gone, and the others keep their blocks. -/
theorem Accounted.below (h : c.Accounted started) (hheight : 1 ≤ c.getHeight.toInt) {e : Blockchain}
    (hchained : e.Chained) (hrows : c.below ⊆ e.rows)
    (htxs : e.db.transactions = (c.db.deleteBlock c.getHeight).transactions) (hpool : e.mempool = c.mempool) :
    e.Accounted started where
  chained := hchained
  rows := by
    obtain ⟨rest, heq, hrest⟩ := h.rows
    have hgenesis : ((genesisTransaction started).blockHeight == some c.getHeight) = false := by
      refine beq_eq_false_iff_ne.mpr fun h0 => ?_
      have h0' : (0 : Int32) = c.getHeight := Option.some.inj h0
      rw [← h0'] at hheight
      exact absurd hheight (by decide)
    refine ⟨rest.filter fun t => !(t.blockHeight == some c.getHeight), ?_, fun t ht hconf => ?_⟩
    · rw [htxs]
      simp [LedgerDB.deleteBlock, heq, hgenesis]
    · obtain ⟨ht, hother⟩ := List.mem_filter.mp ht
      obtain ⟨hfrom, r, hr, hback, hone⟩ := hrest t ht hconf
      refine ⟨hfrom, r, hrows (mem_below.mpr ⟨hr, fun htop => ?_⟩), hback, hone⟩
      rw [hback, htop] at hother
      simp at hother
  held := h.held.mono (htxs ▸ deleteBlock_rows _ _) fun k tx hk => hpool ▸ hk

/-- What a reader makes of a plain row is never confirmed: its status is the row's data, its data a number. -/
theorem Plain.unconfirmed (h : Plain t) (env : Env) : Unconfirmed (t.toTransaction env) := by
  refine ⟨?_, cText_toString_ne t.timestamp.toInt (c := 'c') (by decide) (by decide) (by decide)⟩
  show cText t.data.val ≠ "confirmed"
  rw [t.data.property]
  exact h

/-- What is given back to the mempool when a block is replaced was never confirmed. -/
theorem Accounted.unconfirmed_getTransactionsByBlock (h : c.Accounted started) (env : Env) (height : Int32) :
    ∀ tx ∈ c.db.getTransactionsByBlock env height, Unconfirmed tx := by
  intro tx htx
  obtain ⟨t, ht, rfl⟩ := List.mem_map.mp htx
  exact (h.held.rows t (List.mem_filter.mp ht).1).unconfirmed env

theorem replaceLastBlock_accounted (env : Env) (now : Int64) {b : Block} (h : c.Accounted started)
    (hb : b.transactions = []) (hheight : 1 ≤ b.height.toInt) (hvalued : b.difficulty.isNaN = false) :
    (c.replaceLastBlock env b now).2.Accounted started := by
  by_cases hc : c.Competes b
  · rw [hc.height] at hheight
    have hchained : (c.exec env (.replaceLastBlock b now)).2.Chained :=
      h.chained.exec (not_empties_of_valued now hvalued)
    rw [exec] at hchained
    by_cases hf : c.FreshBelow b
    · obtain ⟨hrows, htxs, heq⟩ := replaceLastBlock_eq_of_fresh env now hc hf
      rw [hb, LedgerDB.addTransactions_nil] at htxs
      -- The store between the insert and the return of the transactions has the blocks of the result.
      have hbetween : ({ c with db := c.replaced b } : Blockchain).Chained := by
        refine hchained.congr ?_
        rw [(replaceLastBlock_of_fresh hc hf).2]
        exact hrows
      have hstored : ({ c with db := c.replaced b } : Blockchain).Accounted started :=
        h.below hheight hbetween (by simp [rows, hrows]) htxs rfl
      rw [heq]
      refine (restore_accounted env now hstored (h.unconfirmed_getTransactionsByBlock env _)).congr ?_ ?_
        (cleanMempool_within _)
      · simp [rows]
      · simp
    · rw [replaceLastBlock_of_not_fresh hc hf] at hchained ⊢
      exact h.below hheight hchained (List.Subset.refl _) rfl rfl
  · rw [replaceLastBlock_of_not_competes hc]
    exact h

/-! ### Calls -/

/-- A call whose transactions the node may know: those of a mined block, or those of a header. -/
def Call.Sound : Call → Prop
  | .addBlock b => Ordinary b.transactions
  | .replaceLastBlock b _ => b.transactions = [] ∧ 1 ≤ b.height.toInt ∧ b.difficulty.isNaN = false

theorem Call.Sound.spares {k : Call} (h : k.Sound) : ¬c.Empties k := by
  cases k with
  | addBlock b => exact id
  | replaceLastBlock b now => exact not_empties_of_valued now h.2.2

theorem ordinary_nil : Ordinary [] := fun _ htx => absurd htx List.not_mem_nil

theorem Chained.one_le_of_fits {k : Call} (h : c.Chained) (hfits : c.Fits k) (hk : k.Sound) :
    1 ≤ k.block.height.toInt := by
  cases k with
  | addBlock b =>
    have := h.getHeight_nonneg
    have := hfits.above
    show 1 ≤ b.height.toInt
    omega
  | replaceLastBlock b now => exact hk.2.1

theorem Accounted.exec (env : Env) {k : Call} (h : c.Accounted started) (hk : k.Sound) :
    (c.exec env k).2.Accounted started := by
  cases k with
  | addBlock b => exact addBlock_accounted env h hk
  | replaceLastBlock b now => exact replaceLastBlock_accounted env now h hk.1 hk.2.1 hk.2.2

def Operation.Sound : Operation → Prop
  | .addTransaction tx _ => Unconfirmed tx
  | .call k => k.Sound
  | _ => True

theorem Accounted.operate (env : Env) {op : Operation} (h : c.Accounted started) (hop : op.Sound) :
    (operate env c op).Accounted started := by
  cases op with
  | addTransaction tx now => exact addTransaction_accounted env now h hop
  | createBlock miner now =>
    exact h.congr (by simp [Blockchain.rows, Blockchain.operate]) (by simp [Blockchain.operate])
      (createBlock_within env c miner now)
  | cleanMempool =>
    exact h.congr (by simp [Blockchain.rows, Blockchain.operate]) (by simp [Blockchain.operate])
      (cleanMempool_within c)
  | removeFromMempool txHash => exact h.congr rfl rfl fun k tx hk => lookup_of_erase hk
  | call k => exact h.exec env hop

end Blockchain

/-! ### Honest nodes -/

/-- A NEW_BLOCK message as `broadcastBlock` writes it, for a block above genesis. -/
def Message.Honest (msg : Message) : Prop :=
  msg.type = .newBlock → ∃ b : Block, msg.payload = .obj b.headerMembers ∧ 1 ≤ b.height.toInt

def Event.Honest : Event → Prop
  | .own _ => True
  | .message _ msg => msg.Honest

def Effect.Honest : Effect → Prop
  | .broadcast msg => msg.Honest
  | .reply msg => msg.Honest
  | .call _ _ => True

theorem Message.honest_of_type {msg : Message} (h : msg.type ≠ .newBlock) : msg.Honest := fun heq => absurd heq h

theorem Message.Honest.block {env : Env} {msg : Message} {b : Block} (h : msg.Honest) (htype : msg.type = .newBlock)
    (hread : Block.fromJson env msg.payload = .ok b) : b.transactions = [] ∧ 1 ≤ b.height.toInt := by
  obtain ⟨sent, hpayload, hpos⟩ := h htype
  rw [hpayload] at hread
  have hfinite := Block.isFinite_of_fromJson_headerMembers hread
  rw [Block.fromJson_headerMembers env hfinite] at hread
  cases hread
  exact ⟨rfl, hpos⟩

namespace Node
variable {env : Env} {n : Node} {e : Event} {started : Int64}

/-- The chain is accounted for, and the search of the node mines transactions that it knows. -/
structure Accounted (started : Int64) (n : Node) : Prop where
  chain : n.blockchain.Accounted started
  template : ∀ t, n.template = some t → Ordinary t.block.transactions

theorem accounted_start (nodeId : String) (now : Int64) : (start nodeId now).Accounted now where
  chain := accounted_genesis now
  template t ht := by cases ht

theorem ordinary_createBlock {c : Blockchain} (h : c.Accounted started) (env : Env) (miner : String) (now : Int64) :
    Ordinary (c.createBlock env miner now).1.transactions := by
  intro tx htx
  rcases mem_createBlock htx with rfl | ⟨k, hk⟩
  · refine ⟨fun _ => rfl, ?_⟩
    show cText "Coinbase" ≠ "confirmed"
    decide +kernel
  · obtain ⟨hstatus, hdata⟩ := h.held.pool k tx hk
    exact ⟨fun hconf => absurd hconf hstatus, hdata⟩

theorem calls_sound (env : Env) (h : n.Accounted started) (he : e.Honest) :
    ∀ k ∈ calls (n.react env e).2, k.2.Sound := by
  intro k hk
  cases (react_calls env n e).2 k hk with
  | mined now ht hmined hlow =>
    show Ordinary _
    rw [transactions_of_search hmined]
    exact h.template _ ht
  | extended now htype hread hext =>
    show Ordinary _
    rw [(he.block htype hread).1]
    exact ordinary_nil
  | competed now htype hread hcomp =>
    obtain ⟨htxs, hpos⟩ := he.block htype hread
    exact ⟨htxs, hpos, valued_of_fromJson hread⟩
  | received now htype hpayload hbj hread habove =>
    show Ordinary _
    rw [Block.transactions_of_readHeader hread]
    exact ordinary_nil

theorem unconfirmed_of_pending {tx : Transaction} (h : tx.status = "pending" ∧ tx.data = "") : Unconfirmed tx := by
  unfold Unconfirmed
  rw [h.1, h.2]
  decide +kernel

theorem operates_sound (env : Env) (h : n.Accounted started) (he : e.Honest) :
    ∀ x, Operates env n e x → x.2.Sound := by
  intro x hx
  cases hx with
  | http now hread => exact unconfirmed_of_pending (pending_of_readHttpTransaction hread)
  | gossip now htype hread => exact unconfirmed_of_pending (pending_of_readNewTransaction hread)
  | clean => trivial
  | template now => trivial
  | call hcall => exact calls_sound env h he _ hcall

theorem step_accounted (env : Env) (h : n.Accounted started) (he : e.Honest) : (n.step env e).Accounted started where
  chain := step_chain h.chain fun x hx hc => hc.operate env (operates_sound env h he x hx)
  template t ht := by
    rcases step_template env n e with heq | heq | ⟨now, heq⟩
    · exact h.template t (heq ▸ ht)
    · rw [heq] at ht
      cases ht
    · rw [heq] at ht
      cases ht
      exact ordinary_createBlock h.chain env n.nodeId now

/-! ### Messages that an honest node sends -/

/-- A block is passed on when the call took it, which puts it above genesis. -/
theorem called_honest (env : Env) {c : Blockchain} (hc : c.Chained) {k : Call} (hk : k.Sound) (now : Int64) :
    ∀ x ∈ Effect.call c k :: n.relay now k.block (c.exec env k).1, x.Honest := by
  rw [List.forall_mem_cons]
  refine ⟨trivial, fun x hx => ?_⟩
  unfold relay at hx
  split at hx
  · rename_i htaken
    rw [List.mem_singleton.mp hx]
    exact fun _ => ⟨k.block, rfl, hc.one_le_of_fits ((exec_accepts_iff k).mp htaken) hk⟩
  · cases hx

theorem none_honest : ∀ x ∈ ([] : List Effect), x.Honest := fun _ hx => absurd hx List.not_mem_nil

theorem reply_honest {msg : Message} (hne : msg.type ≠ .newBlock) : ∀ x ∈ [Effect.reply msg], x.Honest := by
  intro x hx
  rw [List.mem_singleton.mp hx]
  exact Message.honest_of_type hne

theorem ownStep_honest (h : n.Accounted started) (own : OwnEvent) : ∀ x ∈ (n.ownStep env own).2, x.Honest := by
  have hsound : ∀ k ∈ calls (n.react env (.own own)).2, k.2.Sound := calls_sound env h trivial
  cases own with
  | http now body =>
    simp only [ownStep, handleHttp]
    split <;> exact none_honest
  | clean => exact none_honest
  | template now => exact none_honest
  | submit now =>
    rcases submit_cases env n now with ⟨t, b, ht, hmined, hlow⟩ | heq
    · simp only [react, ownStep, submit_of_mined ht hmined hlow] at hsound ⊢
      exact called_honest env h.chain.chained (hsound (n.blockchain, .addBlock b) List.mem_cons_self) now
    · simp only [ownStep, heq]
      exact none_honest
  | abandon => exact none_honest
  | sync now => exact reply_honest (by simp [syncMessage, getBlocksMessage])

theorem handleMessage_honest {now : Int64} {msg : Message} (h : n.Accounted started) (he : msg.Honest) :
    ∀ x ∈ (n.handleMessage env now msg).2, x.Honest := by
  have hsound : ∀ k ∈ calls (n.react env (.message now msg)).2, k.2.Sound := calls_sound env h he
  cases htype : msg.type with
  | newBlock =>
    simp only [react, handleMessage, htype] at hsound ⊢
    rcases handleNewBlock_cases env n now msg.payload with
      ⟨b, hread, hext⟩ | ⟨b, hread, hcomp⟩ | ⟨-, heq | ⟨_, heq⟩⟩
    · rw [handleNewBlock_of_extends hread hext] at hsound ⊢
      exact called_honest env h.chain.chained (hsound (n.blockchain, .addBlock b) List.mem_cons_self) now
    · rw [handleNewBlock_of_competes hread hcomp] at hsound ⊢
      exact called_honest env h.chain.chained (hsound (n.blockchain, .replaceLastBlock b now) List.mem_cons_self) now
    · rw [heq]
      exact none_honest
    · rw [heq]
      exact reply_honest (by simp [getBlocksMessage])
  | blocksResponse =>
    simp only [handleMessage, htype, handleBlocksResponse]
    split
    · intro x hx
      obtain ⟨d, b, bj, -, -, -, rfl⟩ := addReceived_effects _ n.blockchain x hx
      trivial
    · exact none_honest
  | newTransaction =>
    simp only [handleMessage, htype, handleNewTransaction]
    split
    · exact none_honest
    · split
      · intro x hx
        rw [List.mem_singleton.mp hx]
        exact Message.honest_of_type (by simp [newTransactionMessage])
      · exact none_honest
  | getBlocks =>
    simp only [handleMessage, htype, handleGetBlocks]
    split
    · exact none_honest
    · split
      · exact none_honest
      · split
        · exact none_honest
        · exact reply_honest (by simp [blocksResponseMessage])
  | handshake =>
    simp only [handleMessage, htype]
    exact reply_honest (by simp [syncMessage, getBlocksMessage])
  | ping =>
    simp only [handleMessage, htype]
    exact reply_honest (by simp [pongMessage])
  | _ =>
    simp only [handleMessage, htype]
    exact none_honest

theorem react_honest (env : Env) (h : n.Accounted started) (he : e.Honest) :
    ∀ x ∈ (n.react env e).2, x.Honest := by
  cases e with
  | own own => exact ownStep_honest h own
  | message now msg => exact handleMessage_honest h he

end Node

end NexusLedger
