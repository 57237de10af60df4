import NexusLedger.Theorems.NodeSteps

/-! What NEW_BLOCK does at the tip: a block that is already the tip comes back, and two blocks compete for the
    place above it. The handler always prefers the block that arrives last. -/

namespace NexusLedger
open Blockchain

section
set_option linter.unusedSectionVars false
variable [Arithmetic]

/-! ### A known tip comes back -/

namespace Blockchain
variable {env : Env} {c : Blockchain} {b : Block}

theorem competes_of_tip (h : c.getBlock env c.getHeight = some b) (txs : List Transaction) :
    c.Competes { b with transactions := txs } := by
  obtain ⟨r, hr, hh, rfl⟩ := getBlock_eq_some_iff.mp h
  exact ⟨hh, r, tip_eq_some_iff.mpr ⟨hr, hh⟩, rfl⟩

/-- A stored difficulty is not NULL. -/
theorem valued_of_mem_rows {r : BlockRow} (hr : r ∈ c.rows) : r.difficulty.val.isNaN = false := by
  have hcheck := c.db.blocks.checked r hr
  rw [blocksSchema, Bool.not_eq_true'] at hcheck
  exact hcheck

theorem freshBelow_of_tip (h : c.getBlock env c.getHeight = some b) (txs : List Transaction) :
    c.FreshBelow { b with transactions := txs } := by
  obtain ⟨r, hr, hh, rfl⟩ := getBlock_eq_some_iff.mp h
  refine ⟨valued_of_mem_rows hr, fun hmem => ?_⟩
  obtain ⟨x, hx, hhash⟩ := List.mem_map.mp hmem
  obtain ⟨hxm, hxh⟩ := mem_below.mp hx
  have hhash' : x.hash = r.hash := hhash.trans (CString.bind_of_val r.hash)
  rw [LedgerDB.eq_of_hash hxm hr hhash'] at hxh
  exact hxh hh

end Blockchain

namespace Node

/-- An event that leaves the ledger as it is: both tables, all balances, the mempool; and that sends no block on. -/
structure Quiet (env : Env) (n : Node) (e : Event) : Prop where
  blocks : (n.step env e).blockchain.db.blocks = n.blockchain.db.blocks
  transactions : (n.step env e).blockchain.db.transactions = n.blockchain.db.transactions
  balances : ∀ a, ((n.step env e).blockchain.getBalance a).1 = (n.blockchain.getBalance a).1
  mempool : (n.step env e).blockchain.mempool = n.blockchain.mempool ∧
    (n.step env e).blockchain.mempoolByPriority = n.blockchain.mempoolByPriority
  silent : ∀ msg ∈ broadcasts (n.react env e).2, msg.type ≠ .newBlock

/-- The tip that comes back takes its own place, without its transactions, and is sent on. -/
theorem react_tip_echo (env : Env) (n sender : Node) (sent now : Int64) (b : Block)
    (h : n.blockchain.getBlock env n.blockchain.getHeight = some b) (hfinite : b.difficulty.isFinite = true) :
    n.react env (newBlockEvent sender sent now b) =
      (n.afterCall (n.blockchain.replaceLastBlock env { b with transactions := [] } now),
        [.call n.blockchain (.replaceLastBlock { b with transactions := [] } now),
          .broadcast (n.newBlockMessage now { b with transactions := [] })]) := by
  have hcomp := competes_of_tip h []
  have htaken : (n.blockchain.replaceLastBlock env { b with transactions := [] } now).1 = true :=
    (replaceLastBlock_of_fresh hcomp (freshBelow_of_tip h [])).1
  rw [react_newBlockEvent, handleNewBlock_of_competes (Block.fromJson_headerMembers env hfinite) hcomp, htaken]
  rfl

/-- A tip that cannot be read changes nothing. -/
theorem quiet_of_not_finite (env : Env) (n sender : Node) (sent now : Int64) {b : Block}
    (h : ¬b.difficulty.isFinite = true) : n.Quiet env (newBlockEvent sender sent now b) := by
  have hreact : n.react env (newBlockEvent sender sent now b) = (n, []) := by
    rw [react_newBlockEvent, handleNewBlock_of_not_finite h]
  have hstep : n.step env (newBlockEvent sender sent now b) = n := congrArg Prod.fst hreact
  refine ⟨by rw [hstep], by rw [hstep], fun a => by rw [hstep], by rw [hstep]; exact ⟨rfl, rfl⟩, fun msg hmsg => ?_⟩
  rw [hreact] at hmsg
  exact absurd hmsg (List.not_mem_nil)

/-- Whatever the state of the node, the NEW_BLOCK of its own tip is handled quietly only when it cannot be read. -/
theorem tip_echo_quiet_iff (env : Env) (n sender : Node) (sent now : Int64) (b : Block)
    (h : n.blockchain.getBlock env n.blockchain.getHeight = some b) :
    n.Quiet env (newBlockEvent sender sent now b) ↔ ¬b.difficulty.isFinite = true := by
  constructor
  · intro hquiet hfinite
    have hsilent := hquiet.silent
    rw [react_tip_echo env n sender sent now b h hfinite] at hsilent
    exact hsilent _ List.mem_cons_self rfl
  · exact quiet_of_not_finite env n sender sent now

end Node

end

namespace Node

attribute [local instance] Arithmetic.binary64

theorem tip_echo_quiet_iff_genesis :
    (start "node" 0).Quiet headerEnv
      (newBlockEvent (start "peer" 0) 0 0
        { genesisBlock 0 with transactions := (start "node" 0).blockchain.db.getTransactionsByBlock headerEnv 0 }) ↔
      ¬(genesisBlock 0).difficulty.isFinite = true :=
  tip_echo_quiet_iff headerEnv (start "node" 0) (start "peer" 0) 0 0 _
    (getBlock_eq_some_iff.mpr ⟨genesisRow 0, List.mem_singleton_self _, rfl, by decide +kernel⟩)

/-- After the echo of the block that the sample node mined itself, its reward is gone. -/
theorem mined_tip_echo_not_quiet :
    (sampleMiner.blockchain.getBlock sampleEnv sampleMiner.blockchain.getHeight).map (·.header) =
        some sampleBlock.header ∧
      ¬sampleMiner.Quiet sampleEnv (newBlockEvent (start "beta" 1700000000) 1700143364 1700143364 sampleBlock) := by
  obtain ⟨hheader, hbalance⟩ :
      (sampleMiner.blockchain.getBlock sampleEnv sampleMiner.blockchain.getHeight).map (·.header) =
          some sampleBlock.header ∧
        (sampleMiner.blockchain.getBalance "alpha").1 ≠ ((sampleMiner.step sampleEnv (newBlockEvent
          (start "beta" 1700000000) 1700143364 1700143364 sampleBlock)).blockchain.getBalance "alpha").1 := by
    decide +kernel
  exact ⟨hheader, fun hquiet => hbalance (hquiet.balances "alpha").symm⟩

end Node

section
set_option linter.unusedSectionVars false
variable [Arithmetic]

/-! ### Two blocks above one tip -/

namespace Blockchain
variable {env : Env} {c : Blockchain} {b : Block}

/-- A block for the place right above the tip, its hash not stored yet, its difficulty a number that JSON has. -/
structure Successor (c : Blockchain) (b : Block) : Prop where
  follows : ∃ tip, c.tip = some tip ∧ b.height.toInt = tip.height.toInt + 1 ∧ b.prevHash = tip.hash.val
  finite : b.difficulty.isFinite = true
  fresh : CString.bind b.hash ∉ c.rows.map (·.hash)

theorem Successor.height (h : c.Successor b) : b.height.toInt = c.getHeight.toInt + 1 := by
  obtain ⟨tip, htip, hheight, -⟩ := h.follows
  rw [hheight, (tip_eq_some_iff.mp htip).2]

theorem Successor.appends (h : c.Successor b) : c.Appends b where
  above := by
    have := h.height
    omega
  follows _ := by
    obtain ⟨tip, htip, -, hprev⟩ := h.follows
    exact ⟨tip, htip, hprev.symm⟩
  valued := Double.isNaN_of_isFinite h.finite
  fresh := h.fresh

theorem Successor.extends (h : c.Successor b) : c.Extends b where
  height := by
    refine Int32.toInt_inj.mp ?_
    rw [toInt_succ h.appends.above, h.height]
  prevHash := by
    obtain ⟨tip, htip, -, hprev⟩ := h.follows
    exact ⟨tip, htip, hprev.symm⟩

theorem Successor.withTransactions (h : c.Successor b) (txs : List Transaction) :
    c.Successor { b with transactions := txs } := ⟨h.follows, h.finite, h.fresh⟩

end Blockchain

namespace Node
variable {env : Env} {n sender : Node} {sent now : Int64} {a b : Block}

end Node

end

namespace Node

attribute [local instance] Arithmetic.binary64

/-- A block at height 1 of a fresh database. -/
def firstBlock (hash : String) : Block := plainBlock 1 hash zeroHash

theorem successor_firstBlock (nodeId : String) {hash : String} (h : cText hash ≠ cText zeroHash) :
    (start nodeId 0).blockchain.Successor (firstBlock hash) where
  follows := by
    refine ⟨genesisRow 0, rfl, ?_, ?_⟩
    · show (1 : Int32).toInt = (0 : Int32).toInt + 1
      decide
    · show zeroHash = cText zeroHash
      decide +kernel
  finite := rfl
  fresh := by
    intro hmem
    have heq : CString.bind hash = CString.bind zeroHash := List.mem_singleton.mp hmem
    exact h (CString.bind_eq_iff.mp heq)

end Node

end NexusLedger
