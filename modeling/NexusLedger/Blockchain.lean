import NexusLedger.Lib.OrderedSet
import NexusLedger.LedgerDB
import Mathlib.Data.Finmap

/-! `src/blockchain/blockchain.cpp`: the chain over the store, the mempool and its priority index. The clock
    is an argument of each operation that reads it. -/

namespace NexusLedger

structure TxPriority where
  feePerByte : Double
  txHash : String
  timestamp : Int64
  deriving DecidableEq

/-- `TxPriority::operator<`: the higher fee first, then the older entry. The hash takes no part. -/
def TxPriority.lt (a b : TxPriority) : Bool :=
  if ¬a.feePerByte.Equals b.feePerByte then decide (b.feePerByte < a.feePerByte)
  else decide (a.timestamp.toInt < b.timestamp.toInt)

theorem TxPriority.lt_iff {a b : TxPriority} : a.lt b = true ↔
    ∃ x, a.feePerByte.place = some x ∧ ∃ y, b.feePerByte.place = some y ∧
      (y < x ∨ x = y ∧ a.timestamp.toInt < b.timestamp.toInt) := by
  unfold lt
  split
  case isTrue hne =>
    rw [decide_eq_true_iff, Double.lt_iff]
    rw [Double.equals_iff] at hne
    grind
  case isFalse heq =>
    rw [decide_eq_true_iff]
    rw [not_not, Double.equals_iff] at heq
    obtain ⟨x, hx, hy⟩ := heq
    simp only [hx, hy, Option.some.injEq, exists_eq_left', lt_irrefl, false_or, true_and]

/-- An entry whose fee is NaN compares with no other one. It goes into an empty set alone, and nothing goes in beside
    it, in a tree as in a list. -/
def TxPriority.order : StrictOrder TxPriority where
  lt := TxPriority.lt
  asymm a b h := by
    rw [← Bool.not_eq_true, TxPriority.lt_iff]
    rw [TxPriority.lt_iff] at h
    obtain ⟨x, hx, y, hy, h⟩ := h
    rintro ⟨y', hy', x', hx', h'⟩
    obtain rfl := Option.some_inj.mp (hx.symm.trans hx')
    obtain rfl := Option.some_inj.mp (hy.symm.trans hy')
    rcases h with h | ⟨rfl, h⟩
    · rcases h' with h' | ⟨rfl, -⟩
      · exact lt_asymm h h'
      · exact lt_irrefl _ h
    · rcases h' with h' | ⟨-, h'⟩
      · exact lt_irrefl _ h'
      · omega
  trans a b c hab hbc := by
    rw [TxPriority.lt_iff] at hab hbc ⊢
    obtain ⟨x, hx, y, hy, hab⟩ := hab
    obtain ⟨y', hy', z, hz, hbc⟩ := hbc
    obtain rfl := Option.some_inj.mp (hy.symm.trans hy')
    refine ⟨x, hx, z, hz, ?_⟩
    rcases hab with hab | ⟨rfl, hab⟩
    · rcases hbc with hbc | ⟨rfl, -⟩
      · exact Or.inl (hbc.trans hab)
      · exact Or.inl hab
    · rcases hbc with hbc | ⟨rfl, hbc⟩
      · exact Or.inl hbc
      · exact Or.inr ⟨rfl, by omega⟩

structure Blockchain where
  db : LedgerDB
  mempool : Finmap fun _ : String => Transaction
  mempoolByPriority : OrderedSet TxPriority.order

namespace Blockchain

def reward : Double := 100

def targetBlockTimeSeconds : Int32 := 60

def difficultyAdjustmentInterval : Int32 := 10

def maxDifficulty : Int32 := 6

def maxMempool : Nat := 10000

/-- The constructor: a chain opened on a database that is there. -/
def opened (db : LedgerDB) : Blockchain where
  db
  mempool := ∅
  mempoolByPriority := .empty

/-- A chain opened on a fresh database. -/
def genesis (now : Int64) : Blockchain where
  db := .schema now
  mempool := ∅
  mempoolByPriority := .empty

def getHeight (c : Blockchain) : Int32 := c.db.getLatestHeight

def getBlock (env : Env) (c : Blockchain) (height : Int32) : Option Block := c.db.getBlockByHeight env height

def getMempoolSize (c : Blockchain) : Nat := c.mempool.keys.card

def getBalance [Arithmetic] (c : Blockchain) (address : String) : Double × Blockchain :=
  let (balance, db) := c.db.getBalance address
  (balance, { c with db })

/-! ### Cleaning the mempool -/

/-- The first loop of `cleanMempool`: the index entries whose sender cannot pay. Each balance query may
    create a wallet. -/
def findInvalid [Arithmetic] (mempool : Finmap fun _ : String => Transaction) :
    List TxPriority → LedgerDB → List TxPriority × LedgerDB
  | [], db => ([], db)
  | priority :: rest, db =>
    match mempool.lookup priority.txHash with
    | none => findInvalid mempool rest db
    | some tx =>
      if tx.fromAddress = "SYSTEM" then findInvalid mempool rest db
      else
        let (balance, db) := db.getBalance tx.fromAddress
        let (toRemove, db) := findInvalid mempool rest db
        (if balance < Arithmetic.add tx.amount tx.fee then priority :: toRemove else toRemove, db)

/-- The second loop of `cleanMempool`. -/
def removeAll (c : Blockchain) (toRemove : List TxPriority) : Blockchain :=
  toRemove.foldl
    (fun c p => { c with mempool := c.mempool.erase p.txHash, mempoolByPriority := c.mempoolByPriority.erase p }) c

def cleanMempool [Arithmetic] (c : Blockchain) : Nat × Blockchain :=
  let (toRemove, db) := findInvalid c.mempool c.mempoolByPriority.elems c.db
  (toRemove.length, { c with db }.removeAll toRemove)

/-! ### Admitting a transaction -/

/-- `while (mempool_by_priority.size() > 10000)`: drops the last entry, with the transaction it names. -/
def evict (c : Blockchain) : Nat → Blockchain
  | 0 => c
  | fuel + 1 =>
    if maxMempool < c.mempoolByPriority.size then
      match c.mempoolByPriority.last? with
      | some lowest =>
        evict
          { c with
            mempool := c.mempool.erase lowest.txHash
            mempoolByPriority := c.mempoolByPriority.eraseLast } fuel
      | none => c
    else c

/-- The part of `addTransaction` that follows the checks. -/
def enqueue [Arithmetic] (env : Env) (c : Blockchain) (tx : Transaction) (now : Int64) : Blockchain :=
  let feePerByte := Arithmetic.div tx.fee (.ofInt (tx.toJson env).utf8ByteSize)
  let c :=
    { c with
      mempool := c.mempool.insert tx.txHash tx
      mempoolByPriority := c.mempoolByPriority.insert { feePerByte, txHash := tx.txHash, timestamp := now } }
  let c := c.evict c.mempoolByPriority.size
  let db := (c.db.addTransaction tx (-1)).2
  let db := (db.addToMempool tx now).2
  { c with db }

def addTransaction [Arithmetic] (env : Env) (c : Blockchain) (tx : Transaction) (now : Int64) : Bool × Blockchain :=
  if tx.amount ≤ 0 then (false, c)
  else if tx.fee < 0 then (false, c)
  else if tx.fromAddress = "SYSTEM" then
    (true, { c with db := (c.db.ensureWalletExists tx.toAddress).2 }.enqueue env tx now)
  else
    let db := (c.db.ensureWalletExists tx.fromAddress).2
    let db := (db.ensureWalletExists tx.toAddress).2
    let (balance, db) := db.getBalance tx.fromAddress
    if balance < Arithmetic.add tx.amount tx.fee then (false, { c with db })
    else
      let (updated, db) := db.updateNonce tx.fromAddress (tx.nonce + 1)
      if updated then (true, { c with db }.enqueue env tx now) else (false, { c with db })

/-! ### The chain -/

def addBlock [Arithmetic] (c : Blockchain) (block : Block) : Bool × Blockchain :=
  let currentHeight := c.getHeight
  if block.height ≤ currentHeight then (false, c)
  -- No block at the current height, or its hash is not `prevHash`.
  else if 0 < block.height ∧ (c.db.rowAt currentHeight).map (·.hash.val) ≠ some block.prevHash then (false, c)
  else
    match c.db.addBlock block with
    | (false, db) => (false, { c with db })
    | (true, db) =>
      let mempool := block.transactions.foldl
        (fun m tx => if tx.fromAddress ≠ "SYSTEM" then m.erase tx.txHash else m) c.mempool
      (true, ({ c with db, mempool }).cleanMempool.2)

/-- `current_diff` to `new_diff`: the step for the time the last interval took. -/
def retarget (timeSpan : ℤ) (currentDiff : Int32) : Int32 :=
  let expectedTime := targetBlockTimeSeconds * difficultyAdjustmentInterval
  let newDiff :=
    if (timeSpan : ℚ) < expectedTime.toInt * (3 / 4) then currentDiff * 2
    else if (timeSpan : ℚ) > expectedTime.toInt * (5 / 4) then max 1 (currentDiff / 2)
    else currentDiff
  let newDiff := max 1 (min newDiff (currentDiff * 4))
  if newDiff > maxDifficulty then maxDifficulty else newDiff

/-- Overflow of the `int` arithmetic is undefined in the source and wraps here. -/
def getCurrentDifficulty (env : Env) (c : Blockchain) : Int32 :=
  let height := c.getHeight
  if height < difficultyAdjustmentInterval then 4
  else
    match c.getBlock env (height - difficultyAdjustmentInterval + 1), c.getBlock env height with
    | some firstBlock, some lastBlock =>
      retarget (lastBlock.timestamp - firstBlock.timestamp).toInt (Int32.ofInt lastBlock.difficulty.toInteger)
    | _, _ => 2

/-- The selection loop of `createBlock`: in index order, at most ten that can pay. -/
def selectTransactions [Arithmetic] (mempool : Finmap fun _ : String => Transaction) :
    List TxPriority → LedgerDB → Nat → List Transaction × LedgerDB
  | [], db, _ => ([], db)
  | priority :: rest, db, txCount =>
    if 10 ≤ txCount then ([], db)
    else
      match mempool.lookup priority.txHash with
      | none => selectTransactions mempool rest db txCount
      | some tx =>
        if tx.fromAddress = "SYSTEM" then
          let (txs, db) := selectTransactions mempool rest db (txCount + 1)
          (tx :: txs, db)
        else
          let (balance, db) := db.getBalance tx.fromAddress
          if balance < Arithmetic.add tx.amount tx.fee then selectTransactions mempool rest db txCount
          else
            let (txs, db) := selectTransactions mempool rest db (txCount + 1)
            (tx :: txs, db)

def createBlock [Arithmetic] (env : Env) (c : Blockchain) (miner : String) (now : Int64) : Block × Blockchain :=
  let lastHeight := c.getHeight
  let (height, prevHash) :=
    match if 0 ≤ lastHeight then c.getBlock env lastHeight else none with
    | some lastBlock => (lastHeight + 1, lastBlock.hash)
    | none => (0, "0")
  let coinbase := Transaction.createCoinbase env now miner reward
  let (selected, db) := selectTransactions c.mempool c.mempoolByPriority.elems c.db 0
  let block : Block :=
    { Block.new now with
      height
      prevHash
      minedBy := miner
      difficulty := .number (c.getCurrentDifficulty env).toInt
      transactions := coinbase :: selected }
  let c := { c with db }
  -- Nothing could be included although the mempool holds something: it is cleared.
  let c := if selected = [] ∧ c.mempool ≠ ∅ then { c with mempool := ∅, mempoolByPriority := .empty } else c
  ({ block with merkleRoot := block.calculateMerkleRoot env }, c)

/-- The transactions of a replaced block go back to the mempool. -/
def restore [Arithmetic] (env : Env) (c : Blockchain) (txs : List Transaction) (now : Int64) : Blockchain :=
  txs.foldl
    (fun c tx =>
      if tx.fromAddress ≠ "SYSTEM" ∧ 0 < tx.amount ∧ 0 ≤ tx.fee then (c.addTransaction env tx now).2 else c) c

/-- The old block is deleted before the new one is inserted; a rejected insert leaves neither. -/
def replaceLastBlock [Arithmetic] (env : Env) (c : Blockchain) (newBlock : Block) (now : Int64) : Bool × Blockchain :=
  let currentHeight := c.getHeight
  if currentHeight ≠ newBlock.height then (false, c)
  else
    match c.getBlock env currentHeight with
    | none => (false, c)
    | some oldBlock =>
      if oldBlock.prevHash ≠ newBlock.prevHash then (false, c)
      else
        match (c.db.deleteBlock currentHeight).addBlock newBlock with
        | (false, db) => (false, { c with db })
        | (true, db) => (true, ({ c with db }.restore env oldBlock.transactions now).cleanMempool.2)

def removeFromMempool (c : Blockchain) (txHash : String) : Blockchain := { c with mempool := c.mempool.erase txHash }

/-- A call that can change the blocks table. -/
inductive Call
  | addBlock (block : Block)
  | replaceLastBlock (block : Block) (now : Int64)

/-- The call's return value, and the chain after it. -/
def exec [Arithmetic] (env : Env) (c : Blockchain) : Call → Bool × Blockchain
  | .addBlock block => c.addBlock block
  | .replaceLastBlock block now => c.replaceLastBlock env block now

/-- A call that can change the chain. -/
inductive Operation
  | addTransaction (tx : Transaction) (now : Int64)
  | createBlock (miner : String) (now : Int64)
  | cleanMempool
  | removeFromMempool (txHash : String)
  | call (k : Call)

/-- The chain after the call. -/
def operate [Arithmetic] (env : Env) (c : Blockchain) : Operation → Blockchain
  | .addTransaction tx now => (c.addTransaction env tx now).2
  | .createBlock miner now => (c.createBlock env miner now).2
  | .cleanMempool => c.cleanMempool.2
  | .removeFromMempool txHash => c.removeFromMempool txHash
  | .call k => (c.exec env k).2

end Blockchain

end NexusLedger
