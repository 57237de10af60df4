import NexusLedger.Lib.Table
import NexusLedger.Block

/-! The SQLite store: the tables of `src/storage/schema.sql` and the statements of
    `src/storage/ledger_db.cpp`. Text is bound with length -1, so a column holds what precedes the first NUL. A column
    of reals holds no negative zero, and NULL for what is not a number. Every statement is atomic and fails only on a
    constraint. -/

namespace NexusLedger

/-! ### Rows -/

/-- The columns of a block that `getBlockByHeight` reads back. -/
structure Header where
  height : Int32
  hash : CString
  prevHash : CString
  merkleRoot : CString
  timestamp : Int64
  nonce : Int32
  difficulty : SqlReal
  minedBy : CString
  deriving DecidableEq

structure BlockRow extends Header where
  txCount : Nat
  deriving DecidableEq

structure TransactionRow where
  txHash : CString
  blockHeight : Option Int32
  txIndex : Option Int32
  fromAddress : CString
  toAddress : CString
  amount : SqlReal
  fee : SqlReal
  signature : CString
  timestamp : Int64
  data : CString
  status : CString
  deriving DecidableEq

structure WalletRow where
  address : CString
  nonce : Int64
  deriving DecidableEq

structure MempoolRow where
  txHash : CString
  receivedAt : Int64
  deriving DecidableEq

/-- The columns that a block is bound to. -/
def Block.header (b : Block) : Header where
  height := b.height
  hash := .bind b.hash
  prevHash := .bind b.prevHash
  merkleRoot := .bind b.merkleRoot
  timestamp := b.timestamp
  nonce := b.nonce
  difficulty := .bind b.difficulty
  minedBy := .bind b.minedBy

def Block.row (b : Block) : BlockRow := { b.header with txCount := b.transactions.length }

/-- The block that the columns are read into, before its transactions are fetched. -/
def Header.toBlock (h : Header) : Block where
  height := h.height
  hash := h.hash.val
  prevHash := h.prevHash.val
  merkleRoot := h.merkleRoot.val
  timestamp := h.timestamp
  nonce := h.nonce
  difficulty := h.difficulty.val
  minedBy := h.minedBy.val
  transactions := []

@[simp] theorem Header.header_toBlock (h : Header) : h.toBlock.header = h := by
  simp [Header.toBlock, Block.header]

/-- The columns that a transaction is bound to, at a block height or at none. -/
def Transaction.row (tx : Transaction) (blockHeight : Option Int32) : TransactionRow where
  txHash := .bind tx.txHash
  blockHeight
  txIndex := none
  fromAddress := .bind tx.fromAddress
  toAddress := .bind tx.toAddress
  amount := .bind tx.amount
  fee := .bind tx.fee
  signature := .bind tx.signature
  timestamp := tx.timestamp
  data := .bind tx.data
  status := .bind tx.status

/-- The transaction that a row was bound from, as far as its columns tell; no column holds the nonce. -/
def TransactionRow.written (env : Env) (t : TransactionRow) : Transaction where
  txHash := t.txHash.val
  fromAddress := t.fromAddress.val
  toAddress := t.toAddress.val
  amount := t.amount.val
  fee := t.fee.val
  signature := t.signature.val
  timestamp := t.timestamp
  data := t.data.val
  status := t.status.val
  nonce := env.indeterminate

/-- The transaction that both `SELECT *` readers make of a row. They number the columns without `tx_index`,
    the fourth one, so every field after the hash is read from the column before its own. A NULL leaves the
    sender as the constructor set it. -/
def TransactionRow.toTransaction (env : Env) (t : TransactionRow) : Transaction where
  txHash := t.txHash.val
  fromAddress := match t.txIndex with
    | some i => toString i.toInt
    | none => ""
  toAddress := t.fromAddress.val
  amount := env.textDouble t.toAddress
  fee := t.amount.val
  signature := (env.realText t.fee.val).val
  timestamp := env.textInt64 t.signature
  data := toString t.timestamp.toInt
  status := t.data.val
  nonce := env.indeterminate

@[simp] theorem cText_confirmed : cText "confirmed" = "confirmed" := by decide +kernel

@[simp] theorem cText_pending : cText "pending" = "pending" := by decide +kernel

def TransactionRow.confirmed (t : TransactionRow) : Bool := t.status.val == "confirmed"

/-! ### Constraints -/

/-- `height UNIQUE`, `hash UNIQUE`, `difficulty NOT NULL`. No other column that a block is bound to can be NULL. -/
def blocksSchema : Schema BlockRow where
  check r := !r.difficulty.isNull
  clash a b := a.height == b.height || a.hash == b.hash

/-- `tx_hash UNIQUE`, `UNIQUE (block_height, tx_index)` where no two NULLs are equal, and the three CHECKs. What is NOT
    NULL is compared as a number, so NULL fails. -/
def transactionsSchema : Schema TransactionRow where
  check t := decide (0 < t.amount.val) && decide (0 ≤ t.fee.val) &&
    (t.status.val == "pending" || t.status.val == "confirmed" || t.status.val == "invalid")
  clash a b := a.txHash == b.txHash ||
    (a.blockHeight.isSome && a.txIndex.isSome && a.blockHeight == b.blockHeight && a.txIndex == b.txIndex)

/-- `address UNIQUE`. -/
def walletsSchema : Schema WalletRow where
  check _ := true
  clash a b := a.address == b.address

/-- `tx_hash UNIQUE`. -/
def mempoolSchema : Schema MempoolRow where
  check _ := true
  clash a b := a.txHash == b.txHash

structure LedgerDB where
  wallets : Table walletsSchema
  blocks : Table blocksSchema
  transactions : Table transactionsSchema
  mempool : Table mempoolSchema

/-- The hash of the genesis block, of its Merkle root and of its transaction. -/
def zeroHash : String := "0000000000000000000000000000000000000000000000000000000000000000"

/-- The genesis block as `schema.sql` inserts it at time `now`. -/
def genesisBlock (now : Int64) : Block where
  height := 0
  hash := zeroHash
  prevHash := "0"
  merkleRoot := zeroHash
  timestamp := now
  nonce := 0
  difficulty := 1
  minedBy := "genesis_miner"
  transactions := []

def genesisRow (now : Int64) : BlockRow := { (genesisBlock now).header with txCount := 1 }

def genesisTransaction (now : Int64) : TransactionRow where
  txHash := .bind zeroHash
  blockHeight := some 0
  txIndex := some 0
  fromAddress := .bind "SYSTEM"
  toAddress := .bind "genesis_miner"
  amount := .bind 10000
  fee := .bind 0
  signature := .bind "genesis_signature"
  timestamp := now
  data := .bind "Genesis block reward"
  status := .bind "confirmed"

namespace LedgerDB

/-- The database that `schema.sql` leaves behind. -/
def schema (now : Int64) : LedgerDB where
  wallets := ⟨[{ address := .bind "genesis_miner", nonce := 0 }], by simp [walletsSchema], by simp⟩
  blocks := ⟨[genesisRow now], by simp [blocksSchema, genesisRow, Block.header]; rfl, by simp⟩
  transactions :=
    { rows := [genesisTransaction now]
      checked := by
        intro t ht
        rw [List.mem_singleton.mp ht]
        simp [transactionsSchema, genesisTransaction]
        decide +kernel
      distinct := by simp }
  mempool := Table.empty

/-! ### Wallets -/

def ensureWalletExists (db : LedgerDB) (address : String) : Bool × LedgerDB :=
  if db.wallets.rows.any fun w => w.address == .bind address then (true, db)
  else
    match db.wallets.insert { address := .bind address, nonce := 0 } with
    | some wallets => (true, { db with wallets })
    | none => (false, db)

/-- `COALESCE(SUM(…), 0)`: the sum is NULL over no rows, and where it is not a number. -/
def coalescedSum [Arithmetic] (column : List Double) : Double :=
  if column = [] ∨ (Arithmetic.sum column).isNaN = true then 0 else Arithmetic.sum column

/-- What a confirmed transaction adds to the balance of an address in the view `wallet_balance`. -/
def credit [Arithmetic] (address : CString) (t : TransactionRow) : Double :=
  if t.toAddress = address then t.amount.val
  else if t.fromAddress = address then Arithmetic.add (-t.amount.val) (-t.fee.val)
  else 0

/-- The column `balance` of the view `wallet_balance` for an address. -/
def viewBalance [Arithmetic] (db : LedgerDB) (address : CString) : Double :=
  coalescedSum ((db.transactions.rows.filter fun t =>
    t.confirmed && (t.toAddress == address || t.fromAddress == address)).map (credit address))

/-- The column `total_received`. -/
def totalReceived [Arithmetic] (db : LedgerDB) (address : CString) : Double :=
  coalescedSum ((db.transactions.rows.filter fun t => t.toAddress == address && t.confirmed).map (·.amount.val))

/-- The column `total_sent`. -/
def totalSent [Arithmetic] (db : LedgerDB) (address : CString) : Double :=
  coalescedSum ((db.transactions.rows.filter fun t => t.fromAddress == address && t.confirmed).map fun t =>
    Arithmetic.add t.amount.val t.fee.val)

/-- The view `wallet_balance`, one row for each wallet. -/
def walletBalance [Arithmetic] (db : LedgerDB) : List (CString × Double) :=
  db.wallets.rows.map fun w => (w.address, db.viewBalance w.address)

/-- `getBalance` creates the wallet when there is none. -/
def getBalance [Arithmetic] (db : LedgerDB) (address : String) : Double × LedgerDB :=
  let db := (db.ensureWalletExists address).2
  ((db.walletBalance.lookup (.bind address)).getD 0, db)

def getNextNonce (db : LedgerDB) (address : String) : UInt64 :=
  match db.wallets.rows.find? fun w => w.address == .bind address with
  | some w => w.nonce.toUInt64 + 1
  | none => 1

def setNonce (address : CString) (nonce : Int64) (w : WalletRow) : WalletRow :=
  if w.address = address then { w with nonce } else w

@[simp] theorem setNonce_address (address : CString) (nonce : Int64) (w : WalletRow) :
    (setNonce address nonce w).address = w.address := by
  unfold setNonce
  split <;> rfl

/-- `updateNonce`: an `UPDATE` of any number of rows is done. -/
def updateNonce (db : LedgerDB) (address : String) (nonce : UInt64) : Bool × LedgerDB :=
  (true,
    { db with
      wallets := db.wallets.update (setNonce (.bind address) nonce.toInt64) (fun _ => rfl)
        (fun a b => by simp [walletsSchema]) })

/-! ### Transactions and the mempool table -/

/-- `addTransaction`: a negative height is bound as NULL. -/
def addTransaction (db : LedgerDB) (tx : Transaction) (blockHeight : Int32) : Bool × LedgerDB :=
  match db.transactions.insert (tx.row (if 0 ≤ blockHeight then some blockHeight else none)) with
  | some transactions => (true, { db with transactions })
  | none => (false, db)

def getTransactionsByBlock (env : Env) (db : LedgerDB) (height : Int32) : List Transaction :=
  (db.transactions.rows.filter fun t => t.blockHeight == some height).map (·.toTransaction env)

def getTransactionByHash (env : Env) (db : LedgerDB) (hash : String) : Option Transaction :=
  (db.transactions.rows.find? fun t => t.txHash == .bind hash).map (·.toTransaction env)

def addToMempool (db : LedgerDB) (tx : Transaction) (now : Int64) : Bool × LedgerDB :=
  match db.mempool.insert { txHash := .bind tx.txHash, receivedAt := now } with
  | some mempool => (true, { db with mempool })
  | none => (false, db)

/-! ### Blocks -/

/-- The transactions of a block go in one by one; a rejected one is passed over. -/
def addTransactions (db : LedgerDB) (txs : List Transaction) (height : Int32) : LedgerDB :=
  txs.foldl (fun db tx => (db.addTransaction tx height).2) db

def addBlock (db : LedgerDB) (block : Block) : Bool × LedgerDB :=
  match db.blocks.insert block.row with
  | some blocks => (true, { db with blocks }.addTransactions block.transactions block.height)
  | none => (false, db)

def rowAt (db : LedgerDB) (height : Int32) : Option BlockRow :=
  db.blocks.rows.find? fun r => r.height == height

def getBlockByHeight (env : Env) (db : LedgerDB) (height : Int32) : Option Block :=
  (db.rowAt height).map fun r =>
    { r.toHeader.toBlock with transactions := db.getTransactionsByBlock env height }

/-- `SELECT MAX(height)`. -/
def maxHeight : List BlockRow → Option Int32
  | [] => none
  | r :: rs =>
    match maxHeight rs with
    | some m => some (if m ≤ r.height then r.height else m)
    | none => some r.height

/-- `getLatestHeight`: the query always yields a row, and NULL reads as 0. -/
def getLatestHeight (db : LedgerDB) : Int32 := (maxHeight db.blocks.rows).getD 0

/-- `DELETE FROM blocks WHERE height = …`, `DELETE FROM transactions WHERE block_height = …`. -/
def deleteBlock (db : LedgerDB) (height : Int32) : LedgerDB :=
  { db with
    blocks := db.blocks.delete fun r => r.height == height
    transactions := db.transactions.delete fun t => t.blockHeight == some height }

end LedgerDB

end NexusLedger
