import NexusLedger.Blockchain

/-! What each call writes to the database, statement by statement. SQLite commits every statement by itself: no caller
    uses `beginTransaction`, so a process that ends inside a call leaves behind what its first statements wrote. -/

namespace NexusLedger
variable [Arithmetic]

/-- A statement that writes to the ledger. -/
inductive Statement
  | insertWallet (address : String)
  | updateNonce (address : String) (nonce : UInt64)
  | insertTransaction (tx : Transaction) (blockHeight : Option Int32)
  | insertMempool (tx : Transaction) (now : Int64)
  | insertBlock (block : Block)
  | insertGenesisBlock (now : Int64)
  | insertGenesisTransaction (now : Int64)
  | deleteBlocks (height : Int32)
  | deleteTransactions (height : Int32)

namespace Statement

/-- A statement that fails leaves its table. -/
def apply (db : LedgerDB) : Statement → LedgerDB
  | .insertWallet address =>
    { db with wallets := db.wallets.insertOrIgnore { address := .bind address, nonce := 0 } }
  | .updateNonce address nonce => (db.updateNonce address nonce).2
  | .insertTransaction tx blockHeight => { db with transactions := db.transactions.insertOrIgnore (tx.row blockHeight) }
  | .insertMempool tx now =>
    { db with mempool := db.mempool.insertOrIgnore { txHash := .bind tx.txHash, receivedAt := now } }
  | .insertBlock block => { db with blocks := db.blocks.insertOrIgnore block.row }
  | .insertGenesisBlock now => { db with blocks := db.blocks.insertOrIgnore (genesisRow now) }
  | .insertGenesisTransaction now => { db with transactions := db.transactions.insertOrIgnore (genesisTransaction now) }
  | .deleteBlocks height => { db with blocks := db.blocks.delete fun r => r.height == height }
  | .deleteTransactions height => { db with transactions := db.transactions.delete fun t => t.blockHeight == some height }

end Statement

/-! ### Calls of the store -/

namespace LedgerDB

/-- `ensureWalletExists`; `getBalance` writes nothing else. -/
def walletStatements (db : LedgerDB) (address : String) : List Statement :=
  if db.wallets.rows.any fun w => w.address == .bind address then []
  else [.insertWallet address]

/-- `addTransaction`. -/
def transactionStatement (tx : Transaction) (blockHeight : Int32) : Statement :=
  .insertTransaction tx (if 0 ≤ blockHeight then some blockHeight else none)

/-- `addBlock`: the row of the block first, then its transactions. -/
def blockStatements (db : LedgerDB) (block : Block) : List Statement :=
  .insertBlock block ::
    if db.blocks.fits block.row then block.transactions.map (transactionStatement · block.height) else []

/-- What `schema.sql` inserts; each statement passes over a row that is there. -/
def schemaStatements (now : Int64) : List Statement :=
  [.insertWallet "genesis_miner", .insertGenesisBlock now, .insertGenesisTransaction now]

def empty : LedgerDB where
  wallets := .empty
  blocks := .empty
  transactions := .empty
  mempool := .empty

/-- The constructor, after starts that ended before they were done. -/
def start (db : LedgerDB) (aborted : List (Int64 × Nat)) (now : Int64) : LedgerDB :=
  (schemaStatements now).foldl Statement.apply
    (aborted.foldl (fun db a => ((schemaStatements a.1).take a.2).foldl Statement.apply db) db)

end LedgerDB

/-! ### Calls of the chain -/

namespace Blockchain

def findInvalidStatements (mempool : Finmap fun _ : String => Transaction) :
    List TxPriority → LedgerDB → List Statement
  | [], _ => []
  | priority :: rest, db =>
    match mempool.lookup priority.txHash with
    | none => findInvalidStatements mempool rest db
    | some tx =>
      if tx.fromAddress = "SYSTEM" then findInvalidStatements mempool rest db
      else
        db.walletStatements tx.fromAddress ++ findInvalidStatements mempool rest (db.getBalance tx.fromAddress).2

def cleanMempoolStatements (c : Blockchain) : List Statement :=
  findInvalidStatements c.mempool c.mempoolByPriority.elems c.db

def addTransactionStatements (c : Blockchain) (tx : Transaction) (now : Int64) : List Statement :=
  let enqueued := [LedgerDB.transactionStatement tx (-1), .insertMempool tx now]
  if tx.amount ≤ 0 then []
  else if tx.fee < 0 then []
  else if tx.fromAddress = "SYSTEM" then c.db.walletStatements tx.toAddress ++ enqueued
  else
    let db := (c.db.ensureWalletExists tx.fromAddress).2
    let db' := (db.ensureWalletExists tx.toAddress).2
    let wallets := c.db.walletStatements tx.fromAddress ++ db.walletStatements tx.toAddress ++
      db'.walletStatements tx.fromAddress
    if (db'.getBalance tx.fromAddress).1 < Arithmetic.add tx.amount tx.fee then wallets
    else wallets ++ .updateNonce tx.fromAddress (tx.nonce + 1) :: enqueued

def addBlockStatements (c : Blockchain) (block : Block) : List Statement :=
  if block.height ≤ c.getHeight then []
  else if 0 < block.height ∧ (c.db.rowAt c.getHeight).map (·.hash.val) ≠ some block.prevHash then []
  else
    match c.db.addBlock block with
    | (false, _) => c.db.blockStatements block
    | (true, db) =>
      let mempool := block.transactions.foldl
        (fun m tx => if tx.fromAddress ≠ "SYSTEM" then m.erase tx.txHash else m) c.mempool
      c.db.blockStatements block ++ cleanMempoolStatements { c with db, mempool }

def selectStatements (mempool : Finmap fun _ : String => Transaction) :
    List TxPriority → LedgerDB → Nat → List Statement
  | [], _, _ => []
  | priority :: rest, db, txCount =>
    if 10 ≤ txCount then []
    else
      match mempool.lookup priority.txHash with
      | none => selectStatements mempool rest db txCount
      | some tx =>
        if tx.fromAddress = "SYSTEM" then selectStatements mempool rest db (txCount + 1)
        else
          let (balance, db') := db.getBalance tx.fromAddress
          db.walletStatements tx.fromAddress ++
            if balance < Arithmetic.add tx.amount tx.fee then selectStatements mempool rest db' txCount
            else selectStatements mempool rest db' (txCount + 1)

def createBlockStatements (c : Blockchain) : List Statement :=
  selectStatements c.mempool c.mempoolByPriority.elems c.db 0

def restoreStatements (env : Env) (c : Blockchain) (now : Int64) : List Transaction → List Statement
  | [] => []
  | tx :: txs =>
    if tx.fromAddress ≠ "SYSTEM" ∧ 0 < tx.amount ∧ 0 ≤ tx.fee then
      c.addTransactionStatements tx now ++ restoreStatements env (c.addTransaction env tx now).2 now txs
    else restoreStatements env c now txs

def replaceLastBlockStatements (env : Env) (c : Blockchain) (newBlock : Block) (now : Int64) : List Statement :=
  let currentHeight := c.getHeight
  if currentHeight ≠ newBlock.height then []
  else
    match c.getBlock env currentHeight with
    | none => []
    | some oldBlock =>
      if oldBlock.prevHash ≠ newBlock.prevHash then []
      else
        let deleted := c.db.deleteBlock currentHeight
        .deleteBlocks currentHeight :: .deleteTransactions currentHeight :: deleted.blockStatements newBlock ++
          match deleted.addBlock newBlock with
          | (false, _) => []
          | (true, db) =>
            restoreStatements env { c with db } now oldBlock.transactions ++
              cleanMempoolStatements ({ c with db }.restore env oldBlock.transactions now)

def statements (env : Env) (c : Blockchain) : Operation → List Statement
  | .addTransaction tx now => c.addTransactionStatements tx now
  | .createBlock _ _ => c.createBlockStatements
  | .cleanMempool => c.cleanMempoolStatements
  | .removeFromMempool _ => []
  | .call (.addBlock block) => c.addBlockStatements block
  | .call (.replaceLastBlock block now) => c.replaceLastBlockStatements env block now

/-! ### A process that ends and starts again -/

/-- A call that returns, a call that ends after so many of its statements with a start after it, and a start after a
    shutdown between calls. -/
inductive Phase
  | operate (op : Operation)
  | crash (op : Operation) (k : Nat) (aborted : List (Int64 × Nat)) (now : Int64)
  | restart (aborted : List (Int64 × Nat)) (now : Int64)

/-- What was in memory only is lost. -/
def live (env : Env) (c : Blockchain) : Phase → Blockchain
  | .operate op => operate env c op
  | .crash op k aborted now => .opened ((((c.statements env op).take k).foldl Statement.apply c.db).start aborted now)
  | .restart aborted now => .opened (c.db.start aborted now)

end Blockchain

end NexusLedger
