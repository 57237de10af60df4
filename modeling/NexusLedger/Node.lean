import NexusLedger.Blockchain

/-! The ledger side of a node: the message handlers, the mining loop and the HTTP transaction of
    `src/core/node.cpp`, over the messages of `src/network/message.h`. Peer discovery does not touch the
    ledger and is not part of this state. -/

namespace NexusLedger

inductive MessageType
  | handshake
  | ping
  | pong
  | getPeers
  | peersList
  | getBlocks
  | blocksResponse
  | newTransaction
  | newBlock
  | syncRequest
  | syncResponse
  | error
  deriving DecidableEq

structure Message where
  type : MessageType
  senderId : String
  timestamp : Int64
  payload : Json

/-- `new_block` and `target_height` of a running `mine_loop`. -/
structure Template where
  block : Block
  targetHeight : Int32

structure Node where
  nodeId : String
  blockchain : Blockchain
  template : Option Template

/-- What a step does beside changing the node: messages to every connection or to the peer that is being
    answered, and the block calls with the chain they ran on. -/
inductive Effect
  | broadcast (msg : Message)
  | reply (msg : Message)
  | call (before : Blockchain) (c : Blockchain.Call)

/-- What a node does on its own account. -/
inductive OwnEvent
  | http (now : Int64) (body : Json)
  | clean
  | template (now : Int64)
  | submit (now : Int64)
  | abandon
  | sync (now : Int64)

inductive Event
  | own (e : OwnEvent)
  | message (now : Int64) (msg : Message)

namespace Node

def start (nodeId : String) (now : Int64) : Node where
  nodeId
  blockchain := .genesis now
  template := none

/-! ### Messages a node sends -/

def getBlocksMessage (n : Node) (now : Int64) (fromHeight : Int32) : Message where
  type := .getBlocks
  senderId := n.nodeId
  timestamp := now
  payload := .obj [("from_height", .int fromHeight.toInt)]

def blocksResponseMessage (env : Env) (n : Node) (now : Int64) (blocks : List Block) : Message where
  type := .blocksResponse
  senderId := n.nodeId
  timestamp := now
  payload := .arr (blocks.map (·.toJson env))

/-- `broadcastTransaction`. -/
def newTransactionMessage (n : Node) (now : Int64) (tx : Transaction) : Message where
  type := .newTransaction
  senderId := n.nodeId
  timestamp := now
  payload := .obj [("from", .str tx.fromAddress), ("to", .str tx.toAddress), ("amount", .ofDouble tx.amount)]

/-- `broadcastBlock`: the header alone. -/
def newBlockMessage (n : Node) (now : Int64) (b : Block) : Message where
  type := .newBlock
  senderId := n.nodeId
  timestamp := now
  payload := .obj b.headerMembers

def pongMessage (n : Node) (now : Int64) : Message where
  type := .pong
  senderId := n.nodeId
  timestamp := now
  payload := .null

/-- `syncWithPeer`: asks for the blocks above the tip. -/
def syncMessage (n : Node) (now : Int64) : Message := n.getBlocksMessage now (n.blockchain.getHeight + 1)

/-! ### Message handlers -/

/-- The heights that the loop of the GET_BLOCKS handler visits. Past the largest `int` the counter cannot
    be incremented: the loop has no defined end. -/
def heightsFrom (fromHeight currentHeight : Int32) : Option (List Int32) :=
  if currentHeight < fromHeight then some []
  else if currentHeight = Int32.maxValue then none
  else
    some ((List.range (currentHeight.toInt - fromHeight.toInt + 1).toNat).map fun i : Nat =>
      Int32.ofInt (fromHeight.toInt + i))

def handleGetBlocks (env : Env) (n : Node) (now : Int64) (payload : Json) : Node × List Effect :=
  match payload.value Json.getInt "from_height" 0 with
  | .error _ => (n, [])
  | .ok fromHeight =>
    match heightsFrom fromHeight n.blockchain.getHeight with
    | none => (n, [])
    | some heights =>
      let blocks := heights.filterMap (n.blockchain.getBlock env)
      if blocks = [] then (n, []) else (n, [.reply (n.blocksResponseMessage env now blocks)])

/-- The loop of the BLOCKS_RESPONSE handler. A failed read is thrown out of the whole loop. -/
def addReceived [Arithmetic] : Blockchain → List Json → Blockchain × List Effect
  | c, [] => (c, [])
  | c, bj :: rest =>
    match Block.readHeader bj with
    | .error _ => (c, [])
    | .ok block =>
      if block.height ≤ c.getHeight then addReceived c rest
      else
        let (_, c') := c.addBlock block
        let (c', effects) := addReceived c' rest
        (c', .call c (.addBlock block) :: effects)

/-- The blocks that are not above the height at the outset are passed over. Nothing calls it. -/
def handleFork [Arithmetic] (n : Node) (alternativeChain : List Block) : Node :=
  let currentHeight := n.blockchain.getHeight
  match alternativeChain.getLast? with
  | none => n
  | some last =>
    if last.height ≤ currentHeight then n
    else
      { n with
        blockchain := alternativeChain.foldl
          (fun c block => if currentHeight < block.height then (c.addBlock block).2 else c) n.blockchain }

def handleBlocksResponse [Arithmetic] (n : Node) (payload : Json) : Node × List Effect :=
  match payload with
  | .arr blocks =>
    let (blockchain, effects) := addReceived n.blockchain blocks
    ({ n with blockchain }, effects)
  | _ => (n, [])

/-- The literal `0.001`, the nearest number to a thousandth. -/
def thousandth : Double := .number (1152921504606847 / 2 ^ 60)

def readNewTransaction (env : Env) (now : Int64) (payload : Json) : Json.Read Transaction := do
  let fromAddress ← payload.value Json.getString "from" ""
  let toAddress ← payload.value Json.getString "to" ""
  let amount ← payload.value Json.getDouble "amount" 0
  let fee ← payload.value Json.getDouble "fee" thousandth
  let nonce ← payload.value Json.getULongLong "nonce" 1
  let signature ← payload.value Json.getString "signature" "p2p_sig"
  let tx := { Transaction.new env now with fromAddress, toAddress, amount, fee, nonce, signature }
  return { tx with txHash := tx.calculateHash env }

theorem pending_of_readNewTransaction {env : Env} {now : Int64} {payload : Json} {tx : Transaction}
    (h : readNewTransaction env now payload = .ok tx) : tx.status = "pending" ∧ tx.data = "" := by
  simp only [readNewTransaction, Json.Read.bind_eq_ok] at h
  obtain ⟨_, -, _, -, _, -, _, -, _, -, _, -, h⟩ := h
  cases h
  exact ⟨rfl, rfl⟩

def handleNewTransaction [Arithmetic] (env : Env) (n : Node) (now : Int64) (payload : Json) : Node × List Effect :=
  match readNewTransaction env now payload with
  | .error _ => (n, [])
  | .ok tx =>
    match n.blockchain.addTransaction env tx now with
    | (true, blockchain) => ({ n with blockchain }, [.broadcast (n.newTransactionMessage now tx)])
    | (false, blockchain) => ({ n with blockchain }, [])

/-- NEW_BLOCK. An accepted block ends the running `mine_loop`, which starts again without a template. -/
def handleNewBlock [Arithmetic] (env : Env) (n : Node) (now : Int64) (payload : Json) : Node × List Effect :=
  match Block.fromJson env payload with
  | .error _ => (n, [])
  | .ok block =>
    let myHeight := n.blockchain.getHeight
    match n.blockchain.getBlock env myHeight with
    -- `last_block` is dereferenced unchecked: without a block at the tip nothing is defined.
    | none => (n, [])
    | some lastBlock =>
      if block.height = myHeight + 1 ∧ block.prevHash = lastBlock.hash then
        match n.blockchain.addBlock block with
        | (true, blockchain) =>
          ({ n with blockchain, template := none },
            [.call n.blockchain (.addBlock block), .broadcast (n.newBlockMessage now block)])
        | (false, blockchain) => ({ n with blockchain }, [.call n.blockchain (.addBlock block)])
      else if block.height = myHeight ∧ block.prevHash = lastBlock.prevHash then
        match n.blockchain.replaceLastBlock env block now with
        | (true, blockchain) =>
          ({ n with blockchain, template := none },
            [.call n.blockchain (.replaceLastBlock block now), .broadcast (n.newBlockMessage now block)])
        | (false, blockchain) => ({ n with blockchain }, [.call n.blockchain (.replaceLastBlock block now)])
      else if myHeight + 1 < block.height ∨ (block.height = myHeight + 1 ∧ block.prevHash ≠ lastBlock.hash) then
        (n, [.reply (n.getBlocksMessage now (myHeight + 1))])
      else (n, [])

def handleMessage [Arithmetic] (env : Env) (n : Node) (now : Int64) (msg : Message) : Node × List Effect :=
  match msg.type with
  | .handshake => (n, [.reply (n.syncMessage now)])
  | .ping => (n, [.reply (n.pongMessage now)])
  | .getBlocks => n.handleGetBlocks env now msg.payload
  | .blocksResponse => n.handleBlocksResponse msg.payload
  | .newTransaction => n.handleNewTransaction env now msg.payload
  | .newBlock => n.handleNewBlock env now msg.payload
  | _ => (n, [])

/-! ### Transactions over HTTP -/

def readHttpTransaction (env : Env) (n : Node) (now : Int64) (body : Json) : Json.Read Transaction := do
  let fromAddress ← body.value Json.getString "from" "unknown"
  let toAddress ← body.value Json.getString "to" "unknown"
  let amount ← body.value Json.getDouble "amount" 0
  let tx :=
    { Transaction.new env now with
      fromAddress
      toAddress
      amount
      fee := thousandth
      nonce := n.blockchain.db.getNextNonce fromAddress }
  return { tx with txHash := tx.calculateHash env, signature := "http_sig" }

theorem pending_of_readHttpTransaction {env : Env} {n : Node} {now : Int64} {body : Json} {tx : Transaction}
    (h : n.readHttpTransaction env now body = .ok tx) : tx.status = "pending" ∧ tx.data = "" := by
  simp only [readHttpTransaction, Json.Read.bind_eq_ok] at h
  obtain ⟨_, -, _, -, _, -, h⟩ := h
  cases h
  exact ⟨rfl, rfl⟩

/-- POST /transaction, from the parsed body on. -/
def handleHttp [Arithmetic] (env : Env) (n : Node) (now : Int64) (body : Json) : Node × List Effect :=
  match n.readHttpTransaction env now body with
  | .error _ => (n, [])
  | .ok tx => ({ n with blockchain := (n.blockchain.addTransaction env tx now).2 }, [])

/-! ### Mining -/

/-- `mine_loop` tries the nonces below this one. -/
def nonceLimit : Nat := 1000000

/-- The nonce loop of `mine_loop` from `nonce` on, if it ends: the block that it hands to `addBlock`, if it hands over
    one. `mining nonce` and `height nonce` are `mining_` and the height of the chain as the loop finds them there.
    `mined` is set before a `break` alone, so the loop condition never sees it set. -/
def mineLoop (env : Env) (targetHeight : Int32) (mining : Nat → Bool) (height : Nat → Int32) (newBlock : Block)
    (nonce : Nat) : Nat → Option (Option Block)
  | 0 => some none
  | fuel + 1 =>
    if mining nonce then
      let newBlock := { newBlock with nonce := Int32.ofNat nonce }
      let newBlock := { newBlock with hash := newBlock.calculateHash env }
      if targetHeight ≤ height nonce then some none
      else
        match Block.meetsTarget env newBlock.hash newBlock.difficulty with
        | none => none
        | some true => some (some newBlock)
        | some false => mineLoop env targetHeight mining height newBlock (nonce + 1) fuel
    else some none

/-- The top of `mine_loop`: with a transaction waiting, a template is built on the current tip. -/
def makeTemplate [Arithmetic] (env : Env) (n : Node) (now : Int64) : Node :=
  if n.blockchain.getMempoolSize = 0 then n
  else
    let targetHeight := n.blockchain.getHeight + 1
    let (block, blockchain) := n.blockchain.createBlock env n.nodeId now
    { n with blockchain, template := some { block, targetHeight } }

/-- The nonce search of `mine_loop` at the nonce that hits the target, if one does. Before it submits, the
    loop gives up when the height it mines for has been reached. A template asks for six zeros at most, so it always
    has a target. -/
def submit [Arithmetic] (env : Env) (n : Node) (now : Int64) : Node × List Effect :=
  match n.template with
  | none => (n, [])
  | some template =>
    match template.block.search env 0 nonceLimit with
    | none => ({ n with template := none }, [])
    | some block =>
      if template.targetHeight ≤ n.blockchain.getHeight then ({ n with template := none }, [])
      else
        match n.blockchain.addBlock block with
        | (true, blockchain) =>
          ({ n with blockchain, template := none },
            [.call n.blockchain (.addBlock block), .broadcast (n.newBlockMessage now block)])
        | (false, blockchain) =>
          ({ n with blockchain, template := none }, [.call n.blockchain (.addBlock block)])

/-- `clean` is the cleaner thread and the start of each mining round; `abandon` is a search that was stopped. -/
def ownStep [Arithmetic] (env : Env) (n : Node) : OwnEvent → Node × List Effect
  | .http now body => n.handleHttp env now body
  | .clean => ({ n with blockchain := n.blockchain.cleanMempool.2 }, [])
  | .template now => (n.makeTemplate env now, [])
  | .submit now => n.submit env now
  | .abandon => ({ n with template := none }, [])
  | .sync now => (n, [.reply (n.syncMessage now)])

/-- One step of a node. The mining thread runs between the messages, so a template may be submitted on
    another tip than the one it was built on. -/
def react [Arithmetic] (env : Env) (n : Node) : Event → Node × List Effect
  | .own e => n.ownStep env e
  | .message now msg => n.handleMessage env now msg

def step [Arithmetic] (env : Env) (n : Node) (e : Event) : Node := (n.react env e).1

end Node

end NexusLedger
