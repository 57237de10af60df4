import NexusLedger.Lib.Json

/-! Transactions and blocks: `src/blockchain/transaction.cpp` and `src/blockchain/block.cpp`. Machine integers keep their
    width. -/

namespace NexusLedger

/-- What the code takes from outside: SHA-256 as a hexadecimal string, the text that the JSON library dumps
    for a value, the number found in a `uint64_t` that nobody initialised, the length of the longest `std::string`
    that can be made, and what SQLite makes of a column that is read as another type: of a text as a `double` and as
    an `int64_t`, of a `REAL` as a text. -/
structure Env where
  sha256 : String → String
  dump : Json → String
  indeterminate : UInt64
  longestString : Nat
  textDouble : CString → Double
  textInt64 : CString → Int64
  realText : Double → CString

/-! ### Transactions -/

structure Transaction where
  txHash : String
  fromAddress : String
  toAddress : String
  amount : Double
  fee : Double
  signature : String
  timestamp : Int64
  data : String
  status : String
  nonce : UInt64
  deriving DecidableEq

namespace Transaction

/-- `Transaction::Transaction()`, which leaves the nonce uninitialised. -/
def new (env : Env) (now : Int64) : Transaction where
  txHash := ""
  fromAddress := ""
  toAddress := ""
  amount := 0
  fee := 0
  signature := ""
  timestamp := now
  data := ""
  status := "pending"
  nonce := env.indeterminate

def calculateHash (env : Env) (tx : Transaction) : String :=
  env.sha256 (tx.fromAddress ++ tx.toAddress ++ showDouble tx.amount ++ showDouble tx.fee ++
    toString tx.timestamp.toInt)

def createCoinbase (env : Env) (now : Int64) (toAddress : String) (reward : Double) : Transaction :=
  let tx :=
    { new env now with
      fromAddress := "SYSTEM"
      toAddress
      amount := reward
      fee := 0
      data := "Coinbase"
      status := "confirmed"
      signature := "coinbase" }
  { tx with txHash := tx.calculateHash env }

def toJson (env : Env) (tx : Transaction) : String :=
  env.dump (.obj
    [("txHash", .str tx.txHash),
     ("from", .str tx.fromAddress),
     ("to", .str tx.toAddress),
     ("amount", .ofDouble tx.amount),
     ("fee", .ofDouble tx.fee),
     ("signature", .str tx.signature),
     ("timestamp", .int tx.timestamp.toInt),
     ("data", .str tx.data),
     ("status", .str tx.status),
     ("nonce", .int tx.nonce.toNat)])

end Transaction

/-! ### Blocks -/

structure Block where
  height : Int32
  hash : String
  prevHash : String
  merkleRoot : String
  timestamp : Int64
  nonce : Int32
  difficulty : Double
  minedBy : String
  transactions : List Transaction
  deriving DecidableEq

namespace Block

/-- `Block::Block()`. -/
def new (now : Int64) : Block where
  height := 0
  hash := ""
  prevHash := ""
  merkleRoot := ""
  timestamp := now
  nonce := 0
  difficulty := 2
  minedBy := ""
  transactions := []

def calculateHash (env : Env) (b : Block) : String :=
  env.sha256 (toString b.height.toInt ++ b.prevHash ++ b.merkleRoot ++ toString b.timestamp.toInt ++
    toString b.nonce.toInt ++ showDouble b.difficulty ++ b.minedBy)

/-- The hashes of neighbours joined in pairs. -/
def joinPairs (env : Env) : List String → List String
  | a :: b :: rest => env.sha256 (a ++ b) :: joinPairs env rest
  | _ => []

/-- One pass of the Merkle loop: an odd level first gets a copy of its last hash. -/
def merkleLevel (env : Env) (hashes : List String) : List String :=
  joinPairs env (if hashes.length % 2 = 0 then hashes else hashes ++ hashes.getLast?.toList)

theorem length_joinPairs (env : Env) : ∀ hashes : List String, (joinPairs env hashes).length = hashes.length / 2
  | [] => rfl
  | [_] => by simp [joinPairs]
  | _ :: _ :: rest => by
    simp only [joinPairs, List.length_cons, length_joinPairs env rest]
    omega

theorem length_merkleLevel_lt (env : Env) {hashes : List String} (h : 1 < hashes.length) :
    (merkleLevel env hashes).length < hashes.length := by
  unfold merkleLevel
  split
  · rw [length_joinPairs]
    omega
  · rw [length_joinPairs, List.length_append]
    have : hashes.getLast?.toList.length ≤ 1 := by cases hashes.getLast? <;> simp
    omega

/-- `while (hashes.size() > 1)`: every pass shortens the level, so as many passes as there are hashes
    are enough. -/
def merkleLoop (env : Env) : Nat → List String → List String
  | 0, hashes => hashes
  | fuel + 1, hashes => if 1 < hashes.length then merkleLoop env fuel (merkleLevel env hashes) else hashes

/-- The loop leaves with its condition false. -/
theorem length_merkleLoop_le_one (env : Env) :
    ∀ (fuel : Nat) (hashes : List String), hashes.length ≤ fuel + 1 → (merkleLoop env fuel hashes).length ≤ 1
  | 0, hashes, h => h
  | fuel + 1, hashes, h => by
    unfold merkleLoop
    split
    · rename_i hlong
      have := length_merkleLevel_lt env hlong
      exact length_merkleLoop_le_one env fuel _ (by omega)
    · omega

def calculateMerkleRoot (env : Env) (b : Block) : String :=
  match b.transactions with
  | [] => env.sha256 "empty"
  | txs =>
    let hashes := txs.map (·.txHash)
    (merkleLoop env hashes.length hashes).headD ""

/-- The length of `std::string target(difficulty, '0')`. A difficulty that no `size_t` holds has none, and where the
    string would be too long the constructor throws. -/
def targetLength (env : Env) (difficulty : Double) : Option Nat :=
  let zeros := difficulty.toInteger
  if 0 ≤ zeros ∧ zeros ≤ env.longestString then some zeros.toNat else none

/-- `hash.substr(0, difficulty) == target`, if there is a target. -/
def meetsTarget (env : Env) (hash : String) (difficulty : Double) : Option Bool :=
  (targetLength env difficulty).map fun zeros => hash.toList.take zeros == List.replicate zeros '0'

/-- The block as it stands after the body of the search tried a nonce. -/
def withNonce (env : Env) (b : Block) (nonce : Nat) : Block :=
  let tried := { b with nonce := Int32.ofNat nonce }
  { tried with hash := tried.calculateHash env }

/-- The nonce loop from `nonce` on, with `fuel` nonces left to try: the block at the first hit. -/
def search (env : Env) (b : Block) (nonce : Nat) : Nat → Option Block
  | 0 => none
  | fuel + 1 =>
    let tried := b.withNonce env nonce
    if meetsTarget env tried.hash b.difficulty = some true then some tried else search env b (nonce + 1) fuel

theorem search_eq_some {env : Env} {b mined : Block} {nonce fuel : Nat} (h : b.search env nonce fuel = some mined) :
    ∃ k, mined = b.withNonce env k ∧ meetsTarget env mined.hash b.difficulty = some true := by
  induction fuel generalizing nonce with
  | zero => cases h
  | succ fuel ih =>
    simp only [search] at h
    split at h
    · rename_i hit
      cases h
      exact ⟨nonce, rfl, hit⟩
    · exact ih h

/-- `Block::mine`, if there is a target: on failure the last hash stays behind, with the nonce that ended the loop. -/
def mine (env : Env) (b : Block) (maxNonce : Int32) : Option (Bool × Block) :=
  (targetLength env b.difficulty).map fun _ =>
    match search env b 0 maxNonce.toInt.toNat with
    | some mined => (true, mined)
    | none =>
      if 0 < maxNonce then (false, { b.withNonce env (maxNonce.toInt.toNat - 1) with nonce := maxNonce })
      else (false, { b with nonce := 0 })

theorem mine_of_some {env : Env} {b mined : Block} {maxNonce : Int32}
    (h : b.search env 0 maxNonce.toInt.toNat = some mined) : b.mine env maxNonce = some (true, mined) := by
  obtain ⟨-, -, hit⟩ := search_eq_some h
  unfold meetsTarget at hit
  obtain ⟨zeros, hzeros, -⟩ := Option.map_eq_some_iff.mp hit
  simp only [mine, hzeros, Option.map_some, h]

theorem mine_of_none {env : Env} {b : Block} {maxNonce : Int32} (h : b.search env 0 maxNonce.toInt.toNat = none) :
    b.mine env maxNonce = none ∨ ∃ left, b.mine env maxNonce = some (false, left) := by
  unfold mine
  cases targetLength env b.difficulty with
  | none => exact Or.inl rfl
  | some zeros =>
    rw [Option.map_some, h]
    simp only
    split
    · exact Or.inr ⟨_, rfl⟩
    · exact Or.inr ⟨_, rfl⟩

/-- `Block::validate`: without a result where it comes to the target and there is none. -/
def validate (env : Env) (b : Block) : Option Bool :=
  if b.hash ≠ b.calculateHash env then some false
  else (meetsTarget env b.hash b.difficulty).map fun met => met && b.merkleRoot == b.calculateMerkleRoot env

theorem validate_iff {env : Env} {b : Block} : b.validate env = some true ↔
    b.hash = b.calculateHash env ∧ meetsTarget env b.hash b.difficulty = some true ∧
      b.merkleRoot = b.calculateMerkleRoot env := by
  unfold validate
  split
  case isTrue hne => simp [hne]
  case isFalse heq =>
    rw [not_not] at heq
    cases meetsTarget env b.hash b.difficulty <;> simp [← heq]

/-! ### JSON -/

/-- The header fields as both encoders write them. -/
def headerMembers (b : Block) : List (String × Json) :=
  [("height", .int b.height.toInt),
   ("hash", .str b.hash),
   ("prevHash", .str b.prevHash),
   ("merkleRoot", .str b.merkleRoot),
   ("timestamp", .int b.timestamp.toInt),
   ("nonce", .int b.nonce.toInt),
   ("difficulty", .ofDouble b.difficulty),
   ("minedBy", .str b.minedBy)]

/-- `Block::toJson`: each transaction is pushed as the text it dumps to. -/
def toJson (env : Env) (b : Block) : Json :=
  .obj (b.headerMembers ++ [("transactions", .arr (b.transactions.map fun tx => .str (tx.toJson env)))])

/-- The header fields as `Block::fromJson` and the BLOCKS_RESPONSE handler read them. -/
def readHeader (j : Json) : Json.Read Block := do
  let height ← j.value Json.getInt "height" 0
  let hash ← j.value Json.getString "hash" ""
  let prevHash ← j.value Json.getString "prevHash" ""
  let merkleRoot ← j.value Json.getString "merkleRoot" ""
  let timestamp ← j.value Json.getLong "timestamp" 0
  let nonce ← j.value Json.getInt "nonce" 0
  let difficulty ← j.value Json.getDouble "difficulty" 2
  let minedBy ← j.value Json.getString "minedBy" ""
  return { height, hash, prevHash, merkleRoot, timestamp, nonce, difficulty, minedBy, transactions := [] }

/-- One element of the transactions array in `Block::fromJson`. -/
def readTransaction (env : Env) (txJson : Json) : Json.Read Transaction := do
  let fromAddress ← txJson.value Json.getString "from" ""
  let toAddress ← txJson.value Json.getString "to" ""
  let amount ← txJson.value Json.getDouble "amount" 0
  let fee ← txJson.value Json.getDouble "fee" 0
  let signature ← txJson.value Json.getString "signature" ""
  let timestamp ← txJson.value Json.getLong "timestamp" 0
  let data ← txJson.value Json.getString "data" ""
  let status ← txJson.value Json.getString "status" "pending"
  let nonce ← txJson.value Json.getULongLong "nonce" 0
  let tx : Transaction :=
    { txHash := "", fromAddress, toAddress, amount, fee, signature, timestamp, data, status, nonce }
  return { tx with txHash := tx.calculateHash env }

def fromJson (env : Env) (j : Json) : Json.Read Block := do
  let block ← readHeader j
  match j.member? "transactions" with
  | some (.arr txs) => return { block with transactions := ← txs.mapM (readTransaction env) }
  | _ => return block

theorem readHeader_headerMembers {b : Block} (hfinite : b.difficulty.isFinite = true) (rest : List (String × Json)) :
    readHeader (.obj (b.headerMembers ++ rest)) = .ok { b with transactions := [] } := by
  simp [readHeader, headerMembers, List.lookup_cons, Json.getDouble_ofDouble hfinite]
  rfl

/-- A difficulty that is not finite is dumped as `null`, which cannot be read back. -/
theorem readHeader_headerMembers_of_not_finite {b : Block} (h : ¬b.difficulty.isFinite = true)
    (rest : List (String × Json)) : readHeader (.obj (b.headerMembers ++ rest)) = .error .wrongType := by
  simp [readHeader, headerMembers, List.lookup_cons, Json.ofDouble_of_not_finite h]
  rfl

theorem isFinite_of_readHeader {j : Json} {b : Block} (h : readHeader j = .ok b) : b.difficulty.isFinite = true := by
  simp only [readHeader, Json.Read.bind_eq_ok] at h
  obtain ⟨_, -, _, -, _, -, _, -, _, -, _, -, difficulty, hdifficulty, _, -, h⟩ := h
  cases h
  exact Json.isFinite_of_value rfl hdifficulty

theorem transactions_of_readHeader {j : Json} {b : Block} (h : readHeader j = .ok b) : b.transactions = [] := by
  simp only [readHeader, Json.Read.bind_eq_ok] at h
  obtain ⟨_, -, _, -, _, -, _, -, _, -, _, -, _, -, _, -, h⟩ := h
  cases h
  rfl

theorem isFinite_of_fromJson {env : Env} {j : Json} {b : Block} (h : fromJson env j = .ok b) :
    b.difficulty.isFinite = true := by
  simp only [fromJson, Json.Read.bind_eq_ok] at h
  obtain ⟨header, hheader, h⟩ := h
  have hfinite := isFinite_of_readHeader hheader
  split at h
  · obtain ⟨txs, -, h⟩ := Json.Read.bind_eq_ok.mp h
    cases h
    exact hfinite
  · cases h
    exact hfinite

theorem fromJson_headerMembers (env : Env) {b : Block} (hfinite : b.difficulty.isFinite = true) :
    fromJson env (.obj b.headerMembers) = .ok { b with transactions := [] } := by
  have hread := readHeader_headerMembers hfinite []
  rw [List.append_nil] at hread
  have hnone : Json.member? (.obj b.headerMembers) "transactions" = none := by
    simp [Json.member?, headerMembers, List.lookup_cons]
  simp only [fromJson, hread, hnone]
  rfl

/-- A header with another difficulty is not read. -/
theorem fromJson_headerMembers_of_not_finite (env : Env) {b : Block} (h : ¬b.difficulty.isFinite = true) :
    fromJson env (.obj b.headerMembers) = .error .wrongType := by
  have hread := readHeader_headerMembers_of_not_finite h []
  rw [List.append_nil] at hread
  simp only [fromJson, hread]
  rfl

theorem isFinite_of_fromJson_headerMembers {env : Env} {a b : Block} (h : fromJson env (.obj b.headerMembers) = .ok a) :
    b.difficulty.isFinite = true := by
  by_contra hfinite
  rw [fromJson_headerMembers_of_not_finite env hfinite] at h
  cases h

theorem readHeader_toJson (env : Env) {b : Block} (hfinite : b.difficulty.isFinite = true) :
    readHeader (b.toJson env) = .ok { b with transactions := [] } :=
  readHeader_headerMembers hfinite _

theorem isFinite_of_readHeader_toJson {env : Env} {a b : Block} (h : readHeader (b.toJson env) = .ok a) :
    b.difficulty.isFinite = true := by
  by_contra hfinite
  rw [toJson, readHeader_headerMembers_of_not_finite hfinite] at h
  cases h

end Block

end NexusLedger
