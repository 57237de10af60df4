import NexusLedger.Theorems.NodeSteps

/-! Encoders against the decoders on the other side: the JSON text of a block, and a transaction as a node
    passes it on. -/

namespace NexusLedger

/-! ### Blocks as JSON -/

namespace Block
variable {env : Env} {b : Block}

end Block

/-! ### Transactions passed on -/

/-- Two transactions agree in the fields that make a payment, and so in the hash. -/
structure Transaction.SamePayment (a b : Transaction) : Prop where
  fromAddress : a.fromAddress = b.fromAddress
  toAddress : a.toAddress = b.toAddress
  amount : a.amount = b.amount
  fee : a.fee = b.fee
  nonce : a.nonce = b.nonce
  timestamp : a.timestamp = b.timestamp
  signature : a.signature = b.signature
  txHash : a.txHash = b.txHash

namespace Node
variable {env : Env} {n : Node}

/-- What the receiver makes of a transaction that was passed on: three fields travel, the others are its own. -/
def rebuilt (env : Env) (now : Int64) (tx : Transaction) : Transaction :=
  let fresh :=
    { Transaction.new env now with
      fromAddress := tx.fromAddress
      toAddress := tx.toAddress
      amount := tx.amount
      fee := thousandth
      nonce := 1
      signature := "p2p_sig" }
  { fresh with txHash := fresh.calculateHash env }

theorem readNewTransaction_newTransactionMessage (env : Env) (n : Node) (sent now : Int64) {tx : Transaction}
    (hfinite : tx.amount.isFinite = true) :
    readNewTransaction env now (n.newTransactionMessage sent tx).payload = .ok (rebuilt env now tx) := by
  simp [readNewTransaction, newTransactionMessage, List.lookup_cons, Json.getDouble_ofDouble hfinite]
  rfl

/-- An amount that is not finite arrives as `null`, which is no number. -/
theorem readNewTransaction_newTransactionMessage_of_not_finite (env : Env) (n : Node) (sent now : Int64)
    {tx : Transaction} (h : ¬tx.amount.isFinite = true) :
    readNewTransaction env now (n.newTransactionMessage sent tx).payload = .error .wrongType := by
  simp [readNewTransaction, newTransactionMessage, List.lookup_cons, Json.ofDouble_of_not_finite h]
  rfl

/-- The hash covers sender, receiver, amount, fee and time, and nothing else. -/
theorem calculateHash_congr {a b : Transaction} (hfrom : a.fromAddress = b.fromAddress)
    (hto : a.toAddress = b.toAddress) (hamount : a.amount = b.amount) (hfee : a.fee = b.fee)
    (htime : a.timestamp = b.timestamp) : a.calculateHash env = b.calculateHash env := by
  simp only [Transaction.calculateHash, hfrom, hto, hamount, hfee, htime]

/-- A transaction keeps its identity on the way to a node exactly when its amount is finite, and it has the defaults of
    the receiver and was made in the very second of the arrival. -/
theorem gossip_preserves_iff (env : Env) (sender : Node) (tx : Transaction) (sent now : Int64)
    (hhash : tx.txHash = tx.calculateHash env) :
    (∃ received, readNewTransaction env now (sender.newTransactionMessage sent tx).payload = .ok received ∧
      received.SamePayment tx) ↔
    tx.amount.isFinite = true ∧ tx.fee = thousandth ∧ tx.nonce = 1 ∧ tx.signature = "p2p_sig" ∧ tx.timestamp = now := by
  by_cases hfinite : tx.amount.isFinite = true
  case neg =>
    rw [readNewTransaction_newTransactionMessage_of_not_finite env sender sent now hfinite]
    exact iff_of_false (fun ⟨_, hread, _⟩ => nomatch hread) fun h => hfinite h.1
  rw [readNewTransaction_newTransactionMessage env sender sent now hfinite, and_iff_right hfinite]
  constructor
  · rintro ⟨received, hread, hsame⟩
    cases hread
    exact ⟨hsame.fee.symm, hsame.nonce.symm, hsame.signature.symm, hsame.timestamp.symm⟩
  · rintro ⟨hfee, hnonce, hsignature, htime⟩
    refine ⟨_, rfl, rfl, rfl, rfl, hfee.symm, hnonce.symm, htime.symm, hsignature.symm, ?_⟩
    rw [hhash]
    exact calculateHash_congr rfl rfl rfl hfee.symm htime.symm

/-- SHA-256 for the sample payment as a peer makes it in two neighbouring seconds, and its JSON text. -/
def gossipEnv : Env :=
  { sampleEnv with
    sha256 := fun s =>
      (List.lookup s
        [("genesis_mineralice100.0011700000000", sampleTxHash),
          ("genesis_mineralice100.0011700000001",
            "1b6d608515a1f7943a1ed3c4436ef838e2954e9530d8d3390f102002a22a825e")]).getD ""
    dump := fun _ =>
      "\x7b\"amount\":10.0,\"data\":\"\",\"fee\":0.001,\"from\":\"genesis_miner\",\"nonce\":1," ++
        "\"signature\":\"p2p_sig\",\"status\":\"pending\",\"timestamp\":1700000000,\"to\":\"alice\"," ++
        "\"txHash\":\"" ++ sampleTxHash ++ "\"\x7d" }

/-- The sample payment as a node has it that took it from a peer. -/
def gossipPayment : Transaction := { samplePayment with signature := "p2p_sig" }

theorem gossip_preserves_iff_gossipPayment :
    (∃ received, readNewTransaction gossipEnv 1700000000
        ((start "alpha" 1700000000).newTransactionMessage 1700000000 gossipPayment).payload = .ok received ∧
      received.SamePayment gossipPayment) ↔
    gossipPayment.amount.isFinite = true ∧ gossipPayment.fee = thousandth ∧ gossipPayment.nonce = 1 ∧
      gossipPayment.signature = "p2p_sig" ∧ gossipPayment.timestamp = 1700000000 :=
  gossip_preserves_iff gossipEnv (start "alpha" 1700000000) gossipPayment 1700000000 1700000000 (by decide +kernel)

attribute [local instance] Arithmetic.binary64

/-- The payment is accepted, and a receiver whose clock is one second on holds it under another hash. -/
theorem gossipPayment_changed :
    gossipPayment.txHash = gossipPayment.calculateHash gossipEnv ∧
      ((start "alpha" 1700000000).blockchain.addTransaction gossipEnv gossipPayment 1700000000).1 = true ∧
      readNewTransaction gossipEnv 1700000001
          ((start "alpha" 1700000000).newTransactionMessage 1700000000 gossipPayment).payload =
        .ok (rebuilt gossipEnv 1700000001 gossipPayment) ∧
      (rebuilt gossipEnv 1700000001 gossipPayment).timestamp ≠ gossipPayment.timestamp ∧
      (rebuilt gossipEnv 1700000001 gossipPayment).txHash ≠ gossipPayment.txHash := by
  refine ⟨by decide +kernel, by decide +kernel, readNewTransaction_newTransactionMessage _ _ _ _ rfl, ?_, ?_⟩ <;>
    decide +kernel

end Node

end NexusLedger
