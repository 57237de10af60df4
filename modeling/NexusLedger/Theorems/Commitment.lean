import NexusLedger.Theorems.Merkle

/-! What the hash of a transaction and the hash of a block say about their fields. Both hash their fields in one text
    without separators, and the text of a transaction leaves two fields out. -/

namespace NexusLedger
open Text

/-! ### Transactions -/

namespace Transaction
variable {env : Env} {tx tx' : Transaction}

/-- The text that `calculateHash` hashes. -/
def hashText (tx : Transaction) : String :=
  tx.fromAddress ++ tx.toAddress ++ showDouble tx.amount ++ showDouble tx.fee ++ toString tx.timestamp.toInt

theorem calculateHash_eq (env : Env) (tx : Transaction) : tx.calculateHash env = env.sha256 tx.hashText := rfl

/-- The addresses as they are hashed, side by side. -/
def addresses (tx : Transaction) : String := tx.fromAddress ++ tx.toAddress

/-- The numbers as they are hashed: printed side by side, the amount and the fee with six digits. -/
def numbers (tx : Transaction) : String :=
  showDouble tx.amount ++ showDouble tx.fee ++ toString tx.timestamp.toInt

theorem hashText_eq (tx : Transaction) : tx.hashText = tx.addresses ++ tx.numbers := by
  simp only [hashText, addresses, numbers, String.append_assoc]

/-- The transactions differ in a field that says what is paid. -/
def Differ (tx tx' : Transaction) : Prop :=
  ¬(tx.fromAddress = tx'.fromAddress ∧ tx.toAddress = tx'.toAddress ∧ tx.amount = tx'.amount ∧ tx.fee = tx'.fee ∧
    tx.timestamp = tx'.timestamp ∧ tx.nonce = tx'.nonce ∧ tx.data = tx'.data)

/-- What the two hashes take from SHA-256: its text has no NUL, and the two hashed texts do not collide. -/
structure Collisionless (env : Env) (tx tx' : Transaction) : Prop where
  output : ∀ text, cText (env.sha256 text) = env.sha256 text
  distinct : Set.InjOn env.sha256 {tx.hashText, tx'.hashText}

/-- Transactions that differ have different hashes, so that the mempool and the `tx_hash` column keep them apart. -/
def Identified (env : Env) (tx tx' : Transaction) : Prop :=
  Differ tx tx' →
    tx.calculateHash env ≠ tx'.calculateHash env ∧
      (∀ mempool : Finmap fun _ : String => Transaction,
        ((mempool.insert (tx.calculateHash env) tx).insert (tx'.calculateHash env) tx').lookup (tx.calculateHash env) =
          some tx) ∧
      CString.bind (tx.calculateHash env) ≠ CString.bind (tx'.calculateHash env)

theorem calculateHash_eq_iff (h : Set.InjOn env.sha256 {tx.hashText, tx'.hashText}) :
    tx.calculateHash env = tx'.calculateHash env ↔ Blends tx.addresses tx.numbers tx'.addresses tx'.numbers := by
  rw [← append_eq_append_iff, ← hashText_eq, ← hashText_eq]
  exact h.eq_iff (Set.mem_insert _ _) (Set.mem_insert_of_mem _ rfl)

/-- The hash tells two transactions apart unless their addresses and their printed numbers, side by side, differ at
    most in where the border stands. The nonce and the data never help. -/
theorem identified_iff (env : Env) (tx tx' : Transaction) (h : Collisionless env tx tx') :
    Identified env tx tx' ↔ (Differ tx tx' → ¬Blends tx.addresses tx.numbers tx'.addresses tx'.numbers) := by
  refine imp_congr_right fun _ => ?_
  rw [← calculateHash_eq_iff h.distinct]
  refine ⟨fun hid => hid.1, fun hne => ⟨hne, fun mempool => ?_, fun hcolumn => hne ?_⟩⟩
  · rw [Finmap.lookup_insert_of_ne _ hne, Finmap.lookup_insert]
  · have htext := CString.bind_eq_iff.mp hcolumn
    rw [calculateHash_eq, calculateHash_eq, h.output, h.output] at htext
    exact htext

/-- The payment of the sample run under the nonce that comes next. -/
def laterPayment : Transaction := { Node.samplePayment with nonce := 2 }

theorem collisionless_laterPayment : Collisionless Block.oddEnv Node.samplePayment laterPayment := by
  have hvalues : cText zeroHash = zeroHash ∧ ∀ e ∈ Block.oddTable, cText e.2 = e.2 := by decide +kernel
  refine ⟨Block.sha256_oddEnv (fun hash => cText hash = hash) hvalues.1 hvalues.2, ?_⟩
  have hsame : laterPayment.hashText = Node.samplePayment.hashText := rfl
  rw [hsame, Set.pair_eq_singleton]
  exact Set.injOn_singleton _ _

theorem identified_iff_laterPayment :
    Identified Block.oddEnv Node.samplePayment laterPayment ↔
      (Differ Node.samplePayment laterPayment →
        ¬Blends Node.samplePayment.addresses Node.samplePayment.numbers laterPayment.addresses laterPayment.numbers) :=
  identified_iff _ _ _ collisionless_laterPayment

/-- Two payments of one sender, under different nonces, have one hash. -/
theorem later_payment_merged :
    Collisionless Block.oddEnv Node.samplePayment laterPayment ∧ Differ Node.samplePayment laterPayment ∧
      Node.samplePayment.calculateHash Block.oddEnv = laterPayment.calculateHash Block.oddEnv ∧
      ¬Identified Block.oddEnv Node.samplePayment laterPayment := by
  have hdiffer : Differ Node.samplePayment laterPayment := by
    rintro ⟨-, -, -, -, -, hnonce, -⟩
    cases hnonce
  exact ⟨collisionless_laterPayment, hdiffer, rfl, fun h => (h hdiffer).1 rfl⟩

end Transaction

/-! ### Headers -/

namespace Block
variable {env : Env} {b b' : Block}

/-- The text that `calculateHash` hashes. -/
def hashText (b : Block) : String :=
  toString b.height.toInt ++ b.prevHash ++ b.merkleRoot ++ toString b.timestamp.toInt ++ toString b.nonce.toInt ++
    showDouble b.difficulty ++ b.minedBy

theorem calculateHash_eq (env : Env) (b : Block) : b.calculateHash env = env.sha256 b.hashText := rfl

/-- What comes first in the text: the height and the two hashes. -/
def links (b : Block) : String := toString b.height.toInt ++ (b.prevHash ++ b.merkleRoot)

/-- The timestamp and the nonce as they are hashed, side by side. -/
def counters (b : Block) : String := toString b.timestamp.toInt ++ toString b.nonce.toInt

/-- The difficulty, printed with six digits, and the miner behind it. -/
def claim (b : Block) : String := showDouble b.difficulty ++ b.minedBy

theorem hashText_eq (b : Block) : b.hashText = b.links ++ (b.counters ++ b.claim) := by
  simp only [hashText, links, counters, claim, String.append_assoc]

/-- The headers differ in a field that is hashed. -/
def Differ (b b' : Block) : Prop :=
  ¬(b.height = b'.height ∧ b.prevHash = b'.prevHash ∧ b.merkleRoot = b'.merkleRoot ∧ b.timestamp = b'.timestamp ∧
    b.nonce = b'.nonce ∧ b.difficulty = b'.difficulty ∧ b.minedBy = b'.minedBy)

/-- The links of two headers are of full length, and the two hashed texts do not collide. -/
structure Linked (env : Env) (b b' : Block) : Prop where
  prevHash : b.prevHash.length = 64 ∧ b'.prevHash.length = 64
  merkleRoot : b.merkleRoot.length = 64 ∧ b'.merkleRoot.length = 64
  distinct : Set.InjOn env.sha256 {b.hashText, b'.hashText}

/-- The fields of two headers trade characters: behind equal links the counters do so with the rest, and with
    different heights the links do so with all that follows. -/
def Blurred (b b' : Block) : Prop :=
  (b.height = b'.height ∧ b.prevHash = b'.prevHash ∧ b.merkleRoot = b'.merkleRoot ∧
      Blends b.counters b.claim b'.counters b'.claim) ∨
    (b.height ≠ b'.height ∧ Blends b.links (b.counters ++ b.claim) b'.links (b'.counters ++ b'.claim))

theorem hashText_eq_iff (h : Linked env b b') : b.hashText = b'.hashText ↔ Blurred b b' := by
  rw [hashText_eq, hashText_eq]
  by_cases hheight : b.height = b'.height
  · have hfirst : Blurred b b' ↔ b.prevHash = b'.prevHash ∧ b.merkleRoot = b'.merkleRoot ∧
        Blends b.counters b.claim b'.counters b'.claim := by
      unfold Blurred
      simp only [hheight, true_and, ne_eq, not_true_eq_false, false_and, or_false]
    rw [hfirst, ← append_eq_append_iff]
    constructor
    · intro htext
      have hlinks : b.links.length = b'.links.length := by
        unfold links
        rw [hheight, String.length_append, String.length_append, String.length_append, String.length_append,
          h.prevHash.1, h.prevHash.2, h.merkleRoot.1, h.merkleRoot.2]
      obtain ⟨hhead, htail⟩ := append_inj hlinks htext
      unfold links at hhead
      obtain ⟨-, hhashes⟩ := append_inj (by rw [hheight]) hhead
      obtain ⟨hprev, hroot⟩ := append_inj (h.prevHash.1.trans h.prevHash.2.symm) hhashes
      exact ⟨hprev, hroot, htail⟩
    · rintro ⟨hprev, hroot, htail⟩
      unfold links
      rw [hheight, hprev, hroot, htail]
  · have hsecond : Blurred b b' ↔ Blends b.links (b.counters ++ b.claim) b'.links (b'.counters ++ b'.claim) := by
      unfold Blurred
      simp only [hheight, false_and, ne_eq, not_false_eq_true, true_and, false_or]
    rw [hsecond, append_eq_append_iff]

/-- The hash tells two headers apart unless their fields trade characters. -/
theorem header_committed_iff (env : Env) (b b' : Block) (h : Linked env b b') :
    (Differ b b' → b.calculateHash env ≠ b'.calculateHash env) ↔ (Differ b b' → ¬Blurred b b') := by
  refine imp_congr_right fun _ => not_congr ?_
  rw [← hashText_eq_iff h, calculateHash_eq, calculateHash_eq]
  exact h.distinct.eq_iff (Set.mem_insert _ _) (Set.mem_insert_of_mem _ rfl)

/-- The block with the last digit of its timestamp in the nonce. -/
def shiftedBlock : Block := { oddBlock with timestamp := 170014336, nonce := 427904 }

theorem linked_shiftedBlock : Linked oddEnv oddBlock shiftedBlock := by
  have hwidths : (oddBlock.prevHash.length = 64 ∧ shiftedBlock.prevHash.length = 64) ∧
      (oddBlock.merkleRoot.length = 64 ∧ shiftedBlock.merkleRoot.length = 64) ∧
      shiftedBlock.hashText = oddBlock.hashText := by decide +kernel
  obtain ⟨hprev, hroot, hsame⟩ := hwidths
  refine ⟨hprev, hroot, ?_⟩
  rw [hsame, Set.pair_eq_singleton]
  exact Set.injOn_singleton _ _

theorem header_committed_iff_shiftedBlock :
    (Differ oddBlock shiftedBlock → oddBlock.calculateHash oddEnv ≠ shiftedBlock.calculateHash oddEnv) ↔
      (Differ oddBlock shiftedBlock → ¬Blurred oddBlock shiftedBlock) :=
  header_committed_iff _ _ _ linked_shiftedBlock

/-- Two headers with one hash, both of which pass `validate`. -/
theorem shifted_header_shares_hash :
    Linked oddEnv oddBlock shiftedBlock ∧ Differ oddBlock shiftedBlock ∧
      oddBlock.calculateHash oddEnv = shiftedBlock.calculateHash oddEnv ∧
      oddBlock.validate oddEnv = true ∧ shiftedBlock.validate oddEnv = true := by
  have hshared : oddBlock.calculateHash oddEnv = shiftedBlock.calculateHash oddEnv ∧
      oddBlock.validate oddEnv = true ∧ shiftedBlock.validate oddEnv = true := by decide +kernel
  refine ⟨linked_shiftedBlock, ?_, hshared⟩
  rintro ⟨-, -, -, -, hnonce, -⟩
  cases hnonce

end Block

end NexusLedger
