import NexusLedger.Lib.MerkleTree
import NexusLedger.Theorems.ProofOfWork
import NexusLedger.Theorems.Storage

/-! The Merkle root of a block. The loop of `calculateMerkleRoot` computes the root of a tree over the transaction
    hashes; what that root says about them depends on the copies that fill the tree up. -/

namespace NexusLedger
open MerkleTree

namespace Block
variable {env : Env} {b : Block}

/-! ### The loop -/

/-- The node above two hashes. -/
def join (env : Env) (left right : String) : String := env.sha256 (left ++ right)

theorem merkleLevel_eq_level (hashes : List String) : merkleLevel env hashes = level (join env) hashes := by
  unfold merkleLevel
  induction hashes using level.induct with
  | case1 => simp [joinPairs, level]
  | case2 a => simp [joinPairs, level, join]
  | case3 a b rest ih =>
    have hparity : (a :: b :: rest).length % 2 = rest.length % 2 := by
      rw [List.length_cons, List.length_cons]
      omega
    rw [level, ← ih, hparity]
    split
    · rfl
    · rename_i hodd
      have hne : rest ≠ [] := by
        rintro rfl
        exact hodd rfl
      rw [List.getLast?_cons_of_ne_nil (List.cons_ne_nil b rest), List.getLast?_cons_of_ne_nil hne]
      rfl

theorem merkleLoop_eq_reduce (fuel : Nat) (hashes : List String) :
    merkleLoop env fuel hashes = reduce (join env) fuel hashes := by
  induction fuel generalizing hashes with
  | zero => rfl
  | succ fuel ih =>
    rw [merkleLoop, reduce, merkleLevel_eq_level, ih]

/-! ### The tree -/

/-- The Merkle tree from its root down: a half that would stay empty is a copy of the other. -/
def topDown (env : Env) : Nat → List String → String
  | 0, hashes => hashes.headD ""
  | k + 1, hashes =>
    if hashes.length ≤ 2 ^ k then env.sha256 (topDown env k hashes ++ topDown env k hashes)
    else env.sha256 (topDown env k (hashes.take (2 ^ k)) ++ topDown env k (hashes.drop (2 ^ k)))

theorem topDown_eq_tree (k : Nat) (hashes : List String) : topDown env k hashes = tree (join env) "" k hashes := by
  induction k generalizing hashes with
  | zero => rfl
  | succ k ih =>
    rw [topDown, tree, halves]
    split
    · rw [ih]
      rfl
    · rw [ih, ih]
      rfl

theorem isLeast_clog (n : Nat) : IsLeast {k | n ≤ 2 ^ k} (Nat.clog 2 n) :=
  ⟨Nat.le_pow_clog (by omega) n, fun _ h => Nat.clog_le_of_le_pow h⟩

/-- The hashes that go into the Merkle tree: a block without transactions has a hash of its own. -/
def merkleLeaves (env : Env) (b : Block) : List String :=
  match b.transactions with
  | [] => [env.sha256 "empty"]
  | txs => txs.map (·.txHash)

theorem merkleLeaves_of_ne_nil (h : b.transactions ≠ []) : b.merkleLeaves env = b.transactions.map (·.txHash) := by
  unfold merkleLeaves
  split
  · rename_i hnil
    exact absurd hnil h
  · rfl

theorem merkleLeaves_ne_nil (env : Env) (b : Block) : b.merkleLeaves env ≠ [] := by
  unfold merkleLeaves
  split
  · exact List.cons_ne_nil _ _
  · rename_i hne
    exact fun hnil => hne (List.map_eq_nil_iff.mp hnil)

theorem calculateMerkleRoot_eq_root (env : Env) (b : Block) :
    b.calculateMerkleRoot env = root (join env) "" (b.merkleLeaves env) := by
  by_cases hnil : b.transactions = []
  · unfold calculateMerkleRoot merkleLeaves
    rw [hnil]
    rfl
  · have hleaves : b.merkleLeaves env = b.transactions.map (·.txHash) := merkleLeaves_of_ne_nil hnil
    have hloop : b.calculateMerkleRoot env =
        (merkleLoop env (b.merkleLeaves env).length (b.merkleLeaves env)).headD "" := by
      rw [hleaves]
      unfold calculateMerkleRoot
      split
      · rename_i h
        exact absurd h hnil
      · rfl
    rw [hloop, merkleLoop_eq_reduce, reduce_eq_tree _ "" (merkleLeaves_ne_nil env b) (Nat.le_succ _)]
    rfl

/-- The loop of `calculateMerkleRoot` ends, and what it ends with is the root of the lowest tree with room for the
    hashes. -/
theorem merkleRoot_eq_topDown (env : Env) (b : Block) (k : Nat) (hne : b.transactions ≠ [])
    (hk : IsLeast {k | (b.transactions.map (·.txHash)).length ≤ 2 ^ k} k) :
    (∀ fuel, (b.transactions.map (·.txHash)).length ≤ fuel →
        merkleLoop env fuel (b.transactions.map (·.txHash)) = [topDown env k (b.transactions.map (·.txHash))]) ∧
      b.calculateMerkleRoot env = topDown env k (b.transactions.map (·.txHash)) := by
  have hnil : b.transactions.map (·.txHash) ≠ [] := mt List.map_eq_nil_iff.mp hne
  rw [hk.unique (isLeast_clog _), topDown_eq_tree]
  constructor
  · intro fuel hfuel
    rw [merkleLoop_eq_reduce]
    exact reduce_eq_tree _ "" hnil (Nat.le_succ_of_le hfuel)
  · rw [calculateMerkleRoot_eq_root, merkleLeaves_of_ne_nil hne]
    rfl

/-! ### A block with three transactions -/

def secondTxHash : String := "bdac4f58e6502e79563bd97985bfbda90a93ec38158606fe98b5f2db613b20d6"

def oddRoot : String := "c40aa2eb2a6c98d523697ebcb71ace6d24d430aa7a930595a9df6cee3f8b4a9a"

def oddBlockHash : String := "0000527f4b4d72a3a47c16a6f1ba5239b55e5261688a1b1b514940fa026f675a"

/-- SHA-256 for everything that is hashed for the block, and otherwise 64 zeros. -/
def oddTable : List (String × String) :=
  [("SYSTEMalpha10001700143364", Node.sampleCoinbaseHash),
    ("genesis_mineralice100.0011700000000", Node.sampleTxHash),
    ("genesis_minerbob200.0011700000000", secondTxHash),
    (Node.sampleCoinbaseHash ++ Node.sampleTxHash, Node.sampleMerkleRoot),
    (secondTxHash ++ secondTxHash, "4c854b40dd115db14236425c79c903180edfdecb847c8b6ac971cd03d12adaf4"),
    (Node.sampleMerkleRoot ++ "4c854b40dd115db14236425c79c903180edfdecb847c8b6ac971cd03d12adaf4", oddRoot),
    ("1" ++ zeroHash ++ oddRoot ++ "1700143364279044alpha", oddBlockHash)]

def oddEnv : Env := { Node.sampleEnv with sha256 := fun text => (List.lookup text oddTable).getD zeroHash }

def secondPayment : Transaction := { Node.samplePayment with txHash := secondTxHash, toAddress := "bob", amount := 20 }

/-- What holds of every hash in the table holds of whatever is looked up. -/
theorem sha256_oddEnv (P : String → Prop) (hzero : P zeroHash) (htable : ∀ e ∈ oddTable, P e.2) (text : String) :
    P (oddEnv.sha256 text) := by
  show P ((List.lookup text oddTable).getD zeroHash)
  cases h : List.lookup text oddTable with
  | none => exact hzero
  | some hash =>
    obtain ⟨before, after, heq, -⟩ := List.lookup_eq_some_iff.mp h
    exact htable (text, hash) (heq ▸ List.mem_append_right _ List.mem_cons_self)

/-- A mined block with the coinbase and two payments. -/
def oddBlock : Block :=
  { Node.sampleBlock with
    hash := oddBlockHash
    merkleRoot := oddRoot
    nonce := 27904
    transactions :=
      [Transaction.createCoinbase oddEnv 1700143364 "alpha" Blockchain.reward, Node.samplePayment, secondPayment] }

theorem merkleRoot_eq_topDown_oddBlock :
    oddBlock.calculateMerkleRoot oddEnv = topDown oddEnv 2 (oddBlock.transactions.map (·.txHash)) := by
  have hdepth : Nat.clog 2 3 = 2 := by decide
  have hk : IsLeast {k | 3 ≤ 2 ^ k} 2 := hdepth ▸ isLeast_clog 3
  exact (merkleRoot_eq_topDown oddEnv oddBlock 2 (List.cons_ne_nil _ _) hk).2

/-! ### What the root commits to -/

/-- The texts that are hashed for the Merkle root. -/
def merkleTexts (env : Env) (b : Block) : List String :=
  (joined (join env) "" (b.merkleLeaves env)).map fun p => p.1 ++ p.2

/-- What the two roots take from SHA-256: 64 characters, and no collision among the texts that are hashed. -/
structure Collisionless (env : Env) (b b' : Block) : Prop where
  output : ∀ text, (env.sha256 text).length = 64
  txHash : ∀ tx ∈ b.transactions ++ b'.transactions, ∃ text, tx.txHash = env.sha256 text
  distinct : Set.InjOn env.sha256 {text | text ∈ b.merkleTexts env ++ b'.merkleTexts env}

/-- Blocks that differ in a transaction hash differ in the Merkle root, and of blocks under one header with different
    transactions at most one passes `validate`. -/
structure Committed (env : Env) (b b' : Block) : Prop where
  root : b.transactions.map (·.txHash) ≠ b'.transactions.map (·.txHash) →
    b.calculateMerkleRoot env ≠ b'.calculateMerkleRoot env
  unique : { b with transactions := b'.transactions } = b' → b.transactions ≠ b'.transactions →
    ¬(b.validate env = some true ∧ b'.validate env = some true)

theorem merkleLeaves_length (houtput : ∀ text, (env.sha256 text).length = 64)
    (htx : ∀ tx ∈ b.transactions, ∃ text, tx.txHash = env.sha256 text) :
    ∀ hash ∈ b.merkleLeaves env, hash.length = 64 := by
  unfold merkleLeaves
  split
  · intro hash hhash
    rw [List.mem_singleton.mp hhash]
    exact houtput _
  · intro hash hhash
    obtain ⟨tx, hmem, rfl⟩ := List.mem_map.mp hhash
    obtain ⟨text, htext⟩ := htx tx hmem
    rw [htext]
    exact houtput _

theorem joined_length (houtput : ∀ text, (env.sha256 text).length = 64)
    (htx : ∀ tx ∈ b.transactions, ∃ text, tx.txHash = env.sha256 text) :
    ∀ p ∈ joined (join env) "" (b.merkleLeaves env), p.1.length = 64 := by
  intro p hp
  have hmem := pairs_mem (P := fun hash : String => hash.length = 64) (fun _ _ => houtput _)
    (fits_clog (merkleLeaves_ne_nil env b)) (merkleLeaves_length houtput htx) p hp
  exact hmem.1

theorem Collisionless.nodes {b' : Block} (h : Collisionless env b b') :
    Distinct (join env)
      (joined (join env) "" (b.merkleLeaves env) ++ joined (join env) "" (b'.merkleLeaves env)) := by
  have hwidth : ∀ p ∈ joined (join env) "" (b.merkleLeaves env) ++
      joined (join env) "" (b'.merkleLeaves env), p.1.length = 64 := by
    intro p hp
    rcases List.mem_append.mp hp with hp | hp
    · exact joined_length h.output (fun tx htx => h.txHash tx (List.mem_append_left _ htx)) p hp
    · exact joined_length h.output (fun tx htx => h.txHash tx (List.mem_append_right _ htx)) p hp
  have htexts : ∀ p ∈ joined (join env) "" (b.merkleLeaves env) ++
      joined (join env) "" (b'.merkleLeaves env),
      p.1 ++ p.2 ∈ b.merkleTexts env ++ b'.merkleTexts env := by
    intro p hp
    unfold merkleTexts
    rw [← List.map_append]
    exact List.mem_map_of_mem hp
  intro p hp q hq heq
  obtain ⟨hfst, hsnd⟩ := Text.append_inj ((hwidth p hp).trans (hwidth q hq).symm) (h.distinct (htexts p hp) (htexts q hq) heq)
  exact Prod.ext hfst hsnd

theorem merkleRoot_eq_iff {b' : Block} (h : Collisionless env b b') :
    b.calculateMerkleRoot env = b'.calculateMerkleRoot env ↔
      Overlays (join env) (b.merkleLeaves env) (b'.merkleLeaves env) ∨
        Overlays (join env) (b'.merkleLeaves env) (b.merkleLeaves env) := by
  rw [calculateMerkleRoot_eq_root, calculateMerkleRoot_eq_root]
  exact root_eq_iff (merkleLeaves_ne_nil env b) (merkleLeaves_ne_nil env b') h.nodes

theorem merkleRoot_of_validate (h : b.validate env = some true) : b.merkleRoot = b.calculateMerkleRoot env :=
  (validate_iff.mp h).2.2

/-- The root tells two lists of hashes apart unless one of them, filled up with copies, lies over the other: it is the
    same row of hashes, or the row that many levels up in the other tree. The transactions behind one list of hashes
    are not told apart at all. -/
theorem committed_iff (env : Env) (b b' : Block) (h : Collisionless env b b') :
    Committed env b b' ↔
      (b.transactions.map (·.txHash) ≠ b'.transactions.map (·.txHash) →
        ¬(Overlays (join env) (b.merkleLeaves env) (b'.merkleLeaves env) ∨
          Overlays (join env) (b'.merkleLeaves env) (b.merkleLeaves env))) ∧
      ({ b with transactions := b'.transactions } = b' →
        b.transactions.map (·.txHash) = b'.transactions.map (·.txHash) → b.validate env = some true →
          b.transactions = b'.transactions) := by
  have hroots := merkleRoot_eq_iff h
  constructor
  · intro hcommitted
    refine ⟨fun hne hover => hcommitted.root hne (hroots.mpr hover), fun hheader heq hvalid => ?_⟩
    by_contra hne
    refine hcommitted.unique hheader hne ⟨hvalid, ?_⟩
    rw [← validate_congr hheader heq]
    exact hvalid
  · rintro ⟨hroot, hforged⟩
    refine ⟨fun hne heq => hroot hne (hroots.mp heq), fun hheader hne ⟨hvalid, hvalid'⟩ => ?_⟩
    by_cases heq : b.transactions.map (·.txHash) = b'.transactions.map (·.txHash)
    · exact hne (hforged hheader heq hvalid)
    · have hsame : b.merkleRoot = b'.merkleRoot := by rw [← hheader]
      refine hroot heq (hroots.mp ?_)
      exact (merkleRoot_of_validate hvalid).symm.trans (hsame.trans (merkleRoot_of_validate hvalid'))

/-- The block with its last payment a second time. -/
def paddedBlock : Block := { oddBlock with transactions := oddBlock.transactions ++ [secondPayment] }

theorem collisionless_paddedBlock : Collisionless oddEnv oddBlock paddedBlock := by
  have hvalues : zeroHash.length = 64 ∧ ∀ e ∈ oddTable, e.2.length = 64 := by decide +kernel
  have htexts : (∀ tx ∈ oddBlock.transactions ++ paddedBlock.transactions,
        ∃ e ∈ oddTable, tx.txHash = oddEnv.sha256 e.1) ∧
      ∀ t ∈ oddBlock.merkleTexts oddEnv ++ paddedBlock.merkleTexts oddEnv,
        ∀ u ∈ oddBlock.merkleTexts oddEnv ++ paddedBlock.merkleTexts oddEnv,
          oddEnv.sha256 t = oddEnv.sha256 u → t = u := by decide +kernel
  refine ⟨sha256_oddEnv (fun hash => hash.length = 64) hvalues.1 hvalues.2, fun tx htx => ?_, fun t ht u hu => htexts.2 t ht u hu⟩
  obtain ⟨e, -, he⟩ := htexts.1 tx htx
  exact ⟨e.1, he⟩

/-- A block and its copy with the last payment twice both pass `validate` under one header. -/
theorem padded_root_shared :
    Collisionless oddEnv oddBlock paddedBlock ∧
      oddBlock.transactions.map (·.txHash) ≠ paddedBlock.transactions.map (·.txHash) ∧
      { oddBlock with transactions := paddedBlock.transactions } = paddedBlock ∧
      oddBlock.validate oddEnv = true ∧ paddedBlock.validate oddEnv = true ∧
      ¬Committed oddEnv oddBlock paddedBlock := by
  have hboth : oddBlock.transactions.map (·.txHash) ≠ paddedBlock.transactions.map (·.txHash) ∧
      { oddBlock with transactions := paddedBlock.transactions } = paddedBlock ∧
      oddBlock.validate oddEnv = true ∧ paddedBlock.validate oddEnv = true := by decide +kernel
  obtain ⟨hdiffer, hheader, hvalid, hvalid'⟩ := hboth
  refine ⟨collisionless_paddedBlock, hdiffer, hheader, hvalid, hvalid', fun h => ?_⟩
  exact h.unique hheader (fun heq => hdiffer (congrArg _ heq)) ⟨hvalid, hvalid'⟩

/-- The two hash lists fill up to the same four leaves. -/
theorem committed_iff_paddedBlock :
    Committed oddEnv oddBlock paddedBlock ↔
      (oddBlock.transactions.map (·.txHash) ≠ paddedBlock.transactions.map (·.txHash) →
        ¬(Overlays (join oddEnv) (oddBlock.merkleLeaves oddEnv) (paddedBlock.merkleLeaves oddEnv) ∨
          Overlays (join oddEnv) (paddedBlock.merkleLeaves oddEnv) (oddBlock.merkleLeaves oddEnv))) ∧
      ({ oddBlock with transactions := paddedBlock.transactions } = paddedBlock →
        oddBlock.transactions.map (·.txHash) = paddedBlock.transactions.map (·.txHash) →
          oddBlock.validate oddEnv = true → oddBlock.transactions = paddedBlock.transactions) :=
  committed_iff oddEnv oddBlock paddedBlock collisionless_paddedBlock

end Block

end NexusLedger
