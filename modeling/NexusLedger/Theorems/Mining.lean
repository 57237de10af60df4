import NexusLedger.Theorems.ProofOfWork

/-! The search for a nonce. `Block::mine` finds the least one that does, and the copy of its loop in `mine_loop`
    finds the same as long as nothing stops it. -/

namespace NexusLedger

section
set_option linter.unusedSectionVars false
variable [Arithmetic]

/-! ### The target -/

namespace Block
variable {env : Env} {b mined : Block} {nonce fuel n : Nat}

/-- The string of zeros that a difficulty asks for can be made. -/
structure Targeted (env : Env) (difficulty : Double) : Prop where
  nonneg : 0 ≤ difficulty
  short : difficulty < .number (env.longestString + 1)

/-- The hash starts with as many zeros as the difficulty demands. -/
def Zeroed (hash : String) (difficulty : Double) : Prop :=
  List.replicate difficulty.toInteger.toNat '0' <+: hash.toList

theorem Targeted.bounds {x : Double} (h : Targeted env x) : 0 ≤ x.toInteger ∧ x.toInteger ≤ env.longestString := by
  cases x with
  | number q =>
    have hnonneg : 0 ≤ q := Double.number_le_number.mp h.nonneg
    have hshort := Double.number_lt_number.mp h.short
    rw [Double.toInteger, truncate, if_pos hnonneg]
    refine ⟨Rat.le_floor_iff.mpr (by exact_mod_cast hnonneg), Int.lt_add_one_iff.mp (Rat.floor_lt_iff.mpr ?_)⟩
    exact_mod_cast hshort
  | negZero => exact ⟨le_refl 0, Int.natCast_nonneg _⟩
  | infinity s =>
    cases s with
    | false => exact absurd h.short (by simp [Double.lt_iff, Double.place])
    | true => exact absurd h.nonneg (by simp [Double.le_iff, Double.place, Double.zero_eq])
  | nan s => exact absurd h.nonneg (by simp [Double.le_iff, Double.place])

theorem Targeted.length {x : Double} (h : Targeted env x) : targetLength env x = some x.toInteger.toNat :=
  if_pos h.bounds

/-- A hash that is too short for the zeros fails as well. -/
theorem meetsTarget_iff {hash : String} {difficulty : Double} (h : Targeted env difficulty) :
    meetsTarget env hash difficulty = some true ↔ Zeroed hash difficulty := by
  unfold meetsTarget Zeroed
  rw [h.length, Option.map_some, Option.some_inj, beq_iff_eq]
  constructor
  · intro htake
    rw [← htake]
    exact List.take_prefix _ _
  · intro hprefix
    rw [List.prefix_iff_eq_take.mp hprefix, List.length_replicate]

theorem exists_meetsTarget {difficulty : Double} (h : Targeted env difficulty) (hash : String) :
    ∃ met, meetsTarget env hash difficulty = some met := by
  unfold meetsTarget
  rw [h.length]
  exact ⟨_, rfl⟩

/-- The nonce gives a hash with the zeros. -/
def Hits (env : Env) (b : Block) (n : Nat) : Prop :=
  Zeroed ({ b with nonce := Int32.ofNat n }.calculateHash env) b.difficulty

theorem meetsTarget_withNonce_iff (h : Targeted env b.difficulty) :
    meetsTarget env (b.withNonce env n).hash b.difficulty = some true ↔ b.Hits env n := meetsTarget_iff h

/-- The block as a search leaves it has the nonce and the hash of a try, and is otherwise as it was. -/
structure Tried (env : Env) (b : Block) (n : Nat) (mined : Block) : Prop where
  nonce : mined.nonce.toInt = n
  hash : mined.hash = mined.calculateHash env
  kept : { mined with nonce := b.nonce, hash := b.hash } = b

theorem tried_withNonce {maxNonce : Int32} (hn : (n : ℤ) < maxNonce.toInt) : Tried env b n (b.withNonce env n) := by
  have hmax := maxNonce.toInt_lt
  refine ⟨?_, rfl, rfl⟩
  show (Int32.ofNat n).toInt = n
  rw [Int32.toInt_ofNat_of_lt (by omega)]

/-! ### The search -/

/-- The first hit from `nonce` on. -/
theorem search_eq_some_iff : b.search env nonce fuel = some mined ↔
    ∃ n, nonce ≤ n ∧ n < nonce + fuel ∧ meetsTarget env (b.withNonce env n).hash b.difficulty = some true ∧
      (∀ k, nonce ≤ k → k < n → ¬meetsTarget env (b.withNonce env k).hash b.difficulty = some true) ∧
      mined = b.withNonce env n := by
  induction fuel generalizing nonce with
  | zero =>
    simp only [search, reduceCtorEq, false_iff]
    rintro ⟨n, hlow, hhigh, -⟩
    omega
  | succ fuel ih =>
    unfold search
    simp only
    split
    · rename_i hit
      rw [Option.some.injEq]
      constructor
      · rintro rfl
        exact ⟨nonce, le_refl _, by omega, hit, fun k hlow hhigh => by omega, rfl⟩
      · rintro ⟨n, hlow, -, -, hleast, rfl⟩
        have heq : n = nonce := by
          by_contra hne
          exact hleast nonce (le_refl _) (by omega) hit
        rw [heq]
    · rename_i miss
      rw [ih]
      constructor
      · rintro ⟨n, hlow, hhigh, hit, hleast, rfl⟩
        refine ⟨n, by omega, by omega, hit, fun k hk hkn => ?_, rfl⟩
        rcases Nat.eq_or_lt_of_le hk with rfl | hk
        · exact miss
        · exact hleast k hk hkn
      · rintro ⟨n, hlow, hhigh, hit, hleast, rfl⟩
        have hne : n ≠ nonce := fun heq => miss (heq ▸ hit)
        exact ⟨n, by omega, by omega, hit, fun k hk => hleast k (by omega), rfl⟩

theorem search_isSome_iff : (b.search env 0 fuel).isSome = true ↔
    ∃ n < fuel, meetsTarget env (b.withNonce env n).hash b.difficulty = some true := by
  constructor
  · intro h
    obtain ⟨mined, hmined⟩ := Option.isSome_iff_exists.mp h
    obtain ⟨n, -, hn, hit, -⟩ := search_eq_some_iff.mp hmined
    exact ⟨n, by omega, hit⟩
  · rintro ⟨n, hn, hit⟩
    classical
    have hex : ∃ n, meetsTarget env (b.withNonce env n).hash b.difficulty = some true := ⟨n, hit⟩
    have hfirst : b.search env 0 fuel = some (b.withNonce env (Nat.find hex)) :=
      search_eq_some_iff.mpr ⟨Nat.find hex, Nat.zero_le _, by have := Nat.find_min' hex hit; omega, Nat.find_spec hex,
        fun k _ hk => Nat.find_min hex hk, rfl⟩
    rw [hfirst]
    rfl

/-- Where there is a target, `mine` finds what the search finds. -/
theorem mine_eq (h : Targeted env b.difficulty) (maxNonce : Int32) :
    ∃ result, b.mine env maxNonce = some result ∧
      b.search env 0 maxNonce.toInt.toNat = if result.1 = true then some result.2 else none := by
  unfold mine
  rw [h.length]
  refine ⟨_, rfl, ?_⟩
  cases b.search env 0 maxNonce.toInt.toNat with
  | some mined => rfl
  | none =>
    simp only
    split <;> rfl

end Block

/-! ### The loop of the node -/

namespace Node
variable {env : Env} {targetHeight : Int32} {mining : Nat → Bool} {height : Nat → Int32} {nonce fuel : Nat}

/-- What one round leaves in the block does not matter to the next one. -/
theorem mineLoop_withNonce (b : Block) (n : Nat) :
    mineLoop env targetHeight mining height (b.withNonce env n) nonce fuel =
      mineLoop env targetHeight mining height b nonce fuel := by
  cases fuel <;> rfl

/-- Where `mining_` stays set and the height is not reached, the loop is the search. -/
theorem mineLoop_eq_search {b : Block} (hb : Block.Targeted env b.difficulty)
    (h : ∀ n, nonce ≤ n → n < nonce + fuel → mining n = true ∧ height n < targetHeight) :
    mineLoop env targetHeight mining height b nonce fuel = some (b.search env nonce fuel) := by
  induction fuel generalizing nonce with
  | zero => rfl
  | succ fuel ih =>
    obtain ⟨hmining, hlow⟩ := h nonce (le_refl _) (by omega)
    obtain ⟨met, hmet⟩ := Block.exists_meetsTarget hb (b.withNonce env nonce).hash
    have hrest : mineLoop env targetHeight mining height (b.withNonce env nonce) (nonce + 1) fuel =
        some (b.search env (nonce + 1) fuel) := by
      rw [mineLoop_withNonce]
      exact ih fun n hn hfuel => h n (by omega) (by omega)
    rw [mineLoop, if_pos hmining, if_neg (Int32.not_le.mpr hlow), Block.search, hmet]
    unfold Block.withNonce at hmet
    simp only [hmet]
    cases met with
    | true => rfl
    | false => exact hrest

/-- What a node hands to `addBlock` when it submits is what the loop leaves with. -/
theorem calls_submit {n : Node} {t : Template} {now : Int64} (ht : n.template = some t)
    (hb : Block.Targeted env t.block.difficulty) :
    (mineLoop env t.targetHeight (fun _ => true) (fun _ => n.blockchain.getHeight) t.block 0 nonceLimit).map
        (fun handed => (handed.map fun b => (n.blockchain, Blockchain.Call.addBlock b)).toList) =
      some (calls (n.submit env now).2) := by
  by_cases hlow : t.targetHeight ≤ n.blockchain.getHeight
  · have hnone : mineLoop env t.targetHeight (fun _ => true) (fun _ => n.blockchain.getHeight) t.block 0 nonceLimit =
        some none := by
      unfold nonceLimit mineLoop
      rw [if_pos rfl, if_pos hlow]
    rw [hnone]
    rcases submit_cases env n now with ⟨t', b, ht', -, hhigh⟩ | hsubmit
    · rw [Option.some.inj (ht.symm.trans ht')] at hlow
      exact absurd hlow hhigh
    · rw [hsubmit]
      rfl
  · rw [mineLoop_eq_search hb fun _ _ _ => ⟨rfl, Int32.not_le.mp hlow⟩]
    cases hmined : t.block.search env 0 nonceLimit with
    | none =>
      rcases submit_cases env n now with ⟨t', b, ht', hmined', -⟩ | hsubmit
      · rw [← Option.some.inj (ht.symm.trans ht'), hmined] at hmined'
        cases hmined'
      · rw [hsubmit]
        rfl
    | some b =>
      rw [submit_of_mined ht hmined hlow, calls_cons_call, calls_relay]
      rfl

end Node

/-! ### The search as a whole -/

namespace Block
variable {env : Env} {b : Block} {maxNonce : Int32} {result : Bool × Block}

/-- What a search with the bound `maxNonce` has to come to. -/
structure Searched (env : Env) (b : Block) (maxNonce : Int32) (result : Bool × Block) : Prop where
  found : result.1 = true ↔ ∃ n : Nat, (n : ℤ) < maxNonce.toInt ∧ b.Hits env n
  first : result.1 = true → ∃ n : Nat, (n : ℤ) < maxNonce.toInt ∧ b.Hits env n ∧ (∀ k < n, ¬b.Hits env k) ∧
    Tried env b n result.2
  valid : result.1 = true → b.merkleRoot = b.calculateMerkleRoot env → result.2.validate env = some true

theorem first_of_search (hd : Targeted env b.difficulty)
    (h : b.search env 0 maxNonce.toInt.toNat = some mined) :
    ∃ n : Nat, (n : ℤ) < maxNonce.toInt ∧ b.Hits env n ∧ (∀ k < n, ¬b.Hits env k) ∧ Tried env b n mined := by
  obtain ⟨n, -, hn, hit, hleast, heq⟩ := search_eq_some_iff.mp h
  have hrange : (n : ℤ) < maxNonce.toInt := by omega
  refine ⟨n, hrange, (meetsTarget_withNonce_iff hd).mp hit, fun k hk hhit => ?_, ?_⟩
  · exact hleast k (Nat.zero_le _) hk ((meetsTarget_withNonce_iff hd).mpr hhit)
  · rw [heq]
    exact tried_withNonce hrange

theorem searched_mine (hd : Targeted env b.difficulty) (h : b.mine env maxNonce = some result) :
    b.Searched env maxNonce result := by
  obtain ⟨result', hresult, hsearch⟩ := mine_eq hd maxNonce
  obtain rfl := Option.some_inj.mp (h.symm.trans hresult)
  refine ⟨⟨fun htrue => ?_, ?_⟩, fun htrue => ?_, fun htrue hroot => ?_⟩
  · rw [if_pos htrue] at hsearch
    obtain ⟨n, hn, hhit, -⟩ := first_of_search hd hsearch
    exact ⟨n, hn, hhit⟩
  · rintro ⟨n, hn, hhit⟩
    have hsome : (b.search env 0 maxNonce.toInt.toNat).isSome = true :=
      search_isSome_iff.mpr ⟨n, by omega, (meetsTarget_withNonce_iff hd).mpr hhit⟩
    by_contra hfalse
    rw [hsearch, if_neg hfalse] at hsome
    cases hsome
  · rw [if_pos htrue] at hsearch
    exact first_of_search hd hsearch
  · rw [if_pos htrue] at hsearch
    exact (validate_of_search hsearch hroot).1

end Block

namespace Node

/-- Where there is a target, the search succeeds exactly when some nonce hits. It then stops at the least one, leaves
    the rest of the block alone and gives a block that validates if its Merkle root was right, as it is in a template.
    The loop of the node hands over what `mine` finds, if nothing stops it. -/
theorem mining_search_correct (env : Env) (b : Block) (maxNonce : Int32) (hd : 0 ≤ b.difficulty)
    (hshort : b.difficulty < .number (env.longestString + 1)) :
    (∃ result, b.mine env maxNonce = some result ∧ b.Searched env maxNonce result) ∧
      (∀ c miner now, (Blockchain.createBlock env c miner now).1.merkleRoot =
        (Blockchain.createBlock env c miner now).1.calculateMerkleRoot env) ∧
      ∃ result, b.mine env 1000000 = some result ∧
        ∀ (targetHeight : Int32) (mining : Nat → Bool) (height : Nat → Int32),
          (∀ n < nonceLimit, mining n = true ∧ height n < targetHeight) →
            mineLoop env targetHeight mining height b 0 nonceLimit =
              some (if result.1 = true then some result.2 else none) := by
  have htargeted : Block.Targeted env b.difficulty := ⟨hd, hshort⟩
  obtain ⟨result, hmine, -⟩ := Block.mine_eq htargeted maxNonce
  obtain ⟨limited, hlimited, hsearch⟩ := Block.mine_eq htargeted 1000000
  refine ⟨⟨result, hmine, Block.searched_mine htargeted hmine⟩, Blockchain.createBlock_merkleRoot env, limited, hlimited,
    fun targetHeight mining height hrun => ?_⟩
  rw [mineLoop_eq_search htargeted fun n _ hn => hrun n (by omega)]
  exact congrArg some hsearch

end Node

end

/-! ### Sample searches -/

namespace Node

attribute [local instance] Arithmetic.binary64

/-- The block of the sample run half a minute later, at difficulty 1: the third nonce is the first to hit. -/
def retriedBlock : Block := { sampleBlock with hash := "", timestamp := 1700143411, difficulty := 1 }

/-- SHA-256 for the three texts that are tried. -/
def retriedEnv : Env :=
  { sampleEnv with
    sha256 := fun text =>
      (List.lookup text
        [("1" ++ zeroHash ++ sampleMerkleRoot ++ "170014341101alpha",
            "4c34368af64efa450c3fa88ffed73ab44bfc16eea0f6c5bc6648f4197fc63d5e"),
          ("1" ++ zeroHash ++ sampleMerkleRoot ++ "170014341111alpha",
            "b2e6e6d9e1cb67ba96ba84e2c048cd65a8e46ad46c4e96a81da340dd36a55591"),
          ("1" ++ zeroHash ++ sampleMerkleRoot ++ "170014341121alpha",
            "0d57e35f49a8e5360ed7f5c275f6b02ca93534b6fdde68558c9357c95b88a6d1")]).getD "" }

theorem mining_search_correct_retriedBlock :
    (∃ result, retriedBlock.mine retriedEnv 3 = some result ∧ result.1 = true ∧ result.2.nonce = 2 ∧
        retriedBlock.Searched retriedEnv 3 result) ∧ (retriedBlock.mine retriedEnv 2).map (·.1) = some false := by
  obtain ⟨result, hmine, hsearched⟩ :=
    (mining_search_correct retriedEnv retriedBlock 3 (by decide +kernel) (by decide +kernel)).1
  have hthird : (retriedBlock.mine retriedEnv 3).map (fun r => (r.1, r.2.nonce)) = some (true, 2) ∧
      (retriedBlock.mine retriedEnv 2).map (·.1) = some false := by decide +kernel
  rw [hmine, Option.map_some, Option.some_inj, Prod.mk.injEq] at hthird
  exact ⟨⟨result, hmine, hthird.1.1, hthird.1.2, hsearched⟩, hthird.2⟩

/-- A difficulty of 2 ^ 63 asks for more zeros than a string can hold: even with no nonce to try, `mine` throws. -/
theorem long_target_not_made :
    (0 : Double) ≤ { sampleBlock with difficulty := .number (2 ^ 63) : Block }.difficulty ∧
      ¬∃ result, { sampleBlock with difficulty := .number (2 ^ 63) : Block }.mine sampleEnv 0 = some result := by
  have hnone : (0 : Double) ≤ .number (2 ^ 63) ∧
      { sampleBlock with difficulty := .number (2 ^ 63) : Block }.mine sampleEnv 0 = none := by decide +kernel
  refine ⟨hnone.1, fun ⟨result, hsome⟩ => ?_⟩
  rw [hnone.2] at hsome
  cases hsome

end Node

end NexusLedger
