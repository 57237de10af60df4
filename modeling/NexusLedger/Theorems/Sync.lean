import NexusLedger.Theorems.NodeSteps

/-! Header sync: what BLOCKS_RESPONSE messages make of a node that holds the first headers of a chain, and what
    the exchange with a peer on a longer chain comes to. -/

namespace NexusLedger
open Blockchain

section
set_option linter.unusedSectionVars false
variable [Arithmetic]

/-! ### Chains of blocks -/

/-- Blocks at the heights 0, 1, 2, …, each naming the hash of the one before it, the hashes distinct and free
    of NUL. -/
structure HeaderChain (C : List Block) : Prop where
  height : ∀ i (h : i < C.length), C[i].height.toInt = i
  linked : ∀ i (h : i + 1 < C.length), C[i + 1].prevHash = C[i].hash
  distinct : (C.map fun b => b.hash).Nodup
  text : ∀ b ∈ C, cText b.hash = b.hash

namespace HeaderChain
variable {C : List Block} {i j : Nat}

theorem hash_val (hC : HeaderChain C) (hi : i < C.length) : (CString.bind C[i].hash).val = C[i].hash :=
  hC.text _ (List.getElem_mem hi)

theorem eq_of_hash (hC : HeaderChain C) (hi : i < C.length) (hj : j < C.length) (h : C[i].hash = C[j].hash) :
    i = j := by
  have hi' : i < (C.map fun b => b.hash).length := by simpa using hi
  have hj' : j < (C.map fun b => b.hash).length := by simpa using hj
  have heq : (C.map fun b => b.hash)[i] = (C.map fun b => b.hash)[j] := by
    rw [List.getElem_map, List.getElem_map]
    exact h
  exact hC.distinct.getElem_inj_iff.mp heq

theorem eq_of_bind (hC : HeaderChain C) (hi : i < C.length) (hj : j < C.length)
    (h : CString.bind C[i].hash = CString.bind C[j].hash) : i = j := by
  refine hC.eq_of_hash hi hj ?_
  rw [← hC.hash_val hi, ← hC.hash_val hj, h]

end HeaderChain

namespace Blockchain
variable {env : Env} {c : Blockchain} {C : List Block} {i k l : Nat}

/-- The stored headers. -/
def headers (c : Blockchain) : List Header := c.rows.map (·.toHeader)

/-- The headers of the first `k` blocks are stored, and no others. -/
structure StoresPrefix (c : Blockchain) (C : List Block) (k : Nat) : Prop where
  le : k ≤ C.length
  perm : c.headers.Perm ((C.take k).map Block.header)

namespace StoresPrefix

theorem mem (h : c.StoresPrefix C k) {r : BlockRow} (hr : r ∈ c.rows) :
    ∃ j, ∃ hj : j < C.length, j < k ∧ r.toHeader = C[j].header := by
  have hmem : r.toHeader ∈ (C.take k).map Block.header := h.perm.mem_iff.mp (List.mem_map_of_mem hr)
  obtain ⟨b, hb, heq⟩ := List.mem_map.mp hmem
  obtain ⟨j, hj, rfl⟩ := List.mem_iff_getElem.mp hb
  rw [List.length_take] at hj
  exact ⟨j, by omega, by omega, by rw [← heq, List.getElem_take]⟩

theorem exists_row (h : c.StoresPrefix C k) (hi : i < k) (hiC : i < C.length) :
    ∃ r ∈ c.rows, r.toHeader = C[i].header := by
  have hmem : C[i].header ∈ c.headers := by
    refine h.perm.mem_iff.mpr (List.mem_map.mpr ⟨_, ?_, rfl⟩)
    exact List.mem_take_iff_getElem.mpr ⟨i, by omega, rfl⟩
  obtain ⟨r, hr, heq⟩ := List.mem_map.mp hmem
  exact ⟨r, hr, heq⟩

theorem tip (hC : HeaderChain C) (h : c.StoresPrefix C (k + 1)) (hk : k < C.length) :
    ∃ t, c.tip = some t ∧ t.toHeader = C[k].header := by
  obtain ⟨t, ht, heq⟩ := h.exists_row (Nat.lt_succ_self k) hk
  refine ⟨t, tip_of_max ht fun x hx => ?_, heq⟩
  obtain ⟨j, hj, hjk, hx⟩ := h.mem hx
  have hxh : x.height = C[j].height := congrArg Header.height hx
  have hth : t.height = C[k].height := congrArg Header.height heq
  rw [hxh, hth, hC.height, hC.height]
  omega

theorem getHeight (hC : HeaderChain C) (h : c.StoresPrefix C (k + 1)) : c.getHeight.toInt = k := by
  have hk : k < C.length := h.le
  obtain ⟨t, ht, heq⟩ := h.tip hC hk
  have hth : t.height = C[k].height := congrArg Header.height heq
  rw [← (tip_eq_some_iff.mp ht).2, hth, hC.height]

theorem rows_eq_nil (h : c.StoresPrefix C 0) : c.rows = [] := by
  have := h.perm
  rw [List.take_zero, List.map_nil, List.perm_nil] at this
  exact List.map_eq_nil_iff.mp this

theorem pos (h : c.StoresPrefix C k) (hrows : c.rows ≠ []) : 0 < k := by
  rcases k with _ | k
  · exact absurd h.rows_eq_nil hrows
  · exact Nat.succ_pos k

theorem appends (hC : HeaderChain C) (h : c.StoresPrefix C (k + 1)) (hk : k + 1 < C.length)
    (hfinite : C[k + 1].difficulty.isFinite = true) (txs : List Transaction) :
    c.Appends { C[k + 1] with transactions := txs } where
  above := by
    show c.getHeight.toInt < C[k + 1].height.toInt
    rw [h.getHeight hC, hC.height]
    omega
  follows _ := by
    obtain ⟨t, ht, heq⟩ := h.tip hC (Nat.lt_of_succ_lt hk)
    refine ⟨t, ht, ?_⟩
    have hth : t.hash = .bind C[k].hash := congrArg Header.hash heq
    show t.hash.val = C[k + 1].prevHash
    rw [hth, hC.hash_val, hC.linked]
  valued := Double.isNaN_of_isFinite hfinite
  fresh := by
    intro hmem
    obtain ⟨r, hr, hhash⟩ := List.mem_map.mp hmem
    obtain ⟨j, hj, hjk, hrj⟩ := h.mem hr
    have hrh : r.hash = .bind C[j].hash := congrArg Header.hash hrj
    have := hC.eq_of_bind hj hk (hrh.symm.trans hhash)
    omega

/-- A block of the chain that is above the tip but not the next one is refused: only the block right below it
    has the hash it names. -/
theorem not_appends (hC : HeaderChain C) (h : c.StoresPrefix C k) (hi : i < C.length) (hik : i ≠ k)
    (habove : c.getHeight.toInt < C[i].height.toInt) (txs : List Transaction) :
    ¬c.Appends { C[i] with transactions := txs } := by
  intro ha
  have hpos : 0 < C[i].height.toInt := by
    rcases k with _ | k
    · rw [getHeight_of_nil h.rows_eq_nil] at habove
      exact habove
    · rw [h.getHeight hC] at habove
      omega
  obtain ⟨t, ht, hprev⟩ := ha.follows hpos
  rw [hC.height] at hpos
  obtain ⟨m, rfl⟩ : ∃ m, i = m + 1 := ⟨i - 1, by omega⟩
  obtain ⟨j, hj, hjk, htj⟩ := h.mem (tip_eq_some_iff.mp ht).1
  have hth : t.hash = .bind C[j].hash := congrArg Header.hash htj
  have hhash : C[j].hash = C[m].hash := by
    rw [← hC.linked m hi, ← hprev, hth, hC.hash_val hj]
  have hjm := hC.eq_of_hash hj (by omega) hhash
  have htop : t.height.toInt = j := (congrArg (fun x : Header => x.height.toInt) htj).trans (hC.height j hj)
  rcases k with _ | k
  · omega
  · have := h.getHeight hC
    rw [(tip_eq_some_iff.mp ht).2, this] at htop
    omega

theorem addBlock (hC : HeaderChain C) (h : c.StoresPrefix C k) (hi : i < C.length)
    (hfinite : C[i].difficulty.isFinite = true) (habove : c.getHeight.toInt < C[i].height.toInt) :
    (c.addBlock { C[i] with transactions := [] }).2.StoresPrefix C (if i = k then k + 1 else k) := by
  by_cases hik : i = k
  · subst hik
    rcases i with _ | i
    · -- The genesis block is never above the height.
      rw [hC.height, getHeight_of_nil h.rows_eq_nil] at habove
      exact absurd habove (lt_irrefl _)
    · rw [if_pos rfl]
      refine ⟨hi, ?_⟩
      rw [headers, (addBlock_of_appends (h.appends hC hi hfinite [])).2.1, List.map_append,
        List.take_succ_eq_append_getElem hi, List.map_append]
      exact h.perm.append_right _
  · rw [if_neg hik, addBlock_of_not_appends (h.not_appends hC hi hik habove [])]
    exact h

/-- The loop over a segment of the chain: what is stored stays a prefix, and reaches the end of the segment
    when the segment starts no higher than the prefix ends. -/
theorem addReceived (env : Env) (hC : HeaderChain C) (i l : Nat)
    (hfinite : ∀ b ∈ (C.drop i).take l, b.difficulty.isFinite = true) (h : c.StoresPrefix C k) :
    ∃ m, k ≤ m ∧ (Node.addReceived c (((C.drop i).take l).map (·.toJson env))).1.StoresPrefix C m ∧
      (0 < k → i ≤ k → min (i + l) C.length ≤ m) := by
  induction l generalizing i k c with
  | zero => exact ⟨k, le_refl k, h, by omega⟩
  | succ l ih =>
    by_cases hi : i < C.length
    · rw [List.drop_eq_getElem_cons hi, List.take_succ_cons] at hfinite ⊢
      rw [List.map_cons]
      obtain ⟨hhead, hrest⟩ := List.forall_mem_cons.mp hfinite
      have hread := Block.readHeader_toJson env hhead
      have hheight := hC.height i hi
      by_cases hle : C[i].height ≤ c.getHeight
      · rw [addReceived_cons_of_skipped hread hle]
        rw [Int32.le_iff_toInt_le, hheight] at hle
        obtain ⟨m, hkm, hm, hend⟩ := ih (i + 1) hrest h
        refine ⟨m, hkm, hm, fun h0 hik => ?_⟩
        obtain ⟨k, rfl⟩ : ∃ k', k = k' + 1 := ⟨k - 1, by omega⟩
        rw [h.getHeight hC] at hle
        have := hend h0 (by omega)
        omega
      · rw [addReceived_cons_of_above hread hle]
        rw [Int32.le_iff_toInt_le, not_le] at hle
        obtain ⟨m, hkm, hm, hend⟩ := ih (i + 1) hrest (h.addBlock hC hi hhead hle)
        refine ⟨m, ?_, hm, fun h0 hik => ?_⟩
        · split at hkm <;> omega
        · have hik' : i = k := by
            obtain ⟨k, rfl⟩ : ∃ k', k = k' + 1 := ⟨k - 1, by omega⟩
            rw [h.getHeight hC, hheight] at hle
            omega
          rw [if_pos hik'] at hend
          have := hend (by omega) (by omega)
          omega
    · rw [List.drop_eq_nil_of_le (by omega), List.take_nil, List.map_nil]
      exact ⟨k, le_refl k, h, by omega⟩

end StoresPrefix

end Blockchain

/-! ### Responses in any order -/

/-- A response that carries a segment of a chain: where it starts, how many blocks it has, who sends it when. -/
structure Segment where
  first : Nat
  length : Nat
  sender : Node
  sent : Int64
  received : Int64

namespace Segment

def blocks (C : List Block) (s : Segment) : List Block := (C.drop s.first).take s.length

/-- The event of the response, encoded as the GET_BLOCKS handler does it. -/
def event (env : Env) (C : List Block) (s : Segment) : Event :=
  .message s.received (s.sender.blocksResponseMessage env s.sent (s.blocks C))

/-- The last block of a segment stands at the index where the segment or the chain ends. -/
theorem height_getLast? {C : List Block} (hC : HeaderChain C) (s : Segment) {b : Block}
    (h : (s.blocks C).getLast? = some b) : b.height.toInt + 1 = ↑(min (s.first + s.length) C.length) := by
  rw [List.getLast?_eq_getElem?] at h
  obtain ⟨hlen, hb⟩ := List.getElem?_eq_some_iff.mp h
  simp only [blocks, List.length_take, List.length_drop] at hlen
  rw [← hb]
  simp only [blocks, List.getElem_take, List.getElem_drop, List.length_take, List.length_drop, hC.height]
  omega

end Segment

namespace Node
variable {env : Env} {C : List Block} {n : Node}

/-- A node that holds a prefix of a chain holds one after every response with a segment of it, whatever the
    order, the overlaps and the repetitions; and a segment that starts no higher than right above the tip
    brings the node at least to the end of the segment. The blocks table holds genesis from the start and is
    never emptied. -/
theorem header_sync_safe (env : Env) (C : List Block) (hC : HeaderChain C)
    (hfinite : ∀ b ∈ C, b.difficulty.isFinite = true) (n : Node)
    (hn : ∃ k, n.blockchain.StoresPrefix C k) (segments : List Segment) :
    (∀ m ∈ Transition.states (fun m s => step env m (Segment.event env C s)) n segments,
      ∃ k, m.blockchain.StoresPrefix C k) ∧
    (n.blockchain.rows ≠ [] →
      ∀ x ∈ Transition.steps (fun m s => step env m (Segment.event env C s)) n segments,
        (x.2.first : ℤ) ≤ x.1.blockchain.getHeight.toInt + 1 → ∀ b, (x.2.blocks C).getLast? = some b →
          b.height.toInt ≤ (x.1.step env (x.2.event env C)).blockchain.getHeight.toInt) := by
  have hsegment : ∀ s : Segment, ∀ b ∈ s.blocks C, b.difficulty.isFinite = true := fun s b hb =>
    hfinite b (List.mem_of_mem_drop (List.mem_of_mem_take hb))
  have keep : ∀ (m : Node) (s : Segment), (∃ k, m.blockchain.StoresPrefix C k) →
      ∃ k, (m.step env (s.event env C)).blockchain.StoresPrefix C k := by
    rintro m s ⟨k, hk⟩
    obtain ⟨k', -, hk', -⟩ := hk.addReceived env hC s.first s.length (hsegment s)
    exact ⟨k', hk'⟩
  have keep_pos : ∀ (m : Node) (s : Segment), (∃ k, m.blockchain.StoresPrefix C (k + 1)) →
      ∃ k, (m.step env (s.event env C)).blockchain.StoresPrefix C (k + 1) := by
    rintro m s ⟨k, hk⟩
    obtain ⟨k', hle, hk', -⟩ := hk.addReceived env hC s.first s.length (hsegment s)
    obtain ⟨k'', rfl⟩ : ∃ k'', k' = k'' + 1 := ⟨k' - 1, by omega⟩
    exact ⟨k'', hk'⟩
  refine ⟨Transition.invariant keep hn, fun hrows x hx hfirst b hb => ?_⟩
  have hn' : ∃ k, n.blockchain.StoresPrefix C (k + 1) := by
    obtain ⟨k, hk⟩ := hn
    obtain ⟨k', rfl⟩ : ∃ k', k = k' + 1 := ⟨k - 1, by have := hk.pos hrows; omega⟩
    exact ⟨k', hk⟩
  obtain ⟨k, hk⟩ := Transition.invariant_steps keep_pos hn' x hx
  obtain ⟨m, hle, hm, hend⟩ := hk.addReceived env hC x.2.first x.2.length (hsegment x.2)
  obtain ⟨m, rfl⟩ : ∃ m', m = m' + 1 := ⟨m - 1, by omega⟩
  rw [hk.getHeight hC] at hfirst
  have hreach := hend (Nat.succ_pos k) (by omega)
  have hlast := Segment.height_getLast? hC x.2 hb
  have hheight : (x.1.step env (x.2.event env C)).blockchain.getHeight.toInt = m := hm.getHeight hC
  rw [hheight]
  omega

end Node

end

namespace Node

attribute [local instance] Arithmetic.binary64

/-- Genesis and two blocks above it. -/
def sampleChain : List Block := [genesisBlock 0, plainBlock 1 "a1" zeroHash, plainBlock 2 "a2" "a1"]

theorem headerChain_sampleChain : HeaderChain sampleChain where
  height := by decide +kernel
  linked
    | 0, _ => rfl
    | 1, _ => rfl
    | i + 2, h => absurd h (by simp [sampleChain])
  distinct := by decide +kernel
  text := by decide +kernel

theorem storesPrefix_start (nodeId : String) : (start nodeId 0).blockchain.StoresPrefix sampleChain 1 :=
  ⟨by decide, List.Perm.refl _⟩

/-- A segment that starts too high, then one that overlaps genesis. -/
def sampleSegments : List Segment := [⟨2, 1, start "peer" 0, 0, 0⟩, ⟨0, 3, start "peer" 0, 0, 0⟩]

theorem header_sync_safe_sampleChain :
    (∃ k, (sampleSegments.foldl (fun m s => step headerEnv m (Segment.event headerEnv sampleChain s))
        (start "node" 0)).blockchain.StoresPrefix sampleChain k) ∧
      2 ≤ (sampleSegments.foldl (fun m s => step headerEnv m (Segment.event headerEnv sampleChain s))
        (start "node" 0)).blockchain.getHeight.toInt := by
  have h := header_sync_safe headerEnv sampleChain headerChain_sampleChain (by decide +kernel) (start "node" 0)
    ⟨1, storesPrefix_start "node"⟩ sampleSegments
  exact ⟨h.1 _ (Transition.foldl_mem_states _ _ _),
    h.2 (List.cons_ne_nil _ _) _ (List.mem_cons_of_mem _ List.mem_cons_self) (by decide +kernel) _ rfl⟩

end Node

end NexusLedger
