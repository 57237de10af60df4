import NexusLedger.Theorems.Finality
import NexusLedger.Theorems.Sync

/-! The exchange with a peer on a longer chain: its NEW_BLOCK, the request that may follow and the response. A
    node takes over what continues its own chain and never leaves a branch. -/

namespace NexusLedger
open Blockchain

section
set_option linter.unusedSectionVars false
variable [Arithmetic]

/-! ### A stored chain as a list -/

theorem filterMap_of_map_some {α β : Type} {f : α → Option β} {l : List α} {m : List β}
    (h : l.map f = m.map some) : l.filterMap f = m := by
  have hid : l.filterMap f = (l.map f).filterMap id := by rw [List.filterMap_map]; rfl
  rw [hid, h, List.filterMap_map]
  simp

namespace Blockchain
variable {env : Env} {c d : Blockchain} {C : List Block} {k : Nat}

/-- A stored chain from height 0 to the tip, each block linked to the one below. -/
structure Complete (env : Env) (c : Blockchain) : Prop where
  nonneg : ∀ r ∈ c.rows, 0 ≤ r.height.toInt
  gapFree : c.GapFree env
  linked : ∀ lower ∈ c.rows, ∀ upper ∈ c.rows, upper.height.toInt = lower.height.toInt + 1 →
    upper.prevHash = lower.hash

/-- The blocks that `getBlock` reads from height 0 to the tip. -/
def storedBlocks (env : Env) (c : Blockchain) : List Block :=
  (List.range (c.getHeight.toInt + 1).toNat).filterMap fun i : Nat => c.getBlock env (Int32.ofInt i)

theorem headers_nodup (c : Blockchain) : c.headers.Nodup := by
  rw [headers, List.Nodup, List.pairwise_map]
  refine c.db.blocks.distinct.imp fun {a b} hab heq => ?_
  simp only [blocksSchema, Bool.or_eq_false_iff, beq_eq_false_iff_ne] at hab
  exact hab.1 (congrArg Header.height heq)

theorem storesPrefix_of_mem (hC : HeaderChain C) (hk : k ≤ C.length)
    (hmem : ∀ h, h ∈ c.headers ↔ ∃ i, ∃ hi : i < C.length, i < k ∧ h = C[i].header) : c.StoresPrefix C k := by
  have hnodup : ((C.take k).map Block.header).Nodup := by
    have hall : (C.map Block.header).Nodup := by
      refine List.Nodup.of_map (fun h : Header => h.hash.val) ?_
      have htext : (C.map Block.header).map (fun h : Header => h.hash.val) = C.map fun b => b.hash := by
        rw [List.map_map]
        exact List.map_congr_left fun b hb => hC.text b hb
      rw [htext]
      exact hC.distinct
    rw [List.map_take]
    exact hall.sublist (List.take_sublist _ _)
  refine ⟨hk, (List.perm_ext_iff_of_nodup (headers_nodup c) hnodup).mpr fun h => ?_⟩
  rw [hmem, List.mem_map]
  constructor
  · rintro ⟨i, hi, hik, rfl⟩
    exact ⟨C[i], List.mem_take_iff_getElem.mpr ⟨i, by omega, rfl⟩, rfl⟩
  · rintro ⟨b, hb, rfl⟩
    obtain ⟨i, hi, rfl⟩ := List.mem_take_iff_getElem.mp hb
    exact ⟨i, by omega, by omega, rfl⟩

namespace Complete

theorem height_nonneg (h : c.Complete env) : 0 ≤ c.getHeight.toInt := by
  by_cases hrows : c.rows = []
  · rw [getHeight_of_nil hrows]
    exact le_refl _
  · obtain ⟨t, ht⟩ := exists_tip hrows
    obtain ⟨hm, hh⟩ := tip_eq_some_iff.mp ht
    exact hh ▸ h.nonneg t hm

theorem ne_nil (h : c.Complete env) : c.rows ≠ [] := by
  obtain ⟨r, hr, -⟩ := gapFree_iff.mp h.gapFree 0 (le_refl _) h.height_nonneg
  exact List.ne_nil_of_mem hr

theorem exists_row (h : c.Complete env) {i : Nat} (hi : (i : ℤ) ≤ c.getHeight.toInt) :
    ∃ r ∈ c.rows, r.height = Int32.ofInt i ∧ r.height.toInt = i := by
  have hlt := c.getHeight.toInt_lt
  have hval : (Int32.ofInt i).toInt = i := Int32.toInt_ofInt_of_le (by omega) (by omega)
  obtain ⟨r, hr, hh⟩ := gapFree_iff.mp h.gapFree (Int32.ofInt i) (by omega) (by omega)
  exact ⟨r, hr, hh, by rw [hh, hval]⟩

theorem map_storedBlocks (h : c.Complete env) :
    (List.range (c.getHeight.toInt + 1).toNat).map (fun i : Nat => c.getBlock env (Int32.ofInt i)) =
      (storedBlocks env c).map some := by
  rw [storedBlocks, List.map_filterMap_some_eq_filter_map_isSome, List.filter_eq_self.mpr]
  intro b hb
  obtain ⟨i, hi, rfl⟩ := List.mem_map.mp hb
  obtain ⟨r, hr, hh, -⟩ := h.exists_row (i := i) (by have := List.mem_range.mp hi; omega)
  exact getBlock_isSome_iff.mpr ⟨r, hr, hh⟩

theorem length_storedBlocks (h : c.Complete env) : ((storedBlocks env c).length : ℤ) = c.getHeight.toInt + 1 := by
  have hlen := congrArg List.length h.map_storedBlocks
  rw [List.length_map, List.length_map, List.length_range] at hlen
  have := h.height_nonneg
  omega

theorem getBlock_eq (h : c.Complete env) {i : Nat} (hi : i < (storedBlocks env c).length) :
    c.getBlock env (Int32.ofInt i) = some (storedBlocks env c)[i] := by
  have hlen := h.length_storedBlocks
  have hget := congrArg (fun l => l[i]?) h.map_storedBlocks
  simp only [List.getElem?_map] at hget
  rw [List.getElem?_range (by omega), List.getElem?_eq_getElem hi] at hget
  simpa using hget

theorem row (h : c.Complete env) {i : Nat} (hi : i < (storedBlocks env c).length) :
    ∃ r ∈ c.rows, r.height.toInt = i ∧ (storedBlocks env c)[i] =
      { r.toHeader.toBlock with transactions := c.db.getTransactionsByBlock env (Int32.ofInt i) } := by
  have hlen := h.length_storedBlocks
  obtain ⟨r, hr, hh, hb⟩ := getBlock_eq_some_iff.mp (h.getBlock_eq hi)
  refine ⟨r, hr, ?_, hb⟩
  have := c.getHeight.toInt_lt
  rw [hh, Int32.toInt_ofInt_of_le] <;> omega

theorem headerChain (h : c.Complete env) : HeaderChain (storedBlocks env c) where
  height i hi := by
    obtain ⟨r, -, hh, hb⟩ := h.row hi
    rw [hb]
    exact hh
  linked i hi := by
    obtain ⟨upper, hu, hhu, hbu⟩ := h.row hi
    obtain ⟨lower, hl, hhl, hbl⟩ := h.row (Nat.lt_of_succ_lt hi)
    rw [hbu, hbl]
    exact congrArg Subtype.val (h.linked lower hl upper hu (by omega))
  distinct := by
    rw [List.Nodup, List.pairwise_map, List.pairwise_iff_getElem]
    intro i j hi hj hij heq
    obtain ⟨r, hr, hhr, hbr⟩ := h.row hi
    obtain ⟨s, hs, hhs, hbs⟩ := h.row hj
    rw [hbr, hbs] at heq
    have hsame := LedgerDB.eq_of_hash hr hs (CString.ext heq)
    rw [hsame] at hhr
    omega
  text b hb := by
    obtain ⟨i, hi, rfl⟩ := List.mem_iff_getElem.mp hb
    obtain ⟨r, -, -, hb⟩ := h.row hi
    rw [hb]
    exact r.hash.property

theorem mem_headers_iff (h : c.Complete env) (x : Header) :
    x ∈ c.headers ↔ ∃ i, ∃ hi : i < (storedBlocks env c).length, x = (storedBlocks env c)[i].header := by
  have hlen := h.length_storedBlocks
  constructor
  · intro hx
    obtain ⟨r, hr, rfl⟩ := List.mem_map.mp hx
    have h0 := h.nonneg r hr
    have hle := height_le hr
    have hi : r.height.toInt.toNat < (storedBlocks env c).length := by omega
    obtain ⟨s, hs, hhs, hbs⟩ := h.row hi
    have hsame : s = r := LedgerDB.eq_of_height hs hr (Int32.toInt_inj.mp (by omega))
    refine ⟨_, hi, ?_⟩
    rw [hbs, hsame]
    exact (Header.header_toBlock r.toHeader).symm
  · rintro ⟨i, hi, rfl⟩
    obtain ⟨r, hr, -, hb⟩ := h.row hi
    rw [hb]
    exact List.mem_map.mpr ⟨r, hr, (Header.header_toBlock r.toHeader).symm⟩

theorem storesPrefix (h : c.Complete env) : c.StoresPrefix (storedBlocks env c) (storedBlocks env c).length :=
  storesPrefix_of_mem h.headerChain (le_refl _) fun x => by
    rw [h.mem_headers_iff]
    exact ⟨fun ⟨i, hi, hx⟩ => ⟨i, hi, hi, hx⟩, fun ⟨i, hi, _, hx⟩ => ⟨i, hi, hx⟩⟩

/-- A complete chain whose headers the other chain stores too is a prefix of it. -/
theorem storesPrefix_of_subset (hc : c.Complete env) (hd : d.Complete env) (hsub : c.headers ⊆ d.headers) {k : Nat}
    (hk : (k : ℤ) = c.getHeight.toInt + 1) : c.StoresPrefix (storedBlocks env d) k := by
  have hlend := hd.length_storedBlocks
  have below : ∀ x ∈ c.headers, ∃ i, ∃ hi : i < (storedBlocks env d).length,
      i < k ∧ x = (storedBlocks env d)[i].header := by
    intro x hx
    obtain ⟨i, hi, rfl⟩ := (hd.mem_headers_iff x).mp (hsub hx)
    obtain ⟨r, hr, heq⟩ := List.mem_map.mp hx
    have hle := height_le hr
    have hri : r.height.toInt = i :=
      (congrArg (fun h : Header => h.height.toInt) heq).trans (hd.headerChain.height i hi)
    exact ⟨i, hi, by omega, rfl⟩
  have hle : k ≤ (storedBlocks env d).length := by
    have := hc.height_nonneg
    obtain ⟨r, hr, -, hri⟩ := hc.exists_row (i := k - 1) (by omega)
    obtain ⟨i, hi, hik, heq⟩ := below _ (List.mem_map_of_mem hr)
    have : r.height.toInt = i :=
      (congrArg (fun h : Header => h.height.toInt) heq).trans (hd.headerChain.height i hi)
    omega
  refine storesPrefix_of_mem hd.headerChain hle fun x => ⟨below x, ?_⟩
  rintro ⟨i, hi, hik, rfl⟩
  obtain ⟨r, hr, -, hri⟩ := hc.exists_row (i := i) (by omega)
  obtain ⟨j, hj, -, heq⟩ := below _ (List.mem_map_of_mem hr)
  have hrj : r.height.toInt = j :=
    (congrArg (fun h : Header => h.height.toInt) heq).trans (hd.headerChain.height j hj)
  have hij : j = i := by omega
  subst hij
  exact heq ▸ List.mem_map_of_mem hr

/-- The blocks from some height on, as the GET_BLOCKS handler collects them. -/
theorem drop_storedBlocks (h : c.Complete env) {f : Int32} {k : Nat} (hf : f.toInt = k)
    (hle : f.toInt ≤ c.getHeight.toInt) (hmax : c.getHeight ≠ Int32.maxValue) :
    ∃ heights, Node.heightsFrom f c.getHeight = some heights ∧
      heights.filterMap (c.getBlock env) = (storedBlocks env c).drop k := by
  have hlen := h.length_storedBlocks
  have hlt : ¬c.getHeight < f := by
    rw [Int32.lt_iff_toInt_lt]
    omega
  refine ⟨_, by rw [Node.heightsFrom, if_neg hlt, if_neg hmax], ?_⟩
  rw [List.filterMap_map]
  refine filterMap_of_map_some ?_
  have hdrop := congrArg (List.drop k) h.map_storedBlocks
  rw [← List.map_drop, ← List.map_drop, List.range_eq_range', List.drop_range', List.range'_eq_map_range,
    List.map_map] at hdrop
  rw [← hdrop]
  have hcount : (c.getHeight.toInt - f.toInt + 1).toNat = (c.getHeight.toInt + 1).toNat - k := by omega
  rw [hcount]
  refine List.map_congr_left fun i _ => ?_
  simp [hf]

end Complete

theorem getHeight_le_of_subset (h : c.rows ≠ []) (hsub : c.headers ⊆ d.headers) :
    c.getHeight.toInt ≤ d.getHeight.toInt := by
  obtain ⟨t, ht⟩ := exists_tip h
  obtain ⟨hm, hh⟩ := tip_eq_some_iff.mp ht
  obtain ⟨r, hr, heq⟩ := List.mem_map.mp (hsub (List.mem_map_of_mem hm))
  have hheight : r.height = t.height := congrArg Header.height heq
  rw [← hh, ← hheight]
  exact height_le hr

theorem rows_subset_addBlock (c : Blockchain) (b : Block) : c.rows ⊆ (c.addBlock b).2.rows := by
  by_cases h : c.Appends b
  · rw [(addBlock_of_appends h).2.1]
    exact List.subset_append_left _ _
  · rw [addBlock_of_not_appends h]
    exact List.Subset.refl _

theorem rows_subset_addReceived (env : Env) (c : Blockchain) (bs : List Json) :
    c.rows ⊆ (Node.addReceived c bs).1.rows := by
  refine (addReceived_traced env bs c).keeps (P := fun d => c.rows ⊆ d.rows) (fun hrows h => hrows ▸ h)
    (fun x hx h => ?_) (List.Subset.refl _)
  obtain ⟨before, k⟩ := x
  obtain ⟨d, b, bj, -, -, -, heq⟩ := addReceived_effects bs c _ (Node.mem_calls.mp hx)
  cases heq
  exact fun r hr => rows_subset_addBlock before b (h hr)

/-- A row that the loop over a response adds has a difficulty that was read from JSON. -/
theorem mem_rows_addReceived (c : Blockchain) (bs : List Json) {r : BlockRow}
    (hr : r ∈ (Node.addReceived c bs).1.rows) : r ∈ c.rows ∨ r.difficulty.val.isFinite = true := by
  induction bs generalizing c with
  | nil => exact Or.inl hr
  | cons bj bs ih =>
    rcases addReceived_cases c bj bs with h | h | ⟨b, hread, -, h⟩
    · rw [h] at hr
      exact Or.inl hr
    · rw [h] at hr
      exact ih c hr
    · rw [h] at hr
      rcases ih _ hr with hr | hr
      · refine (mem_rows_addBlock hr).imp_right fun ⟨_, heq⟩ => ?_
        rw [heq]
        exact Double.isFinite_stored.mpr (Block.isFinite_of_readHeader hread)
      · exact Or.inr hr

theorem complete_of_storesPrefix (hC : HeaderChain C) (h : c.StoresPrefix C (k + 1)) : c.Complete env where
  nonneg r hr := by
    obtain ⟨i, hi, -, hri⟩ := h.mem hr
    have hheight : r.height = C[i].height := congrArg Header.height hri
    rw [hheight, hC.height]
    omega
  gapFree := by
    refine gapFree_iff.mpr fun x h0 hle => ?_
    have hk : k < C.length := h.le
    rw [h.getHeight hC] at hle
    have hi : x.toInt.toNat < C.length := by omega
    obtain ⟨r, hr, hri⟩ := h.exists_row (by omega) hi
    refine ⟨r, hr, Int32.toInt_inj.mp ?_⟩
    have hheight : r.height = C[x.toInt.toNat].height := congrArg Header.height hri
    rw [hheight, hC.height]
    omega
  linked lower hl upper hu hnext := by
    obtain ⟨i, hi, -, hli⟩ := h.mem hl
    obtain ⟨j, hj, -, huj⟩ := h.mem hu
    have hlheight : lower.height = C[i].height := congrArg Header.height hli
    have huheight : upper.height = C[j].height := congrArg Header.height huj
    have hlhash : lower.hash = .bind C[i].hash := congrArg Header.hash hli
    have huprev : upper.prevHash = .bind C[j].prevHash := congrArg Header.prevHash huj
    rw [hlheight, huheight, hC.height, hC.height] at hnext
    have hji : j = i + 1 := by omega
    subst hji
    rw [huprev, hlhash, hC.linked]

end Blockchain

/-! ### The exchange -/

namespace Node
variable {env : Env} {node peer : Node} {b : Block}

/-- The peer's NEW_BLOCK for its tip, the node's requests, the peer's responses to them: one after the other,
    with nothing in between. -/
def exchange (env : Env) (node peer : Node) (sent received : Int64) : Node :=
  match peer.blockchain.getBlock env peer.blockchain.getHeight with
  | none => node
  | some tip =>
    let (node, effects) := node.react env (newBlockEvent peer sent received tip)
    let responses := (replies effects).flatMap fun request =>
      replies (peer.react env (.message received request)).2
    responses.foldl (fun n response => n.step env (.message received response)) node

theorem replies_relay (n : Node) (now : Int64) (b : Block) (taken : Bool) : replies (n.relay now b taken) = [] := by
  cases taken <;> rfl

theorem exchange_of_extends (sent received : Int64)
    (hb : peer.blockchain.getBlock env peer.blockchain.getHeight = some b)
    (hfinite : b.difficulty.isFinite = true) (h : node.blockchain.Extends { b with transactions := [] }) :
    (exchange env node peer sent received).blockchain =
      (node.blockchain.addBlock { b with transactions := [] }).2 := by
  have hreplies : ∀ (c : Blockchain) (k : Call) (taken : Bool),
      replies (.call c k :: node.relay received { b with transactions := [] } taken) = [] :=
    fun c k taken => replies_relay node received _ taken
  unfold exchange
  rw [hb]
  simp only [react_newBlockEvent, handleNewBlock_of_extends (Block.fromJson_headerMembers env hfinite) h, hreplies,
    List.flatMap_nil, List.foldl_nil]
  rfl

theorem exchange_of_ahead (sent received : Int64)
    (hb : peer.blockchain.getBlock env peer.blockchain.getHeight = some b)
    (hfinite : b.difficulty.isFinite = true) {tip : BlockRow}
    (htip : node.blockchain.tip = some tip) (h : ¬node.blockchain.Extends { b with transactions := [] })
    (habove : node.blockchain.getHeight.toInt < b.height.toInt) :
    exchange env node peer sent received =
      (replies (peer.handleGetBlocks env received
        (.obj [("from_height", .int (node.blockchain.getHeight + 1).toInt)])).2).foldl
          (fun n response => n.step env (.message received response)) node := by
  unfold exchange
  rw [hb]
  simp only [react_newBlockEvent, handleNewBlock_of_ahead (Block.fromJson_headerMembers env hfinite) htip h habove]
  show List.foldl _ _ (List.flatMap _ [node.getBlocksMessage received (node.blockchain.getHeight + 1)]) = _
  rw [List.flatMap_singleton]
  rfl

/-- A tip whose difficulty JSON does not have is not read. -/
theorem exchange_of_not_finite (sent received : Int64)
    (hb : peer.blockchain.getBlock env peer.blockchain.getHeight = some b) (h : ¬b.difficulty.isFinite = true) :
    exchange env node peer sent received = node := by
  unfold exchange
  rw [hb]
  simp only [react_newBlockEvent, handleNewBlock_of_not_finite h]
  rfl

/-- Without a defined end of its loop the peer does not answer. -/
theorem handleGetBlocks_of_max (n : Node) (now : Int64) {f : Int32} (hle : f.toInt ≤ n.blockchain.getHeight.toInt)
    (hmax : n.blockchain.getHeight = Int32.maxValue) :
    n.handleGetBlocks env now (.obj [("from_height", .int f.toInt)]) = (n, []) := by
  have hlt : ¬n.blockchain.getHeight < f := by
    rw [Int32.lt_iff_toInt_lt]
    omega
  have hnone : heightsFrom f n.blockchain.getHeight = none := by rw [heightsFrom, if_neg hlt, if_pos hmax]
  simp [handleGetBlocks, hnone]

theorem handleGetBlocks_of_complete (hc : peer.blockchain.Complete env) (now : Int64) {f : Int32} {k : Nat}
    (hf : f.toInt = k) (hle : f.toInt ≤ peer.blockchain.getHeight.toInt)
    (hmax : peer.blockchain.getHeight ≠ Int32.maxValue) :
    peer.handleGetBlocks env now (.obj [("from_height", .int f.toInt)]) =
      (peer, [.reply (peer.blocksResponseMessage env now ((storedBlocks env peer.blockchain).drop k))]) := by
  obtain ⟨heights, hheights, hblocks⟩ := hc.drop_storedBlocks hf hle hmax
  have hne : (storedBlocks env peer.blockchain).drop k ≠ [] := by
    have hlen := hc.length_storedBlocks
    rw [ne_eq, List.drop_eq_nil_iff]
    omega
  simp [handleGetBlocks, hheights, hblocks, hne]

/-- The exchange makes of the node one of three: its tip extended by the peer's, its chain with the peer's
    blocks above its height offered to it, or itself where the peer cannot answer or the node cannot read. -/
theorem exchange_cases (sent received : Int64) (hnode : node.blockchain.Complete env)
    (hpeer : peer.blockchain.Complete env)
    (hlonger : node.blockchain.getHeight.toInt < peer.blockchain.getHeight.toInt)
    (hb : peer.blockchain.getBlock env peer.blockchain.getHeight = some b) {k : Nat}
    (hk : (k : ℤ) = node.blockchain.getHeight.toInt + 1) :
    (node.blockchain.Extends { b with transactions := [] } ∧ b.difficulty.isFinite = true ∧
      (exchange env node peer sent received).blockchain = (node.blockchain.addBlock { b with transactions := [] }).2) ∨
    (¬node.blockchain.Extends { b with transactions := [] } ∧ peer.blockchain.getHeight ≠ Int32.maxValue ∧
      (exchange env node peer sent received).blockchain =
        (addReceived node.blockchain (((storedBlocks env peer.blockchain).drop k).map (·.toJson env))).1) ∨
    ((b.difficulty.isFinite = true → ¬node.blockchain.Extends { b with transactions := [] } ∧
        peer.blockchain.getHeight = Int32.maxValue) ∧
      (exchange env node peer sent received).blockchain = node.blockchain) := by
  obtain ⟨r, hr, hrh, rfl⟩ := getBlock_eq_some_iff.mp hb
  obtain ⟨tip, htip⟩ := exists_tip (hnode.ne_nil)
  have hsucc := toInt_succ hlonger
  by_cases hfinite : r.difficulty.val.isFinite = true
  · by_cases hext : node.blockchain.Extends { r.toHeader.toBlock with transactions := [] }
    · exact Or.inl ⟨hext, hfinite, exchange_of_extends sent received hb hfinite hext⟩
    · have habove : node.blockchain.getHeight.toInt < r.height.toInt := by rw [hrh]; exact hlonger
      have hexchange := exchange_of_ahead sent received hb hfinite htip hext habove
      refine Or.inr ?_
      by_cases hmax : peer.blockchain.getHeight = Int32.maxValue
      · rw [handleGetBlocks_of_max peer received (by omega) hmax] at hexchange
        exact Or.inr ⟨fun _ => ⟨hext, hmax⟩, congrArg blockchain hexchange⟩
      · rw [handleGetBlocks_of_complete (k := k) hpeer received (by omega) (by omega) hmax] at hexchange
        exact Or.inl ⟨hext, hmax, congrArg blockchain hexchange⟩
  · exact Or.inr (Or.inr ⟨fun h => absurd h hfinite,
      congrArg blockchain (exchange_of_not_finite sent received hb hfinite)⟩)

theorem rows_subset_exchange (sent received : Int64) (hnode : node.blockchain.Complete env)
    (hpeer : peer.blockchain.Complete env)
    (hlonger : node.blockchain.getHeight.toInt < peer.blockchain.getHeight.toInt)
    (hb : peer.blockchain.getBlock env peer.blockchain.getHeight = some b) {k : Nat}
    (hk : (k : ℤ) = node.blockchain.getHeight.toInt + 1) :
    node.blockchain.rows ⊆ (exchange env node peer sent received).blockchain.rows := by
  rcases exchange_cases sent received hnode hpeer hlonger hb hk with ⟨-, -, h⟩ | ⟨-, -, h⟩ | ⟨-, h⟩
  · rw [h]
    exact rows_subset_addBlock _ _
  · rw [h]
    exact rows_subset_addReceived env _ _
  · rw [h]
    exact List.Subset.refl _

/-- What the exchange brings has a difficulty that JSON has. -/
theorem finite_of_mem_exchange (sent received : Int64) (hnode : node.blockchain.Complete env)
    (hpeer : peer.blockchain.Complete env)
    (hlonger : node.blockchain.getHeight.toInt < peer.blockchain.getHeight.toInt)
    (hb : peer.blockchain.getBlock env peer.blockchain.getHeight = some b) {k : Nat}
    (hk : (k : ℤ) = node.blockchain.getHeight.toInt + 1) {r : BlockRow}
    (hr : r ∈ (exchange env node peer sent received).blockchain.rows) :
    r ∈ node.blockchain.rows ∨ r.difficulty.val.isFinite = true := by
  rcases exchange_cases sent received hnode hpeer hlonger hb hk with ⟨-, hfinite, h⟩ | ⟨-, -, h⟩ | ⟨-, h⟩
  · rw [h] at hr
    refine (mem_rows_addBlock hr).imp_right fun ⟨_, heq⟩ => ?_
    rw [heq]
    exact Double.isFinite_stored.mpr hfinite
  · rw [h] at hr
    exact mem_rows_addReceived _ _ hr
  · rw [h] at hr
    exact Or.inl hr

theorem getHeight_of_extends (hlonger : node.blockchain.getHeight.toInt < peer.blockchain.getHeight.toInt)
    (hb : peer.blockchain.getBlock env peer.blockchain.getHeight = some b)
    (hext : node.blockchain.Extends { b with transactions := [] }) :
    peer.blockchain.getHeight.toInt = node.blockchain.getHeight.toInt + 1 := by
  obtain ⟨r, -, hrh, rfl⟩ := getBlock_eq_some_iff.mp hb
  have hheight : r.height = node.blockchain.getHeight + 1 := hext.height
  rw [← hrh, hheight, toInt_succ hlonger]

/-- The tip of a peer that is one block ahead on the same chain extends the node's, which then is the peer's. -/
theorem adopts_next (hfinite : b.difficulty.isFinite = true) (hnode : node.blockchain.Complete env)
    (hpeer : peer.blockchain.Complete env)
    (hb : peer.blockchain.getBlock env peer.blockchain.getHeight = some b) {k : Nat}
    (hk : (k : ℤ) = node.blockchain.getHeight.toInt + 1)
    (hstored : node.blockchain.StoresPrefix (storedBlocks env peer.blockchain) k)
    (hnext : peer.blockchain.getHeight.toInt = node.blockchain.getHeight.toInt + 1) :
    node.blockchain.Extends { b with transactions := [] } ∧
      (node.blockchain.addBlock { b with transactions := [] }).2.StoresPrefix
        (storedBlocks env peer.blockchain) (k + 1) := by
  have hC := hpeer.headerChain
  have hlen := hpeer.length_storedBlocks
  have hnonneg := hnode.height_nonneg
  have hlast : k < (storedBlocks env peer.blockchain).length := by omega
  have hheight : peer.blockchain.getHeight = Int32.ofInt k := by
    have := peer.blockchain.getHeight.toInt_lt
    refine Int32.toInt_inj.mp ?_
    rw [Int32.toInt_ofInt_of_le] <;> omega
  rw [hheight, hpeer.getBlock_eq hlast] at hb
  cases hb
  have happends : node.blockchain.Appends { (storedBlocks env peer.blockchain)[k] with transactions := [] } := by
    obtain ⟨k, rfl⟩ : ∃ k', k = k' + 1 := ⟨k - 1, by omega⟩
    exact hstored.appends hC hlast hfinite []
  refine ⟨⟨Int32.toInt_inj.mp ?_, happends.follows ?_⟩, ?_⟩
  · show (storedBlocks env peer.blockchain)[k].height.toInt = _
    rw [toInt_succ (hnext ▸ Int.lt_succ _), hC.height, hk]
  · show 0 < (storedBlocks env peer.blockchain)[k].height.toInt
    rw [hC.height]
    omega
  · have hm := hstored.addBlock hC hlast hfinite happends.above
    rw [if_pos rfl] at hm
    exact hm

/-- The blocks above its height bring a node on the peer's chain to the peer's height. -/
theorem adopts_response (hnode : node.blockchain.Complete env) (hpeer : peer.blockchain.Complete env) {k : Nat}
    (hk : (k : ℤ) = node.blockchain.getHeight.toInt + 1)
    (hfinite : ∀ b ∈ (storedBlocks env peer.blockchain).drop k, b.difficulty.isFinite = true)
    (hstored : node.blockchain.StoresPrefix (storedBlocks env peer.blockchain) k) :
    ∃ m, (storedBlocks env peer.blockchain).length ≤ m ∧
      (addReceived node.blockchain
        (((storedBlocks env peer.blockchain).drop k).map (·.toJson env))).1.StoresPrefix
          (storedBlocks env peer.blockchain) m := by
  have hlen := hpeer.length_storedBlocks
  have hnonneg := hnode.height_nonneg
  have hsegment := hstored.addReceived env hpeer.headerChain k (storedBlocks env peer.blockchain).length
    fun b hb => hfinite b (List.mem_of_mem_take hb)
  rw [List.take_of_length_le (by simp)] at hsegment
  obtain ⟨m, -, hm, hend⟩ := hsegment
  have := hend (by omega) (le_refl k)
  exact ⟨m, by omega, hm⟩

theorem perm_of_whole {c : Blockchain} {m : Nat} (hpeer : peer.blockchain.Complete env)
    (hm : (storedBlocks env peer.blockchain).length ≤ m)
    (hc : c.StoresPrefix (storedBlocks env peer.blockchain) m) : c.headers.Perm peer.blockchain.headers := by
  have hm' := le_antisymm hc.le hm
  subst hm'
  exact hc.perm.trans hpeer.storesPrefix.perm.symm

/-- What the exchange brought was read from JSON. -/
theorem finite_of_adopted (sent received : Int64) (hnode : node.blockchain.Complete env)
    (hpeer : peer.blockchain.Complete env)
    (hlonger : node.blockchain.getHeight.toInt < peer.blockchain.getHeight.toInt)
    (hb : peer.blockchain.getBlock env peer.blockchain.getHeight = some b) {k : Nat}
    (hk : (k : ℤ) = node.blockchain.getHeight.toInt + 1)
    (hperm : (exchange env node peer sent received).blockchain.headers.Perm peer.blockchain.headers) :
    ∀ r ∈ peer.blockchain.rows, node.blockchain.getHeight < r.height → r.difficulty.val.isFinite = true := by
  intro r hr habove
  obtain ⟨s, hs, heq⟩ := List.mem_map.mp (hperm.symm.subset (List.mem_map_of_mem hr))
  rw [← congrArg Header.difficulty heq]
  refine (finite_of_mem_exchange sent received hnode hpeer hlonger hb hk hs).resolve_left fun hold => ?_
  have hle := height_le hold
  rw [congrArg Header.height heq] at hle
  exact absurd hle (not_le_of_gt (Int32.lt_iff_toInt_lt.mp habove))

theorem finite_of_mem_drop (hpeer : peer.blockchain.Complete env) {k : Nat}
    (hk : (k : ℤ) = node.blockchain.getHeight.toInt + 1)
    (hfinite : ∀ r ∈ peer.blockchain.rows, node.blockchain.getHeight < r.height → r.difficulty.val.isFinite = true) :
    ∀ x ∈ (storedBlocks env peer.blockchain).drop k, x.difficulty.isFinite = true := by
  intro x hx
  have hlen := hpeer.length_storedBlocks
  obtain ⟨i, hi, rfl⟩ := List.mem_drop_iff_getElem.mp hx
  obtain ⟨r, hr, hrh, heq⟩ := hpeer.row (i := k + i) (by omega)
  rw [heq]
  refine hfinite r hr (Int32.lt_iff_toInt_lt.mpr ?_)
  omega

/-- After the exchange with a peer on a longer chain the node stores the peer's headers exactly when it was on
    the peer's chain before, JSON has the difficulties of the peer's blocks above its own, and the peer could answer
    or had one block more. -/
theorem longer_chain_adoption_iff (env : Env) (node peer : Node) (sent received : Int64)
    (hnode : node.blockchain.Complete env) (hpeer : peer.blockchain.Complete env)
    (hlonger : node.blockchain.getHeight.toInt < peer.blockchain.getHeight.toInt) :
    (exchange env node peer sent received).blockchain.headers.Perm peer.blockchain.headers ↔
      node.blockchain.headers ⊆ peer.blockchain.headers ∧
        (∀ r ∈ peer.blockchain.rows, node.blockchain.getHeight < r.height → r.difficulty.val.isFinite = true) ∧
        (peer.blockchain.getHeight.toInt = node.blockchain.getHeight.toInt + 1 ∨
          peer.blockchain.getHeight ≠ Int32.maxValue) := by
  obtain ⟨k, hk⟩ : ∃ k : Nat, (k : ℤ) = node.blockchain.getHeight.toInt + 1 :=
    ⟨(node.blockchain.getHeight.toInt + 1).toNat, by have := hnode.height_nonneg; omega⟩
  have hlen := hpeer.length_storedBlocks
  obtain ⟨b, hb⟩ := Option.isSome_iff_exists.mp
    (hpeer.gapFree peer.blockchain.getHeight hpeer.height_nonneg (le_refl _))
  have hcases := exchange_cases sent received hnode hpeer hlonger hb hk
  constructor
  · intro hperm
    have hkeep := rows_subset_exchange sent received hnode hpeer hlonger hb hk
    refine ⟨fun x hx => hperm.subset (List.map_subset _ hkeep hx),
      finite_of_adopted sent received hnode hpeer hlonger hb hk hperm, ?_⟩
    rcases hcases with ⟨hext, -⟩ | ⟨-, hanswers, -⟩ | ⟨-, h⟩
    · exact Or.inl (getHeight_of_extends hlonger hb hext)
    · exact Or.inr hanswers
    · -- The node is as it was, below the peer's tip.
      rw [h] at hperm
      have := getHeight_le_of_subset hpeer.ne_nil hperm.symm.subset
      omega
  · rintro ⟨hsub, hfinite, hreach⟩
    have hstored := Complete.storesPrefix_of_subset hnode hpeer hsub hk
    have htip : b.difficulty.isFinite = true := by
      obtain ⟨r, hr, hrh, rfl⟩ := getBlock_eq_some_iff.mp hb
      refine hfinite r hr ?_
      rw [hrh]
      exact Int32.lt_iff_toInt_lt.mpr hlonger
    rcases hcases with ⟨hext, -, h⟩ | ⟨hnot, -, h⟩ | ⟨hnot, -⟩
    · have hnext := getHeight_of_extends hlonger hb hext
      rw [h]
      exact perm_of_whole hpeer (by omega) (adopts_next htip hnode hpeer hb hk hstored hnext).2
    · obtain ⟨m, hm, hwhole⟩ := adopts_response hnode hpeer hk (finite_of_mem_drop hpeer hk hfinite) hstored
      rw [h]
      exact perm_of_whole hpeer hm hwhole
    · obtain ⟨hnot, hmax⟩ := hnot htip
      have hnext := hreach.resolve_right (not_not.mpr hmax)
      exact absurd (adopts_next htip hnode hpeer hb hk hstored hnext).1 hnot

end Node

end

namespace Node

attribute [local instance] Arithmetic.binary64

/-- A node on the sample chain up to height 2. -/
def samplePeer : Node :=
  [plainBlock 1 "a1" zeroHash, plainBlock 2 "a2" "a1"].foldl
    (fun n b => n.step headerEnv (newBlockEvent (start "miner" 0) 0 0 b)) (start "peer" 0)

theorem storesPrefix_samplePeer : samplePeer.blockchain.StoresPrefix sampleChain 3 := ⟨by decide, by decide +kernel⟩

theorem longer_chain_adoption_iff_samplePeer :
    (exchange headerEnv (start "node" 0) samplePeer 0 0).blockchain.headers.Perm samplePeer.blockchain.headers ↔
      (start "node" 0).blockchain.headers ⊆ samplePeer.blockchain.headers ∧
        (∀ r ∈ samplePeer.blockchain.rows, (start "node" 0).blockchain.getHeight < r.height →
          r.difficulty.val.isFinite = true) ∧
        (samplePeer.blockchain.getHeight.toInt = (start "node" 0).blockchain.getHeight.toInt + 1 ∨
          samplePeer.blockchain.getHeight ≠ Int32.maxValue) :=
  longer_chain_adoption_iff headerEnv (start "node" 0) samplePeer 0 0
    (complete_of_storesPrefix headerChain_sampleChain (storesPrefix_start "node"))
    (complete_of_storesPrefix headerChain_sampleChain storesPrefix_samplePeer) (by decide +kernel)

/-- A node that took another block at height 1. -/
def sampleFork : Node :=
  (start "node" 0).step headerEnv (newBlockEvent (start "other" 0) 0 0 (plainBlock 1 "b1" zeroHash))

theorem complete_sampleFork : sampleFork.blockchain.Complete headerEnv := by
  have hC : HeaderChain [genesisBlock 0, plainBlock 1 "b1" zeroHash] :=
    { height := by decide +kernel
      linked
        | 0, _ => rfl
        | i + 1, h => absurd h (by simp)
      distinct := by decide +kernel
      text := by decide +kernel }
  have hstored : sampleFork.blockchain.StoresPrefix [genesisBlock 0, plainBlock 1 "b1" zeroHash] 2 :=
    ⟨by decide, by decide +kernel⟩
  exact complete_of_storesPrefix hC hstored

/-- One block off the peer's chain, the node never gets to it. -/
theorem fork_not_left :
    sampleFork.blockchain.Complete headerEnv ∧ samplePeer.blockchain.Complete headerEnv ∧
      sampleFork.blockchain.getHeight.toInt < samplePeer.blockchain.getHeight.toInt ∧
      ¬(exchange headerEnv sampleFork samplePeer 0 0).blockchain.headers.Perm samplePeer.blockchain.headers :=
  ⟨complete_sampleFork, complete_of_storesPrefix headerChain_sampleChain storesPrefix_samplePeer, by decide +kernel,
    by decide +kernel⟩

end Node

end NexusLedger
