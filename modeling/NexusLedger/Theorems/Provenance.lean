import NexusLedger.Theorems.SharedLedger
import NexusLedger.Theorems.Staleness
import NexusLedger.Theorems.Retarget
import NexusLedger.Theorems.ProofOfWork

/-! Where the blocks of a network come from: a node sends on what it stored, and stores what it mined or was sent. So
    every block on any node was mined by some node of the network. -/

namespace NexusLedger
open Blockchain

section
set_option linter.unusedSectionVars false
variable [Arithmetic]

/-! ### What a call leaves of the table -/

namespace Blockchain
variable {env : Env} {c : Blockchain} {k : Call} {K : Header → Prop} {started : Int64}

/-- `addBlock` leaves the rows or adds that of its block; `replaceLastBlock` leaves them, puts its block in the place of
    the last one, or only drops that. -/
theorem rows_exec_cases (env : Env) (h : c.Chained) (k : Call) :
    (c.exec env k).2.rows = c.rows ∨
    (c.Fits k ∧ (c.exec env k).2.rows = c.rows ++ [k.block.row]) ∨
    ∃ b now, k = .replaceLastBlock b now ∧ c.Competes b ∧
      ((c.Fits k ∧ (c.exec env k).2.rows = c.rows.dropLast ++ [b.row]) ∨
        (¬c.FreshBelow b ∧ (c.exec env k).2.rows = c.rows.dropLast)) := by
  cases k with
  | addBlock b =>
    by_cases ha : c.Appends b
    · exact Or.inr (Or.inl ⟨ha, (addBlock_of_appends ha).2.1⟩)
    · refine Or.inl ?_
      rw [exec, addBlock_of_not_appends ha]
  | replaceLastBlock b now =>
    by_cases hc : c.Competes b
    · refine Or.inr (Or.inr ⟨b, now, rfl, hc, ?_⟩)
      rw [← h.below_eq]
      by_cases hf : c.FreshBelow b
      · exact Or.inl ⟨⟨hc, hf⟩, (replaceLastBlock_of_fresh hc hf).2⟩
      · refine Or.inr ⟨hf, ?_⟩
        rw [exec, replaceLastBlock_of_not_fresh hc hf]
        rfl
    · refine Or.inl ?_
      rw [exec, replaceLastBlock_of_not_competes hc]

/-- The genesis row, and above it rows of the stock. -/
structure Sprung (started : Int64) (K : Header → Prop) (c : Blockchain) : Prop where
  chained : c.Chained
  rows : ∃ rest, c.rows = genesisRow started :: rest ∧ ∀ r ∈ rest, K r.toHeader

theorem sprung_genesis (now : Int64) : (genesis now).Sprung now K where
  chained := chained_genesis now
  rows := ⟨[], rfl, fun _ hr => absurd hr List.not_mem_nil⟩

namespace Sprung

theorem congr {d : Blockchain} (h : c.Sprung started K) (hrows : d.rows = c.rows) : d.Sprung started K where
  chained := h.chained.congr hrows
  rows := hrows ▸ h.rows

theorem mono {K' : Header → Prop} (h : c.Sprung started K) (hK : ∀ x, K x → K' x) : c.Sprung started K' where
  chained := h.chained
  rows := by
    obtain ⟨rest, hrows, hrest⟩ := h.rows
    exact ⟨rest, hrows, fun r hr => hK _ (hrest r hr)⟩

/-- Genesis is the last row only at height 0. -/
theorem rest_ne_nil (h : c.Sprung started K) {rest : List BlockRow} (hrows : c.rows = genesisRow started :: rest)
    (hheight : 1 ≤ c.getHeight.toInt) : rest ≠ [] := by
  rintro rfl
  obtain ⟨tip, htip⟩ := exists_tip h.chained.nonempty
  obtain ⟨hm, hh⟩ := tip_eq_some_iff.mp htip
  rw [hrows, List.mem_singleton] at hm
  rw [← hh, hm] at hheight
  exact absurd hheight (show ¬(1 : ℤ) ≤ (0 : Int32).toInt by decide)

/-- What is above genesis is of the stock, at a height above 0. -/
theorem cases_row (h : c.Sprung started K) {r : BlockRow} (hr : r ∈ c.rows) :
    r = genesisRow started ∨ (K r.toHeader ∧ 1 ≤ r.height.toInt) := by
  obtain ⟨rest, hrows, hrest⟩ := h.rows
  have hord := h.chained.linked.ascending
  rw [hrows] at hr hord
  rcases List.mem_cons.mp hr with rfl | hr
  · exact Or.inl rfl
  · exact Or.inr ⟨hrest r hr, (List.pairwise_cons.mp hord).1 r hr⟩

theorem exec (env : Env) (h : c.Sprung started K) (hspare : ¬c.Empties k) (hk : c.Fits k → K k.block.header)
    (hheight : ∀ b now, k = .replaceLastBlock b now → 1 ≤ b.height.toInt) : (c.exec env k).2.Sprung started K where
  chained := h.chained.exec hspare
  rows := by
    obtain ⟨rest, hrows, hrest⟩ := h.rows
    have concat : ∀ l ⊆ rest, c.Fits k → ∀ r ∈ l ++ [k.block.row], K r.toHeader := by
      intro l hl hfits r hr
      rcases List.mem_append.mp hr with hr | hr
      · exact hrest r (hl hr)
      · rw [List.mem_singleton.mp hr]
        exact hk hfits
    rcases rows_exec_cases env h.chained k with heq | ⟨hfits, heq⟩ | ⟨b, now, rfl, hc, hrepl⟩
    · exact ⟨rest, heq.trans hrows, hrest⟩
    · exact ⟨rest ++ [k.block.row], by rw [heq, hrows, List.cons_append], concat rest (List.Subset.refl _) hfits⟩
    · have hpos := hheight b now rfl
      have hlast : c.rows.dropLast = genesisRow started :: rest.dropLast := by
        rw [hrows, List.dropLast_cons_of_ne_nil (h.rest_ne_nil hrows (hc.height ▸ hpos))]
      have hsub := (List.dropLast_sublist rest).subset
      rcases hrepl with ⟨hfits, heq⟩ | ⟨-, heq⟩
      · exact ⟨rest.dropLast ++ [b.row], by rw [heq, hlast, List.cons_append], concat rest.dropLast hsub hfits⟩
      · exact ⟨rest.dropLast, by rw [heq, hlast], fun r hr => hrest r (hsub hr)⟩

end Sprung
end Blockchain

/-! ### What the messages of a node carry -/

namespace Effect

def message? : Effect → Option Message
  | .broadcast msg => some msg
  | .reply msg => some msg
  | .call _ _ => none

end Effect

/-- A message with blocks has those of the stock, as its sender encodes them, or genesis. -/
structure Message.Carries (env : Env) (K : Header → Prop) (msg : Message) : Prop where
  newBlock : msg.type = .newBlock → ∃ b : Block, msg.payload = .obj b.headerMembers ∧ K b.header ∧ 1 ≤ b.height.toInt
  response : msg.type = .blocksResponse → ∃ bs : List Block, msg.payload = .arr (bs.map (·.toJson env)) ∧
    ∀ b ∈ bs, b.height = 0 ∨ (K b.header ∧ 1 ≤ b.height.toInt)

namespace Node
variable {env : Env} {n : Node} {e : Event} {K : Header → Prop} {started : Int64}

/-- The effects of a step: its block calls, a block that was taken, an answer from the store, a request, a pong, or a
    transaction that came in. -/
inductive Emits (env : Env) (n : Node) (e : Event) : Effect → Prop
  | call {k : Blockchain × Call} (mem : k ∈ calls (n.react env e).2) : Emits env n e (.call k.1 k.2)
  | block (now : Int64) {k : Blockchain × Call} (mem : k ∈ calls (n.react env e).2) (fits : k.1.Fits k.2) :
    Emits env n e (.broadcast (n.newBlockMessage now k.2.block))
  | blocks (now : Int64) {bs : List Block} (stored : ∀ b ∈ bs, ∃ h, n.blockchain.getBlock env h = some b) :
    Emits env n e (.reply (n.blocksResponseMessage env now bs))
  | request (now : Int64) (h : Int32) : Emits env n e (.reply (n.getBlocksMessage now h))
  | pong (now : Int64) : Emits env n e (.reply (n.pongMessage now))
  | transaction (now : Int64) (tx : Transaction) {received : Message} (came : e = .message now received)
    (type : received.type = .newTransaction) : Emits env n e (.broadcast (n.newTransactionMessage now tx))

variable {x : Effect}

theorem emits_called {k : Call} (now : Int64) (hreact : (n.react env e).2 =
    .call n.blockchain k :: n.relay now k.block (n.blockchain.exec env k).1) (hx : x ∈ (n.react env e).2) :
    Emits env n e x := by
  have hcalls : (n.blockchain, k) ∈ calls (n.react env e).2 := by
    rw [hreact, calls_cons_call]
    exact List.mem_cons_self
  rw [hreact] at hx
  rcases List.mem_cons.mp hx with rfl | hx
  · exact .call hcalls
  · unfold relay at hx
    split at hx
    · rename_i htaken
      rw [List.mem_singleton.mp hx]
      exact .block now hcalls ((exec_accepts_iff k).mp htaken)
    · cases hx

theorem emits_nothing (hreact : (n.react env e).2 = []) (hx : x ∈ (n.react env e).2) : Emits env n e x := by
  rw [hreact] at hx
  cases hx

theorem emits_one {effect : Effect} (h : Emits env n e effect) (hreact : (n.react env e).2 = [effect])
    (hx : x ∈ (n.react env e).2) : Emits env n e x := by
  rw [hreact] at hx
  exact List.mem_singleton.mp hx ▸ h

theorem react_emits_own (own : OwnEvent) (hx : x ∈ (n.react env (.own own)).2) : Emits env n (.own own) x := by
  cases own with
  | http now body =>
    refine emits_nothing ?_ hx
    simp only [react, ownStep, handleHttp]
    split <;> rfl
  | clean => exact emits_nothing rfl hx
  | template now => exact emits_nothing rfl hx
  | submit now =>
    rcases submit_cases env n now with ⟨t, b, ht, hmined, hlow⟩ | heq
    · refine emits_called (k := .addBlock b) now ?_ hx
      simp only [react, ownStep, submit_of_mined ht hmined hlow]
      rfl
    · refine emits_nothing ?_ hx
      simp only [react, ownStep, heq]
  | abandon => exact emits_nothing rfl hx
  | sync now => exact emits_one (.request now _) rfl hx

theorem react_emits_message (now : Int64) (msg : Message) (hx : x ∈ (n.react env (.message now msg)).2) :
    Emits env n (.message now msg) x := by
  cases htype : msg.type with
  | newBlock =>
    rcases handleNewBlock_cases env n now msg.payload with ⟨b, hread, hext⟩ | ⟨b, hread, hcomp⟩ | ⟨-, hnone | ⟨k, hask⟩⟩
    · refine emits_called (k := .addBlock b) now ?_ hx
      simp only [react, handleMessage, htype, handleNewBlock_of_extends hread hext]
      rfl
    · refine emits_called (k := .replaceLastBlock b now) now ?_ hx
      simp only [react, handleMessage, htype, handleNewBlock_of_competes hread hcomp]
      rfl
    · refine emits_nothing ?_ hx
      simp only [react, handleMessage, htype, hnone]
    · refine emits_one (.request now k) ?_ hx
      simp only [react, handleMessage, htype, hask]
  | blocksResponse =>
    have hreact : (n.react env (.message now msg)).2 = (n.handleBlocksResponse msg.payload).2 := by
      simp only [react, handleMessage, htype]
    have hmem := hx
    rw [hreact] at hx
    unfold handleBlocksResponse at hx
    split at hx
    · obtain ⟨d, b, bj, -, -, -, rfl⟩ := addReceived_effects _ n.blockchain x hx
      exact .call (k := (d, .addBlock b)) (List.mem_filterMap.mpr ⟨_, hmem, rfl⟩)
    · cases hx
  | newTransaction =>
    rcases hread : readNewTransaction env now msg.payload with _ | tx
    · refine emits_nothing ?_ hx
      simp only [react, handleMessage, htype, handleNewTransaction, hread]
    · rcases hadd : n.blockchain.addTransaction env tx now with ⟨_ | _, d⟩
      · refine emits_nothing ?_ hx
        simp only [react, handleMessage, htype, handleNewTransaction, hread, hadd]
      · refine emits_one (.transaction now tx rfl htype) ?_ hx
        simp only [react, handleMessage, htype, handleNewTransaction, hread, hadd]
  | getBlocks =>
    simp only [react, handleMessage, htype, handleGetBlocks] at hx
    split at hx
    · cases hx
    · split at hx
      · cases hx
      · split at hx
        · cases hx
        · rw [List.mem_singleton.mp hx]
          refine .blocks now fun b hb => ?_
          obtain ⟨k, -, hk⟩ := List.mem_filterMap.mp hb
          exact ⟨k, hk⟩
  | handshake =>
    refine emits_one (.request now (n.blockchain.getHeight + 1)) ?_ hx
    simp only [react, handleMessage, htype]
    rfl
  | ping =>
    refine emits_one (.pong now) ?_ hx
    simp only [react, handleMessage, htype]
  | _ =>
    refine emits_nothing ?_ hx
    simp only [react, handleMessage, htype]

/-- Every effect of a step is one of these. -/
theorem react_emits (hx : x ∈ (n.react env e).2) : Emits env n e x := by
  cases e with
  | own own => exact react_emits_own own hx
  | message now received => exact react_emits_message now received hx

/-! ### Templates -/

/-- The template continues genesis or a block of the stock; once its nonce is found it validates, at a difficulty
    from 1 to 6. -/
structure Grafted (env : Env) (started : Int64) (K : Header → Prop) (t : Template) : Prop where
  parent : ∃ p, (p = (genesisBlock started).header ∨ K p) ∧ t.block.height = p.height + 1 ∧
    t.block.prevHash = p.hash.val
  root : t.block.merkleRoot = t.block.calculateMerkleRoot env
  low : 1 ≤ t.block.difficulty
  high : t.block.difficulty ≤ 6

/-- Above genesis the node stores blocks of the stock, and it mines on one of them. -/
structure Sprung (env : Env) (started : Int64) (K : Header → Prop) (n : Node) : Prop where
  chain : n.blockchain.Sprung started K
  template : ∀ t, n.template = some t → Grafted env started K t

theorem sprung_start (env : Env) (nodeId : String) (now : Int64) : (start nodeId now).Sprung env now K where
  chain := sprung_genesis now
  template t ht := by cases ht

theorem grafted_createBlock {c : Blockchain} (h : c.Sprung started K) (miner : String) (now : Int64)
    (targetHeight : Int32) : Grafted env started K { block := (c.createBlock env miner now).1, targetHeight } where
  parent := by
    obtain ⟨tip, htip⟩ := exists_tip h.chained.nonempty
    obtain ⟨hm, hh⟩ := tip_eq_some_iff.mp htip
    obtain ⟨hheight, hprev⟩ := createBlock_place env h.chained htip miner now
    refine ⟨tip.toHeader, ?_, hheight.trans (congrArg (· + 1) hh.symm), hprev⟩
    rcases h.cases_row hm with rfl | ⟨hstock, -⟩
    · exact Or.inl rfl
    · exact Or.inr hstock
  root := createBlock_merkleRoot env c miner now
  low := by
    show Double.number 1 ≤ .number ((c.getCurrentDifficulty env).toInt : ℚ)
    rw [Double.number_le_number]
    exact_mod_cast (getCurrentDifficulty_bounds env c).1
  high := by
    show Double.number ((c.getCurrentDifficulty env).toInt : ℚ) ≤ .number 6
    rw [Double.number_le_number]
    exact_mod_cast (getCurrentDifficulty_bounds env c).2

/-! ### Steps of a node -/

def Carried (env : Env) (K : Header → Prop) : Event → Prop
  | .own _ => True
  | .message _ msg => msg.Carries env K

/-- What the node accepts of its own is in the stock. -/
def Stocked (env : Env) (n : Node) (K : Header → Prop) : Event → Prop
  | .own e => ∀ k ∈ calls (n.react env (.own e)).2, k.1.Fits k.2 → K k.2.block.header
  | .message _ _ => True

theorem calls_chained (h : n.blockchain.Chained) : ∀ k ∈ calls (n.react env e).2, k.1.Chained :=
  (step_traced env n e).keeps_before (fun k hk hc => hc.exec ((step_traced env n e).spares k hk)) h

theorem carried_newBlock {now : Int64} {msg : Message} {b : Block} (he : Carried env K (.message now msg))
    (htype : msg.type = .newBlock) (hread : Block.fromJson env msg.payload = .ok b) :
    K b.header ∧ 1 ≤ b.height.toInt := by
  obtain ⟨sent, hpayload, hsent⟩ := he.newBlock htype
  rw [hpayload] at hread
  have hfinite := Block.isFinite_of_fromJson_headerMembers hread
  rw [Block.fromJson_headerMembers env hfinite] at hread
  cases hread
  exact hsent

/-- A block that a step puts on a chain is in the stock. -/
theorem calls_stock (h : n.blockchain.Chained) (he : Carried env K e) (hown : n.Stocked env K e) :
    ∀ k ∈ calls (n.react env e).2, k.1.Fits k.2 → K k.2.block.header ∧ 1 ≤ k.2.block.height.toInt := by
  intro k hk hfits
  have hchained := calls_chained h k hk
  have hnonneg := hchained.getHeight_nonneg
  cases (react_calls env n e).2 k hk with
  | @mined now t b ht hmined hlow =>
    have habove : n.blockchain.getHeight.toInt < b.height.toInt := Appends.above hfits
    simp only at hnonneg
    have hpos : 1 ≤ b.height.toInt := by omega
    exact ⟨hown _ hk hfits, hpos⟩
  | extended now htype hread hext => exact carried_newBlock he htype hread
  | competed now htype hread hcomp => exact carried_newBlock he htype hread
  | @received now msg blocks bj c b htype hpayload hbj hread habove =>
    obtain ⟨bs, heq, hbs⟩ := he.response htype
    rw [hpayload] at heq
    cases heq
    obtain ⟨b', hb', rfl⟩ := List.mem_map.mp hbj
    rw [Block.readHeader_toJson env (Block.isFinite_of_readHeader_toJson hread)] at hread
    cases hread
    rw [Int32.le_iff_toInt_le] at habove
    refine (hbs b' hb').resolve_left fun hzero => habove ?_
    rw [show ({ b' with transactions := [] } : Block).height = 0 from hzero]
    exact hnonneg

theorem competing_height (he : Carried env K e) : ∀ k ∈ calls (n.react env e).2, ∀ b now,
    k.2 = .replaceLastBlock b now → 1 ≤ b.height.toInt := by
  rintro ⟨c, k⟩ hk b now rfl
  cases (react_calls env n e).2 _ hk with
  | competed now htype hread hcomp => exact (carried_newBlock he htype hread).2

theorem Sprung.step (h : n.Sprung env started K) (he : Carried env K e) (hown : n.Stocked env K e) :
    (n.step env e).Sprung env started K where
  chain := (step_traced env n e).keeps (fun hrows hc => hc.congr hrows)
    (fun k hk hc => hc.exec env ((step_traced env n e).spares k hk)
      (fun hfits => (calls_stock h.chain.chained he hown k hk hfits).1)
      (competing_height he k hk)) h.chain
  template t ht := by
    rcases step_template env n e with heq | heq | ⟨now, heq⟩
    · exact h.template t (heq ▸ ht)
    · rw [heq] at ht
      cases ht
    · rw [heq] at ht
      cases ht
      exact grafted_createBlock h.chain n.nodeId now _

/-- What a step sends on carries blocks of the stock. -/
theorem Sprung.carries (h : n.Sprung env started K) (he : Carried env K e) (hown : n.Stocked env K e)
    {x : Effect} (hx : x ∈ (n.react env e).2) {msg : Message} (hmsg : x.message? = some msg) :
    msg.Carries env K := by
  cases react_emits hx with
  | call => cases hmsg
  | block now hk hfits =>
    cases hmsg
    obtain ⟨hstock, hpos⟩ := calls_stock h.chain.chained he hown _ hk hfits
    refine ⟨fun _ => ⟨_, rfl, hstock, hpos⟩, fun htype => ?_⟩
    cases htype
  | @blocks now bs hstored =>
    cases hmsg
    refine ⟨fun htype => ?_, fun _ => ⟨bs, rfl, fun b hb => ?_⟩⟩
    · cases htype
    · obtain ⟨k, hk⟩ := hstored b hb
      obtain ⟨r, hr, -, rfl⟩ := getBlock_eq_some_iff.mp hk
      rcases h.chain.cases_row hr with rfl | ⟨hstock, hpos⟩
      · exact Or.inl rfl
      · refine Or.inr ⟨?_, hpos⟩
        have hheader := Header.header_toBlock r.toHeader
        exact hheader.symm ▸ hstock
  | _ =>
    cases hmsg
    exact ⟨fun htype => (nomatch htype), fun htype => (nomatch htype)⟩

/-! ### Mined blocks -/

/-- The blocks that a step puts on the chain. -/
def accepted (env : Env) (n : Node) (e : Event) : List Block :=
  (calls (n.react env e).2).filterMap fun k => if (k.1.exec env k.2).1 then some k.2.block else none

theorem mem_accepted {b : Block} :
    b ∈ n.accepted env e ↔ ∃ k ∈ calls (n.react env e).2, k.1.Fits k.2 ∧ k.2.block = b := by
  unfold accepted
  rw [List.mem_filterMap]
  refine exists_congr fun k => and_congr_right fun _ => ?_
  rw [← (exec_accepts_iff k.2 : (k.1.exec env k.2).1 = true ↔ k.1.Fits k.2)]
  split
  · rename_i htaken
    rw [Option.some.injEq]
    exact ⟨fun heq => ⟨htaken, heq⟩, And.right⟩
  · rename_i hrefused
    exact iff_of_false (fun h => nomatch h) fun h => hrefused h.1

/-- A block with its proof of work, that continues genesis or a block of the stock. -/
structure Worked (env : Env) (K : Header → Prop) (b : Block) : Prop where
  valid : b.validate env = some true
  low : 1 ≤ b.difficulty
  high : b.difficulty ≤ 6
  parent : ∃ p : Header, ((p.hash = .bind zeroHash ∧ p.height = 0) ∨ K p) ∧ b.header.prevHash = p.hash ∧
    b.height.toInt = p.height.toInt + 1

/-- The next height is above a height that is not negative only if it is no overflow. -/
theorem toInt_of_succ {h k : Int32} (heq : k = h + 1) (hpos : 1 ≤ k.toInt) : k.toInt = h.toInt + 1 := by
  rw [heq]
  refine (toInt_succ_iff h).mpr fun hmax => ?_
  rw [heq, hmax] at hpos
  exact absurd hpos (by decide)

theorem worked_of_mined (h : n.Sprung env started K) {own : OwnEvent} {b : Block}
    (hb : b ∈ n.accepted env (.own own)) : Worked env K b := by
  obtain ⟨k, hk, hfits, rfl⟩ := mem_accepted.mp hb
  have hnonneg := h.chain.chained.getHeight_nonneg
  cases (react_calls env n (.own own)).2 k hk with
  | @mined now t b ht hmined hlow =>
    have hgrafted := h.template t ht
    obtain ⟨hvalid, hdifficulty⟩ := Block.validate_of_search hmined hgrafted.root
    have habove : n.blockchain.getHeight.toInt < b.height.toInt := Appends.above hfits
    obtain ⟨j, hj, -⟩ := Block.search_eq_some hmined
    obtain ⟨p, hp, hheight, hprev⟩ := hgrafted.parent
    have hbheight : b.height = p.height + 1 := hj ▸ hheight
    have hbprev : b.prevHash = p.hash.val := hj ▸ hprev
    refine ⟨hvalid, hdifficulty ▸ hgrafted.low, hdifficulty ▸ hgrafted.high, p, ?_, ?_, ?_⟩
    · rcases hp with rfl | hp
      · exact Or.inl ⟨rfl, rfl⟩
      · exact Or.inr hp
    · show CString.bind b.prevHash = p.hash
      rw [hbprev, CString.bind_of_val]
    · have hpos : 1 ≤ b.height.toInt := by omega
      exact toInt_of_succ hbheight hpos

end Node

/-! ### Runs of the network -/

namespace Network
variable {ι : Type} {env : Env} {s : Network ι} {a : Action ι} {started : ι → Int64} {K : Header → Prop}
  {stocks : ι → Header → Prop}

/-- The headers of the blocks that a node puts on its chain on its own account. -/
def mined (env : Env) (s : Network ι) : Action ι → List Header
  | .own i _ _ e => ((s.nodes i).accepted env (.own e)).map Block.header
  | .deliver _ _ _ => []

/-- The headers of the blocks that are mined in a run. -/
def minedIn [DecidableEq ι] (env : Env) (s : Network ι) (actions : List (Action ι)) : List Header :=
  (Transition.steps (step env) s actions).flatMap fun x => x.1.mined env x.2

theorem sent_step [DecidableEq ι] (env : Env) (s : Network ι) (a : Action ι) : s.sent <+: (s.step env a).sent := by
  rcases hev : s.event? a with _ | ⟨i, peer, e⟩
  · rw [step_of_none hev]
  · rw [step_of_event hev]
    exact List.prefix_append _ _

/-- Each node stores blocks of its stock, and sends such blocks. -/
structure Supplied (env : Env) (started : ι → Int64) (stocks : ι → Header → Prop) (s : Network ι) : Prop where
  nodes : ∀ i, (s.nodes i).Sprung env (started i) (stocks i)
  sent : ∀ x ∈ s.sent, x.message.Carries env (stocks x.sender)

/-- All nodes store blocks of one stock, and all messages carry such blocks. -/
abbrev Sprung (env : Env) (started : ι → Int64) (K : Header → Prop) (s : Network ι) : Prop :=
  s.Supplied env started fun _ => K

theorem supplied_start (env : Env) (nodeId : ι → String) (started : ι → Int64) :
    (start nodeId started).Supplied env started stocks where
  nodes i := Node.sprung_start env (nodeId i) (started i)
  sent _ hx := absurd hx List.not_mem_nil

theorem origin_of_post {clients : List ι} {i peer : ι} {x : Effect} {m : Envelope ι} (hm : m ∈ post clients i peer x) :
    m.sender = i ∧ x.message? = some m.message := by
  cases x with
  | broadcast msg =>
    obtain ⟨j, -, rfl⟩ := List.mem_map.mp hm
    exact ⟨rfl, rfl⟩
  | reply msg =>
    rw [List.mem_singleton.mp hm]
    exact ⟨rfl, rfl⟩
  | call before k => cases hm

/-- A node acts whose message carries blocks of its stock, and which accepts of its own only such blocks. -/
theorem Supplied.step [DecidableEq ι] (h : s.Supplied env started stocks)
    (hact : ∀ i peer e, s.event? a = some (i, peer, e) → Node.Carried env (stocks i) e ∧
      (s.nodes i).Stocked env (stocks i) e) : (s.step env a).Supplied env started stocks where
  nodes i := by
    rcases nodes_step env s a i with hold | ⟨peer, e, hev, hnew⟩
    · rw [hold]
      exact h.nodes i
    · obtain ⟨hcarried, hstocked⟩ := hact i peer e hev
      rw [hnew]
      exact (h.nodes i).step hcarried hstocked
  sent x hx := by
    rcases mem_sent_step hx with hx | ⟨i, peer, e, hev, y, hy, hx⟩
    · exact h.sent x hx
    · obtain ⟨hcarried, hstocked⟩ := hact i peer e hev
      obtain ⟨rfl, hmsg⟩ := origin_of_post hx
      exact (h.nodes _).carries hcarried hstocked hy hmsg

/-- What a node mines, it accepts of its own. -/
theorem stocked_of_mined {i peer : ι} {e : Event} (hown : ∀ x ∈ s.mined env a, K x)
    (he : s.event? a = some (i, peer, e)) : (s.nodes i).Stocked env K e := by
  cases a with
  | own i peer clients e =>
    cases he
    exact fun k hk hfits => hown _ (List.mem_map_of_mem (Node.mem_accepted.mpr ⟨k, hk, hfits, rfl⟩))
  | deliver k clients now =>
    obtain ⟨x, -, heq⟩ := Option.map_eq_some_iff.mp he
    cases heq
    trivial

namespace Sprung

theorem carried (h : s.Sprung env started K) {i peer : ι} {e : Event} (he : s.event? a = some (i, peer, e)) :
    Node.Carried env K e := by
  cases a with
  | own i peer clients e =>
    cases he
    trivial
  | deliver k clients now =>
    obtain ⟨x, hx, heq⟩ := Option.map_eq_some_iff.mp he
    cases heq
    exact h.sent x (List.mem_of_getElem? hx)

variable [DecidableEq ι]

theorem step (h : s.Sprung env started K) (hown : ∀ x ∈ s.mined env a, K x) : (s.step env a).Sprung env started K :=
  Supplied.step h fun _ _ _ he => ⟨h.carried he, stocked_of_mined hown he⟩

theorem states (env : Env) (nodeId : ι → String) (started : ι → Int64) (actions : List (Action ι)) :
    ∀ s ∈ Transition.states (Network.step env) (start nodeId started) actions,
      s.Sprung env started (· ∈ minedIn env (start nodeId started) actions) := by
  refine Transition.invariant_of_steps (C := fun s a => ∀ x ∈ s.mined env a,
    x ∈ minedIn env (start nodeId started) actions) (fun s a hown h => h.step hown)
    (supplied_start env nodeId started) fun x hx h hh => ?_
  exact List.mem_flatMap.mpr ⟨x, hx, hh⟩

end Sprung

/-- A block that is mined in a run has its proof of work, and continues genesis or a block that is mined in it. -/
theorem worked_of_minedIn [DecidableEq ι] (nodeId : ι → String) (actions : List (Action ι)) :
    ∀ x ∈ minedIn env (start nodeId started) actions, ∃ b : Block, b.header = x ∧
      Node.Worked env (· ∈ minedIn env (start nodeId started) actions) b := by
  intro x hx
  obtain ⟨⟨s, a⟩, hs, hx⟩ := List.mem_flatMap.mp hx
  have hsprung := Sprung.states env nodeId started actions s (Transition.fst_mem_states _ _ hs)
  cases a with
  | own i peer clients e =>
    obtain ⟨b, hb, rfl⟩ := List.mem_map.mp hx
    exact ⟨b, rfl, Node.worked_of_mined (hsprung.nodes i) hb⟩
  | deliver k clients now => cases hx

end Network

end

namespace Network

attribute [local instance] Arithmetic.binary64

end Network

end NexusLedger
