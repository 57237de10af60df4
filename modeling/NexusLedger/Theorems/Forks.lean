import NexusLedger.Theorems.SingleProducer

/-! `handleFork`, the switch to a longer chain. It offers the blocks of the other chain to `addBlock` as the handler of
    BLOCKS_RESPONSE does, so it puts some of them on top of the chain at most, and leaves a chain that forked. -/

namespace NexusLedger
open Blockchain

section
set_option linter.unusedSectionVars false
variable [Arithmetic]

namespace Blockchain
variable {env : Env} {c d : Blockchain} {b : Block}

/-! ### A chain by its headers -/

theorem Chained.getLast?_headers (h : c.Chained) : c.headers.getLast? = c.tip.map (·.toHeader) := by
  rw [headers, List.getLast?_map, h.getLast?_eq]

theorem Chained.getHeight_congr (hc : c.Chained) (hd : d.Chained) (heq : c.headers = d.headers) :
    c.getHeight = d.getHeight := by
  obtain ⟨x, hx⟩ := exists_tip hc.nonempty
  obtain ⟨y, hy⟩ := exists_tip hd.nonempty
  have hlast := hc.getLast?_headers.symm.trans ((congrArg List.getLast? heq).trans hd.getLast?_headers)
  rw [hx, hy] at hlast
  rw [← (tip_eq_some_iff.mp hx).2, ← (tip_eq_some_iff.mp hy).2]
  exact congrArg Header.height (Option.some_inj.mp hlast)

/-- What `addBlock` asks of a block is asked of its header, and of the headers of the chain. -/
theorem Appends.congr (hc : c.Chained) (hd : d.Chained) (heq : c.headers = d.headers) (txs : List Transaction)
    (h : c.Appends b) : d.Appends { b with transactions := txs } where
  above := hc.getHeight_congr hd heq ▸ h.above
  follows hpos := by
    obtain ⟨x, hx, hhash⟩ := h.follows hpos
    have hlast := hd.getLast?_headers.symm.trans ((congrArg List.getLast? heq.symm).trans hc.getLast?_headers)
    rw [hx] at hlast
    obtain ⟨y, hy, hsame⟩ := Option.map_eq_some_iff.mp hlast
    exact ⟨y, hy, (congrArg (·.hash.val) hsame).trans hhash⟩
  valued := h.valued
  fresh := by
    have hhashes : d.rows.map (·.hash) = c.rows.map (·.hash) := by
      have := congrArg (List.map Header.hash) heq
      rw [headers, headers, List.map_map, List.map_map] at this
      exact this.symm
    rw [hhashes]
    exact h.fresh

theorem headers_addBlock (c : Blockchain) (b : Block) :
    ((c.addBlock b).2.headers = c.headers ++ [b.header] ∧ c.Appends b) ∨ ((c.addBlock b).2 = c ∧ ¬c.Appends b) := by
  by_cases h : c.Appends b
  · exact Or.inl ⟨headers_of_appends h, h⟩
  · exact Or.inr ⟨by rw [addBlock_of_not_appends h], h⟩

theorem getHeight_le_addBlock (c : Blockchain) (b : Block) : c.getHeight ≤ (c.addBlock b).2.getHeight := by
  rw [Int32.le_iff_toInt_le]
  by_cases h : c.Appends b
  · rw [getHeight_of_appends h]
    exact le_of_lt h.above
  · rw [addBlock_of_not_appends h]

/-! ### Chains that are offered block by block -/

/-- `addBlock` is called with the blocks, one after the other. -/
def offer (c : Blockchain) (blocks : List Block) : Blockchain := blocks.foldl (fun c b => (c.addBlock b).2) c

@[simp] theorem offer_nil (c : Blockchain) : c.offer [] = c := rfl

@[simp] theorem offer_cons (c : Blockchain) (b : Block) (blocks : List Block) :
    c.offer (b :: blocks) = (c.addBlock b).2.offer blocks := rfl

theorem Chained.addBlock (env : Env) (h : c.Chained) (b : Block) : (c.addBlock b).2.Chained :=
  (h.exec (show ¬c.Empties (.addBlock b) from id) : (c.exec env (.addBlock b)).2.Chained)

/-- What is taken goes on top, in order. -/
theorem headers_offer (c : Blockchain) (blocks : List Block) :
    ∃ added, added.Sublist (blocks.map (·.header)) ∧ (c.offer blocks).headers = c.headers ++ added := by
  induction blocks generalizing c with
  | nil => exact ⟨[], List.Sublist.refl _, (List.append_nil _).symm⟩
  | cons b blocks ih =>
    obtain ⟨added, hsub, heq⟩ := ih (c.addBlock b).2
    rw [offer_cons, heq]
    rcases headers_addBlock c b with ⟨hheaders, -⟩ | ⟨hsame, -⟩
    · exact ⟨b.header :: added, hsub.cons_cons _, by rw [hheaders, List.append_assoc]; rfl⟩
    · exact ⟨added, hsub.cons _, by rw [hsame]⟩

/-- Nothing is taken exactly when no block continues the chain as it is. -/
theorem offer_eq_iff (c : Blockchain) (blocks : List Block) :
    (c.offer blocks).headers = c.headers ↔ ∀ b ∈ blocks, ¬c.Appends b := by
  induction blocks generalizing c with
  | nil => exact iff_of_true rfl (List.forall_mem_nil _)
  | cons b blocks ih =>
    rw [offer_cons, List.forall_mem_cons]
    rcases headers_addBlock c b with ⟨hheaders, htaken⟩ | ⟨hsame, hrefused⟩
    · obtain ⟨added, -, heq⟩ := headers_offer (c.addBlock b).2 blocks
      refine iff_of_false (fun h => ?_) fun h => h.1 htaken
      have hlength := congrArg List.length (heq.symm.trans h)
      rw [hheaders, List.length_append, List.length_append, List.length_singleton] at hlength
      omega
    · rw [hsame, ih c]
      exact (and_iff_right hrefused).symm

/-- Chains with the same headers take the same blocks, whatever transactions come with them. -/
theorem headers_offer_congr (env : Env) (hc : c.Chained) (hd : d.Chained) (heq : c.headers = d.headers) (blocks : List Block) :
    (c.offer blocks).headers = (d.offer (blocks.map fun b => { b with transactions := [] })).headers := by
  induction blocks generalizing c d with
  | nil => exact heq
  | cons b blocks ih =>
    rw [List.map_cons, offer_cons, offer_cons]
    refine ih (hc.addBlock env b) (hd.addBlock env _) ?_
    rcases headers_addBlock c b with ⟨hheaders, htaken⟩ | ⟨hsame, hrefused⟩
    · rw [hheaders, headers_of_appends (htaken.congr hc hd heq []), heq]
      rfl
    · have hrefused' : ¬d.Appends { b with transactions := [] } := fun h =>
        hrefused (h.congr hd hc heq.symm b.transactions)
      rw [hsame, addBlock_of_not_appends hrefused', heq]

end Blockchain

namespace Node
variable {env : Env} {n : Node}

/-- The loop of the BLOCKS_RESPONSE handler offers what it reads. -/
theorem addReceived_eq_offer (env : Env) (c : Blockchain) {blocks : List Block}
    (hfinite : ∀ b ∈ blocks, b.difficulty.isFinite = true) :
    (addReceived c (blocks.map (·.toJson env))).1 = c.offer (blocks.map fun b => { b with transactions := [] }) := by
  induction blocks generalizing c with
  | nil => rfl
  | cons b blocks ih =>
    obtain ⟨hb, hblocks⟩ := List.forall_mem_cons.mp hfinite
    rw [List.map_cons, List.map_cons, offer_cons]
    unfold addReceived
    rw [Block.readHeader_toJson env hb]
    dsimp only
    split
    · rename_i hlow
      rw [addBlock_of_not_appends fun h => ?_, ih c hblocks]
      have habove := h.above
      rw [Int32.le_iff_toInt_le] at hlow
      exact absurd hlow (not_le.mpr habove)
    · exact ih _ hblocks

/-- So does `handleFork`: what it passes over is too low anyway. -/
theorem foldl_above_eq_offer {height : Int32} (c : Blockchain) (h : height ≤ c.getHeight) (blocks : List Block) :
    blocks.foldl (fun c b => if height < b.height then (c.addBlock b).2 else c) c = c.offer blocks := by
  induction blocks generalizing c with
  | nil => rfl
  | cons b blocks ih =>
    have hstep : (if height < b.height then (c.addBlock b).2 else c) = (c.addBlock b).2 := by
      split
      · rfl
      · rename_i hlow
        rw [addBlock_of_not_appends fun happends => hlow ?_]
        have habove := happends.above
        rw [Int32.le_iff_toInt_le] at h
        rw [Int32.lt_iff_toInt_lt]
        omega
    rw [List.foldl_cons, offer_cons, hstep]
    refine ih _ ?_
    have hle := getHeight_le_addBlock c b
    rw [Int32.le_iff_toInt_le] at h hle ⊢
    omega

theorem handleFork_eq_offer {alternativeChain : List Block} {last : Block} (hlast : alternativeChain.getLast? = some last)
    (habove : n.blockchain.getHeight < last.height) :
    (n.handleFork alternativeChain).blockchain = n.blockchain.offer alternativeChain := by
  have hlow : ¬last.height ≤ n.blockchain.getHeight := by
    rw [Int32.le_iff_toInt_le]
    rw [Int32.lt_iff_toInt_lt] at habove
    omega
  unfold handleFork
  simp only [hlast, hlow, if_false]
  exact foldl_above_eq_offer n.blockchain (Int32.le_refl _) alternativeChain

/-- `handleFork` with a longer chain switches to nothing: it puts some of the blocks on top, and where none of them
    continues the tip, as when the other chain forked below it, the chain stays. To the headers it does what a
    BLOCKS_RESPONSE with the same blocks does, if all their difficulties are finite and so can be read from one. -/
theorem handleFork_keeps_fork (env : Env) (n : Node) (alternativeChain : List Block) (last : Block)
    (hchained : n.blockchain.Chained) (hlast : alternativeChain.getLast? = some last)
    (habove : n.blockchain.getHeight < last.height) :
    ((∀ b ∈ alternativeChain, b.difficulty.isFinite = true) → (n.handleFork alternativeChain).blockchain.headers =
        (n.handleBlocksResponse (.arr (alternativeChain.map (·.toJson env)))).1.blockchain.headers) ∧
      (∃ added, added.Sublist (alternativeChain.map (·.header)) ∧
        (n.handleFork alternativeChain).blockchain.headers = n.blockchain.headers ++ added) ∧
      ((n.handleFork alternativeChain).blockchain.headers = n.blockchain.headers ↔
        ∀ b ∈ alternativeChain, ¬n.blockchain.Appends b) := by
  rw [handleFork_eq_offer hlast habove]
  refine ⟨fun hfinite => ?_, headers_offer _ _, offer_eq_iff _ _⟩
  rw [headers_offer_congr env hchained hchained rfl, ← addReceived_eq_offer env _ hfinite]
  rfl

end Node

end

namespace Node

attribute [local instance] Arithmetic.binary64

/-- Two blocks on genesis. -/
def rivalChain : List Block := [plainBlock 1 "b1" zeroHash, plainBlock 2 "b2" "b1"]

/-- The rival chain is longer, and none of it is taken. -/
theorem handleFork_keeps_fork_rivalChain :
    (sampleMiner.handleFork rivalChain).blockchain.headers = sampleMiner.blockchain.headers := by
  have hchained : sampleMiner.blockchain.Chained := Transition.invariant (I := fun n : Node => n.blockchain.Chained)
    (fun n e h => step_chained sampleEnv n e h) (chained_genesis 1700000000) sampleMiner (Transition.foldl_mem_states _ _ _)
  have habove : sampleMiner.blockchain.getHeight < (plainBlock 2 "b2" "b1").height := by decide +kernel
  obtain ⟨-, -, hkeeps⟩ := handleFork_keeps_fork sampleEnv sampleMiner rivalChain (plainBlock 2 "b2" "b1") hchained rfl habove
  refine hkeeps.mpr ?_
  simp only [← addBlock_accepts_iff]
  decide +kernel

end Node

end NexusLedger
