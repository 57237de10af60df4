import NexusLedger.Theorems.NodeSteps

/-! What stays of the chain from one step of a node to the next: the buried blocks, and the gap-free row of
    heights. -/

namespace NexusLedger
open Blockchain

section
set_option linter.unusedSectionVars false
variable [Arithmetic]

/-! ### Buried blocks -/

namespace Blockchain
variable {env : Env} {c d : Blockchain}

/-- From the one chain to the other the height does not fall, and every row below the first height stays. -/
structure Keeps (c d : Blockchain) : Prop where
  height : c.getHeight.toInt ≤ d.getHeight.toInt
  buried : ∀ r ∈ c.rows, r.height.toInt < c.getHeight.toInt → r ∈ d.rows

theorem Keeps.trans {e : Blockchain} (hcd : c.Keeps d) (hde : d.Keeps e) : c.Keeps e where
  height := le_trans hcd.height hde.height
  buried r hr hlt := hde.buried r (hcd.buried r hr hlt) (lt_of_lt_of_le hlt hcd.height)

theorem getHeight_congr (h : d.rows = c.rows) : d.getHeight = c.getHeight :=
  congrArg (fun l => (LedgerDB.maxHeight l).getD 0) h

theorem Keeps.of_rows (h : d.rows = c.rows) : c.Keeps d where
  height := le_of_eq (congrArg Int32.toInt (getHeight_congr h).symm)
  buried _ hr _ := h ▸ hr

theorem keeps_addBlock (c : Blockchain) (b : Block) : c.Keeps (c.addBlock b).2 := by
  by_cases h : c.Appends b
  · refine ⟨?_, fun r hr _ => ?_⟩
    · rw [getHeight_of_appends h]
      exact le_of_lt h.above
    · rw [(addBlock_of_appends h).2.1]
      exact List.mem_append_left _ hr
  · rw [addBlock_of_not_appends h]
    exact .of_rows rfl

/-- Of two blocks that compete, the new one may cost the node a block: when its hash is stored below. -/
theorem keeps_replaceLastBlock_iff {b : Block} {now : Int64} (hvalued : b.difficulty.isNaN = false) (h : c.Competes b) :
    c.Keeps (c.replaceLastBlock env b now).2 ↔ c.FreshBelow b := by
  by_cases hf : c.FreshBelow b
  · refine iff_of_true ⟨?_, fun r hr hlt => ?_⟩ hf
    · rw [getHeight_of_fresh h hf]
    · rw [(replaceLastBlock_of_fresh h hf).2]
      refine List.mem_append_left _ (mem_below.mpr ⟨hr, fun heq => ?_⟩)
      rw [heq] at hlt
      exact lt_irrefl _ hlt
  · have hleft : c.below ≠ [] := below_ne_nil h hf (not_empties_of_valued now hvalued)
    exact iff_of_false (fun hk => absurd hk.height (not_le_of_gt (getHeight_of_not_fresh h hf hleft))) hf

end Blockchain

/-- A NEW_BLOCK message that competes with the tip and carries the hash of a block below it. -/
def Node.Erodes (env : Env) (n : Node) : Event → Prop
  | .message _ msg =>
    msg.type = .newBlock ∧
      ∃ b, Block.fromJson env msg.payload = .ok b ∧ n.blockchain.Competes b ∧ ¬n.blockchain.FreshBelow b
  | .own _ => False

namespace Node

theorem keeps_step_iff (env : Env) (n : Node) (e : Event) :
    n.blockchain.Keeps (n.step env e).blockchain ↔ ¬n.Erodes env e := by
  have htraced := step_traced env n e
  rcases calls_cases env n e with hadds | ⟨now, msg, b, rfl, htype, hread, hcomp, hcalls⟩
  · refine iff_of_true ?_ fun herodes => ?_
    · refine htraced.keeps (fun hrows hk => hk.trans (.of_rows hrows)) (fun x hx hk => ?_) (.of_rows rfl)
      obtain ⟨b, hb⟩ := hadds x hx
      rw [hb]
      exact hk.trans (keeps_addBlock x.1 b)
    · cases e with
      | own own =>
        exact herodes
      | message now msg =>
        obtain ⟨htype, b, hread, hcomp, -⟩ := herodes
        have hcall : (n.blockchain, .replaceLastBlock b now) ∈ calls (n.react env (.message now msg)).2 := by
          simp only [react, handleMessage, htype, handleNewBlock_of_competes hread hcomp, calls_cons_call]
          exact List.mem_cons_self
        obtain ⟨b', hb'⟩ := hadds _ hcall
        cases hb'
  · rw [hcalls] at htraced
    obtain ⟨-⟩ | ⟨-, -, hdone⟩ := htraced
    obtain ⟨hrows⟩ := hdone
    have hiff : n.blockchain.Keeps (n.blockchain.replaceLastBlock env b now).2 ↔ n.blockchain.FreshBelow b :=
      keeps_replaceLastBlock_iff (valued_of_fromJson hread) hcomp
    have herodes : n.Erodes env (.message now msg) ↔ ¬n.blockchain.FreshBelow b := by
      constructor
      · rintro ⟨-, b', hread', -, hf⟩
        rw [hread] at hread'
        cases hread'
        exact hf
      · exact fun hf => ⟨htype, b, hread, hcomp, hf⟩
    rw [herodes, not_not, ← hiff]
    exact ⟨fun hk => hk.trans (.of_rows hrows.symm), fun hk => hk.trans (.of_rows hrows)⟩

/-- In a run of a node every block below the tip of some state stays for good, and the height never falls,
    exactly when no NEW_BLOCK message of the run erodes the chain. -/
theorem buried_blocks_final_iff (env : Env) (nodeId : String) (now : Int64) (events : List Event) :
    ((Transition.states (step env) (start nodeId now) events).Pairwise fun n m => n.blockchain.Keeps m.blockchain) ↔
      ∀ x ∈ Transition.steps (step env) (start nodeId now) events, ¬x.1.Erodes env x.2 := by
  rw [Transition.pairwise_states_iff (R := fun n m : Node => n.blockchain.Keeps m.blockchain)
    fun _ _ _ h₁ h₂ => h₁.trans h₂]
  exact ⟨fun h x hx => (keeps_step_iff env x.1 x.2).mp (h x hx),
    fun h x hx => (keeps_step_iff env x.1 x.2).mpr (h x hx)⟩

end Node

end

namespace Node

attribute [local instance] Arithmetic.binary64

/-- A block is taken at height 1; a second one with the same predecessor carries the genesis hash. Height 1 is
    lost. -/
theorem eroded_by_stored_hash :
    ¬(Transition.states (step headerEnv) (start "node" 0)
        [newBlockEvent (start "peer" 0) 0 0 (plainBlock 1 "a1" zeroHash),
          newBlockEvent (start "peer" 0) 0 0 (plainBlock 1 zeroHash zeroHash)]).Pairwise
      fun n m => n.blockchain.Keeps m.blockchain := by
  intro h
  simp only [Transition.states_cons, Transition.states_nil, List.pairwise_cons] at h
  have hheight := (h.2.1 _ List.mem_cons_self).height
  revert hheight
  decide +kernel

end Node

section
set_option linter.unusedSectionVars false
variable [Arithmetic]

/-! ### Gaps -/

namespace Blockchain
variable {env : Env} {c d : Blockchain} {b : Block}

/-- There is a block at every height up to the current one. -/
def GapFree (env : Env) (c : Blockchain) : Prop :=
  ∀ h : Int32, 0 ≤ h.toInt → h.toInt ≤ c.getHeight.toInt → (c.getBlock env h).isSome

theorem getBlock_isSome_iff {h : Int32} : (c.getBlock env h).isSome ↔ ∃ r ∈ c.rows, r.height = h := by
  rw [Option.isSome_iff_exists]
  constructor
  · rintro ⟨b, hb⟩
    obtain ⟨r, hr, hh, -⟩ := getBlock_eq_some_iff.mp hb
    exact ⟨r, hr, hh⟩
  · rintro ⟨r, hr, hh⟩
    exact ⟨_, getBlock_eq_some_iff.mpr ⟨r, hr, hh, rfl⟩⟩

theorem gapFree_iff : c.GapFree env ↔
    ∀ h : Int32, 0 ≤ h.toInt → h.toInt ≤ c.getHeight.toInt → ∃ r ∈ c.rows, r.height = h := by
  simp only [GapFree, getBlock_isSome_iff]

theorem gapFree_congr (h : d.rows = c.rows) : d.GapFree env ↔ c.GapFree env := by
  simp only [gapFree_iff, getHeight_congr h, h]

theorem gapFree_genesis (now : Int64) : (genesis now).GapFree env := by
  refine gapFree_iff.mpr fun h h0 hle => ⟨genesisRow now, List.mem_singleton_self _, ?_⟩
  have hheight : (genesis now).getHeight = 0 := rfl
  rw [hheight] at hle
  exact Int32.toInt_inj.mp (le_antisymm h0 hle)

/-- A block that `addBlock` takes more than one above the current height. -/
def Jumps (c : Blockchain) : Call → Prop
  | .addBlock b => c.Appends b ∧ b.height.toInt ≠ c.getHeight.toInt + 1
  | .replaceLastBlock _ _ => False

theorem gapFree_of_addBlock (h : (c.addBlock b).2.GapFree env) : c.GapFree env := by
  by_cases ha : c.Appends b
  · refine gapFree_iff.mpr fun k h0 hle => ?_
    have habove := ha.above
    obtain ⟨r, hr, hk⟩ := gapFree_iff.mp h k h0 (by rw [getHeight_of_appends ha]; omega)
    rw [(addBlock_of_appends ha).2.1, List.mem_append, List.mem_singleton] at hr
    rcases hr with hr | rfl
    · exact ⟨r, hr, hk⟩
    · have : b.height = k := hk
      rw [this] at habove
      omega
  · rw [addBlock_of_not_appends ha] at h
    exact h

theorem gapFree_addBlock_iff (hc : c.Chained) (h : c.GapFree env) :
    (c.addBlock b).2.GapFree env ↔ ¬c.Jumps (.addBlock b) := by
  by_cases ha : c.Appends b
  · have habove := ha.above
    have hnonneg := hc.getHeight_nonneg
    obtain ⟨-, hrows, -⟩ := addBlock_of_appends ha
    rw [gapFree_iff, getHeight_of_appends ha, hrows]
    constructor
    · rintro hfree ⟨-, hne⟩
      -- Nothing stands right above the old tip.
      have hnext : (Int32.ofInt (c.getHeight.toInt + 1)).toInt = c.getHeight.toInt + 1 := by
        have := b.height.toInt_lt
        exact Int32.toInt_ofInt_of_le (by omega) (by omega)
      obtain ⟨r, hr, hk⟩ := hfree (Int32.ofInt (c.getHeight.toInt + 1)) (by omega) (by omega)
      have hkey : r.height.toInt = c.getHeight.toInt + 1 := by rw [hk, hnext]
      rw [List.mem_append, List.mem_singleton] at hr
      rcases hr with hr | rfl
      · have := height_le hr
        omega
      · exact hne hkey
    · intro hjump k h0 hle
      have hsucc : b.height.toInt = c.getHeight.toInt + 1 := by
        by_contra hne
        exact hjump ⟨ha, hne⟩
      by_cases hk : k.toInt ≤ c.getHeight.toInt
      · obtain ⟨r, hr, hrk⟩ := gapFree_iff.mp h k h0 hk
        exact ⟨r, List.mem_append_left _ hr, hrk⟩
      · exact ⟨b.row, by simp, Int32.toInt_inj.mp (show b.height.toInt = k.toInt by omega)⟩
  · rw [addBlock_of_not_appends ha]
    exact iff_of_true h fun hj => ha hj.1

theorem gapFree_replaceLastBlock {now : Int64} (hvalued : b.difficulty.isNaN = false) (h : c.GapFree env) :
    (c.replaceLastBlock env b now).2.GapFree env := by
  by_cases hc : c.Competes b
  · by_cases hf : c.FreshBelow b
    · refine gapFree_iff.mpr fun k h0 hle => ?_
      rw [getHeight_of_fresh hc hf] at hle
      rw [(replaceLastBlock_of_fresh hc hf).2]
      obtain ⟨r, hr, hk⟩ := gapFree_iff.mp h k h0 hle
      by_cases htip : k = c.getHeight
      · exact ⟨b.row, by simp, hc.height.trans htip.symm⟩
      · exact ⟨r, List.mem_append_left _ (mem_below.mpr ⟨hr, fun heq => htip (hk.symm.trans heq)⟩), hk⟩
    · have hleft : c.below ≠ [] := below_ne_nil hc hf (not_empties_of_valued now hvalued)
      have hlow : (c.replaceLastBlock env b now).2.getHeight.toInt < c.getHeight.toInt :=
        getHeight_of_not_fresh hc hf hleft
      refine gapFree_iff.mpr fun k h0 hle => ?_
      obtain ⟨r, hr, hk⟩ := gapFree_iff.mp h k h0 (by omega)
      rw [replaceLastBlock_of_not_fresh hc hf]
      refine ⟨r, mem_below.mpr ⟨hr, fun heq => ?_⟩, hk⟩
      rw [← hk, heq] at hle
      omega
  · rw [replaceLastBlock_of_not_competes hc]
    exact h

end Blockchain

namespace Node

theorem gapFree_step_iff (env : Env) (n : Node) (e : Event) (hc : n.blockchain.Chained)
    (hfree : n.blockchain.GapFree env) :
    (n.step env e).blockchain.GapFree env ↔ ∀ x ∈ calls (n.react env e).2, ¬x.1.Jumps x.2 := by
  refine step_iff_calls env n e hc hfree gapFree_congr (fun c b => gapFree_of_addBlock) gapFree_addBlock_iff
    fun {c b now} hvalued h => ?_
  exact iff_of_true (gapFree_replaceLastBlock hvalued h) id

/-- In a run of a node the chain is free of gaps in every state exactly when no block that is handed to
    `addBlock`, and accepted, stands more than one above the height at that moment. -/
theorem no_height_gaps_iff (env : Env) (nodeId : String) (now : Int64) (events : List Event) :
    (∀ n ∈ Transition.states (step env) (start nodeId now) events, n.blockchain.GapFree env) ↔
      ∀ x ∈ Transition.steps (step env) (start nodeId now) events,
        ∀ k ∈ calls (x.1.react env x.2).2, ¬k.1.Jumps k.2 :=
  Transition.forall_states_iff (I := fun (n : Node) _ => n.blockchain.Chained) (fun n e _ => step_chained env n e)
    (fun n e _ => gapFree_step_iff env n e) (chained_genesis now) (gapFree_genesis now)

end Node

end

namespace Node

attribute [local instance] Arithmetic.binary64

/-- A response with one header at height 5 that names the genesis hash is taken. -/
theorem gap_after_blocks_response :
    ¬∀ n ∈ Transition.states (step headerEnv) (start "node" 0)
        [.message 0
          { type := .blocksResponse
            senderId := "peer"
            timestamp := 0
            payload := .arr [.obj (plainBlock 5 "a5" zeroHash).headerMembers] }],
      n.blockchain.GapFree headerEnv := by
  intro h
  have hgap := h _ (List.mem_cons_of_mem _ List.mem_cons_self) 1
  revert hgap
  decide +kernel

end Node

end NexusLedger
