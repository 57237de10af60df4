import NexusLedger.Theorems.Finality

/-! The `int` arithmetic on the chain height, and the loop over heights that answers GET_BLOCKS. -/

namespace NexusLedger
open Blockchain

section
set_option linter.unusedSectionVars false
variable [Arithmetic]

/-! ### The loop of GET_BLOCKS -/

namespace Node
variable {current h : Int32}

/-- `for (int h = from; h <= current_height; ++h)` for at most `fuel` tests of its condition: the heights it
    visits. Overflow of the counter is undefined in the source and wraps here. -/
def heightLoop (current : Int32) : Nat → Int32 → Option (List Int32)
  | 0, _ => none
  | fuel + 1, h => if h ≤ current then (heightLoop current fuel (h + 1)).map (h :: ·) else some []

theorem toInt_succ_iff (h : Int32) : (h + 1).toInt = h.toInt + 1 ↔ h ≠ Int32.maxValue := by
  constructor
  · rintro heq rfl
    revert heq
    decide
  · intro hne
    have hlt := h.toInt_lt
    have hmax : Int32.maxValue.toInt = 2147483647 := by decide
    refine toInt_succ (k := Int32.maxValue) (lt_of_le_of_ne ?_ fun heq => hne (Int32.toInt_inj.mp heq))
    omega

theorem ne_maxValue_of_le (hne : current ≠ Int32.maxValue) (hle : h.toInt ≤ current.toInt) : h ≠ Int32.maxValue := by
  rintro rfl
  have hmax : Int32.maxValue.toInt = 2147483647 := by decide
  have hlt := current.toInt_lt
  exact hne (Int32.toInt_inj.mp (by omega))

/-- Below the largest `int` the loop visits the heights from the first one to the current one. -/
theorem heightsFrom_eq (hne : current ≠ Int32.maxValue) (h : Int32) :
    heightsFrom h current =
      some ((List.range (current.toInt - h.toInt + 1).toNat).map fun i : Nat => Int32.ofInt (h.toInt + i)) := by
  unfold heightsFrom
  split
  · rename_i hlt
    rw [Int32.lt_iff_toInt_lt] at hlt
    have hnone : (current.toInt - h.toInt + 1).toNat = 0 := by omega
    rw [hnone]
    rfl
  · rfl

theorem heightsFrom_succ (hne : current ≠ Int32.maxValue) (hle : h ≤ current) :
    heightsFrom h current = (heightsFrom (h + 1) current).map (h :: ·) := by
  rw [Int32.le_iff_toInt_le] at hle
  have hsucc : (h + 1).toInt = h.toInt + 1 := (toInt_succ_iff h).mpr (ne_maxValue_of_le hne hle)
  have hcount : (current.toInt - h.toInt + 1).toNat = (current.toInt - (h.toInt + 1) + 1).toNat + 1 := by omega
  rw [heightsFrom_eq hne, heightsFrom_eq hne, hsucc, hcount, List.range_succ_eq_map, List.map_cons, List.map_map,
    Option.map_some]
  congr 2
  · simp
  · refine List.map_congr_left fun i _ => ?_
    simp [add_assoc, add_comm (1 : ℤ)]

/-- With a test for each height and one more the loop has ended. -/
theorem heightLoop_eq (hne : current ≠ Int32.maxValue) :
    ∀ (rounds : Nat) (h : Int32), current.toInt < h.toInt + rounds →
      heightLoop current (rounds + 1) h = heightsFrom h current
  | 0, h, hlt => by
    have hlow : current < h := Int32.lt_iff_toInt_lt.mpr (by omega)
    have hend : ¬h ≤ current := by
      rw [Int32.le_iff_toInt_le]
      omega
    rw [heightLoop, if_neg hend, heightsFrom, if_pos hlow]
  | rounds + 1, h, hlt => by
    rw [heightLoop]
    split
    · rename_i hle
      rw [heightsFrom_succ hne hle, heightLoop_eq hne rounds (h + 1)]
      rw [Int32.le_iff_toInt_le] at hle
      have hsucc : (h + 1).toInt = h.toInt + 1 := (toInt_succ_iff h).mpr (ne_maxValue_of_le hne hle)
      omega
    · rename_i hend
      have hlow : current < h := by
        rw [Int32.le_iff_toInt_le] at hend
        exact Int32.lt_iff_toInt_lt.mpr (by omega)
      rw [heightsFrom, if_pos hlow]

/-- No `int` is above the largest one. -/
theorem heightLoop_maxValue : ∀ (fuel : Nat) (h : Int32), heightLoop Int32.maxValue fuel h = none
  | 0, _ => rfl
  | fuel + 1, h => by
    have hle : h ≤ Int32.maxValue := by
      rw [Int32.le_iff_toInt_le]
      have hmax : Int32.maxValue.toInt = 2147483647 := by decide
      have := h.toInt_lt
      omega
    rw [heightLoop, if_pos hle, heightLoop_maxValue fuel, Option.map_none]

theorem le_of_mem_heightsFrom {heights : List Int32} (hne : current ≠ Int32.maxValue)
    (hrun : heightsFrom h current = some heights) : ∀ x ∈ heights, x.toInt ≤ current.toInt := by
  rw [heightsFrom_eq hne] at hrun
  cases hrun
  intro x hx
  obtain ⟨i, hi, rfl⟩ := List.mem_map.mp hx
  have hi := List.mem_range.mp hi
  have := current.toInt_lt
  have := h.le_toInt
  rw [Int32.toInt_ofInt_of_le (by omega) (by omega)]
  omega

end Node

/-! ### Heights at the largest int -/

namespace Blockchain
variable {env : Env} {c d : Blockchain} {b : Block}

/-- One more than the height is computed without overflow, and the loop of GET_BLOCKS ends from every requested
    height, its counter without overflow. -/
structure SafeHeight (c : Blockchain) : Prop where
  next : (c.getHeight + 1).toInt = c.getHeight.toInt + 1
  loop : ∀ fromHeight, ∃ fuel heights, Node.heightLoop c.getHeight fuel fromHeight = some heights ∧
    ∀ h ∈ heights, (h + 1).toInt = h.toInt + 1

theorem safeHeight_iff : c.SafeHeight ↔ c.getHeight ≠ Int32.maxValue := by
  constructor
  · exact fun h => (Node.toInt_succ_iff _).mp h.next
  · intro hne
    refine ⟨(Node.toInt_succ_iff _).mpr hne, fun fromHeight => ?_⟩
    have hend : Node.heightLoop c.getHeight ((c.getHeight.toInt - fromHeight.toInt + 1).toNat + 1) fromHeight =
        Node.heightsFrom fromHeight c.getHeight := Node.heightLoop_eq hne _ _ (by omega)
    refine ⟨_, _, hend.trans (Node.heightsFrom_eq hne _), fun h hh => (Node.toInt_succ_iff h).mpr ?_⟩
    exact Node.ne_maxValue_of_le hne (Node.le_of_mem_heightsFrom hne (Node.heightsFrom_eq hne fromHeight) h hh)

/-- No stored block has the largest height. -/
theorem safeHeight_iff_rows : c.SafeHeight ↔ ∀ r ∈ c.rows, r.height ≠ Int32.maxValue := by
  rw [safeHeight_iff]
  constructor
  · exact fun hne r hr => Node.ne_maxValue_of_le hne (height_le hr)
  · intro hrows heq
    by_cases hnil : c.rows = []
    · rw [getHeight_of_nil hnil] at heq
      revert heq
      decide
    · obtain ⟨tip, htip⟩ := exists_tip hnil
      obtain ⟨hm, hh⟩ := tip_eq_some_iff.mp htip
      exact hrows tip hm (hh.trans heq)

theorem safeHeight_congr (h : d.rows = c.rows) : d.SafeHeight ↔ c.SafeHeight := by
  rw [safeHeight_iff_rows, safeHeight_iff_rows, h]

/-- A call that stores a block at the largest height. -/
def Tops (c : Blockchain) (k : Call) : Prop := c.Fits k ∧ k.block.height = Int32.maxValue

theorem safeHeight_of_addBlock (h : (c.addBlock b).2.SafeHeight) : c.SafeHeight := by
  by_cases ha : c.Appends b
  · rw [safeHeight_iff_rows, (addBlock_of_appends ha).2.1] at h
    exact safeHeight_iff_rows.mpr fun r hr => h r (List.mem_append_left _ hr)
  · rw [addBlock_of_not_appends ha] at h
    exact h

theorem safeHeight_addBlock_iff (h : c.SafeHeight) : (c.addBlock b).2.SafeHeight ↔ ¬c.Tops (.addBlock b) := by
  by_cases ha : c.Appends b
  · rw [safeHeight_iff, getHeight_of_appends ha]
    exact ⟨fun hne htops => hne htops.2, fun htops heq => htops ⟨ha, heq⟩⟩
  · rw [addBlock_of_not_appends ha]
    exact iff_of_true h fun htops => ha htops.1

/-- A block that takes the place of the tip has its height. -/
theorem safeHeight_replaceLastBlock_iff {now : Int64} (h : c.SafeHeight) :
    (c.replaceLastBlock env b now).2.SafeHeight ↔ ¬c.Tops (.replaceLastBlock b now) := by
  refine iff_of_true (safeHeight_iff_rows.mpr fun r hr => ?_) fun htops => ?_
  · rcases mem_rows_exec (k := .replaceLastBlock b now) hr with hold | ⟨hfits, rfl⟩
    · exact safeHeight_iff_rows.mp h r hold
    · show b.height ≠ Int32.maxValue
      rw [hfits.1.height]
      exact safeHeight_iff.mp h
  · exact safeHeight_iff.mp h (htops.1.1.height.symm.trans htops.2)

end Blockchain

namespace Node

theorem safeHeight_step_iff (env : Env) (n : Node) (e : Event) (hc : n.blockchain.Chained)
    (h : n.blockchain.SafeHeight) :
    (n.step env e).blockchain.SafeHeight ↔ ∀ x ∈ calls (n.react env e).2, ¬x.1.Tops x.2 :=
  step_iff_calls env n e hc h safeHeight_congr (fun _ _ => safeHeight_of_addBlock) (fun _ => safeHeight_addBlock_iff)
    fun _ => safeHeight_replaceLastBlock_iff

/-- In a run of a node the arithmetic on the height is safe in every state exactly when no accepted block has the
    largest height. -/
theorem safe_heights_iff (env : Env) (nodeId : String) (now : Int64) (events : List Event) :
    (∀ n ∈ Transition.states (step env) (start nodeId now) events, n.blockchain.SafeHeight) ↔
      ∀ x ∈ Transition.steps (step env) (start nodeId now) events,
        ∀ k ∈ calls (x.1.react env x.2).2, ¬k.1.Tops k.2 := by
  have hstart : (start nodeId now).blockchain.SafeHeight := safeHeight_iff.mpr (show (0 : Int32) ≠ _ by decide)
  exact Transition.forall_states_iff (I := fun (n : Node) _ => n.blockchain.Chained)
    (fun n e _ => step_chained env n e) (fun n e _ => safeHeight_step_iff env n e) (chained_genesis now) hstart

end Node

end

namespace Node

attribute [local instance] Arithmetic.binary64

/-- A response with one header at the largest height that names the genesis hash is taken. -/
theorem largest_height_after_blocks_response :
    ¬∀ n ∈ Transition.states (step headerEnv) (start "node" 0)
        [.message 0
          { type := .blocksResponse
            senderId := "peer"
            timestamp := 0
            payload := .arr [.obj (plainBlock Int32.maxValue "a1" zeroHash).headerMembers] }],
      n.blockchain.SafeHeight := by
  intro h
  have hsafe := safeHeight_iff.mp (h _ (List.mem_cons_of_mem _ List.mem_cons_self))
  revert hsafe
  decide +kernel

end Node

end NexusLedger
