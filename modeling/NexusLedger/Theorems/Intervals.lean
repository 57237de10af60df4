import NexusLedger.Theorems.Retarget
import NexusLedger.Theorems.Staleness

/-! How long a difficulty lasts on a chain that is built with `createBlock`, `mine` and `addBlock`. The window of
    `getCurrentDifficulty` moves with the tip, so that every block from height 11 on can change it. -/

namespace NexusLedger
open Blockchain LedgerDB

section
set_option linter.unusedSectionVars false
variable [Arithmetic]

/-! ### Building a chain -/

/-- A chain, and the blocks that were created for it so far. -/
structure Workshop where
  chain : Blockchain
  blocks : List Block

/-- The calls that build a chain, in any order and on any of the blocks. -/
inductive Work
  | addTransaction (tx : Transaction) (now : Int64)
  | createBlock (miner : String) (now : Int64)
  | mine (i : Nat) (maxNonce : Int32)
  | addBlock (i : Nat)

/-- The block that `mine` leaves. It is unchanged where there is no target: nothing is written before the throw. -/
def Block.mined (env : Env) (b : Block) (maxNonce : Int32) : Block :=
  match b.mine env maxNonce with
  | some (_, left) => left
  | none => b

namespace Workshop

def opened (now : Int64) : Workshop where
  chain := genesis now
  blocks := []

def work (env : Env) (w : Workshop) : Work → Workshop
  | .addTransaction tx now => { w with chain := (w.chain.addTransaction env tx now).2 }
  | .createBlock miner now =>
    let (block, chain) := w.chain.createBlock env miner now
    { chain, blocks := w.blocks ++ [block] }
  | .mine i maxNonce => { w with blocks := w.blocks.modify i fun b => b.mined env maxNonce }
  | .addBlock i =>
    match w.blocks[i]? with
    | some b => { w with chain := (w.chain.addBlock b).2 }
    | none => w

end Workshop

/-! ### The difficulties on such a chain -/

/-- What `getCurrentDifficulty` returns on the tip at a height of a chain without gaps. -/
def demanded (rows : List BlockRow) (height : Nat) : ℤ :=
  if height < 10 then 4
  else
    match rows[height - 9]?, rows[height]? with
    | some first, some last =>
      (retarget (last.timestamp - first.timestamp).toInt (Int32.ofInt last.difficulty.val.toInteger)).toInt
    | _, _ => 2

theorem demanded_append {rows : List BlockRow} {height : Nat} (h : height < rows.length) (r : BlockRow) :
    demanded (rows ++ [r]) height = demanded rows height := by
  unfold demanded
  rw [List.getElem?_append_left h, List.getElem?_append_left (by omega)]

theorem demanded_bounds (rows : List BlockRow) (height : Nat) :
    1 ≤ demanded rows height ∧ demanded rows height ≤ 6 := by
  unfold demanded
  split
  · decide
  · split
    · exact retarget_bounds _ _
    · decide

/-- The heights have no gap, and each block has the difficulty that the blocks before it demand. -/
structure Grown (rows : List BlockRow) : Prop where
  ne_nil : rows ≠ []
  height : ∀ (i : Nat) (r : BlockRow), rows[i]? = some r → r.height.toInt = i
  difficulty : ∀ (i : Nat) (r : BlockRow), rows[i + 1]? = some r → r.difficulty.val = .number (demanded rows i : ℚ)

namespace Grown
variable {rows : List BlockRow} {r : BlockRow} {env : Env} {c : Blockchain}

theorem getElem?_iff (h : Grown rows) {i : Nat} : rows[i]? = some r ↔ r ∈ rows ∧ r.height.toInt = i := by
  constructor
  · exact fun hi => ⟨List.mem_of_getElem? hi, h.height i r hi⟩
  · rintro ⟨hmem, hi⟩
    obtain ⟨j, hj⟩ := List.getElem?_of_mem hmem
    have heq : j = i := by
      have := h.height j r hj
      omega
    exact heq ▸ hj

theorem append (h : Grown rows) (hheight : r.height.toInt = rows.length)
    (hdifficulty : r.difficulty.val = .number (demanded rows (rows.length - 1) : ℚ)) : Grown (rows ++ [r]) := by
  have hpos := List.length_pos_iff.mpr h.ne_nil
  refine ⟨List.append_ne_nil_of_left_ne_nil h.ne_nil _, fun i x hx => ?_, fun i x hx => ?_⟩
  · rcases Table.getElem?_concat_iff.mp hx with hold | ⟨rfl, rfl⟩
    · exact h.height i x hold
    · exact hheight
  · rcases Table.getElem?_concat_iff.mp hx with hold | ⟨hi, rfl⟩
    · have hlow := (List.getElem?_eq_some_iff.mp hold).1
      rw [demanded_append (by omega), h.difficulty i x hold]
    · rw [demanded_append (by omega), hdifficulty, ← hi, Nat.add_sub_cancel]

/-- The last row is the tip. -/
theorem tip_eq (h : Grown c.rows) : c.tip = c.rows[c.rows.length - 1]? := by
  have hpos := List.length_pos_iff.mpr h.ne_nil
  have hlast : c.rows[c.rows.length - 1]? = some (c.rows[c.rows.length - 1]) := List.getElem?_eq_getElem (by omega)
  rw [hlast]
  refine tip_of_max (List.mem_of_getElem? hlast) fun x hx => ?_
  obtain ⟨i, hi⟩ := List.getElem?_of_mem hx
  have hlow := (List.getElem?_eq_some_iff.mp hi).1
  rw [h.height i x hi, h.height _ _ hlast]
  omega

theorem getHeight_eq (h : Grown c.rows) : c.getHeight.toInt = (c.rows.length - 1 : Nat) := by
  obtain ⟨tip, htip⟩ := exists_tip h.ne_nil
  rw [← (tip_eq_some_iff.mp htip).2]
  exact h.height _ _ (h.tip_eq ▸ htip)

/-- The rows at two heights that are nine apart. -/
theorem window_iff (h : Grown c.rows) {first last : BlockRow} : c.Window first last ↔
    10 ≤ c.rows.length - 1 ∧ c.rows[c.rows.length - 1 - 9]? = some first ∧ c.rows[c.rows.length - 1]? = some last := by
  constructor
  · intro hw
    have hlast : c.rows[c.rows.length - 1]? = some last := h.tip_eq ▸ hw.tip
    have hheight := h.height _ _ hlast
    have hlong := hw.long
    have hnine := hw.nine
    exact ⟨by omega, h.getElem?_iff.mpr ⟨hw.start, by omega⟩, hlast⟩
  · rintro ⟨hlong, hfirst, hlast⟩
    have hheight := h.height _ _ hlast
    have hstart := h.height _ _ hfirst
    exact ⟨List.mem_of_getElem? hfirst, h.tip_eq ▸ hlast, by omega, by omega⟩

theorem getCurrentDifficulty_eq (h : Grown c.rows) (env : Env) :
    (c.getCurrentDifficulty env).toInt = demanded c.rows (c.rows.length - 1) := by
  have hheight := h.getHeight_eq
  have hinterval : difficultyAdjustmentInterval.toInt = 10 := by decide
  unfold demanded
  split
  · rename_i hlow
    have hshort : c.getHeight < difficultyAdjustmentInterval := by
      rw [Int32.lt_iff_toInt_lt]
      omega
    unfold getCurrentDifficulty
    simp only [if_pos hshort]
    rfl
  · rename_i hlong
    have hfirst : c.rows[c.rows.length - 1 - 9]? = some (c.rows[c.rows.length - 1 - 9]) :=
      List.getElem?_eq_getElem (by omega)
    have hlast : c.rows[c.rows.length - 1]? = some (c.rows[c.rows.length - 1]) := List.getElem?_eq_getElem (by omega)
    have hthere := h.window_iff.mpr ⟨by omega, hfirst, hlast⟩
    rcases difficulty_cases env c with ⟨first, last, hw, -, hcurrent⟩ | ⟨hnone, -⟩
    · obtain ⟨-, hfirst', hlast'⟩ := h.window_iff.mp hw
      rw [hfirst', hlast', hcurrent]
    · exact absurd hthere (hnone _ _)

end Grown

/-! ### What the calls keep -/

theorem Block.mined_kept (env : Env) (b : Block) (maxNonce : Int32) :
    (b.mined env maxNonce).height = b.height ∧ (b.mined env maxNonce).difficulty = b.difficulty := by
  unfold Block.mined Block.mine
  cases targetLength env b.difficulty with
  | none => exact ⟨rfl, rfl⟩
  | some zeros =>
    simp only [Option.map_some]
    split
    · rename_i hmined
      obtain ⟨nonce, rfl, -⟩ := Block.search_eq_some hmined
      exact ⟨rfl, rfl⟩
    · split
      · exact ⟨rfl, rfl⟩
      · exact ⟨rfl, rfl⟩

/-- The block has the difficulty that a block of the chain demands of its successor, and is not above that one. -/
def Fitted (rows : List BlockRow) (b : Block) : Prop :=
  ∃ height < rows.length, b.height.toInt ≤ height + 1 ∧ b.difficulty = .number (demanded rows height : ℚ)

namespace Workshop
variable {env : Env} {w : Workshop}

structure Ready (w : Workshop) : Prop where
  chained : w.chain.Chained
  grown : Grown w.chain.rows
  blocks : ∀ b ∈ w.blocks, Fitted w.chain.rows b

theorem ready_opened (now : Int64) : (opened now).Ready where
  chained := chained_genesis now
  grown :=
    { ne_nil := List.cons_ne_nil _ _
      height := by
        intro i r hr
        obtain ⟨rfl, rfl⟩ : i = 0 ∧ genesisRow now = r := by
          have hlow : i < 1 := (List.getElem?_eq_some_iff.mp hr).1
          have hzero : i = 0 := by omega
          subst hzero
          exact ⟨rfl, Option.some.inj hr⟩
        rfl
      difficulty := fun i r hr => nomatch hr }
  blocks b hb := absurd hb List.not_mem_nil

/-- A change that leaves the block rows alone. -/
theorem Ready.congr {chain : Blockchain} {blocks : List Block} (h : w.Ready) (hrows : chain.rows = w.chain.rows)
    (hblocks : ∀ b ∈ blocks, Fitted w.chain.rows b) : ({ chain, blocks } : Workshop).Ready where
  chained := h.chained.congr hrows
  grown := hrows ▸ h.grown
  blocks := hrows ▸ hblocks

theorem Ready.fitted_createBlock (h : w.Ready) (env : Env) (miner : String) (now : Int64) :
    Fitted w.chain.rows (w.chain.createBlock env miner now).1 := by
  have hpos := List.length_pos_iff.mpr h.grown.ne_nil
  obtain ⟨tip, htip⟩ := exists_tip h.grown.ne_nil
  refine ⟨w.chain.rows.length - 1, by omega, ?_, ?_⟩
  · rw [(createBlock_place env h.chained htip miner now).1, ← h.grown.getHeight_eq]
    exact toInt_succ_le _
  · rw [← h.grown.getCurrentDifficulty_eq env]
    rfl

/-- A block that is taken is the successor of the tip, whenever it was created. -/
theorem Ready.addBlock (env : Env) (h : w.Ready) {b : Block} (hb : Fitted w.chain.rows b) :
    ({ w with chain := (w.chain.addBlock b).2 } : Workshop).Ready := by
  by_cases ha : w.chain.Appends b
  · have hrows : (w.chain.addBlock b).2.rows = w.chain.rows ++ [b.row] := (addBlock_of_appends ha).2.1
    have habove := ha.above
    obtain ⟨height, hlow, hheight, hdifficulty⟩ := hb
    rw [h.grown.getHeight_eq] at habove
    have htop : height = w.chain.rows.length - 1 := by omega
    have hchained : (w.chain.exec env (.addBlock b)).2.Chained := h.chained.exec id
    refine ⟨hchained, ?_, fun x hx => ?_⟩
    · show Grown (w.chain.addBlock b).2.rows
      rw [hrows]
      refine h.grown.append ?_ ?_
      · show b.height.toInt = _
        omega
      · show b.difficulty.stored = _
        rw [hdifficulty, ← htop]
        rfl
    · obtain ⟨height', hlow', hheight', hdifficulty'⟩ := h.blocks x hx
      show Fitted (w.chain.addBlock b).2.rows x
      rw [hrows]
      refine ⟨height', ?_, hheight', ?_⟩
      · rw [List.length_append]
        omega
      · rw [demanded_append hlow', hdifficulty']
  · rw [addBlock_of_not_appends ha]
    exact h

theorem ready_work (env : Env) (w : Workshop) (x : Work) (h : w.Ready) : (w.work env x).Ready := by
  cases x with
  | addTransaction tx now => exact h.congr (by simp [rows]) h.blocks
  | createBlock miner now =>
    have hrows : (w.chain.createBlock env miner now).2.rows = w.chain.rows := by simp [rows]
    refine h.congr hrows fun b hb => ?_
    rcases List.mem_append.mp hb with hold | hnew
    · exact h.blocks b hold
    · rw [List.mem_singleton.mp hnew]
      exact h.fitted_createBlock env miner now
  | mine i maxNonce =>
    refine h.congr rfl fun b hb => ?_
    obtain ⟨j, hj⟩ := List.getElem?_of_mem hb
    rw [List.getElem?_modify] at hj
    obtain ⟨old, hold, heq⟩ := Option.map_eq_some_iff.mp hj
    obtain ⟨height, hlow, hheight, hdifficulty⟩ := h.blocks old (List.mem_of_getElem? hold)
    split at heq
    · rw [← heq]
      obtain ⟨hkept, hkept'⟩ := Block.mined_kept env old maxNonce
      exact ⟨height, hlow, by rw [hkept]; exact hheight, by rw [hkept']; exact hdifficulty⟩
    · rw [← heq]
      exact ⟨height, hlow, hheight, hdifficulty⟩
  | addBlock i =>
    unfold work
    simp only
    split
    · rename_i b hb
      exact h.addBlock env (h.blocks b (List.mem_of_getElem? hb))
    · exact h

end Workshop

/-! ### Intervals -/

/-- The blocks of an interval, from the second one on, have one difficulty. -/
def OncePerInterval (rows : List BlockRow) : Prop :=
  ∀ k : ℤ, 1 ≤ k → ∀ a ∈ rows, ∀ b ∈ rows, 10 * k < a.height.toInt → a.height.toInt ≤ 10 * k + 10 →
    10 * k < b.height.toInt → b.height.toInt ≤ 10 * k + 10 → a.difficulty = b.difficulty

/-- The window took about the time it is to take, or the difficulty is at the bound that it would pass. -/
def Steady (timeSpan : ℤ) (difficulty : Double) : Prop :=
  (450 ≤ timeSpan ∧ timeSpan ≤ 750) ∨ (timeSpan < 450 ∧ difficulty = 6) ∨ (750 < timeSpan ∧ difficulty = 1)

/-- Each window that ends inside an interval, with a block on top of it, is steady. -/
def SteadyInside (rows : List BlockRow) : Prop :=
  ∀ first ∈ rows, ∀ last ∈ rows, ∀ next ∈ rows, 11 ≤ last.height.toInt → last.height.toInt % 10 ≠ 0 →
    first.height.toInt = last.height.toInt - 9 → next.height.toInt = last.height.toInt + 1 →
    Steady (last.timestamp - first.timestamp).toInt last.difficulty.val

theorem adjusted_eq_self_iff {timeSpan d : ℤ} (hlow : 1 ≤ d) (hhigh : d ≤ 6) :
    adjusted timeSpan d = d ↔ Steady timeSpan (.number (d : ℚ)) := by
  have hhalf : d.tdiv 2 = d / 2 := Int.tdiv_eq_ediv_of_nonneg (by omega)
  have hsix : Double.number ((d : ℤ) : ℚ) = 6 ↔ d = 6 := by
    rw [Double.ofNat_eq, Double.number.injEq]
    exact_mod_cast Iff.rfl
  have hone : Double.number ((d : ℤ) : ℚ) = 1 ↔ d = 1 := by
    show Double.number ((d : ℤ) : ℚ) = .number ((1 : Nat) : ℚ) ↔ d = 1
    rw [Double.number.injEq]
    exact_mod_cast Iff.rfl
  simp only [adjusted, Steady, hsix, hone, hhalf]
  split
  · omega
  · split
    · omega
    · omega

namespace Grown
variable {rows : List BlockRow} {first last next : BlockRow}

/-- A difficulty is kept over a steady window, and over no other. -/
theorem difficulty_eq_iff (h : Grown rows) (hfirst : first ∈ rows) (hlast : last ∈ rows) (hnext : next ∈ rows)
    (hlong : 10 ≤ last.height.toInt) (hnine : first.height.toInt = last.height.toInt - 9)
    (hsucc : next.height.toInt = last.height.toInt + 1) :
    next.difficulty = last.difficulty ↔ Steady (last.timestamp - first.timestamp).toInt last.difficulty.val := by
  obtain ⟨i, hi⟩ : ∃ i : Nat, last.height.toInt = (i : ℤ) + 1 := ⟨(last.height.toInt - 1).toNat, by omega⟩
  have hfirst' : rows[i + 1 - 9]? = some first := h.getElem?_iff.mpr ⟨hfirst, by omega⟩
  have hlast' : rows[i + 1]? = some last := h.getElem?_iff.mpr ⟨hlast, by omega⟩
  have hnext' : rows[i + 1 + 1]? = some next := h.getElem?_iff.mpr ⟨hnext, by omega⟩
  obtain ⟨hlow, hhigh⟩ := demanded_bounds rows i
  have hdifficulty := h.difficulty i last hlast'
  have hexact : (Int32.ofInt last.difficulty.val.toInteger).toInt = demanded rows i := by
    rw [hdifficulty, Node.toInteger_intCast]
    exact Int32.toInt_ofInt_of_le (by omega) (by omega)
  have hstep : demanded rows (i + 1) = adjusted (last.timestamp - first.timestamp).toInt (demanded rows i) := by
    have hlarge : ¬i + 1 < 10 := by omega
    rw [demanded, if_neg hlarge, hfirst', hlast']
    show (retarget _ _).toInt = _
    rw [toInt_retarget_of_moderate, hexact]
    rw [hexact]
    exact ⟨by omega, by omega⟩
  have hval : next.difficulty = last.difficulty ↔ next.difficulty.val = last.difficulty.val :=
    ⟨congrArg Subtype.val, SqlReal.ext⟩
  rw [hval, h.difficulty (i + 1) next hnext', hstep, hdifficulty, Double.number.injEq, Int.cast_inj]
  exact adjusted_eq_self_iff hlow hhigh

/-- No height below that of a row is missing. -/
theorem exists_below (h : Grown rows) (hlast : last ∈ rows) {m : ℤ} (hlow : 0 ≤ m) (hhigh : m ≤ last.height.toInt) :
    ∃ r ∈ rows, r.height.toInt = m := by
  obtain ⟨i, hi⟩ := List.getElem?_of_mem hlast
  have hheight := h.height i last hi
  have hlength := (List.getElem?_eq_some_iff.mp hi).1
  obtain ⟨r, hr⟩ : ∃ r, rows[m.toNat]? = some r := ⟨_, List.getElem?_eq_getElem (by omega)⟩
  have hrHeight := h.height _ r hr
  exact ⟨r, List.mem_of_getElem? hr, by omega⟩

theorem eq_of_height (h : Grown rows) (hfirst : first ∈ rows) (hlast : last ∈ rows)
    (heq : first.height.toInt = last.height.toInt) : first = last := by
  obtain ⟨i, hi⟩ := List.getElem?_of_mem hfirst
  have hi' : rows[i]? = some last := h.getElem?_iff.mpr ⟨hlast, heq ▸ h.height i first hi⟩
  exact Option.some.inj (hi.symm.trans hi')

/-- Upwards from the first block of an interval. -/
theorem difficulty_eq_base (h : Grown rows) (hsteady : SteadyInside rows) {k : ℤ} (hk : 1 ≤ k) {base : BlockRow}
    (hbase : base ∈ rows) (hstart : base.height.toInt = 10 * k + 1) {m : Nat} (hm : m < 10) {top : BlockRow}
    (htop : top ∈ rows) (hheight : top.height.toInt = 10 * k + 1 + m) : top.difficulty = base.difficulty := by
  induction m generalizing top with
  | zero => rw [h.eq_of_height htop hbase (by omega)]
  | succ m ih =>
    obtain ⟨last, hlast, hlastHeight⟩ := h.exists_below htop (m := top.height.toInt - 1) (by omega) (by omega)
    obtain ⟨first, hfirst, hfirstHeight⟩ := h.exists_below htop (m := top.height.toInt - 10) (by omega) (by omega)
    rw [← ih (by omega) hlast (by omega)]
    refine (h.difficulty_eq_iff hfirst hlast htop (by omega) (by omega) (by omega)).mpr ?_
    exact hsteady first hfirst last hlast top htop (by omega) (by omega) (by omega) (by omega)

/-- Within an interval a difficulty lasts exactly if all of its windows are steady. -/
theorem oncePerInterval_iff (h : Grown rows) : OncePerInterval rows ↔ SteadyInside rows := by
  constructor
  · intro honce first hfirst last hlast next hnext hlong hinside hnine hsucc
    refine (h.difficulty_eq_iff hfirst hlast hnext (by omega) hnine hsucc).mp ?_
    exact honce (last.height.toInt / 10) (by omega) next hnext last hlast (by omega) (by omega) (by omega) (by omega)
  · intro hsteady k hk a ha b hb halow hahigh hblow hbhigh
    obtain ⟨base, hbase, hstart⟩ := h.exists_below ha (m := 10 * k + 1) (by omega) (by omega)
    have hsame (x : BlockRow) (hx : x ∈ rows) (hxlow : 10 * k < x.height.toInt)
        (hxhigh : x.height.toInt ≤ 10 * k + 10) : x.difficulty = base.difficulty :=
      h.difficulty_eq_base hsteady hk hbase hstart (m := (x.height.toInt - (10 * k + 1)).toNat) (by omega) hx (by omega)
    rw [hsame a ha halow hahigh, hsame b hb hblow hbhigh]

end Grown

namespace Workshop

/-- On every chain that the calls build, the blocks of each interval from the second one on have one difficulty exactly
    when every window that ends inside such an interval, below another block, is steady. -/
theorem retargeted_once_iff (env : Env) (now : Int64) (works : List Work) :
    OncePerInterval (works.foldl (work env) (opened now)).chain.rows ↔
      SteadyInside (works.foldl (work env) (opened now)).chain.rows := by
  have hready : (works.foldl (work env) (opened now)).Ready :=
    Transition.invariant (ready_work env) (ready_opened now) _ (Transition.foldl_mem_states _ _ _)
  exact hready.grown.oncePerInterval_iff

end Workshop

end

namespace Workshop

attribute [local instance] Arithmetic.binary64

/-- Twelve blocks, a minute or more apart: the time, the difficulty, the hash of the coinbase and that of the block. -/
def slowBlocks : List (Nat × Nat × String × String) :=
  [
    (1700165498, 4, "c97d5de25bce39753768089f765e81c86b90c34fa253f5c914f96c084766bc12",
      "0000266cb994549efff881f5fbbb4494cb4466c6c6ebc93f7b10dae705aa311a"),
    (1700183272, 4, "2694fe3bd98632b27cbc59aba61b14747e9e0de5c607a473a8eeec6e6b627270",
      "000016d9f5fb8278f82beffd21a9bf0c58133399800167f69ef4aa8844e1b478"),
    (1700221753, 4, "c4fd547d96d1a134cc4c558fd36f9659c2e67c729f7e233d20284467eaf6d2de",
      "0000e819d285ac44fde897a4d711ef8b48d6ee630685274db036d7bc1d0f0575"),
    (1700339054, 4, "198e7cef5db05203109f3f0b8f4bd74eacebd6e1a9fb5100356ee6d9b9a0bd11",
      "000070c60d99929087fb69c1c4d8ea53fd350fed63a285e0971d999a0bc070b3"),
    (1700354821, 4, "ec42f815e4c2d6d1e25b8c789020359b3a94f0038d49731ccca2d69dc7f4eae2",
      "0000af4ceaac46d312a25478e7767346d3a6b236cc35265dc80005f4dd17faa9"),
    (1700422422, 4, "105de4a02fa03875d80d92a017d9899f9128285c8811840fd5f457ea5e60dc7a",
      "0000824b91096eda0d80a227a9dee0e0e4fe13327ed9d9c9b5a04d5bae10bc09"),
    (1700427469, 4, "835e7c8bf2d811c92d793aeb254c4f048535ebc51aeba137e966075a373bff45",
      "0000952430598be1f27224665bc0435bc543f57e53092da756c04c17d884c366"),
    (1700479796, 4, "5a99f226cb735f1c0ddd7f9d1ce65bc6f856a62ad413c8af82846a7d4b507270",
      "00008414563b1bca7727ce26b17be1de2dd67bfe5ca1a51c2eb904c1794e4b0f"),
    (1700624280, 4, "ab42ce73f61b956db088df87899e24e93f3502c655ecca354154c96b3ecd403c",
      "0000a440ca036dccb79327e759d171a861ab2ab6fdfedd8b4eb00e9647c4f746"),
    (1700626586, 4, "bdedfecfe17b6ec6f0fc49d6090568dcfc25bc2b2e11fb9ce8dec1b12f38eaa5",
      "00008d147dbda5560f24ab073011d55997ed59542b904d717061e4c8875eeb5f"),
    (1700626764, 2, "bbe344a2ae59464ae0c3d30f14137cda8094f92f5b3907b573aa25e84410afa1",
      "005067600f6ed199e4986f754b8cb750739ec9f9a4d500a0d89fb88d9cf0115a"),
    (1700626901, 1, "9a27d28eeb6fca2ee2520ffdcef0f0deff4f48a7c9a3bedb24a0f5c7280621d7",
      "0345ca2d8f6a9d72fc1d0f6c6365177551a2950567508537e6191639f98f87cd")
  ]

/-- SHA-256 for the texts of such blocks, found at nonce 0. -/
def slowTable : Nat → String → List (Nat × Nat × String × String) → List (String × String)
  | _, _, [] => []
  | height, prevHash, (time, difficulty, coinbaseHash, hash) :: rest =>
    ("SYSTEMalpha1000" ++ toString time, coinbaseHash) ::
      (toString height ++ prevHash ++ coinbaseHash ++ toString time ++ "0" ++ toString difficulty ++ "alpha", hash) ::
        slowTable (height + 1) hash rest

def slowEnv : Env :=
  { Node.sampleEnv with sha256 := fun text => (List.lookup text (slowTable 1 zeroHash slowBlocks)).getD "" }

/-- Each block is created, mined and added. -/
def slowWorks : List Work :=
  ((List.range 12).zip slowBlocks).flatMap fun x =>
    [.createBlock "alpha" (Int64.ofNat x.2.1), .mine x.1 1, .addBlock x.1]

/-- The difficulty at each height. -/
def levels (rows : List BlockRow) : List (ℤ × Double) := rows.map fun r => (r.height.toInt, r.difficulty.val)

theorem not_oncePerInterval {rows : List BlockRow} {d e : Double} (hd : (11, d) ∈ levels rows)
    (he : (12, e) ∈ levels rows)
    (hne : d ≠ e) : ¬OncePerInterval rows := by
  intro h
  obtain ⟨a, ha, haeq⟩ := List.mem_map.mp hd
  obtain ⟨b, hb, hbeq⟩ := List.mem_map.mp he
  rw [Prod.mk.injEq] at haeq hbeq
  refine hne ?_
  rw [← haeq.2, ← hbeq.2]
  refine congrArg Subtype.val ?_
  exact h 1 (le_refl _) a ha b hb (by omega) (by omega) (by omega) (by omega)

/-- After twelve slow blocks the blocks 11 and 12 of one interval ask for two zeros and for one. -/
theorem difficulty_falls_twice :
    ¬OncePerInterval (slowWorks.foldl (work slowEnv) (opened 1700000000)).chain.rows := by
  have hlevels : levels (slowWorks.foldl (work slowEnv) (opened 1700000000)).chain.rows =
    [(0, 1), (1, 4), (2, 4), (3, 4), (4, 4), (5, 4), (6, 4), (7, 4), (8, 4), (9, 4), (10, 4), (11, 2), (12, 1)] := by
    decide +kernel
  refine not_oncePerInterval (d := 2) (e := 1) ?_ ?_ (by decide)
  · rw [hlevels]
    decide +kernel
  · rw [hlevels]
    decide +kernel

end Workshop

end NexusLedger
