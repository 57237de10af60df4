import NexusLedger.Theorems.ProofOfWork

/-! The difficulty that the chain demands: the range of its `int` arithmetic, and how often it changes. -/

namespace NexusLedger
open Blockchain LedgerDB

/-! ### One evaluation -/

namespace Blockchain
variable {env : Env} {c : Blockchain} {timeSpan : ℤ} {currentDiff : ℤ} {d : Int32} {x : Double}

/-- A number that an `int` holds. -/
def int? (n : ℤ) : Option ℤ := if -2 ^ 31 ≤ n ∧ n < 2 ^ 31 then some n else none

/-- The seconds that an interval is to take. -/
def expectedTime : ℤ := 600

/-- `getCurrentDifficulty` on the two blocks of its window, with a check on the conversion and on each product. -/
def checkedRetarget (timeSpan : ℤ) (difficulty : Double) : Option ℤ := do
  let currentDiff ← int? difficulty.toInteger
  let newDiff ←
    if (timeSpan : ℚ) < expectedTime * (3 / 4) then int? (currentDiff * 2)
    else if (timeSpan : ℚ) > expectedTime * (5 / 4) then some (max 1 (currentDiff.tdiv 2))
    else some currentDiff
  let limit ← int? (currentDiff * 4)
  return min (max 1 (min newDiff limit)) 6

/-- `getCurrentDifficulty` with these checks; none where one of them fails. -/
def checkedDifficulty (env : Env) (c : Blockchain) : Option ℤ :=
  let height := c.getHeight
  if height < difficultyAdjustmentInterval then some 4
  else
    match c.getBlock env (height - difficultyAdjustmentInterval + 1), c.getBlock env height with
    | some firstBlock, some lastBlock =>
      checkedRetarget (lastBlock.timestamp - firstBlock.timestamp).toInt lastBlock.difficulty
    | _, _ => some 2

/-- The step on numbers of any size. -/
def adjusted (timeSpan currentDiff : ℤ) : ℤ :=
  let newDiff :=
    if timeSpan < 450 then currentDiff * 2
    else if 750 < timeSpan then max 1 (currentDiff.tdiv 2)
    else currentDiff
  min (max 1 (min newDiff (currentDiff * 4))) 6

theorem fast_iff : (timeSpan : ℚ) < expectedTime * (3 / 4) ↔ timeSpan < 450 := by
  have hquarters : ((expectedTime : ℤ) : ℚ) * (3 / 4) = ((450 : ℤ) : ℚ) := by norm_num [expectedTime]
  rw [hquarters, Int.cast_lt]

theorem slow_iff : (timeSpan : ℚ) > expectedTime * (5 / 4) ↔ 750 < timeSpan := by
  have hquarters : ((expectedTime : ℤ) : ℚ) * (5 / 4) = ((750 : ℤ) : ℚ) := by norm_num [expectedTime]
  rw [hquarters, gt_iff_lt, Int.cast_lt]

theorem int?_of_fits {n : ℤ} (h : -2 ^ 31 ≤ n ∧ n < 2 ^ 31) : int? n = some n := if_pos h

theorem int?_of_not_fits {n : ℤ} (h : ¬(-2 ^ 31 ≤ n ∧ n < 2 ^ 31)) : int? n = none := if_neg h

/-- A quarter of the range of an `int`. -/
def Moderate (n : ℤ) : Prop := -2 ^ 29 ≤ n ∧ n < 2 ^ 29

theorem checkedRetarget_of_moderate (h : Moderate x.toInteger) :
    checkedRetarget timeSpan x = some (adjusted timeSpan x.toInteger) := by
  obtain ⟨hlow, hhigh⟩ := h
  have hconverted := int?_of_fits (n := x.toInteger) (by omega)
  have hdoubled := int?_of_fits (n := x.toInteger * 2) (by omega)
  have hlimit := int?_of_fits (n := x.toInteger * 4) (by omega)
  unfold checkedRetarget adjusted
  simp only [fast_iff, slow_iff, hconverted, Option.bind_eq_bind, Option.bind_some, hdoubled, hlimit]
  split
  · rfl
  · split
    · rfl
    · rfl

/-- The bound on the step is computed in any case. -/
theorem checkedRetarget_of_not_moderate (h : ¬Moderate x.toInteger) : checkedRetarget timeSpan x = none := by
  unfold checkedRetarget
  by_cases hfits : -2 ^ 31 ≤ x.toInteger ∧ x.toInteger < 2 ^ 31
  · have hlimit : int? (x.toInteger * 4) = none := int?_of_not_fits fun hmul => h ⟨by omega, by omega⟩
    simp only [int?_of_fits hfits, Option.bind_eq_bind, Option.bind_some, hlimit, Option.bind_none, Option.bind_fun_none,
      ite_self]
  · rw [int?_of_not_fits hfits]
    rfl

theorem toInt_max (a b : Int32) : (max a b).toInt = max a.toInt b.toInt := by
  show (if a ≤ b then b else a).toInt = _
  split
  · rename_i h
    exact (max_eq_right (Int32.le_iff_toInt_le.mp h)).symm
  · rename_i h
    exact (max_eq_left (Int.le_of_lt (Int32.lt_iff_toInt_lt.mp (Int32.not_le.mp h)))).symm

theorem toInt_min (a b : Int32) : (min a b).toInt = min a.toInt b.toInt := by
  show (if a ≤ b then a else b).toInt = _
  split
  · rename_i h
    exact (min_eq_left (Int32.le_iff_toInt_le.mp h)).symm
  · rename_i h
    exact (min_eq_right (Int.le_of_lt (Int32.lt_iff_toInt_lt.mp (Int32.not_le.mp h)))).symm

theorem toInt_capped (a : Int32) : (if a > maxDifficulty then maxDifficulty else a).toInt = min a.toInt 6 := by
  split
  · rename_i h
    exact (min_eq_right (Int.le_of_lt (Int32.lt_iff_toInt_lt.mp h))).symm
  · rename_i h
    exact (min_eq_left (Int32.le_iff_toInt_le.mp (Int32.not_lt.mp h))).symm

/-- The bounds that stand at the end of the step. -/
theorem toInt_retarget (timeSpan : ℤ) (d : Int32) : (retarget timeSpan d).toInt =
    min (max 1 (min (if timeSpan < 450 then d * 2 else if 750 < timeSpan then max 1 (d / 2) else d).toInt (d * 4).toInt))
      6 := by
  have hexpected : (targetBlockTimeSeconds * difficultyAdjustmentInterval).toInt = expectedTime := by decide
  unfold retarget
  simp only [hexpected, fast_iff, slow_iff]
  rw [toInt_capped, toInt_max, toInt_min]
  rfl

theorem retarget_bounds (timeSpan : ℤ) (d : Int32) : 1 ≤ (retarget timeSpan d).toInt ∧ (retarget timeSpan d).toInt ≤ 6 := by
  rw [toInt_retarget]
  exact ⟨le_min (le_max_left _ _) (by norm_num), min_le_right _ _⟩

/-- Without an overflow the `int` arithmetic is exact. -/
theorem toInt_retarget_of_moderate (h : Moderate d.toInt) :
    (retarget timeSpan d).toInt = adjusted timeSpan d.toInt := by
  obtain ⟨hlow, hhigh⟩ := h
  have hexact {n : ℤ} (h : -2 ^ 31 ≤ n ∧ n < 2 ^ 31) : n.bmod (2 ^ 32) = n := Int.bmod_eq_of_le (by omega) (by omega)
  have hdoubled : (d * 2).toInt = d.toInt * 2 := by
    rw [Int32.toInt_mul]
    exact hexact (n := d.toInt * 2) (by omega)
  have hhalf := Int.natAbs_tdiv_le_natAbs d.toInt 2
  have hhalved : (d / 2).toInt = d.toInt.tdiv 2 := by
    rw [Int32.toInt_div]
    exact hexact (n := d.toInt.tdiv 2) (by omega)
  have hlimit : (d * 4).toInt = d.toInt * 4 := by
    rw [Int32.toInt_mul]
    exact hexact (n := d.toInt * 4) (by omega)
  rw [toInt_retarget, hlimit, adjusted]
  split
  · rw [hdoubled]
  · split
    · rw [toInt_max, hhalved]
      rfl
    · rfl

/-! ### Difficulties on a chain -/

/-- The evaluation leaves no `int`, its value is the one of the checks, and that is between 1 and 6. -/
def SafeDifficulty (env : Env) (c : Blockchain) : Prop :=
  ∃ value, c.checkedDifficulty env = some value ∧ (c.getCurrentDifficulty env).toInt = value ∧ 1 ≤ value ∧ value ≤ 6

/-- The two rows that the evaluation reads: the tip, and the one nine blocks below. -/
structure Window (c : Blockchain) (first last : BlockRow) : Prop where
  start : first ∈ c.rows
  tip : c.tip = some last
  long : 10 ≤ last.height.toInt
  nine : first.height.toInt = last.height.toInt - 9

theorem toInt_windowStart {height : Int32} (h : 10 ≤ height.toInt) :
    (height - difficultyAdjustmentInterval + 1).toInt = height.toInt - 9 := by
  have hinterval : difficultyAdjustmentInterval.toInt = 10 := by decide
  have hmax := height.toInt_lt
  have hone : (1 : Int32).toInt = 1 := by decide
  rw [Int32.toInt_add, Int32.toInt_sub, hinterval, hone, Int.bmod_eq_of_le (n := height.toInt - 10) (by omega) (by omega),
    Int.bmod_eq_of_le (by omega) (by omega)]
  omega

theorem adjusted_bounds (timeSpan currentDiff : ℤ) :
    1 ≤ adjusted timeSpan currentDiff ∧ adjusted timeSpan currentDiff ≤ 6 :=
  ⟨le_min (le_max_left _ _) (by norm_num), min_le_right _ _⟩

theorem getBlock_of_rowAt {height : Int32} {row : Option BlockRow} (h : c.db.rowAt height = row) :
    c.getBlock env height =
      row.map fun r => { r.toHeader.toBlock with transactions := c.db.getTransactionsByBlock env height } := by
  rw [← h]
  rfl

/-- What the evaluation comes to: the step on a window, or one of two fixed values. -/
theorem difficulty_cases (env : Env) (c : Blockchain) :
    (∃ first last, c.Window first last ∧
      c.checkedDifficulty env = checkedRetarget (last.timestamp - first.timestamp).toInt last.difficulty.val ∧
      c.getCurrentDifficulty env =
        retarget (last.timestamp - first.timestamp).toInt (Int32.ofInt last.difficulty.val.toInteger)) ∨
    ((∀ first last, ¬c.Window first last) ∧
      ∃ value : Int32, (value = 4 ∨ value = 2) ∧ c.checkedDifficulty env = some value.toInt ∧
        c.getCurrentDifficulty env = value) := by
  have hinterval : difficultyAdjustmentInterval.toInt = 10 := by decide
  unfold checkedDifficulty getCurrentDifficulty
  simp only
  by_cases hlow : c.getHeight < difficultyAdjustmentInterval
  · rw [if_pos hlow, if_pos hlow]
    refine Or.inr ⟨fun first last hw => ?_, 4, Or.inl rfl, rfl, rfl⟩
    have hlong := hw.long
    rw [(tip_eq_some_iff.mp hw.tip).2] at hlong
    rw [Int32.lt_iff_toInt_lt, hinterval] at hlow
    omega
  · rw [if_neg hlow, if_neg hlow]
    have hlong : 10 ≤ c.getHeight.toInt := by
      rw [Int32.lt_iff_toInt_lt, hinterval] at hlow
      omega
    have hstart := toInt_windowStart hlong
    cases hfirst : c.db.rowAt (c.getHeight - difficultyAdjustmentInterval + 1) with
    | none =>
      rw [getBlock_of_rowAt hfirst]
      refine Or.inr ⟨fun first last hw => ?_, 2, Or.inr rfl, rfl, rfl⟩
      have hrow : c.db.rowAt (c.getHeight - difficultyAdjustmentInterval + 1) = some first := by
        refine rowAt_eq_some_iff.mpr ⟨hw.start, Int32.toInt_inj.mp ?_⟩
        rw [hstart, hw.nine, (tip_eq_some_iff.mp hw.tip).2]
      rw [hfirst] at hrow
      cases hrow
    | some first =>
      cases hlast : c.db.rowAt c.getHeight with
      | none =>
        rw [getBlock_of_rowAt hfirst, getBlock_of_rowAt hlast]
        refine Or.inr ⟨fun first last hw => ?_, 2, Or.inr rfl, rfl, rfl⟩
        rw [show c.db.rowAt c.getHeight = some last from hw.tip] at hlast
        cases hlast
      | some last =>
        rw [getBlock_of_rowAt hfirst, getBlock_of_rowAt hlast]
        obtain ⟨hmem, hheight⟩ := rowAt_eq_some_iff.mp hfirst
        have htip := (rowAt_eq_some_iff.mp hlast).2
        refine Or.inl ⟨first, last, ⟨hmem, hlast, ?_, ?_⟩, rfl, rfl⟩
        · rw [htip]
          exact hlong
        · rw [hheight, htip, hstart]

theorem toInteger_stored (x : Double) : x.stored.toInteger = x.toInteger := by
  cases x <;> rfl

theorem safeDifficulty_iff :
    c.SafeDifficulty env ↔ ∀ first last, c.Window first last → Moderate last.difficulty.val.toInteger := by
  rcases difficulty_cases env c with ⟨first, last, hw, hchecked, hcurrent⟩ | ⟨hnone, value, hvalue, hchecked, hcurrent⟩
  · have hunique : ∀ first' last', c.Window first' last' → last' = last := by
      intro first' last' hw'
      exact Option.some.inj (hw'.tip.symm.trans hw.tip)
    unfold SafeDifficulty
    rw [hchecked, hcurrent]
    constructor
    · rintro ⟨value, hsome, -⟩ first' last' hw'
      rw [hunique first' last' hw']
      by_contra hbig
      rw [checkedRetarget_of_not_moderate hbig] at hsome
      cases hsome
    · intro hmoderate
      have hd := hmoderate first last hw
      have hconverted : (Int32.ofInt last.difficulty.val.toInteger).toInt = last.difficulty.val.toInteger :=
        Int32.toInt_ofInt_of_le (by have := hd.1; omega) (by have := hd.2; omega)
      refine ⟨_, checkedRetarget_of_moderate hd, ?_, adjusted_bounds _ _⟩
      rw [toInt_retarget_of_moderate (by rw [hconverted]; exact hd), hconverted]
  · refine iff_of_true ⟨value.toInt, hchecked, by rw [hcurrent], ?_⟩ fun first last hw => absurd hw (hnone first last)
    rcases hvalue with rfl | rfl
    · decide
    · decide

theorem getCurrentDifficulty_bounds (env : Env) (c : Blockchain) :
    1 ≤ (c.getCurrentDifficulty env).toInt ∧ (c.getCurrentDifficulty env).toInt ≤ 6 := by
  rcases difficulty_cases env c with ⟨first, last, -, -, hcurrent⟩ | ⟨-, value, hvalue, -, hcurrent⟩
  · rw [hcurrent]
    exact retarget_bounds _ _
  · rw [hcurrent]
    rcases hvalue with rfl | rfl
    · decide
    · decide

/-- Each block that ends a window has a moderate difficulty. -/
def Tempered (c : Blockchain) : Prop :=
  ∀ first ∈ c.rows, ∀ last ∈ c.rows, 10 ≤ last.height.toInt → first.height.toInt = last.height.toInt - 9 →
    Moderate last.difficulty.val.toInteger

theorem Tempered.congr {d : Blockchain} (h : c.Tempered) (hrows : d.rows = c.rows) : d.Tempered := by
  unfold Tempered
  rw [hrows]
  exact h

theorem Tempered.safe (h : c.Tempered) : c.SafeDifficulty env :=
  safeDifficulty_iff.mpr fun first last hw => h first hw.start last (tip_eq_some_iff.mp hw.tip).1 hw.long hw.nine

/-- The block would end a window of the chain. -/
def EndsWindow (c : Blockchain) (b : Block) : Prop :=
  10 ≤ b.height.toInt ∧ ∃ first ∈ c.rows, first.height.toInt = b.height.toInt - 9

theorem Tempered.exec [Arithmetic] {k : Call} (h : c.Tempered)
    (hk : c.Fits k → c.EndsWindow k.block → Moderate k.block.difficulty.toInteger) : (c.exec env k).2.Tempered := by
  intro first hfirst last hlast hlong hnine
  rcases mem_rows_exec hlast with hold | ⟨hfits, rfl⟩
  · rcases mem_rows_exec hfirst with hstart | ⟨hfits, rfl⟩
    · exact h first hstart last hold hlong hnine
    · -- No block is above one that was just accepted.
      have htop := height_le hlast
      rw [← (tip_eq_some_iff.mp (tip_of_fits hfits)).2] at htop
      omega
  · rcases mem_rows_exec hfirst with hstart | ⟨-, rfl⟩
    · show Moderate k.block.difficulty.stored.toInteger
      rw [toInteger_stored]
      exact hk hfits ⟨hlong, first, hstart, hnine⟩
    · omega

/-- An accepted block that ends a window is what the next evaluation reads. -/
theorem moderate_of_safe [Arithmetic] {k : Call} (h : (c.exec env k).2.SafeDifficulty env) (hfits : c.Fits k)
    (hends : c.EndsWindow k.block) : Moderate k.block.difficulty.toInteger := by
  obtain ⟨hlong, first, hfirst, hnine⟩ := hends
  have hstart : first ∈ (c.exec env k).2.rows := by
    refine mem_rows_of_fits hfits hfirst fun heq => ?_
    rw [heq] at hnine
    omega
  rw [← toInteger_stored]
  exact safeDifficulty_iff.mp h first k.block.row ⟨hstart, tip_of_fits hfits, hlong, hnine⟩

end Blockchain

section
set_option linter.unusedSectionVars false
variable [Arithmetic]

/-! ### Difficulties in a run -/

namespace Node
variable {env : Env} {n : Node} {e : Event}

/-- The difficulty of the template that the mining thread works on is moderate. -/
def TemperedTemplate (n : Node) : Prop := ∀ t, n.template = some t → Moderate t.block.difficulty.toInteger

theorem toInteger_intCast (m : ℤ) : (Double.number (m : ℚ)).toInteger = m := by
  show truncate (m : ℚ) = m
  unfold truncate
  split
  · exact Rat.floor_intCast m
  · exact Rat.ceil_intCast m

theorem moderate_createBlock (env : Env) (c : Blockchain) (miner : String) (now : Int64) :
    Moderate (c.createBlock env miner now).1.difficulty.toInteger := by
  obtain ⟨hlow, hhigh⟩ := getCurrentDifficulty_bounds env c
  have hdifficulty : (c.createBlock env miner now).1.difficulty =
      .number ((c.getCurrentDifficulty env).toInt : ℚ) := rfl
  rw [hdifficulty, toInteger_intCast]
  exact ⟨by omega, by omega⟩

theorem step_temperedTemplate (env : Env) (n : Node) (e : Event) (h : n.TemperedTemplate) :
    (n.step env e).TemperedTemplate := by
  intro t ht
  rcases step_template env n e with heq | heq | ⟨now, heq⟩
  · exact h t (heq ▸ ht)
  · rw [heq] at ht
    cases ht
  · rw [heq] at ht
    cases ht
    exact moderate_createBlock env n.blockchain n.nodeId now

/-- The condition on a step: a block from a message that fits on the chain, and ends a window there, has a moderate
    difficulty. -/
def Tempers (env : Env) (n : Node) (e : Event) : Prop :=
  ∀ k ∈ calls (n.react env e).2, k.1.Fits k.2 → k.1.EndsWindow k.2.block →
    match e with
    | .message _ _ => Moderate k.2.block.difficulty.toInteger
    | .own _ => True

/-- The blocks of the mining thread are moderate in any case. -/
theorem moderate_of_tempers (h : n.TemperedTemplate) (he : n.Tempers env e) :
    ∀ k ∈ calls (n.react env e).2, k.1.Fits k.2 → k.1.EndsWindow k.2.block →
      Moderate k.2.block.difficulty.toInteger := by
  intro k hk hfits hends
  have hcondition := he k hk hfits hends
  cases (react_calls env n e).2 k hk with
  | mined now ht hmined hlow =>
    obtain ⟨nonce, rfl, -⟩ := Block.search_eq_some hmined
    exact h _ ht
  | extended now htype hread hext => exact hcondition
  | competed now htype hread hcomp => exact hcondition
  | received now htype hpayload hbj hread habove => exact hcondition

theorem step_tempered (h : n.blockchain.Tempered) (ht : n.TemperedTemplate) (he : n.Tempers env e) :
    (n.step env e).blockchain.Tempered ∧ ∀ k ∈ calls (n.react env e).2, (k.1.exec env k.2).2.Tempered := by
  have hkeep : ∀ k ∈ calls (n.react env e).2, k.1.Tempered → (k.1.exec env k.2).2.Tempered :=
    fun k hk hc => hc.exec (moderate_of_tempers ht he k hk)
  have htraced := step_traced env n e
  exact ⟨htraced.keeps (fun hrows hc => hc.congr hrows) hkeep h,
    fun k hk => hkeep k hk (htraced.keeps_before hkeep h k hk)⟩

theorem tempered_start (nodeId : String) (now : Int64) : (start nodeId now).blockchain.Tempered := by
  intro first hfirst last hlast hlong
  rw [List.mem_singleton.mp hlast] at hlong
  exact absurd hlong (show ¬(10 : ℤ) ≤ (0 : Int32).toInt by decide)

/-- In a run of a node the difficulty is computed safely in every state, between two blocks of a message too, exactly
    when no message brings a block that ends a window with a difficulty beyond a quarter of the range. -/
theorem difficulty_safe_iff (env : Env) (nodeId : String) (now : Int64) (events : List Event) :
    ((∀ n ∈ Transition.states (step env) (start nodeId now) events, n.blockchain.SafeDifficulty env) ∧
        ∀ x ∈ Transition.steps (step env) (start nodeId now) events, ∀ k ∈ calls (x.1.react env x.2).2,
          (k.1.exec env k.2).2.SafeDifficulty env) ↔
      ∀ x ∈ Transition.steps (step env) (start nodeId now) events, x.1.Tempers env x.2 := by
  constructor
  · rintro ⟨-, hsafe⟩ x hx k hk hfits hends
    cases x.2 with
    | message now msg => exact moderate_of_safe (hsafe x hx k hk) hfits hends
    | own e => trivial
  · intro hcondition
    have hinvariant : ∀ n ∈ Transition.states (step env) (start nodeId now) events,
        n.blockchain.Tempered ∧ n.TemperedTemplate := by
      refine Transition.invariant_of_steps (C := fun n e => n.Tempers env e) (fun n e he hn => ?_)
        ⟨tempered_start nodeId now, fun t ht => by cases ht⟩ hcondition
      exact ⟨(step_tempered hn.1 hn.2 he).1, step_temperedTemplate env n e hn.2⟩
    refine ⟨fun n hn => (hinvariant n hn).1.safe, fun x hx k hk => ?_⟩
    obtain ⟨hchain, htemplate⟩ := hinvariant x.1 (Transition.fst_mem_states (step env) x hx)
    exact ((step_tempered hchain htemplate (hcondition x hx)).2 k hk).safe

end Node

end

namespace Node

attribute [local instance] Arithmetic.binary64

/-- Two headers, at heights 1 and 10; the second one asks for a billion zeros. -/
def steepHeaders : List Block :=
  [plainBlock 1 "a1" zeroHash, { plainBlock 10 "b2" "a1" with difficulty := 1000000000 }]

def steepResponse : Event :=
  .message 0
    { type := .blocksResponse
      senderId := "peer"
      timestamp := 0
      payload := .arr (steepHeaders.map fun b => .obj b.headerMembers) }

/-- Both headers are taken, and four times the difficulty is no `int`. -/
theorem steep_difficulty_overflows :
    ¬((∀ n ∈ Transition.states (step headerEnv) (start "node" 0) [steepResponse],
          n.blockchain.SafeDifficulty headerEnv) ∧
        ∀ x ∈ Transition.steps (step headerEnv) (start "node" 0) [steepResponse],
          ∀ k ∈ calls (x.1.react headerEnv x.2).2, (k.1.exec headerEnv k.2).2.SafeDifficulty headerEnv) := by
  rintro ⟨hsafe, -⟩
  obtain ⟨value, hvalue, -⟩ := hsafe _ (List.mem_cons_of_mem _ List.mem_cons_self)
  have hnone : ((start "node" 0).step headerEnv steepResponse).blockchain.getHeight = 10 ∧
      ((start "node" 0).step headerEnv steepResponse).blockchain.checkedDifficulty headerEnv = none := by decide +kernel
  rw [hnone.2] at hvalue
  cases hvalue

end Node

end NexusLedger
