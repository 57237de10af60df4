import NexusLedger.Theorems.Frame
import NexusLedger.Lib.Chain
import NexusLedger.Lib.Transition

/-! The blocks table as a hash chain. `addBlock` and `replaceLastBlock` are summed up once, by what they
    need and what they leave; on a table in chain order each call is a step of `Links.Step`. -/

namespace NexusLedger

/-! ### Heights and the tip -/

namespace LedgerDB

theorem maxHeight_eq_none {l : List BlockRow} : maxHeight l = none ↔ l = [] := by
  cases l with
  | nil => simp [maxHeight]
  | cons r l =>
    simp only [maxHeight, reduceCtorEq, iff_false]
    split <;> simp

theorem maxHeight_eq_some {l : List BlockRow} {m : Int32} (h : maxHeight l = some m) :
    (∃ r ∈ l, r.height = m) ∧ ∀ r ∈ l, r.height.toInt ≤ m.toInt := by
  induction l generalizing m with
  | nil => cases h
  | cons x l ih =>
    unfold maxHeight at h
    split at h
    · rename_i m' hm'
      obtain ⟨⟨r, hr, hrm⟩, hle⟩ := ih hm'
      cases h
      split
      · rename_i hx
        rw [Int32.le_iff_toInt_le] at hx
        refine ⟨⟨x, List.mem_cons_self, rfl⟩, fun y hy => ?_⟩
        rcases List.mem_cons.mp hy with rfl | hy
        · exact le_refl _
        · exact le_trans (hle y hy) hx
      · rename_i hx
        rw [Int32.le_iff_toInt_le] at hx
        refine ⟨⟨r, List.mem_cons_of_mem _ hr, hrm⟩, fun y hy => ?_⟩
        rcases List.mem_cons.mp hy with rfl | hy
        · omega
        · exact hle y hy
    · rename_i hnone
      cases h
      rw [maxHeight_eq_none] at hnone
      subst hnone
      simp

variable {db : LedgerDB} {r a b : BlockRow} {h : Int32}

theorem blocksSchema_symm (x y : BlockRow) : blocksSchema.clash x y = blocksSchema.clash y x := by
  simp only [blocksSchema, BEq.comm]

theorem eq_of_height (ha : a ∈ db.blocks.rows) (hb : b ∈ db.blocks.rows) (heq : a.height = b.height) : a = b :=
  Table.eq_of_clash blocksSchema_symm ha hb (by simp [blocksSchema, heq])

theorem eq_of_hash (ha : a ∈ db.blocks.rows) (hb : b ∈ db.blocks.rows) (heq : a.hash = b.hash) : a = b :=
  Table.eq_of_clash blocksSchema_symm ha hb (by simp [blocksSchema, heq])

theorem rowAt_eq_some_iff : db.rowAt h = some r ↔ r ∈ db.blocks.rows ∧ r.height = h := by
  constructor
  · intro hr
    exact ⟨List.mem_of_find?_eq_some hr, by simpa using List.find?_some hr⟩
  · rintro ⟨hr, rfl⟩
    obtain ⟨x, hx⟩ := Option.isSome_iff_exists.mp
      (List.find?_isSome (p := fun x : BlockRow => x.height == r.height).mpr ⟨r, hr, by simp⟩)
    have hxr : x = r :=
      eq_of_height (List.mem_of_find?_eq_some hx) hr (by simpa using List.find?_some hx)
    rw [rowAt, hx, hxr]

end LedgerDB

namespace Blockchain
open LedgerDB
variable {env : Env} {c : Blockchain} {b : Block} {r : BlockRow}

/-- The blocks table. -/
abbrev rows (c : Blockchain) : List BlockRow := c.db.blocks.rows

/-- The row that `getBlock(getHeight())` reads. -/
def tip (c : Blockchain) : Option BlockRow := c.db.rowAt c.getHeight

theorem tip_eq_some_iff : c.tip = some r ↔ r ∈ c.rows ∧ r.height = c.getHeight := rowAt_eq_some_iff

theorem height_le (hr : r ∈ c.rows) : r.height.toInt ≤ c.getHeight.toInt := by
  cases hm : maxHeight c.rows with
  | none =>
    rw [maxHeight_eq_none] at hm
    rw [hm] at hr
    cases hr
  | some m =>
    have : c.getHeight = m := by simp [getHeight, getLatestHeight, hm]
    rw [this]
    exact (maxHeight_eq_some hm).2 r hr

theorem getHeight_of_nil (h : c.rows = []) : c.getHeight = 0 := by
  simp [getHeight, getLatestHeight, show c.db.blocks.rows = [] from h, maxHeight]

theorem exists_tip (h : c.rows ≠ []) : ∃ r, c.tip = some r := by
  cases hm : maxHeight c.rows with
  | none =>
    exact absurd (maxHeight_eq_none.mp hm) h
  | some m =>
    obtain ⟨⟨r, hr, hrm⟩, -⟩ := maxHeight_eq_some hm
    exact ⟨r, tip_eq_some_iff.mpr ⟨hr, by simp [getHeight, getLatestHeight, hm, hrm]⟩⟩

theorem getHeight_of_max (hr : r ∈ c.rows) (hmax : ∀ x ∈ c.rows, x.height.toInt ≤ r.height.toInt) :
    c.getHeight = r.height := by
  obtain ⟨t, ht⟩ := exists_tip (List.ne_nil_of_mem hr)
  obtain ⟨htm, hth⟩ := tip_eq_some_iff.mp ht
  have h1 := hmax t htm
  have h2 := height_le hr
  rw [hth] at h1
  exact Int32.toInt_inj.mp (by omega)

theorem tip_of_max (hr : r ∈ c.rows) (hmax : ∀ x ∈ c.rows, x.height.toInt ≤ r.height.toInt) : c.tip = some r :=
  tip_eq_some_iff.mpr ⟨hr, (getHeight_of_max hr hmax).symm⟩

theorem getBlock_eq_some_iff {h : Int32} : c.getBlock env h = some b ↔
    ∃ r ∈ c.rows, r.height = h ∧
      b = { r.toHeader.toBlock with transactions := c.db.getTransactionsByBlock env h } := by
  unfold getBlock getBlockByHeight
  rw [Option.map_eq_some_iff]
  constructor
  · rintro ⟨r, hr, rfl⟩
    obtain ⟨hm, hh⟩ := rowAt_eq_some_iff.mp hr
    exact ⟨r, hm, hh, rfl⟩
  · rintro ⟨r, hm, hh, rfl⟩
    exact ⟨r, rowAt_eq_some_iff.mpr ⟨hm, hh⟩, rfl⟩

/-! ### What addBlock needs and leaves -/

/-- What `addBlock` asks of a block: a height above the current one, the tip's hash as `prevHash`, a difficulty that is
    not NaN, and a hash that no row holds. -/
structure Appends (c : Blockchain) (b : Block) : Prop where
  above : c.getHeight.toInt < b.height.toInt
  follows : 0 < b.height.toInt → ∃ tip, c.tip = some tip ∧ tip.hash.val = b.prevHash
  valued : b.difficulty.isNaN = false
  fresh : CString.bind b.hash ∉ c.rows.map (·.hash)

theorem fits_row_iff {t : Table blocksSchema} :
    t.fits b.row = true ↔ b.difficulty.isNaN = false ∧ (∀ r ∈ t.rows, r.height ≠ b.height) ∧
      CString.bind b.hash ∉ t.rows.map (·.hash) := by
  rw [Table.fits_iff]
  simp only [blocksSchema, Block.row, Block.header, SqlReal.isNull_bind, Bool.not_eq_true', Bool.or_eq_false_iff,
    beq_eq_false_iff_ne, ne_eq, List.mem_map, not_exists, not_and]
  exact and_congr_right fun _ =>
    ⟨fun h => ⟨fun r hr => (h r hr).1, fun r hr => (h r hr).2⟩, fun h r hr => ⟨h.1 r hr, h.2 r hr⟩⟩

/-- The mempool without the transactions of an accepted block. -/
def drained (mempool : Finmap fun _ : String => Transaction) (txs : List Transaction) :
    Finmap fun _ : String => Transaction :=
  txs.foldl (fun m tx => if tx.fromAddress ≠ "SYSTEM" then m.erase tx.txHash else m) mempool

theorem drained_cons (m : Finmap fun _ : String => Transaction) (tx : Transaction) (txs : List Transaction) :
    drained m (tx :: txs) = drained (if tx.fromAddress ≠ "SYSTEM" then m.erase tx.txHash else m) txs := rfl

set_option linter.unusedSectionVars false
variable [Arithmetic]

theorem addBlock_eq_of_appends (h : c.Appends b) :
    ∃ blocks : Table blocksSchema, blocks.rows = c.rows ++ [b.row] ∧
      c.addBlock b =
        (true,
          ({ c with
              db := { c.db with blocks }.addTransactions b.transactions b.height
              mempool := drained c.mempool b.transactions } : Blockchain).cleanMempool.2) := by
  have habove : ¬b.height ≤ c.getHeight := by
    rw [Int32.le_iff_toInt_le]
    have := h.above
    omega
  have hprev : ¬(0 < b.height ∧ (c.db.rowAt c.getHeight).map (·.hash.val) ≠ some b.prevHash) := by
    rintro ⟨hpos, hne⟩
    obtain ⟨tip, htip, hhash⟩ := h.follows (by simpa [Int32.lt_iff_toInt_lt] using hpos)
    exact hne (by rw [← hhash]; exact congrArg (Option.map _) htip)
  have hfits : c.db.blocks.fits b.row = true := by
    refine fits_row_iff.mpr ⟨h.valued, fun r hr heq => ?_, h.fresh⟩
    have h1 := height_le hr
    have h2 := h.above
    rw [heq] at h1
    omega
  obtain ⟨blocks, hblocks, hrows⟩ := Table.insert_of_fits hfits
  refine ⟨blocks, hrows, ?_⟩
  simp only [addBlock, habove, hprev, if_false, LedgerDB.addBlock, hblocks]
  rfl

theorem addBlock_of_appends (h : c.Appends b) :
    (c.addBlock b).1 = true ∧ (c.addBlock b).2.rows = c.rows ++ [b.row] ∧
      (c.addBlock b).2.db.transactions = (c.db.addTransactions b.transactions b.height).transactions := by
  obtain ⟨blocks, hrows, heq⟩ := addBlock_eq_of_appends h
  rw [heq]
  refine ⟨rfl, by simp [rows, hrows], ?_⟩
  rw [cleanMempool_transactions]
  refine addTransactions_congr ?_ _ _
  rfl

theorem addBlock_of_not_appends (h : ¬c.Appends b) : c.addBlock b = (false, c) := by
  unfold addBlock
  simp only
  split
  · rfl
  · rename_i habove
    split
    · rfl
    · rename_i hprev
      rw [Int32.le_iff_toInt_le] at habove
      have hfits : c.db.blocks.fits b.row = false := by
        by_contra hne
        rw [Bool.not_eq_false] at hne
        obtain ⟨hvalued, -, hfresh⟩ := fits_row_iff.mp hne
        refine h ⟨by omega, fun hpos => ?_, hvalued, hfresh⟩
        by_contra hno
        refine hprev ⟨by simpa [Int32.lt_iff_toInt_lt] using hpos, fun heq => hno ?_⟩
        obtain ⟨tip, htip, hhash⟩ := Option.map_eq_some_iff.mp heq
        exact ⟨tip, htip, hhash⟩
      simp only [LedgerDB.addBlock, Table.insert_eq_none.mpr hfits]

theorem tip_of_appends (h : c.Appends b) : (c.addBlock b).2.tip = some b.row := by
  obtain ⟨-, hrows, -⟩ := addBlock_of_appends h
  refine tip_of_max (by simp [hrows]) fun x hx => ?_
  rw [hrows, List.mem_append, List.mem_singleton] at hx
  rcases hx with hx | rfl
  · exact le_trans (height_le hx) (le_of_lt h.above)
  · exact le_refl _

theorem getHeight_of_appends (h : c.Appends b) : (c.addBlock b).2.getHeight = b.height :=
  (tip_eq_some_iff.mp (tip_of_appends h)).2.symm

theorem addBlock_accepts_iff : (c.addBlock b).1 = true ↔ c.Appends b := by
  constructor
  · intro h
    by_contra hne
    rw [addBlock_of_not_appends hne] at h
    cases h
  · exact fun h => (addBlock_of_appends h).1

/-! ### What replaceLastBlock needs and leaves -/

/-- The rows that are left when the block at the current height is deleted. -/
def below (c : Blockchain) : List BlockRow := c.rows.filter fun r => !(r.height == c.getHeight)

/-- What `replaceLastBlock` asks of a block: the height and the `prevHash` of the tip. -/
structure Competes (c : Blockchain) (b : Block) : Prop where
  height : b.height = c.getHeight
  prevHash : ∃ tip, c.tip = some tip ∧ tip.prevHash.val = b.prevHash

/-- The block can be inserted once the tip is deleted: its difficulty is not NaN, and its hash is free then. -/
structure FreshBelow (c : Blockchain) (b : Block) : Prop where
  valued : b.difficulty.isNaN = false
  fresh : CString.bind b.hash ∉ c.below.map (·.hash)

theorem mem_below : r ∈ c.below ↔ r ∈ c.rows ∧ r.height ≠ c.getHeight := by
  simp [below]

theorem fits_below_iff (hb : b.height = c.getHeight) :
    (c.db.deleteBlock c.getHeight).blocks.fits b.row = true ↔ c.FreshBelow b := by
  rw [fits_row_iff, hb]
  refine ⟨fun h => ⟨h.1, h.2.2⟩, fun h => ⟨h.valued, fun r hr => ?_, h.fresh⟩⟩
  exact (mem_below.mp hr).2

theorem replaceLastBlock_of_not_competes {now : Int64} (h : ¬c.Competes b) :
    c.replaceLastBlock env b now = (false, c) := by
  unfold replaceLastBlock
  simp only
  split
  · rfl
  · rename_i hheight
    rw [not_not] at hheight
    split
    · rfl
    · rename_i old hold
      obtain ⟨r, hr, hrh, rfl⟩ := getBlock_eq_some_iff.mp hold
      split
      · rfl
      · rename_i hprev
        rw [not_not] at hprev
        exact absurd ⟨hheight.symm, r, tip_eq_some_iff.mpr ⟨hr, hrh⟩, hprev⟩ h

/-- The deletion has happened when the insert is rejected. -/
theorem replaceLastBlock_of_not_fresh {now : Int64} (h : c.Competes b) (hstored : ¬c.FreshBelow b) :
    c.replaceLastBlock env b now = (false, { c with db := c.db.deleteBlock c.getHeight }) := by
  obtain ⟨tip, htip, hprev⟩ := h.prevHash
  obtain ⟨hm, hh⟩ := tip_eq_some_iff.mp htip
  have hblock : c.getBlock env c.getHeight = some _ := getBlock_eq_some_iff.mpr ⟨tip, hm, hh, rfl⟩
  have hfits : (c.db.deleteBlock c.getHeight).blocks.fits b.row = false := by
    rw [← Bool.not_eq_true, fits_below_iff h.height]
    exact hstored
  simp only [replaceLastBlock, h.height, hblock, LedgerDB.addBlock, Table.insert_eq_none.mpr hfits]
  simp [Header.toBlock, hprev]

/-- The store once the block has taken the place of the tip. -/
def replaced (c : Blockchain) (b : Block) : LedgerDB := ((c.db.deleteBlock c.getHeight).addBlock b).2

/-- An accepted block is stored on the chain without the tip, then the transactions of the tip are given back. -/
theorem replaceLastBlock_eq_of_fresh (env : Env) (now : Int64) (h : c.Competes b) (hfresh : c.FreshBelow b) :
    (c.replaced b).blocks.rows = c.below ++ [b.row] ∧
      (c.replaced b).transactions =
        ((c.db.deleteBlock c.getHeight).addTransactions b.transactions b.height).transactions ∧
      c.replaceLastBlock env b now =
        (true,
          ({ c with db := c.replaced b }.restore env (c.db.getTransactionsByBlock env c.getHeight)
            now).cleanMempool.2) := by
  obtain ⟨tip, htip, hprev⟩ := h.prevHash
  obtain ⟨hm, hh⟩ := tip_eq_some_iff.mp htip
  have hblock : c.getBlock env c.getHeight = some _ := getBlock_eq_some_iff.mpr ⟨tip, hm, hh, rfl⟩
  obtain ⟨blocks, hblocks, hrows⟩ := Table.insert_of_fits ((fits_below_iff h.height).mpr hfresh)
  have hreplaced : c.replaced b =
      { c.db.deleteBlock c.getHeight with blocks }.addTransactions b.transactions b.height := by
    simp only [replaced, LedgerDB.addBlock, hblocks]
  refine ⟨?_, ?_, ?_⟩
  · rw [hreplaced]
    simp [hrows, below, LedgerDB.deleteBlock]
  · rw [hreplaced]
    refine addTransactions_congr ?_ _ _
    rfl
  · rw [hreplaced]
    simp only [replaceLastBlock, h.height, hblock, LedgerDB.addBlock, hblocks]
    simp [Header.toBlock, hprev]

theorem replaceLastBlock_of_fresh {now : Int64} (h : c.Competes b) (hfresh : c.FreshBelow b) :
    (c.replaceLastBlock env b now).1 = true ∧ (c.replaceLastBlock env b now).2.rows = c.below ++ [b.row] := by
  obtain ⟨hrows, -, heq⟩ := replaceLastBlock_eq_of_fresh env now h hfresh
  rw [heq]
  exact ⟨rfl, by simp [rows, hrows]⟩

theorem tip_of_fresh {now : Int64} (h : c.Competes b) (hfresh : c.FreshBelow b) :
    (c.replaceLastBlock env b now).2.tip = some b.row := by
  have hrows : (c.replaceLastBlock env b now).2.rows = c.below ++ [b.row] := (replaceLastBlock_of_fresh h hfresh).2
  refine tip_of_max (by simp [hrows]) fun x hx => ?_
  rw [hrows, List.mem_append, List.mem_singleton] at hx
  rcases hx with hx | rfl
  · show x.height.toInt ≤ b.height.toInt
    rw [h.height]
    exact height_le (mem_below.mp hx).1
  · exact le_refl _

theorem getHeight_of_fresh {now : Int64} (h : c.Competes b) (hfresh : c.FreshBelow b) :
    (c.replaceLastBlock env b now).2.getHeight = c.getHeight :=
  ((tip_eq_some_iff.mp (tip_of_fresh h hfresh)).2.symm).trans h.height

/-- A replacement that would leave no block: nothing is below the tip, and NaN is no difficulty to store. -/
def Empties (c : Blockchain) : Call → Prop
  | .addBlock _ => False
  | .replaceLastBlock b _ => c.Competes b ∧ b.difficulty.isNaN = true ∧ c.below = []

/-- What is refused for its hash leaves the row that has the hash. -/
theorem below_ne_nil {now : Int64} (h : c.Competes b) (hstored : ¬c.FreshBelow b)
    (hspare : ¬c.Empties (.replaceLastBlock b now)) : c.below ≠ [] := by
  intro hnil
  refine hstored ⟨?_, by simp [hnil]⟩
  rw [← Bool.not_eq_true]
  exact fun hnan => hspare ⟨h, hnan, hnil⟩

/-- Without the tip the height falls, if a row is left. -/
theorem getHeight_of_not_fresh {now : Int64} (h : c.Competes b) (hstored : ¬c.FreshBelow b) (hleft : c.below ≠ []) :
    (c.replaceLastBlock env b now).2.getHeight.toInt < c.getHeight.toInt := by
  rw [replaceLastBlock_of_not_fresh h hstored]
  have hne : ({ c with db := c.db.deleteBlock c.getHeight } : Blockchain).rows ≠ [] := hleft
  obtain ⟨tip, htip⟩ := exists_tip hne
  obtain ⟨hm, hh⟩ := tip_eq_some_iff.mp htip
  obtain ⟨hold, hother⟩ := mem_below.mp (show tip ∈ c.below from hm)
  have hle := height_le hold
  rw [← hh]
  exact lt_of_le_of_ne hle fun heq => hother (Int32.toInt_inj.mp heq)

/-! ### Calls that are accepted -/

/-- What a call needs to be accepted. -/
def Fits (c : Blockchain) : Call → Prop
  | .addBlock b => c.Appends b
  | .replaceLastBlock b _ => c.Competes b ∧ c.FreshBelow b

theorem exec_accepts_iff (k : Call) : (c.exec env k).1 = true ↔ c.Fits k := by
  cases k with
  | addBlock b => exact addBlock_accepts_iff
  | replaceLastBlock b now =>
    constructor
    · intro h
      by_contra hne
      by_cases hc : c.Competes b
      · have hs : ¬c.FreshBelow b := fun hf => hne ⟨hc, hf⟩
        rw [exec, replaceLastBlock_of_not_fresh hc hs] at h
        cases h
      · rw [exec, replaceLastBlock_of_not_competes hc] at h
        cases h
    · rintro ⟨hc, hf⟩
      exact (replaceLastBlock_of_fresh hc hf).1

/-- The block that a call hands over. -/
def Call.block : Call → Block
  | .addBlock b => b
  | .replaceLastBlock b _ => b

theorem mem_rows_addBlock (hr : r ∈ (c.addBlock b).2.rows) : r ∈ c.rows ∨ (c.Appends b ∧ r = b.row) := by
  by_cases h : c.Appends b
  · rw [(addBlock_of_appends h).2.1, List.mem_append, List.mem_singleton] at hr
    exact hr.imp_right fun heq => ⟨h, heq⟩
  · rw [addBlock_of_not_appends h] at hr
    exact Or.inl hr

/-- After a call each row was there before, or is that of the block that was accepted. -/
theorem mem_rows_exec {k : Call} {r : BlockRow} (hr : r ∈ (c.exec env k).2.rows) :
    r ∈ c.rows ∨ (c.Fits k ∧ r = k.block.row) := by
  cases k with
  | addBlock b => exact mem_rows_addBlock hr
  | replaceLastBlock b now =>
    rw [exec] at hr
    by_cases hc : c.Competes b
    · by_cases hf : c.FreshBelow b
      · rw [(replaceLastBlock_of_fresh hc hf).2, List.mem_append, List.mem_singleton] at hr
        exact hr.imp (fun hold => (mem_below.mp hold).1) fun heq => ⟨⟨hc, hf⟩, heq⟩
      · rw [replaceLastBlock_of_not_fresh hc hf] at hr
        exact Or.inl (mem_below.mp hr).1
    · rw [replaceLastBlock_of_not_competes hc] at hr
      exact Or.inl hr

/-- An accepted block is the tip. -/
theorem tip_of_fits {k : Call} (h : c.Fits k) : (c.exec env k).2.tip = some k.block.row := by
  cases k with
  | addBlock b => exact tip_of_appends h
  | replaceLastBlock b now => exact tip_of_fresh h.1 h.2

/-- The rows at other heights than that of an accepted block stay. -/
theorem mem_rows_of_fits {k : Call} {r : BlockRow} (h : c.Fits k) (hr : r ∈ c.rows) (hne : r.height ≠ k.block.height) :
    r ∈ (c.exec env k).2.rows := by
  cases k with
  | addBlock b =>
    rw [exec, (addBlock_of_appends h).2.1]
    exact List.mem_append_left _ hr
  | replaceLastBlock b now =>
    rw [exec, (replaceLastBlock_of_fresh h.1 h.2).2]
    exact List.mem_append_left _ (mem_below.mpr ⟨hr, fun heq => hne (heq.trans h.1.height.symm)⟩)

/-! ### The table in chain order -/

/-- A block row in a chain: its height is the key. -/
def blockLinks : Links BlockRow ℤ CString where
  key r := r.height.toInt
  hash r := r.hash
  prev r := r.prevHash

/-- The blocks table of a node that started from `schema.sql`: linked in insertion order, not empty, with
    no negative height. -/
structure Chained (c : Blockchain) : Prop where
  linked : blockLinks.Linked c.rows
  nonempty : c.rows ≠ []
  nonneg : ∀ r ∈ c.rows, 0 ≤ r.height.toInt

theorem chained_genesis (now : Int64) : (genesis now).Chained where
  linked := ⟨List.pairwise_singleton _ _, List.isChain_singleton _⟩
  nonempty := by simp [rows, genesis, LedgerDB.schema]
  nonneg r hr := by
    simp only [rows, genesis, LedgerDB.schema, List.mem_singleton] at hr
    rw [hr]
    exact le_refl (0 : ℤ)

theorem Chained.congr {d : Blockchain} (h : c.Chained) (hrows : d.rows = c.rows) : d.Chained where
  linked := hrows ▸ h.linked
  nonempty := hrows ▸ h.nonempty
  nonneg := hrows ▸ h.nonneg

namespace Chained

theorem getLast?_eq (h : c.Chained) : c.rows.getLast? = c.tip := by
  have hlast := List.getLast?_eq_some_getLast h.nonempty
  rw [hlast]
  refine (tip_of_max (List.mem_of_getLast? hlast) fun x hx => ?_).symm
  exact h.linked.key_le_last hlast hx

theorem below_eq (h : c.Chained) : c.below = c.rows.dropLast := by
  obtain ⟨tip, htip⟩ := exists_tip h.nonempty
  obtain ⟨front, hfront⟩ := List.getLast?_eq_some_iff.mp (h.getLast?_eq.trans htip)
  have hh := (tip_eq_some_iff.mp htip).2
  have hlt : ∀ r ∈ front, r.height.toInt < c.getHeight.toInt := by
    intro r hr
    rw [← hh]
    exact h.linked.key_lt_last (h.getLast?_eq.trans htip) (by rw [hfront, List.dropLast_concat]; exact hr)
  unfold below
  rw [hfront, List.dropLast_concat, List.filter_append, List.filter_eq_self.mpr, List.filter_cons_of_neg,
    List.filter_nil, List.append_nil]
  · simp [hh]
  · intro r hr
    have := hlt r hr
    simp only [Bool.not_eq_true', beq_eq_false_iff_ne, ne_eq]
    rintro heq
    rw [heq] at this
    omega

theorem getHeight_nonneg (h : c.Chained) : 0 ≤ c.getHeight.toInt := by
  obtain ⟨tip, htip⟩ := exists_tip h.nonempty
  obtain ⟨hm, hh⟩ := tip_eq_some_iff.mp htip
  exact hh ▸ h.nonneg tip hm

theorem follows_of_appends (h : c.Chained) (ha : c.Appends b) : blockLinks.Follows c.rows b.row := by
  have hpos := h.getHeight_nonneg
  have habove := ha.above
  obtain ⟨tip, htip, hhash⟩ := ha.follows (by omega)
  refine ⟨tip, h.getLast?_eq.trans htip, ?_, ?_, ha.fresh⟩
  · show tip.height.toInt < b.height.toInt
    rw [(tip_eq_some_iff.mp htip).2]
    exact habove
  · show CString.bind b.prevHash = tip.hash
    rw [← hhash, CString.bind_of_val]

theorem competes_of_competes (h : c.Chained) (hc : c.Competes b) : blockLinks.Competes c.rows b.row := by
  obtain ⟨tip, htip, hprev⟩ := hc.prevHash
  refine ⟨tip, h.getLast?_eq.trans htip, ?_, ?_⟩
  · show b.height.toInt = tip.height.toInt
    rw [hc.height, (tip_eq_some_iff.mp htip).2]
  · show CString.bind b.prevHash = tip.prevHash
    rw [← hprev, CString.bind_of_val]

/-- Every call on the table that does not empty it is a step of a hash chain. -/
theorem exec_step (h : c.Chained) {call : Call} (hspare : ¬c.Empties call) :
    blockLinks.Step c.rows (c.exec env call).2.rows := by
  cases call with
  | addBlock b =>
    by_cases ha : c.Appends b
    · rw [exec, (addBlock_of_appends ha).2.1]
      exact .extended b.row (h.follows_of_appends ha)
    · rw [exec, addBlock_of_not_appends ha]
      exact .kept
  | replaceLastBlock b now =>
    by_cases hc : c.Competes b
    · have hcomp := h.competes_of_competes hc
      by_cases hf : c.FreshBelow b
      · rw [exec, (replaceLastBlock_of_fresh hc hf).2, h.below_eq]
        refine .replaced b.row hcomp ?_
        rw [← h.below_eq]
        exact hf.fresh
      · rw [exec, replaceLastBlock_of_not_fresh hc hf]
        show blockLinks.Step c.rows c.below
        rw [h.below_eq]
        refine .dropped b.row hcomp ?_
        rw [← h.below_eq]
        exact below_ne_nil hc hf hspare
    · rw [exec, replaceLastBlock_of_not_competes hc]
      exact .kept

theorem exec (h : c.Chained) {call : Call} (hspare : ¬c.Empties call) : (c.exec env call).2.Chained where
  linked := (h.exec_step hspare).linked h.linked
  nonempty := (h.exec_step hspare).ne_nil h.nonempty
  nonneg := by
    refine (h.exec_step hspare).forall_mem h.nonneg (fun r hf => ?_) (fun r hc => ?_)
    · obtain ⟨last, hlast, hkey, -⟩ := hf
      have := h.nonneg last (List.mem_of_getLast? hlast)
      exact le_trans this (le_of_lt hkey)
    · obtain ⟨last, hlast, hkey, -⟩ := hc
      have := h.nonneg last (List.mem_of_getLast? hlast)
      exact le_of_le_of_eq this hkey.symm

end Chained

/-! ### The hash-link invariant -/

/-- The tip exists, no height is negative, heights and hashes identify the rows, and neighbours in height order are
    linked. -/
structure HashLinked (env : Env) (c : Blockchain) : Prop where
  tip : c.rows ≠ [] ∧ (c.getBlock env c.getHeight).isSome = true
  nonneg : ∀ r ∈ c.rows, 0 ≤ r.height.toInt
  heights : (c.rows.map fun r => r.height).Nodup
  hashes : (c.rows.map fun r => r.hash).Nodup
  linked : ∀ lower ∈ c.rows, ∀ upper ∈ c.rows, lower.height < upper.height →
    (∀ r ∈ c.rows, ¬(lower.height < r.height ∧ r.height < upper.height)) → upper.prevHash = lower.hash

theorem heights_nodup (c : Blockchain) : (c.rows.map fun r => r.height).Nodup := by
  rw [List.Nodup, List.pairwise_map]
  refine c.db.blocks.distinct.imp fun {a b} hab => ?_
  simp only [blocksSchema, Bool.or_eq_false_iff, beq_eq_false_iff_ne] at hab
  exact hab.1

theorem Chained.hashLinked (h : c.Chained) : c.HashLinked env where
  tip := by
    obtain ⟨tip, htip⟩ := exists_tip h.nonempty
    refine ⟨h.nonempty, ?_⟩
    simp only [getBlock, LedgerDB.getBlockByHeight, Option.isSome_map]
    exact Option.isSome_iff_exists.mpr ⟨tip, htip⟩
  nonneg := h.nonneg
  heights := heights_nodup c
  hashes := by
    rw [List.Nodup, List.pairwise_map]
    refine c.db.blocks.distinct.imp fun {a b} hab => ?_
    simp only [blocksSchema, Bool.or_eq_false_iff, beq_eq_false_iff_ne] at hab
    exact hab.2
  linked lower hl upper hu hlt hnone := by
    refine h.linked.prev_eq_of_adjacent hl hu (Int32.lt_iff_toInt_lt.mp hlt) fun r hr => ?_
    show ¬(lower.height.toInt < r.height.toInt ∧ r.height.toInt < upper.height.toInt)
    simpa only [Int32.lt_iff_toInt_lt] using hnone r hr

theorem rows_of_empties {k : Call} (h : c.Empties k) : (c.exec env k).2.rows = [] := by
  cases k with
  | addBlock b => exact absurd h id
  | replaceLastBlock b now =>
    obtain ⟨hc, hnan, hnil⟩ := h
    have hnot : ¬c.FreshBelow b := fun hf => Bool.false_ne_true (hf.valued.symm.trans hnan)
    rw [exec, replaceLastBlock_of_not_fresh hc hnot]
    exact hnil

/-- In a run of block calls from the genesis database, whatever the blocks and the results, every state is linked by
    hashes and has a tip exactly when no call replaces the only block by one whose difficulty is NaN. -/
theorem hash_link_invariant_iff (env : Env) (now : Int64) (calls : List Call) :
    (∀ c ∈ Transition.states (fun c call => (exec env c call).2) (genesis now) calls, c.HashLinked env) ↔
      ∀ x ∈ Transition.steps (fun c call => (exec env c call).2) (genesis now) calls, ¬x.1.Empties x.2 := by
  constructor
  · intro h x hx hempties
    exact (h _ (Transition.step_mem_states _ x hx)).tip.1 (rows_of_empties hempties)
  · intro h c hc
    exact (Transition.invariant_of_steps (I := Chained) (C := fun c k => ¬c.Empties k)
      (fun c k hspare hchained => hchained.exec hspare) (chained_genesis now) h c hc).hashLinked

end Blockchain

/-! ### Sample calls -/

/-- Headers alone are neither hashed nor dumped. A text that starts with no number reads as 0. -/
def headerEnv : Env where
  sha256 _ := ""
  dump _ := ""
  indeterminate := 0
  longestString := 2 ^ 63 - 2
  textDouble _ := 0
  textInt64 _ := 0
  realText x := .bind (if x = 0 then "0.0" else showDouble x)

/-- A block with its place in a chain, and otherwise the defaults. -/
def plainBlock (height : Int32) (hash prevHash : String) : Block := { Block.new 0 with height, hash, prevHash }

namespace Blockchain

attribute [local instance] Arithmetic.binary64

/-- The genesis block is replaced by one whose difficulty is NaN. -/
theorem tip_lost_to_nan : ¬∀ c ∈ Transition.states (fun c call => (exec headerEnv c call).2) (genesis 0)
    [.replaceLastBlock { plainBlock 0 "a0" "0" with difficulty := .nan false } 0], c.HashLinked headerEnv := by
  intro h
  exact (h _ (Transition.foldl_mem_states _ _ _)).tip.1 (by decide +kernel)

end Blockchain

end NexusLedger
