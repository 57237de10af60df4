import NexusLedger.Theorems.Heights
import NexusLedger.Theorems.ProofOfWork

/-! A block that is made on one tip and submitted on another. What stands below a row does not change while the
    row stands, so a stale block gets in only over a block that took the hash of its predecessor to a lower
    place. -/

namespace NexusLedger
open Blockchain

section
set_option linter.unusedSectionVars false
variable [Arithmetic]

/-! ### Rows under an operation -/

namespace Blockchain
variable {env : Env} {c d e : Blockchain} {b : Block} {op : Operation} {k : Call} {p : List BlockRow}

theorem operate_rows (h : ∀ k, op ≠ .call k) : (operate env c op).rows = c.rows := by
  cases op with
  | call k => exact absurd rfl (h k)
  | removeFromMempool txHash => rfl
  | _ => simp [operate, rows]

/-- An empty blocks table takes no block again. -/
theorem not_fits_of_nil (h : c.rows = []) (k : Call) : ¬c.Fits k := by
  have htip : ∀ r, c.tip ≠ some r := by
    intro r hr
    have hmem := (tip_eq_some_iff.mp hr).1
    rw [h] at hmem
    cases hmem
  cases k with
  | addBlock b =>
    intro happends
    have habove := happends.above
    rw [getHeight_of_nil h] at habove
    obtain ⟨tip, hr, -⟩ := happends.follows habove
    exact htip tip hr
  | replaceLastBlock b now =>
    rintro ⟨hcomp, -⟩
    obtain ⟨tip, hr, -⟩ := hcomp.prevHash
    exact htip tip hr

/-- The blocks table is in chain order, or a replacement has emptied it. -/
def Ordered (c : Blockchain) : Prop := c.rows = [] ∨ c.Chained

theorem Ordered.chained (h : c.Ordered) (hne : c.rows ≠ []) : c.Chained := h.resolve_left hne

theorem exec_rows_of_nil (env : Env) (h : c.rows = []) (k : Call) : (c.exec env k).2.rows = [] := by
  refine List.eq_nil_iff_forall_not_mem.mpr fun r hr => ?_
  rcases mem_rows_exec hr with hr | ⟨hk, -⟩
  · rw [h] at hr
    cases hr
  · exact not_fits_of_nil h k hk

theorem operate_rows_of_nil (env : Env) (h : c.rows = []) (op : Operation) : (operate env c op).rows = [] := by
  by_cases hcall : ∃ k, op = .call k
  · obtain ⟨k, rfl⟩ := hcall
    exact exec_rows_of_nil env h k
  · exact (operate_rows (not_exists.mp hcall)).trans h

theorem Ordered.operate (h : c.Ordered) (op : Operation) : (operate env c op).Ordered := by
  rcases h with hnil | h
  · exact Or.inl (operate_rows_of_nil env hnil op)
  · by_cases hcall : ∃ k, op = .call k
    · obtain ⟨k, rfl⟩ := hcall
      by_cases hempties : c.Empties k
      · exact Or.inl (rows_of_empties hempties)
      · exact Or.inr (h.exec hempties)
    · exact Or.inr (h.congr (operate_rows (not_exists.mp hcall)))

theorem rows_of_fits (env : Env) (h : c.Fits k) : (c.exec env k).2.rows = (c.base k).rows ++ [k.block.row] := by
  cases k with
  | addBlock b => exact (addBlock_of_appends h).2.1
  | replaceLastBlock b now => exact (replaceLastBlock_of_fresh h.1 h.2).2

theorem prefix_base (hc : c.Ordered) (k : Call) : (c.base k).rows <+: c.rows := by
  cases k with
  | addBlock b => exact List.prefix_refl _
  | replaceLastBlock b now =>
    show c.below <+: c.rows
    rcases hc with hnil | hc
    · rw [below, hnil]
      exact List.prefix_refl _
    · rw [hc.below_eq]
      exact List.dropLast_prefix _

/-- A refused call adds nothing; it may have dropped the tip. -/
theorem prefix_of_not_fits (env : Env) (hc : c.Ordered) (h : ¬c.Fits k) : (c.exec env k).2.rows <+: c.rows := by
  cases k with
  | addBlock b =>
    rw [exec, addBlock_of_not_appends h]
  | replaceLastBlock b now =>
    rw [exec]
    by_cases hcomp : c.Competes b
    · rw [replaceLastBlock_of_not_fresh hcomp fun hf => h ⟨hcomp, hf⟩]
      exact prefix_base hc (.replaceLastBlock b now)
    · rw [replaceLastBlock_of_not_competes hcomp]

/-- The rows up to some row were there before, or the row is new and stands on the base of its call. -/
theorem prefix_operate (hc : c.Ordered) (hp : p <+: (operate env c op).rows) :
    p <+: c.rows ∨ ∃ k, op = .call k ∧ c.Fits k ∧ p = (c.base k).rows ++ [k.block.row] := by
  by_cases hcall : ∃ k, op = .call k
  · obtain ⟨k, rfl⟩ := hcall
    by_cases hk : c.Fits k
    · rw [operate, rows_of_fits env hk, List.prefix_concat_iff] at hp
      rcases hp with hp | hp
      · exact Or.inr ⟨k, rfl, hk, hp⟩
      · exact Or.inl (hp.trans (prefix_base hc k))
    · exact Or.inl (hp.trans (prefix_of_not_fits env hc hk))
  · rw [operate_rows (not_exists.mp hcall)] at hp
    exact Or.inl hp

/-! ### Where a block is stale -/

/-- Rows that take the block although the last one of them, whose hash it names, is not right below it. -/
def Stale (b : Block) (rows : List BlockRow) : Prop :=
  ∃ last, rows.getLast? = some last ∧ last.hash = .bind b.prevHash ∧ last.height.toInt + 1 < b.height.toInt ∧
    CString.bind b.hash ∉ rows.map (·.hash)

/-- An accepted block that carries the hash of the predecessor to a place below it, while the block itself is
    not stored. -/
def Undercuts (b : Block) (c : Blockchain) : Operation → Prop
  | .call k =>
    c.Fits k ∧ CString.bind k.block.hash = .bind b.prevHash ∧ k.block.height.toInt + 1 < b.height.toInt ∧
      CString.bind b.hash ∉ ((c.base k).rows ++ [k.block.row]).map (·.hash)
  | _ => False

theorem stale_concat_iff {rows : List BlockRow} {r : BlockRow} :
    Stale b (rows ++ [r]) ↔ r.hash = .bind b.prevHash ∧ r.height.toInt + 1 < b.height.toInt ∧
      CString.bind b.hash ∉ (rows ++ [r]).map (·.hash) := by
  simp only [Stale, List.getLast?_concat, Option.some.injEq, exists_eq_left']

/-- Nowhere on the way up the chain is the block stale. -/
structure Current (b : Block) (c : Blockchain) : Prop where
  ordered : c.Ordered
  fresh : ∀ p, p <+: c.rows → ¬Stale b p

theorem Current.operate (h : c.Current b) (hop : ¬c.Undercuts b op) : (operate env c op).Current b where
  ordered := h.ordered.operate op
  fresh p hp hstale := by
    rcases prefix_operate h.ordered hp with hold | ⟨k, rfl, hk, rfl⟩
    · exact h.fresh p hold hstale
    · exact hop ⟨hk, stale_concat_iff.mp hstale⟩

theorem stale_of_undercuts (env : Env) (h : c.Undercuts b op) : Stale b (operate env c op).rows := by
  cases op with
  | call k =>
    obtain ⟨hk, hstale⟩ := h
    rw [operate, rows_of_fits env hk]
    exact stale_concat_iff.mpr hstale
  | _ => exact h.elim

/-! ### The template -/

/-- The block of `createBlock`, with a nonce that the search tried. -/
def minedBlock (env : Env) (c : Blockchain) (miner : String) (now : Int64) (nonce : Nat) : Block :=
  (c.createBlock env miner now).1.withNonce env nonce

variable {miner : String} {now : Int64} {nonce : Nat} {old : BlockRow}

theorem createBlock_place (env : Env) (hc : c.Chained) (hold : c.tip = some old) (miner : String) (now : Int64) :
    (c.createBlock env miner now).1.height = c.getHeight + 1 ∧
      (c.createBlock env miner now).1.prevHash = old.hash.val := by
  have hnonneg : 0 ≤ c.getHeight := Int32.le_iff_toInt_le.mpr hc.getHeight_nonneg
  obtain ⟨last, hlast⟩ := getBlock_of_tip env hold
  obtain ⟨tip, htip, hhash, -⟩ := getBlock_tip hlast
  rw [hold] at htip
  cases htip
  rw [hhash]
  simp only [createBlock, hnonneg, if_true, hlast, and_self]

theorem minedBlock_place (env : Env) (hc : c.Chained) (hold : c.tip = some old) (miner : String) (now : Int64)
    (nonce : Nat) :
    (c.minedBlock env miner now nonce).height = old.height + 1 ∧
      (c.minedBlock env miner now nonce).prevHash = old.hash.val := by
  obtain ⟨hheight, hprev⟩ := createBlock_place env hc hold miner now
  exact ⟨hheight.trans (congrArg (· + 1) (tip_eq_some_iff.mp hold).2.symm), hprev⟩

theorem toInt_succ_le (h : Int32) : (h + 1).toInt ≤ h.toInt + 1 := by
  by_cases hmax : h = Int32.maxValue
  · rw [hmax]
    decide
  · exact le_of_eq ((Node.toInt_succ_iff h).mpr hmax)

/-- On its own chain the block is not stale, nor is it on any part of it. -/
theorem current_createBlock (env : Env) (hc : c.Chained) (miner : String) (now : Int64) (nonce : Nat) :
    (c.createBlock env miner now).2.Current (c.minedBlock env miner now nonce) := by
  have hrows : (c.createBlock env miner now).2.rows = c.rows := by simp [rows]
  obtain ⟨old, hold⟩ := exists_tip hc.nonempty
  obtain ⟨hheight, hprev⟩ := minedBlock_place env hc hold miner now nonce
  refine ⟨Or.inr (hc.congr hrows), fun p hp => ?_⟩
  rintro ⟨last, hlast, hhash, hlow, -⟩
  rw [hrows] at hp
  rw [hprev, CString.bind_of_val] at hhash
  have hsame := LedgerDB.eq_of_hash (hp.subset (List.mem_of_getLast? hlast)) (tip_eq_some_iff.mp hold).1 hhash
  rw [hsame, hheight] at hlow
  exact absurd (toInt_succ_le old.height) (not_le_of_gt hlow)

/-! ### Submission -/

/-- When the block is taken, then on a tip with the height and the hash that the tip of `c` had, right below
    the block. -/
def SubmitsOn (c : Blockchain) (b : Block) (e : Blockchain) : Prop :=
  (e.addBlock b).1 = true →
    ∃ old new, c.tip = some old ∧ e.tip = some new ∧ new.height = old.height ∧ new.hash = old.hash ∧
      b.height.toInt = new.height.toInt + 1 ∧ (e.addBlock b).2.getHeight.toInt = e.getHeight.toInt + 1

/-- On the rows of `c` a block whose hash is free is taken. -/
def TakesOn (c : Blockchain) (b : Block) (e : Blockchain) : Prop :=
  e.rows = c.rows → CString.bind b.hash ∉ c.rows.map (·.hash) → (e.addBlock b).1 = true

theorem appends_of_stale (he : e.Ordered) (hvalued : b.difficulty.isNaN = false)
    (hprev : (CString.bind b.prevHash).val = b.prevHash) (h : Stale b e.rows) :
    e.Appends b ∧ ∃ new, e.tip = some new ∧ new.height.toInt + 1 < b.height.toInt := by
  obtain ⟨new, hnew, hhash, hlow, hfresh⟩ := h
  have hmem := List.mem_of_getLast? hnew
  rw [(he.chained (List.ne_nil_of_mem hmem)).getLast?_eq] at hnew
  have hheight := (tip_eq_some_iff.mp hnew).2
  refine ⟨⟨?_, fun _ => ⟨new, hnew, ?_⟩, hvalued, hfresh⟩, new, hnew, hlow⟩
  · rw [← hheight]
    omega
  · rw [hhash, hprev]

theorem submitsOn_iff (env : Env) (hc : c.Chained) (he : e.Ordered) :
    SubmitsOn c (c.minedBlock env miner now nonce) e ↔ ¬Stale (c.minedBlock env miner now nonce) e.rows := by
  obtain ⟨old, hold⟩ := exists_tip hc.nonempty
  obtain ⟨hheight, hprev⟩ := minedBlock_place env hc hold miner now nonce
  constructor
  · intro h hstale
    have hval : (CString.bind (c.minedBlock env miner now nonce).prevHash).val =
        (c.minedBlock env miner now nonce).prevHash := by
      rw [hprev, CString.bind_of_val]
    obtain ⟨happends, new, hnew, hlow⟩ := appends_of_stale he rfl hval hstale
    obtain ⟨-, new', -, hnew', -, -, hsucc, -⟩ := h (addBlock_accepts_iff.mpr happends)
    rw [hnew] at hnew'
    cases hnew'
    omega
  · intro hstale haccepted
    have happends := addBlock_accepts_iff.mp haccepted
    have habove := happends.above
    have he : e.Chained := he.chained fun hnil => not_fits_of_nil hnil (.addBlock _) happends
    have hnonneg := he.getHeight_nonneg
    obtain ⟨new, hnew, hhash⟩ := happends.follows (by omega)
    have htip := (tip_eq_some_iff.mp hnew).2
    have hsame : new.hash = old.hash := CString.ext (hhash.trans hprev)
    have hsucc : (c.minedBlock env miner now nonce).height.toInt = new.height.toInt + 1 := by
      by_contra hne
      refine hstale ⟨new, he.getLast?_eq.trans hnew, ?_, ?_, happends.fresh⟩
      · rw [hprev, CString.bind_of_val, hsame]
      · rw [htip] at hne ⊢
        omega
    have hold' : (old.height + 1).toInt = old.height.toInt + 1 := by
      refine (Node.toInt_succ_iff _).mpr fun hmax => ?_
      rw [hheight, hmax] at habove
      have hmin : (Int32.maxValue + 1).toInt = -2147483648 := by decide
      omega
    refine ⟨old, new, hold, hnew, ?_, hsame, hsucc, ?_⟩
    · rw [hheight, hold'] at hsucc
      exact Int32.toInt_inj.mp (by omega)
    · rw [getHeight_of_appends happends, hsucc, htip]

theorem takesOn_of_lt_max (env : Env) (hc : c.Chained)
    (h : c.getHeight = Int32.maxValue → CString.bind (c.minedBlock env miner now nonce).hash ∈ c.rows.map (·.hash)) :
    TakesOn c (c.minedBlock env miner now nonce) e := by
  intro hrows hfresh
  obtain ⟨old, hold⟩ := exists_tip hc.nonempty
  obtain ⟨hmem, htip⟩ := tip_eq_some_iff.mp hold
  obtain ⟨hheight, hprev⟩ := minedBlock_place env hc hold miner now nonce
  refine addBlock_accepts_iff.mpr ⟨?_, fun _ => ⟨old, tip_eq_some_iff.mpr ⟨hrows ▸ hmem, ?_⟩, hprev.symm⟩, rfl,
    hrows ▸ hfresh⟩
  · rw [getHeight_congr hrows, hheight, htip, (Node.toInt_succ_iff _).mpr fun hmax => hfresh (h hmax)]
    omega
  · rw [getHeight_congr hrows, htip]

/-- Above the largest `int` there is no height for the block. -/
theorem stored_of_takesOn (env : Env) (hc : c.Chained) (hrows : e.rows = c.rows)
    (h : TakesOn c (c.minedBlock env miner now nonce) e) (hmax : c.getHeight = Int32.maxValue) :
    CString.bind (c.minedBlock env miner now nonce).hash ∈ c.rows.map (·.hash) := by
  by_contra hfresh
  have habove := (addBlock_accepts_iff.mp (h hrows hfresh)).above
  obtain ⟨old, hold⟩ := exists_tip hc.nonempty
  rw [(minedBlock_place env hc hold miner now nonce).1, (tip_eq_some_iff.mp hold).2, getHeight_congr hrows, hmax] at habove
  revert habove
  decide

/-- An empty chain takes no template. -/
theorem ne_nil_of_takesOn (hrows : e.rows = c.rows) (h : TakesOn c b e) : c.rows ≠ [] := by
  intro hnil
  exact not_fits_of_nil (hrows.trans hnil) (.addBlock b) (addBlock_accepts_iff.mp (h hrows (by simp [hnil])))

theorem ordered_of_mem_states {started : Int64} {past : List Operation}
    (hc : c ∈ Transition.states (operate env) (genesis started) past) : c.Ordered :=
  Transition.invariant (I := Ordered) (fun _ op h => h.operate op) (Or.inr (chained_genesis started)) c hc

/-- Whatever happens between a template and its submission, the block goes on the tip that it was made for or
    is refused, and on unchanged rows it is taken unless its hash is stored: exactly when the template was made on a
    block, no operation in between undercuts it, and that block was not at the largest `int`. -/
theorem no_stale_block_iff (env : Env) {started : Int64} {past : List Operation}
    (hc : c ∈ Transition.states (operate env) (genesis started) past) (miner : String) (now : Int64) (nonce : Nat)
    (between : List Operation) :
    (∀ e ∈ Transition.states (operate env) (c.createBlock env miner now).2 between,
      SubmitsOn c (c.minedBlock env miner now nonce) e ∧ TakesOn c (c.minedBlock env miner now nonce) e) ↔
    c.rows ≠ [] ∧
    (∀ x ∈ Transition.steps (operate env) (c.createBlock env miner now).2 between,
      ¬x.1.Undercuts (c.minedBlock env miner now nonce) x.2) ∧
    (c.getHeight = Int32.maxValue → CString.bind (c.minedBlock env miner now nonce).hash ∈ c.rows.map (·.hash)) := by
  have hordered := ordered_of_mem_states hc
  constructor
  · intro h
    have htakes := (h _ (Transition.mem_states_self _ _ _)).2
    have hne : c.rows ≠ [] := ne_nil_of_takesOn (by simp [rows]) htakes
    have hchained := hordered.chained hne
    have hcurrent := current_createBlock env hchained miner now nonce
    refine ⟨hne, fun x hx hunder => ?_, stored_of_takesOn env hchained (by simp [rows]) htakes⟩
    have hafter := Transition.step_mem_states _ x hx
    have hx' : (operate env x.1 x.2).Ordered :=
      Transition.invariant (I := Ordered) (fun _ op hd => hd.operate op) hcurrent.ordered _ hafter
    exact (submitsOn_iff env hchained hx').mp (h _ hafter).1 (stale_of_undercuts env hunder)
  · rintro ⟨hne, hsteps, hmax⟩ e he
    have hchained := hordered.chained hne
    have hecurrent : e.Current (c.minedBlock env miner now nonce) :=
      Transition.invariant_of_steps (I := Current (c.minedBlock env miner now nonce)) (fun _ op hop hd => hd.operate hop)
        (current_createBlock env hchained miner now nonce) hsteps e he
    exact ⟨(submitsOn_iff env hchained hecurrent.ordered).mpr (hecurrent.fresh e.rows (List.prefix_refl _)),
      takesOn_of_lt_max env hchained hmax⟩

end Blockchain

end

namespace Blockchain

attribute [local instance] Arithmetic.binary64

/-- SHA-256 for the coinbase and the header of a template at height 6. -/
def staleEnv : Env :=
  { headerEnv with
    sha256 := fun s =>
      (List.lookup s
        [("SYSTEMalpha10001700063065", "b8a542780d0df5ff628b7e9567dd6f24ec6dbb44d53a0251c743b2cec8491465"),
          ("6a5b8a542780d0df5ff628b7e9567dd6f24ec6dbb44d53a0251c743b2cec8491465170006306504alpha",
            "0000bf8630b4f136361933c9158f97a5478f568eaf7074679415b56731bb6d06")]).getD "" }

/-- Height 5 on genesis. -/
def gapOps : List Operation := [.call (.addBlock (plainBlock 5 "a5" zeroHash))]

def gapStore : Blockchain := gapOps.foldl (operate staleEnv) (genesis 0)

theorem no_stale_block_iff_gapStore :
    (∀ e ∈ Transition.states (operate staleEnv) (gapStore.createBlock staleEnv "alpha" 1700063065).2 [.cleanMempool],
      SubmitsOn gapStore (gapStore.minedBlock staleEnv "alpha" 1700063065 0) e ∧
        TakesOn gapStore (gapStore.minedBlock staleEnv "alpha" 1700063065 0) e) ↔
    gapStore.rows ≠ [] ∧
    (∀ x ∈ Transition.steps (operate staleEnv) (gapStore.createBlock staleEnv "alpha" 1700063065).2 [.cleanMempool],
      ¬x.1.Undercuts (gapStore.minedBlock staleEnv "alpha" 1700063065 0) x.2) ∧
    (gapStore.getHeight = Int32.maxValue →
      CString.bind (gapStore.minedBlock staleEnv "alpha" 1700063065 0).hash ∈ gapStore.rows.map (·.hash)) :=
  no_stale_block_iff staleEnv (Transition.foldl_mem_states _ (genesis 0) gapOps) "alpha" 1700063065 0 [.cleanMempool]

/-- A template is made above height 5. A failed replacement deletes that height, a block with the same hash comes
    in at height 3, and the template of height 6 is taken on it. -/
theorem stale_block_taken :
    ¬∀ e ∈ Transition.states (operate staleEnv) (gapStore.createBlock staleEnv "alpha" 1700063065).2
        [.call (.replaceLastBlock (plainBlock 5 zeroHash zeroHash) 1700063065),
          .call (.addBlock (plainBlock 3 "a5" zeroHash))],
      SubmitsOn gapStore (gapStore.minedBlock staleEnv "alpha" 1700063065 0) e ∧
        TakesOn gapStore (gapStore.minedBlock staleEnv "alpha" 1700063065 0) e := by
  intro h
  have hsubmits := (h _ (Transition.foldl_mem_states _ _ _)).1
  obtain ⟨-, -, -, -, -, -, -, hgrows⟩ := hsubmits (by decide +kernel)
  revert hgrows
  decide +kernel

end Blockchain

end NexusLedger
