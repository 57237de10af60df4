import NexusLedger.Theorems.Provenance
import NexusLedger.Lib.Branch

/-! The chains of a network as branches of one tree. Where no two mined blocks share a hash, nodes that share a block
    share all below it, no block below a tip is ever lost, and a fork below two tips is never healed. -/

namespace NexusLedger
open Blockchain

section
set_option linter.unusedSectionVars false
variable [Arithmetic]

/-! ### A stored chain as a branch -/

/-- A header in a chain: its height is the key. -/
def headerLinks : Links Header ℤ CString where
  key h := h.height.toInt
  hash h := h.hash
  prev h := h.prevHash

/-- The blocks of the stock are told apart by their hashes, and each continues genesis or another one. -/
abbrev BlockTree (K : Header → Prop) : Prop := headerLinks.Stock (· + 1) (.bind zeroHash) 0 K

namespace Blockchain
variable {env : Env} {c d : Blockchain} {K : Header → Prop} {started begun : Int64} {r : BlockRow}

namespace Sprung

/-- The headers above genesis. -/
theorem branch (h : c.Sprung started K) : ∃ rest, c.rows = genesisRow started :: rest ∧
    headerLinks.Branch (.bind zeroHash) 0 K (genesisRow started).toHeader (rest.map (·.toHeader)) := by
  obtain ⟨rest, hrows, hrest⟩ := h.rows
  refine ⟨rest, hrows, rfl, rfl, ?_, fun x hx => ?_⟩
  · have hlinked := h.chained.linked.linked
    rw [hrows] at hlinked
    rw [← List.map_cons, List.isChain_map]
    exact hlinked
  · obtain ⟨r, hr, rfl⟩ := List.mem_map.mp hx
    exact hrest r hr

/-- Without gaps the row at a place has its height. -/
theorem height_getElem (h : c.Sprung started K) (hK : BlockTree K) (i : Nat) (hi : i < c.rows.length) :
    c.rows[i].height.toInt = i := by
  obtain ⟨rest, hrows, hbranch⟩ := h.branch
  have hkeys : c.rows.IsChain fun a b => b.height.toInt = a.height.toInt + 1 := by
    have hchain := hbranch.consecutive hK
    rw [← List.map_cons, List.isChain_map] at hchain
    rw [hrows]
    exact hchain
  induction i with
  | zero =>
    simp only [hrows, List.getElem_cons_zero]
    rfl
  | succ i ih =>
    rw [List.isChain_iff_getElem.mp hkeys i hi, ih (Nat.lt_of_succ_lt hi)]
    push_cast
    rfl

theorem gapFree (h : c.Sprung started K) (hK : BlockTree K) : c.GapFree env := by
  refine gapFree_iff.mpr fun k h0 hle => ?_
  obtain ⟨tip, htip⟩ := exists_tip h.chained.nonempty
  obtain ⟨hm, hh⟩ := tip_eq_some_iff.mp htip
  obtain ⟨j, hj, rfl⟩ := List.mem_iff_getElem.mp hm
  have htop := h.height_getElem hK j hj
  rw [hh] at htop
  have hk : k.toInt.toNat < c.rows.length := by omega
  have hkey := h.height_getElem hK _ hk
  exact ⟨_, List.getElem_mem hk, Int32.toInt_inj.mp (by omega)⟩

/-- A block of the stock that competes with the tip has a hash of its own. -/
theorem freshBelow (h : c.Sprung started K) (hK : headerLinks.Named (.bind zeroHash) K) {b : Block} (hc : c.Competes b)
    (hvalued : b.difficulty.isNaN = false) (hb : K b.header) : c.FreshBelow b := by
  obtain ⟨rest, hrows, hbranch⟩ := h.branch
  have hheaders : ((genesisRow started).toHeader :: rest.map (·.toHeader)) = c.rows.map (·.toHeader) := by
    rw [hrows, List.map_cons]
  have hlinked : headerLinks.Linked ((genesisRow started).toHeader :: rest.map (·.toHeader)) := by
    rw [hheaders]
    exact ⟨List.pairwise_map.mpr h.chained.linked.ascending, (List.isChain_map _).mpr h.chained.linked.linked⟩
  have hcomp : headerLinks.Competes ((genesisRow started).toHeader :: rest.map (·.toHeader)) b.header := by
    obtain ⟨last, hlast, hkey, hprev⟩ := h.chained.competes_of_competes hc
    exact ⟨last.toHeader, by rw [hheaders, List.getLast?_map, hlast]; rfl, hkey, hprev⟩
  have hfresh := hbranch.fresh_of_competes hK hlinked hb hcomp
  rw [hheaders, ← List.map_dropLast, List.map_map] at hfresh
  refine ⟨hvalued, ?_⟩
  rw [h.chained.below_eq]
  exact hfresh

/-! ### Two chains of one tree -/

/-- A block that both chains store is the same header in both. -/
theorem header_eq_of_hash (h : c.Sprung started K) (hd : d.Sprung begun K)
    (hK : headerLinks.Named (.bind zeroHash) K) {r' : BlockRow} (hr : r ∈ c.rows) (hr' : r' ∈ d.rows)
    (hpos : 1 ≤ r.height.toInt) (heq : r.hash = r'.hash) : r.toHeader = r'.toHeader ∧ K r.toHeader := by
  have hstock : K r.toHeader := by
    rcases h.cases_row hr with rfl | ⟨hstock, -⟩
    · exact absurd hpos (show ¬(1 : ℤ) ≤ (0 : Int32).toInt by decide)
    · exact hstock
  refine ⟨?_, hstock⟩
  rcases hd.cases_row hr' with rfl | ⟨hstock', -⟩
  · exact absurd heq (hK.offRoot _ hstock)
  · exact hK.injective _ _ hstock hstock' heq

/-- What the one chain stores up to a common block, the other one stores too. -/
theorem exists_row_of_common (h : c.Sprung started K) (hd : d.Sprung begun K)
    (hK : headerLinks.Named (.bind zeroHash) K) {r' x : BlockRow} (hr : r ∈ c.rows) (hr' : r' ∈ d.rows)
    (hpos : 1 ≤ r.height.toInt) (heq : r.hash = r'.hash) (hx : x ∈ c.rows) (hxpos : 1 ≤ x.height.toInt)
    (hxle : x.height.toInt ≤ r.height.toInt) : ∃ y ∈ d.rows, y.toHeader = x.toHeader := by
  obtain ⟨rest, hrows, hbranch⟩ := h.branch
  obtain ⟨rest', hrows', hbranch'⟩ := hd.branch
  have hord : (genesisRow started :: rest).Pairwise fun a b => a.height.toInt < b.height.toInt :=
    hrows ▸ h.chained.linked.ascending
  -- Genesis is at height 0 in both.
  have above : ∀ {l : List BlockRow} {t : Int64} {y : BlockRow}, y ∈ genesisRow t :: l → 1 ≤ y.height.toInt → y ∈ l := by
    intro l t y hy hheight
    rcases List.mem_cons.mp hy with rfl | hy
    · exact absurd hheight (show ¬(1 : ℤ) ≤ (0 : Int32).toInt by decide)
    · exact hy
  obtain ⟨hheader, -⟩ := h.header_eq_of_hash hd hK hr hr' hpos heq
  have hr := above (hrows ▸ hr) hpos
  have hpos' : 1 ≤ r'.height.toInt := (congrArg (fun x : Header => x.height.toInt) hheader) ▸ hpos
  have hr' := above (hrows' ▸ hr') hpos'
  obtain ⟨front, l', m', hl, hm⟩ := hbranch.agree hK hbranch' (List.mem_map_of_mem hr)
    (hheader ▸ List.mem_map_of_mem hr')
  have hxmem : x.toHeader ∈ front ++ r.toHeader :: l' := hl ▸ List.mem_map_of_mem (above (hrows ▸ hx) hxpos)
  have hascending : (front ++ r.toHeader :: l').Pairwise fun a b => a.height.toInt < b.height.toInt := by
    rw [← hl, List.pairwise_map]
    exact (List.pairwise_cons.mp hord).2
  have hfront : x.toHeader ∈ front ++ r.toHeader :: m' := by
    rcases List.mem_append.mp hxmem with hx | hx
    · exact List.mem_append_left _ hx
    · rcases List.mem_cons.mp hx with hx | hx
      · exact List.mem_append_right _ (hx ▸ List.mem_cons_self)
      · have hlt := (List.pairwise_cons.mp (List.pairwise_append.mp hascending).2.1).1 _ hx
        exact absurd hxle (not_le_of_gt hlt)
  rw [← hm] at hfront
  obtain ⟨y, hy, hyx⟩ := List.mem_map.mp hfront
  exact ⟨y, hrows' ▸ List.mem_cons_of_mem _ hy, hyx⟩

/-- Two chains that share a block have the same headers up to it. -/
theorem rowAt_eq_of_common (h : c.Sprung started K) (hd : d.Sprung begun K)
    (hK : headerLinks.Named (.bind zeroHash) K) {r' : BlockRow} (hr : r ∈ c.rows) (hr' : r' ∈ d.rows)
    (hpos : 1 ≤ r.height.toInt) (heq : r.hash = r'.hash) {k : Int32} (hk : 1 ≤ k.toInt)
    (hle : k.toInt ≤ r.height.toInt) :
    (c.db.rowAt k).map (·.toHeader) = (d.db.rowAt k).map (·.toHeader) := by
  obtain ⟨hheader, -⟩ := h.header_eq_of_hash hd hK hr hr' hpos heq
  have hheight : r.height = r'.height := congrArg Header.height hheader
  have there : ∀ {e f : Blockchain} {x : BlockRow}, e.db.rowAt k = some x →
      (∃ y ∈ f.rows, y.toHeader = x.toHeader) → (f.db.rowAt k).map (·.toHeader) = some x.toHeader := by
    rintro e f x hx ⟨y, hy, hyx⟩
    obtain ⟨-, hxk⟩ := LedgerDB.rowAt_eq_some_iff.mp hx
    have hyk : y.height = k := (congrArg Header.height hyx).trans hxk
    rw [LedgerDB.rowAt_eq_some_iff.mpr ⟨hy, hyk⟩, Option.map_some, hyx]
  cases hx : c.db.rowAt k with
  | some x =>
    obtain ⟨hxm, hxk⟩ := LedgerDB.rowAt_eq_some_iff.mp hx
    exact (there hx (h.exists_row_of_common hd hK hr hr' hpos heq hxm (hxk ▸ hk) (hxk ▸ hle))).symm
  | none =>
    cases hy : d.db.rowAt k with
    | none => rfl
    | some y =>
      obtain ⟨hym, hyk⟩ := LedgerDB.rowAt_eq_some_iff.mp hy
      have hback := there hy (hd.exists_row_of_common h hK hr' hr (hheight ▸ hpos) heq.symm hym (hyk ▸ hk)
        (hheight ▸ hyk ▸ hle))
      rw [hx] at hback
      cases hback

end Sprung
end Blockchain

/-! ### Steps and runs -/

namespace Node
variable {env : Env} {n : Node} {e : Event} {K : Header → Prop} {started : Int64}

/-- No block of the stock erodes a chain. -/
theorem Sprung.keeps_step (h : n.Sprung env started K) (hK : BlockTree K) (he : Carried env K e) :
    n.blockchain.Keeps (n.step env e).blockchain := by
  refine (keeps_step_iff env n e).mpr fun herodes => ?_
  cases e with
  | own own => exact herodes
  | message now msg =>
    obtain ⟨htype, b, hread, hcomp, hstored⟩ := herodes
    exact hstored (h.chain.freshBelow hK.toNamed hcomp (valued_of_fromJson hread) (carried_newBlock he htype hread).1)

end Node

namespace Network
variable {ι : Type} [DecidableEq ι] {env : Env} {s : Network ι} {a : Action ι} {started : ι → Int64}
  {K : Header → Prop}

theorem keeps_step (h : s.Sprung env started K) (hK : BlockTree K) (a : Action ι) (i : ι) :
    (s.nodes i).blockchain.Keeps ((s.step env a).nodes i).blockchain := by
  rcases nodes_step env s a i with hold | ⟨peer, e, hev, hnew⟩
  · rw [hold]
    exact .of_rows rfl
  · rw [hnew]
    exact (h.nodes i).keeps_step hK (h.carried hev)

/-- No two blocks that are mined in the run share a hash, and none has that of genesis. -/
structure CollisionFree (env : Env) (s : Network ι) (actions : List (Action ι)) : Prop where
  distinct : ∀ g ∈ minedIn env s actions, ∀ h ∈ minedIn env s actions, g.hash = h.hash → g = h
  offGenesis : ∀ h ∈ minedIn env s actions, h.hash ≠ .bind zeroHash

theorem CollisionFree.blockTree {nodeId : ι → String} {actions : List (Action ι)}
    (h : CollisionFree env (start nodeId started) actions) :
    BlockTree (· ∈ minedIn env (start nodeId started) actions) where
  injective a b ha hb := h.distinct a ha b hb
  offRoot := h.offGenesis
  grown a ha := by
    obtain ⟨b, rfl, hworked⟩ := worked_of_minedIn nodeId actions a ha
    obtain ⟨p, ⟨hhash, hzero⟩ | hp, hprev, hheight⟩ := hworked.parent
    · refine Or.inl ⟨hprev.trans hhash, ?_⟩
      show b.height.toInt = 0 + 1
      rw [hheight, hzero]
      rfl
    · exact Or.inr ⟨p, hp, hprev, hheight⟩

theorem keeps_states {nodeId : ι → String} {actions : List (Action ι)} (hK : BlockTree
    (· ∈ minedIn env (start nodeId started) actions)) :
    (Transition.states (step env) (start nodeId started) actions).Pairwise fun s t =>
      ∀ i, (s.nodes i).blockchain.Keeps (t.nodes i).blockchain := by
  rw [Transition.pairwise_states_iff (R := fun s t : Network ι => ∀ i, (s.nodes i).blockchain.Keeps (t.nodes i).blockchain)
    fun _ _ _ h₁ h₂ i => (h₁ i).trans (h₂ i)]
  exact fun x hx i => keeps_step (Sprung.states env nodeId started actions x.1 (Transition.fst_mem_states _ x hx)) hK x.2 i

end Network

end

namespace Network

attribute [local instance] Arithmetic.binary64

/-! ### A run with a fork -/

def checksum (text : String) : Nat := text.toList.foldl (fun n c => (31 * n + c.toNat) % 10007) 0

/-- A short hash that every block meets the target with. -/
def forkEnv : Env :=
  { Node.sampleEnv with
    sha256 := fun text => "0000" ++ toString (checksum text)
    dump := fun _ => "tx" }

/-- A payment of the genesis wallet is mined. -/
def forkRound (now : Int64) : List OwnEvent :=
  [.http now (.obj [("from", .str "genesis_miner"), ("to", .str "a"), ("amount", .float 10)]), .template now,
    .submit now]

/-- Two nodes mine two blocks each, and a third one takes those of the first. -/
def forkMined : List (Action String) :=
  (forkRound 60 ++ forkRound 120).map (.own "alpha" "beta" ["beta", "gamma"]) ++
    (forkRound 60 ++ forkRound 120).map (.own "beta" "alpha" []) ++ [.deliver 1 [] 130, .deliver 3 [] 130]

/-- Then the second one hears of the last block of the first. -/
def forkActions : List (Action String) := forkMined ++ [.deliver 2 [] 140]

def forkStart : Network String := start id fun _ => 0

/-- The network when both have mined, and after the run. -/
def forkNetwork : Network String := forkMined.foldl (step forkEnv) forkStart

def forkedNetwork : Network String := forkActions.foldl (step forkEnv) forkStart

theorem minedIn_forkActions : (minedIn forkEnv forkStart forkActions).map (·.hash.val) =
    ["00002225", "00003813", "00008145", "00007400"] := by
  decide +kernel

theorem forkNetwork_forked :
    (∃ a ∈ (forkNetwork.nodes "alpha").blockchain.rows, ∃ b ∈ (forkNetwork.nodes "beta").blockchain.rows,
      a.height = 1 ∧ a.height = b.height ∧ a.hash ≠ b.hash ∧
        a.height.toInt < (forkNetwork.nodes "alpha").blockchain.getHeight.toInt ∧
        b.height.toInt < (forkNetwork.nodes "beta").blockchain.getHeight.toInt) ∧
      ∃ a ∈ (forkNetwork.nodes "alpha").blockchain.rows, ∃ b ∈ (forkNetwork.nodes "gamma").blockchain.rows,
        a.height = 2 ∧ a.hash = b.hash := by
  decide +kernel

theorem collisionFree_forkActions : CollisionFree forkEnv forkStart forkActions where
  distinct g hg h hh heq := by
    refine List.inj_on_of_nodup_map (f := fun x : Header => x.hash.val) ?_ hg hh (congrArg Subtype.val heq)
    rw [minedIn_forkActions]
    decide
  offGenesis h hh heq := by
    have hmem : zeroHash ∈ (minedIn forkEnv forkStart forkActions).map (·.hash.val) :=
      List.mem_map.mpr ⟨h, hh, by rw [heq]; decide +kernel⟩
    rw [minedIn_forkActions] at hmem
    revert hmem
    decide

end Network

section
variable [Arithmetic]

namespace Network
variable {ι : Type} [DecidableEq ι]

/-! ### The chains of a run -/

/-- In a run without hash collisions, of any number of nodes and in any order of their messages, two chains that share
    a block above genesis, at any two moments, have the same headers up to it. -/
theorem common_block_common_history (env : Env) (nodeId : ι → String) (started : ι → Int64)
    (actions : List (Action ι)) (hfree : CollisionFree env (start nodeId started) actions) :
    ∀ s ∈ Transition.states (step env) (start nodeId started) actions,
      ∀ t ∈ Transition.states (step env) (start nodeId started) actions, ∀ i j,
        ∀ a ∈ (s.nodes i).blockchain.rows, ∀ b ∈ (t.nodes j).blockchain.rows,
          1 ≤ a.height.toInt → a.hash = b.hash → a.height = b.height ∧
            ∀ k : Int32, 1 ≤ k.toInt → k.toInt ≤ a.height.toInt →
              ((s.nodes i).blockchain.db.rowAt k).map (·.toHeader) =
                ((t.nodes j).blockchain.db.rowAt k).map (·.toHeader) := by
  intro s hs t ht i j a ha b hb hpos heq
  have hi := ((Sprung.states env nodeId started actions s hs).nodes i).chain
  have hj := ((Sprung.states env nodeId started actions t ht).nodes j).chain
  have hK := hfree.blockTree
  refine ⟨congrArg Header.height (hi.header_eq_of_hash hj hK.toNamed ha hb hpos heq).1, fun k hk hle => ?_⟩
  exact hi.rowAt_eq_of_common hj hK.toNamed ha hb hpos heq hk hle

end Network

end

namespace Network

attribute [local instance] Arithmetic.binary64

/-- The third node has the block at height 1 that the first one built on. -/
theorem common_block_common_history_forkActions :
    (((forkNetwork.nodes "alpha").blockchain.db.rowAt 1).map (·.toHeader)) =
      ((forkNetwork.nodes "gamma").blockchain.db.rowAt 1).map (·.toHeader) := by
  have hmem : forkNetwork ∈ Transition.states (step forkEnv) forkStart forkActions :=
    Transition.foldl_mem_states_append (step forkEnv) forkStart forkMined _
  obtain ⟨-, a, ha, b, hb, hheight, heq⟩ := forkNetwork_forked
  exact (common_block_common_history forkEnv id (fun _ => 0) forkActions collisionFree_forkActions _ hmem _ hmem
    "alpha" "gamma" a ha b hb (hheight ▸ by decide) heq).2 1 (by decide) (hheight ▸ by decide)

end Network

section
variable [Arithmetic]

namespace Network
variable {ι : Type} [DecidableEq ι]

/-- In a run without hash collisions no node ever loses height or a block below its tip, and none has a gap. -/
theorem chains_only_grow (env : Env) (nodeId : ι → String) (started : ι → Int64) (actions : List (Action ι))
    (hfree : CollisionFree env (start nodeId started) actions) :
    ((Transition.states (step env) (start nodeId started) actions).Pairwise fun s t =>
        ∀ i, (s.nodes i).blockchain.Keeps (t.nodes i).blockchain) ∧
      ∀ s ∈ Transition.states (step env) (start nodeId started) actions, ∀ i, (s.nodes i).blockchain.GapFree env := by
  exact ⟨keeps_states hfree.blockTree, fun s hs i =>
    ((Sprung.states env nodeId started actions s hs).nodes i).chain.gapFree hfree.blockTree⟩

end Network

end

namespace Network

attribute [local instance] Arithmetic.binary64

theorem chains_only_grow_forkActions :
    (∀ i, (forkNetwork.nodes i).blockchain.Keeps (forkedNetwork.nodes i).blockchain) ∧
      ∀ i, (forkedNetwork.nodes i).blockchain.GapFree forkEnv := by
  obtain ⟨hkeeps, hgaps⟩ := chains_only_grow forkEnv id (fun _ => 0) forkActions collisionFree_forkActions
  exact ⟨Transition.rel_of_pairwise_states hkeeps, hgaps _ (Transition.foldl_mem_states _ _ _)⟩

end Network

section
variable [Arithmetic]

namespace Network
variable {ι : Type} [DecidableEq ι]

/-- In a run without hash collisions a fork below two tips is for good: from then on the two nodes share no block at
    its height or above. -/
theorem fork_is_permanent (env : Env) (nodeId : ι → String) (started : ι → Int64) (actions : List (Action ι))
    (hfree : CollisionFree env (start nodeId started) actions) :
    (Transition.states (step env) (start nodeId started) actions).Pairwise fun s t => ∀ i j,
      ∀ a ∈ (s.nodes i).blockchain.rows, ∀ b ∈ (s.nodes j).blockchain.rows, a.height = b.height → a.hash ≠ b.hash →
        a.height.toInt < (s.nodes i).blockchain.getHeight.toInt →
        b.height.toInt < (s.nodes j).blockchain.getHeight.toInt →
          ∀ r ∈ (t.nodes i).blockchain.rows, ∀ r' ∈ (t.nodes j).blockchain.rows,
            a.height.toInt ≤ r.height.toInt → r.hash ≠ r'.hash := by
  have hK := hfree.blockTree
  refine (keeps_states hK).imp_of_mem fun {s t} hs ht hkeeps i j a ha b hb hheight hne hlow hlow' r hr r' hr' hle heq => ?_
  have ha' := (hkeeps i).buried a ha hlow
  have hb' := (hkeeps j).buried b hb hlow'
  have hi := ((Sprung.states env nodeId started actions t ht).nodes i).chain
  have hj := ((Sprung.states env nodeId started actions t ht).nodes j).chain
  have hpos : 1 ≤ a.height.toInt := by
    rcases hi.cases_row ha' with rfl | ⟨-, hpos⟩
    · rcases hj.cases_row hb' with rfl | ⟨-, hpos⟩
      · exact absurd rfl hne
      · exact hheight ▸ hpos
    · exact hpos
  -- The common block would bring a common header at the height of the fork.
  have hrow := hi.rowAt_eq_of_common hj hK.toNamed hr hr' (le_trans hpos hle) heq hpos hle
  rw [LedgerDB.rowAt_eq_some_iff.mpr ⟨ha', rfl⟩, LedgerDB.rowAt_eq_some_iff.mpr ⟨hb', hheight.symm⟩, Option.map_some,
    Option.map_some, Option.some.injEq] at hrow
  exact hne (congrArg Header.hash hrow)

end Network

end

namespace Network

attribute [local instance] Arithmetic.binary64

/-- The two miners forked at height 1; after the second one hears of the first one's chain, it still shares no block
    with it. -/
theorem fork_is_permanent_forkActions :
    (forkedNetwork.nodes "alpha").blockchain.getHeight = 2 ∧
      ∀ r ∈ (forkedNetwork.nodes "alpha").blockchain.rows, ∀ r' ∈ (forkedNetwork.nodes "beta").blockchain.rows,
        1 ≤ r.height.toInt → r.hash ≠ r'.hash := by
  obtain ⟨⟨a, ha, b, hb, hone, hheight, hne, hlow, hlow'⟩, -⟩ := forkNetwork_forked
  have hfork := Transition.rel_of_pairwise_states
    (fork_is_permanent forkEnv id (fun _ => 0) forkActions collisionFree_forkActions)
  refine ⟨by decide +kernel, fun r hr r' hr' hpos => ?_⟩
  exact hfork "alpha" "beta" a ha b hb hheight hne hlow hlow' r hr r' hr' (by rw [hone]; exact hpos)

end Network

end NexusLedger
