import NexusLedger.Theorems.Accounting
import NexusLedger.Theorems.Settlement
import NexusLedger.Network

/-! Balances of nodes that share a chain. A node credits the coinbase of a block only when it mined the block
    itself, so two nodes agree as long as neither takes over a block of the other. -/

namespace NexusLedger
open Blockchain

section
set_option linter.unusedSectionVars false
variable [Arithmetic]

/-! ### Chains without a block of each other -/

namespace Blockchain
variable {env : Env} {c d : Blockchain}

/-- The stored heights and hashes. -/
def places (c : Blockchain) : List (Int32 × CString) := c.rows.map fun r => (r.height, r.hash)

/-- The two chains store the same block hashes at the same heights. -/
def SameChain (c d : Blockchain) : Prop := ∀ p, p ∈ c.places ↔ p ∈ d.places

def hashes (c : Blockchain) : List CString := c.rows.map (·.hash)

/-- The hashes of the blocks above genesis that were stored with transactions, as mined blocks are. -/
def minedHashes (c : Blockchain) : List CString :=
  (c.rows.filter fun r => decide (1 ≤ r.height.toInt ∧ 0 < r.txCount)).map (·.hash)

/-- Neither chain stores a block that the other one mined. -/
def Apart (c d : Blockchain) : Prop := (∀ x ∈ c.minedHashes, x ∉ d.hashes) ∧ ∀ x ∈ d.minedHashes, x ∉ c.hashes

/-- The call hands over a block that the other chain mined, or a mined block that the other chain stores. -/
def Call.Crosses (k : Call) (other : Blockchain) : Prop :=
  .bind k.block.hash ∈ other.minedHashes ∨ (k.block.transactions ≠ [] ∧ .bind k.block.hash ∈ other.hashes)

theorem mem_minedHashes {x : CString} :
    x ∈ c.minedHashes ↔ ∃ r ∈ c.rows, 1 ≤ r.height.toInt ∧ 0 < r.txCount ∧ r.hash = x := by
  simp [minedHashes, and_assoc]

theorem Apart.symm (h : c.Apart d) : d.Apart c := ⟨h.2, h.1⟩

theorem apart_genesis (s t : Int64) : (genesis s).Apart (genesis t) := by
  have none : ∀ u, (genesis u).minedHashes = [] := by
    intro u
    simp [minedHashes, rows, genesis, LedgerDB.schema, genesisRow, Block.header, genesisBlock]
  constructor <;> intro x hx <;> rw [none] at hx <;> cases hx

theorem Apart.congr {e : Blockchain} (h : c.Apart d) (hrows : e.rows = c.rows) : e.Apart d := by
  unfold Apart minedHashes hashes at *
  rwa [hrows]

theorem Apart.exec {k : Call} (h : c.Apart d) (hk : c.Fits k → ¬k.Crosses d) : (c.exec env k).2.Apart d := by
  constructor
  · intro x hx hstored
    obtain ⟨r, hr, hheight, hcount, rfl⟩ := mem_minedHashes.mp hx
    rcases mem_rows_exec hr with hold | ⟨hfits, rfl⟩
    · exact h.1 _ (mem_minedHashes.mpr ⟨r, hold, hheight, hcount, rfl⟩) hstored
    · exact hk hfits (Or.inr ⟨List.ne_nil_of_length_pos hcount, hstored⟩)
  · intro x hx hstored
    obtain ⟨r, hr, rfl⟩ := List.mem_map.mp hstored
    rcases mem_rows_exec hr with hold | ⟨hfits, rfl⟩
    · exact h.2 _ hx (List.mem_map_of_mem hold)
    · exact hk hfits (Or.inl hx)

/-! ### What equal chains say about the balances -/

/-- A chain without mined blocks has confirmed nothing but the genesis transaction. -/
theorem Accounted.confirmed_eq {started : Int64} (h : c.Accounted started) (hmined : c.minedHashes = []) :
    c.db.transactions.rows.filter (·.confirmed) = [genesisTransaction started] := by
  obtain ⟨rest, hrows, hrest⟩ := h.rows
  have hnone : rest.filter (·.confirmed) = [] := by
    rw [List.filter_eq_nil_iff]
    intro t ht hconf
    obtain ⟨-, r, hr, -, hheight, hcount⟩ := hrest t ht hconf
    have hmem := mem_minedHashes.mpr ⟨r, hr, hheight, hcount, rfl⟩
    rw [hmined] at hmem
    cases hmem
  rw [hrows, List.filter_cons, if_pos (show (genesisTransaction started).confirmed = true from rfl), hnone]

/-- Its balances are those of the genesis database, which are the same whenever that was set up. -/
theorem Accounted.viewBalance_eq {started : Int64} (h : c.Accounted started) (hmined : c.minedHashes = [])
    (a : CString) : c.db.viewBalance a = (genesis 0).db.viewBalance a := by
  have hopened : (genesis started).db.viewBalance a = (genesis 0).db.viewBalance a := by
    simp only [LedgerDB.viewBalance, genesis, LedgerDB.schema, genesisTransaction, List.filter_cons, List.filter_nil,
      TransactionRow.confirmed]
    split <;> rfl
  rw [← hopened]
  exact LedgerDB.viewBalance_of_confirmed (h.confirmed_eq hmined) a

theorem hashes_of_sameChain (h : c.SameChain d) {x : CString} (hx : x ∈ c.hashes) : x ∈ d.hashes := by
  obtain ⟨r, hr, rfl⟩ := List.mem_map.mp hx
  obtain ⟨r', hr', heq⟩ := List.mem_map.mp ((h (r.height, r.hash)).mp (List.mem_map_of_mem hr))
  rw [← (Prod.mk.inj heq).2]
  exact List.mem_map_of_mem hr'

/-- Equal chains that are apart were both taken from elsewhere. -/
theorem minedHashes_of_sameChain (h : c.SameChain d) (hapart : c.Apart d) : c.minedHashes = [] := by
  rw [List.eq_nil_iff_forall_not_mem]
  intro x hx
  obtain ⟨r, hr, -, -, rfl⟩ := mem_minedHashes.mp hx
  exact hapart.1 _ hx (hashes_of_sameChain h (List.mem_map_of_mem hr))

theorem getBalance_of_sameChain {s t : Int64} (hc : c.Accounted s) (hd : d.Accounted t) (h : c.SameChain d)
    (hapart : c.Apart d) (a : String) : (c.getBalance a).1 = (d.getBalance a).1 := by
  have hback : d.SameChain c := fun p => (h p).symm
  show (c.db.getBalance a).1 = (d.db.getBalance a).1
  rw [LedgerDB.getBalance_fst, LedgerDB.getBalance_fst,
    hc.viewBalance_eq (minedHashes_of_sameChain h hapart),
    hd.viewBalance_eq (minedHashes_of_sameChain hback hapart.symm)]

end Blockchain

/-! ### Runs of the network -/

namespace Node
variable {env : Env} {n : Node} {e : Event} {other : Blockchain}

/-- No block that the step stores is one that the other chain mined, and none that it mined is stored there. -/
def Clear (env : Env) (n : Node) (e : Event) (other : Blockchain) : Prop :=
  ∀ k ∈ calls (n.react env e).2, k.1.Fits k.2 → ¬k.2.Crosses other

/-- From an honest message a node stores headers, which cross only blocks that the other chain mined. -/
theorem clear_of_message {now : Int64} {msg : Message} (he : msg.Honest) (hmined : other.minedHashes = []) :
    n.Clear env (.message now msg) other := by
  have header : ∀ k : Blockchain × Call, k.2.block.transactions = [] → ¬k.2.Crosses other := by
    intro k htxs hk
    rcases hk with hk | ⟨hne, -⟩
    · rw [hmined] at hk
      cases hk
    · exact hne htxs
  intro k hk hfits
  cases (react_calls env n _).2 k hk with
  | extended now htype hread hext => exact header (_, .addBlock _) (he.block htype hread).1
  | competed now htype hread hcomp => exact header (_, .replaceLastBlock _ now) (he.block htype hread).1
  | received now htype hpayload hbj hread habove =>
    exact header (_, .addBlock _) (Block.transactions_of_readHeader hread)

theorem step_apart (h : n.blockchain.Apart other) (hclear : n.Clear env e other) :
    (n.step env e).blockchain.Apart other :=
  (step_traced env n e).keeps (P := fun c => c.Apart other) (fun hrows hc => hc.congr hrows)
    (fun k hk hc => hc.exec (hclear k hk)) h

end Node

namespace Network
variable {ι : Type} {env : Env} {s : Network ι} {a : Action ι} {started : ι → Int64}

/-- Every node accounts for its chain, and every message that was sent is honest. -/
structure Honest (started : ι → Int64) (s : Network ι) : Prop where
  nodes : ∀ i, (s.nodes i).Accounted (started i)
  sent : ∀ x ∈ s.sent, x.message.Honest

theorem honest_start (nodeId : ι → String) (started : ι → Int64) : (start nodeId started).Honest started where
  nodes i := Node.accounted_start (nodeId i) (started i)
  sent _ hx := absurd hx List.not_mem_nil

theorem post_honest {x : Effect} (h : x.Honest) (clients : List ι) (i peer : ι) :
    ∀ m ∈ post clients i peer x, m.message.Honest := by
  intro m hm
  cases x with
  | broadcast msg =>
    obtain ⟨j, -, rfl⟩ := List.mem_map.mp hm
    exact h
  | reply msg =>
    rw [List.mem_singleton.mp hm]
    exact h
  | call before k => cases hm

theorem Honest.event (h : s.Honest started) {i peer : ι} {e : Event} (he : s.event? a = some (i, peer, e)) :
    e.Honest := by
  cases a with
  | own i peer clients e =>
    cases he
    trivial
  | deliver k clients now =>
    obtain ⟨x, hx, heq⟩ := Option.map_eq_some_iff.mp he
    cases heq
    exact h.sent x (List.mem_of_getElem? hx)

/-- The condition on a step, for two nodes: when one of them acts, it stores no block of the other. -/
def Separate (env : Env) (i j : ι) (s : Network ι) (a : Action ι) : Prop :=
  ∀ k peer e, s.event? a = some (k, peer, e) →
    (k = i → (s.nodes i).Clear env e (s.nodes j).blockchain) ∧ (k = j → (s.nodes j).Clear env e (s.nodes i).blockchain)

theorem separate_of_unmined {i j : ι} (h : s.Honest started) (hi : (s.nodes i).blockchain.minedHashes = [])
    (hj : (s.nodes j).blockchain.minedHashes = [])
    (ha : ∀ k peer clients e, a = .own k peer clients e → k ≠ i ∧ k ≠ j) :
    s.Separate env i j a := by
  intro k peer e hev
  cases a with
  | own =>
    cases hev
    obtain ⟨hki, hkj⟩ := ha _ _ _ _ rfl
    exact ⟨fun hk => absurd hk hki, fun hk => absurd hk hkj⟩
  | deliver m clients now =>
    obtain ⟨x, hx, heq⟩ := Option.map_eq_some_iff.mp hev
    cases heq
    have hmsg := h.sent x (List.mem_of_getElem? hx)
    exact ⟨fun _ => Node.clear_of_message hmsg hj, fun _ => Node.clear_of_message hmsg hi⟩

variable [DecidableEq ι]

theorem step_of_event {i peer : ι} {e : Event} (h : s.event? a = some (i, peer, e)) :
    s.step env a =
      { nodes := Function.update s.nodes i ((s.nodes i).step env e)
        sent := s.sent ++ ((s.nodes i).react env e).2.flatMap (post (clients a) i peer) } := by
  simp only [step, h]
  rfl

theorem step_of_none (h : s.event? a = none) : s.step env a = s := by
  simp only [step, h]

/-- Only the node that acts changes. -/
theorem nodes_step (env : Env) (s : Network ι) (a : Action ι) (i : ι) :
    (s.step env a).nodes i = s.nodes i ∨
      ∃ peer e, s.event? a = some (i, peer, e) ∧ (s.step env a).nodes i = (s.nodes i).step env e := by
  rcases hev : s.event? a with _ | ⟨j, peer, e⟩
  · rw [step_of_none hev]
    exact Or.inl rfl
  · rw [step_of_event hev]
    by_cases hij : i = j
    · subst hij
      exact Or.inr ⟨peer, e, rfl, Function.update_self _ _ _⟩
    · exact Or.inl (Function.update_of_ne hij _ _)

/-- What is new was sent by the node that acted. -/
theorem mem_sent_step {x : Envelope ι} (hx : x ∈ (s.step env a).sent) :
    x ∈ s.sent ∨ ∃ i peer e, s.event? a = some (i, peer, e) ∧
      ∃ y ∈ ((s.nodes i).react env e).2, x ∈ post (clients a) i peer y := by
  rcases hev : s.event? a with _ | ⟨i, peer, e⟩
  · rw [step_of_none hev] at hx
    exact Or.inl hx
  · rw [step_of_event hev] at hx
    exact (List.mem_append.mp hx).imp_right fun hx => ⟨i, peer, e, rfl, List.mem_flatMap.mp hx⟩

theorem step_honest (env : Env) (s : Network ι) (a : Action ι) (h : s.Honest started) :
    (s.step env a).Honest started := by
  refine ⟨fun i => ?_, fun x hx => ?_⟩
  · rcases nodes_step env s a i with hold | ⟨peer, e, hev, hnew⟩
    · rw [hold]
      exact h.nodes i
    · rw [hnew]
      exact Node.step_accounted env (h.nodes i) (h.event hev)
  · rcases mem_sent_step hx with hx | ⟨i, peer, e, hev, y, hy, hx⟩
    · exact h.sent x hx
    · exact post_honest (Node.react_honest env (h.nodes i) (h.event hev) y hy) _ i peer x hx

theorem step_apart {i j : ι} (hne : i ≠ j) (h : (s.nodes i).blockchain.Apart (s.nodes j).blockchain)
    (hsep : s.Separate env i j a) :
    ((s.step env a).nodes i).blockchain.Apart ((s.step env a).nodes j).blockchain := by
  rcases hev : s.event? a with _ | ⟨k, peer, e⟩
  · rw [step_of_none hev]
    exact h
  · obtain ⟨hi, hj⟩ := hsep k peer e hev
    rw [step_of_event hev]
    by_cases hki : k = i
    · subst hki
      simp only [Function.update_self, Function.update_of_ne (Ne.symm hne)]
      exact Node.step_apart h (hi rfl)
    · by_cases hkj : k = j
      · subst hkj
        simp only [Function.update_self, Function.update_of_ne hne]
        exact (Node.step_apart h.symm (hj rfl)).symm
      · simp only [Function.update_of_ne (Ne.symm hki), Function.update_of_ne (Ne.symm hkj)]
        exact h

/-- In every run of any number of honest nodes, two of them that store the same block hashes at the same heights
    have the same balances, as long as neither comes to store a block of the other. -/
theorem chain_determines_ledger (env : Env) (nodeId : ι → String) (started : ι → Int64) (actions : List (Action ι))
    (i j : ι) (h : ∀ x ∈ Transition.steps (step env) (start nodeId started) actions, x.1.Separate env i j x.2) :
    ∀ s ∈ Transition.states (step env) (start nodeId started) actions,
      (s.nodes i).blockchain.SameChain (s.nodes j).blockchain →
        ∀ a : String, ((s.nodes i).blockchain.getBalance a).1 = ((s.nodes j).blockchain.getBalance a).1 := by
  intro s hs hsame a
  by_cases hij : i = j
  · rw [hij]
  · have hhonest : s.Honest started :=
      Transition.invariant (I := Honest started) (step_honest env) (honest_start nodeId started) s hs
    have hapart : (s.nodes i).blockchain.Apart (s.nodes j).blockchain :=
      Transition.invariant_of_steps (I := fun s => (s.nodes i).blockchain.Apart (s.nodes j).blockchain)
        (fun s a hsep hapart => step_apart hij hapart hsep) (apart_genesis _ _) h s hs
    exact getBalance_of_sameChain (hhonest.nodes i).chain (hhonest.nodes j).chain hsame hapart a

end Network

end

namespace Network

attribute [local instance] Arithmetic.binary64

/-- A node mines the sample block and sends it to two others. -/
def sampleActions : List (Action String) :=
  Node.sampleRound.map (.own "alpha" "beta" ["beta", "gamma"]) ++ [.deliver 0 [] 1700143364, .deliver 1 [] 1700143364]

/-- The network after the sample run. -/
def sampleNetwork : Network String := sampleActions.foldl (step Node.sampleEnv) (start id fun _ => 1700000000)

/-- All three store the same hashes at the same heights, and the miner has another balance than a receiver. -/
theorem sampleNetwork_compared :
    (sampleNetwork.nodes "alpha").blockchain.places = (sampleNetwork.nodes "beta").blockchain.places ∧
      (sampleNetwork.nodes "beta").blockchain.places = (sampleNetwork.nodes "gamma").blockchain.places ∧
      ((sampleNetwork.nodes "alpha").blockchain.getBalance "alpha").1 ≠
        ((sampleNetwork.nodes "beta").blockchain.getBalance "alpha").1 := by
  decide +kernel

/-- The two receivers take the block from the miner, and none from each other. -/
theorem chain_determines_ledger_sampleActions :
    ((sampleNetwork.nodes "beta").blockchain.getBalance "alpha").1 =
      ((sampleNetwork.nodes "gamma").blockchain.getBalance "alpha").1 := by
  have hunmined : ∀ x ∈ Transition.steps (step Node.sampleEnv) (start id fun _ => 1700000000) sampleActions,
      (x.1.nodes "beta").blockchain.minedHashes = [] ∧ (x.1.nodes "gamma").blockchain.minedHashes = [] := by
    decide +kernel
  refine chain_determines_ledger Node.sampleEnv id (fun _ => 1700000000) sampleActions "beta" "gamma" (fun x hx => ?_)
    sampleNetwork (Transition.foldl_mem_states _ _ _) (fun p => by rw [sampleNetwork_compared.2.1]) "alpha"
  have hhonest : x.1.Honest fun _ => 1700000000 :=
    Transition.invariant_steps (I := Honest fun _ => 1700000000) (step_honest Node.sampleEnv)
      (honest_start id fun _ => 1700000000) x hx
  refine separate_of_unmined hhonest (hunmined x hx).1 (hunmined x hx).2 fun k peer clients e hown => ?_
  have hk : k = "alpha" := by
    have hmem := Transition.snd_mem_of_mem_steps _ x hx
    simp only [hown, sampleActions, List.mem_append, List.mem_map, List.mem_cons, reduceCtorEq, List.not_mem_nil,
      or_false] at hmem
    obtain ⟨_, -, heq⟩ := hmem
    cases heq
    rfl
  subst hk
  decide

/-- The miner has the reward of a block whose header the others store; they do not know of it. -/
theorem header_not_credited :
    ¬∀ s ∈ Transition.states (step Node.sampleEnv) (start id fun _ => 1700000000) sampleActions,
      (s.nodes "alpha").blockchain.SameChain (s.nodes "beta").blockchain →
        ∀ a : String, ((s.nodes "alpha").blockchain.getBalance a).1 = ((s.nodes "beta").blockchain.getBalance a).1 := by
  intro h
  obtain ⟨hplaces, -, hbalances⟩ := sampleNetwork_compared
  exact hbalances (h sampleNetwork (Transition.foldl_mem_states _ _ _) (fun p => by rw [hplaces]) "alpha")

end Network

end NexusLedger
