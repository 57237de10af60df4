import NexusLedger.Theorems.Balances
import NexusLedger.Theorems.MeshRuns
import Mathlib.Logic.Relation

/-! The ways that blocks take. A node stores a block only where messages with this block lead to it from the node that
    mined it, so in a mesh blocks do not leave the nodes that connections join. -/

namespace NexusLedger

section
set_option linter.unusedSectionVars false
variable [Arithmetic]

/-- The message carries the block with this header, as its sender encodes it. -/
inductive Message.Mentions (env : Env) (msg : Message) (x : Header) : Prop
  | newBlock (b : Block) (type : msg.type = .newBlock) (payload : msg.payload = .obj b.headerMembers)
    (header : b.header = x)
  | response (bs : List Block) (type : msg.type = .blocksResponse) (payload : msg.payload = .arr (bs.map (·.toJson env)))
    (b : Block) (mem : b ∈ bs) (header : b.header = x)

/-- A message carries blocks of each stock that has what it mentions. -/
theorem Message.Carries.of_mentions {env : Env} {K K' : Header → Prop} {msg : Message} (h : msg.Carries env K)
    (hK : ∀ x, msg.Mentions env x → K x → K' x) : msg.Carries env K' where
  newBlock htype := by
    obtain ⟨b, hpayload, hb, hpos⟩ := h.newBlock htype
    exact ⟨b, hpayload, hK _ (.newBlock b htype hpayload rfl) hb, hpos⟩
  response htype := by
    obtain ⟨bs, hpayload, hbs⟩ := h.response htype
    exact ⟨bs, hpayload, fun b hb => (hbs b hb).imp_right fun hstock =>
      ⟨hK _ (.response bs htype hpayload b hb rfl) hstock.1, hstock.2⟩⟩

/-! ### In a network -/

namespace Network
variable {ι : Type} {env : Env} {s t : Network ι} {nodeId : ι → String} {started : ι → Int64} {x : Header}

/-- A message with the block was sent from one node to another. -/
def Passed (env : Env) (s : Network ι) (x : Header) (a b : ι) : Prop :=
  ∃ m ∈ s.sent, m.sender = a ∧ m.receiver = b ∧ m.message.Mentions env x

/-- What a node mines bears its id. -/
structure Labelled (nodeId : ι → String) (s : Network ι) : Prop where
  node : ∀ i, (s.nodes i).nodeId = nodeId i
  template : ∀ i t, (s.nodes i).template = some t → t.block.minedBy = nodeId i

theorem labelled_start (nodeId : ι → String) (started : ι → Int64) : (start nodeId started).Labelled nodeId where
  node _ := rfl
  template _ _ ht := nomatch ht

theorem Labelled.minedBy (h : s.Labelled nodeId) {j peer : ι} {clients : List ι} {e : OwnEvent}
    (hx : x ∈ s.mined env (.own j peer clients e)) : x.minedBy = .bind (nodeId j) := by
  obtain ⟨b, hb, rfl⟩ := List.mem_map.mp hx
  obtain ⟨k, hk, -, rfl⟩ := Node.mem_accepted.mp hb
  cases (Node.react_calls env (s.nodes j) (.own e)).2 k hk with
  | @mined now t b ht hmined hlow =>
    obtain ⟨m, hm, -⟩ := Block.search_eq_some hmined
    exact congrArg CString.bind (hm ▸ h.template j t ht)

variable [DecidableEq ι]

theorem Labelled.step (h : s.Labelled nodeId) (env : Env) (a : Action ι) : (s.step env a).Labelled nodeId where
  node i := by
    rcases nodes_step env s a i with hold | ⟨peer, e, -, hnew⟩
    · rw [hold]
      exact h.node i
    · rw [hnew, Node.step_nodeId]
      exact h.node i
  template i t ht := by
    rcases nodes_step env s a i with hold | ⟨peer, e, -, hnew⟩
    · rw [hold] at ht
      exact h.template i t ht
    · rw [hnew] at ht
      rcases Node.step_template env (s.nodes i) e with heq | heq | ⟨now, heq⟩
      · exact h.template i t (heq ▸ ht)
      · rw [heq] at ht
        cases ht
      · rw [heq] at ht
        cases ht
        exact h.node i

/-- Node `j` mines the block in the run. -/
def MinedBy (env : Env) (s : Network ι) (actions : List (Action ι)) (j : ι) (x : Header) : Prop :=
  ∃ peer clients e, ∃ t, (t, Action.own j peer clients e) ∈ Transition.steps (step env) s actions ∧
    x ∈ t.mined env (.own j peer clients e)

theorem MinedBy.minedBy {actions : List (Action ι)} {j : ι} (h : MinedBy env (start nodeId started) actions j x) :
    x.minedBy = .bind (nodeId j) := by
  obtain ⟨peer, clients, e, t, ht, hx⟩ := h
  have hlabelled : t.Labelled nodeId := Transition.invariant (I := Labelled nodeId) (fun _ a h => h.step env a)
    (labelled_start nodeId started) t (Transition.fst_mem_states _ _ ht)
  exact hlabelled.minedBy hx

theorem sent_run (env : Env) (s : Network ι) (actions : List (Action ι)) :
    s.sent <+: (actions.foldl (step env) s).sent := by
  induction actions generalizing s with
  | nil => exact List.prefix_refl _
  | cons a actions ih => exact (sent_step env s a).trans (ih (s.step env a))

/-- What came to a node of a run: it was mined by some node, and passed on to this one. -/
def Reached (env : Env) (s : Network ι) (actions : List (Action ι)) (i : ι) (x : Header) : Prop :=
  ∃ j, MinedBy env s actions j x ∧ Relation.ReflTransGen ((actions.foldl (step env) s).Passed env x) j i

/-- A step of a run, where no message is lost that was sent, and what is mined counts. -/
theorem Supplied.step_reached {actions : List (Action ι)} (s₀ : Network ι) {a : Action ι}
    (h : s.Supplied env started (Reached env s₀ actions)) (hs : (s, a) ∈ Transition.steps (Network.step env) s₀ actions) :
    (s.step env a).Supplied env started (Reached env s₀ actions) := by
  refine h.step fun i peer e he => ?_
  cases a with
  | own j peer' clients own =>
    cases he
    exact ⟨trivial, stocked_of_mined (fun x hx => ⟨i, ⟨peer, clients, own, s, hs, hx⟩, .refl⟩) rfl⟩
  | deliver k clients now =>
    obtain ⟨m, hm, heq⟩ := Option.map_eq_some_iff.mp he
    cases heq
    have hsent : m ∈ (actions.foldl (Network.step env) s₀).sent := by
      obtain ⟨before, after, hactions, hfold⟩ := Transition.exists_prefix_of_mem_steps _ _ hs
      rw [hactions, List.foldl_append, ← hfold]
      exact (sent_run env s _).subset (List.mem_of_getElem? hm)
    refine ⟨(h.sent m (List.mem_of_getElem? hm)).of_mentions fun x hx ⟨j, hj, hpath⟩ => ?_, trivial⟩
    exact ⟨j, hj, hpath.tail ⟨m, hsent, rfl, rfl, hx⟩⟩

theorem row_reached (env : Env) (nodeId : ι → String) (started : ι → Int64) (actions : List (Action ι)) (i : ι) :
    ∀ r ∈ ((actions.foldl (step env) (start nodeId started)).nodes i).blockchain.rows,
      r = genesisRow (started i) ∨ Reached env (start nodeId started) actions i r.toHeader := by
  intro r hr
  have hsupplied : (actions.foldl (step env) (start nodeId started)).Supplied env started
      (Reached env (start nodeId started) actions) :=
    Transition.invariant_of_steps (I := fun s : Network ι => s.Supplied env started _)
      (C := fun s a => (s, a) ∈ Transition.steps (step env) (start nodeId started) actions)
      (fun s a hs h => h.step_reached _ hs) (supplied_start env nodeId started) (fun _ hx => hx) _
      (Transition.foldl_mem_states _ _ _)
  exact ((hsupplied.nodes i).chain.cases_row hr).imp_right And.left

/-- Whatever the interleaving: a block above genesis that a node stores was mined by some node, whose id it bears, and
    there is a chain of messages from that node to this one, each of which carries the very block. -/
theorem stored_blocks_travel (env : Env) (nodeId : ι → String) (started : ι → Int64) (actions : List (Action ι)) (i : ι) :
    let s := actions.foldl (step env) (start nodeId started)
    ∀ r ∈ (s.nodes i).blockchain.rows, r = genesisRow (started i) ∨
      ∃ j, r.minedBy = .bind (nodeId j) ∧ MinedBy env (start nodeId started) actions j r.toHeader ∧
        Relation.ReflTransGen (s.Passed env r.toHeader) j i := by
  intro s r hr
  refine (row_reached env nodeId started actions i r hr).imp_right fun ⟨j, hmined, hpath⟩ => ?_
  exact ⟨j, hmined.minedBy, hmined, hpath⟩

end Network

end

namespace Network

attribute [local instance] Arithmetic.binary64

theorem stored_blocks_travel_sampleNetwork :
    ∃ r ∈ (sampleNetwork.nodes "gamma").blockchain.rows, r.height = 1 ∧
      ∃ j, r.minedBy = .bind j ∧ MinedBy Node.sampleEnv (start id fun _ => 1700000000) sampleActions j r.toHeader ∧
        Relation.ReflTransGen (sampleNetwork.Passed Node.sampleEnv r.toHeader) j "gamma" := by
  obtain ⟨r, hr, hone⟩ : ∃ r ∈ (sampleNetwork.nodes "gamma").blockchain.rows, r.height = 1 := by decide +kernel
  rcases stored_blocks_travel Node.sampleEnv id (fun _ => 1700000000) sampleActions "gamma" r hr with rfl | htravels
  · exact absurd hone (by decide)
  · exact ⟨r, hr, hone, htravels⟩

end Network

section
variable [Arithmetic]

/-! ### In a mesh -/

namespace Mesh
variable {ι : Type} [DecidableEq ι] {stores : ι → PeerStore} {s : Mesh ι} {actions : List (MeshAction ι)}

/-- One of the two processes was told to dial, and reached the other one. -/
def Linked (actions : List (MeshAction ι)) (i j : ι) : Prop :=
  ∃ e, MeshAction.connectToPeer i e (.connected j) ∈ actions ∨ .connectToPeer j e (.connected i) ∈ actions

omit [DecidableEq ι] in
theorem Dialed.linked (hd : s.Dialed actions) (h : s.Unlisted stores) {i : ι} {k : ℕ} {z : ι × Option ℕ}
    (hz : s.far? i k = some z) : Linked actions i z.1 := by
  obtain ⟨x, hx⟩ := h.exists_peer hz
  cases hside : x.outbound with
  | true => exact ⟨_, Or.inl (hd i k x z hx hz hside)⟩
  | false =>
    obtain ⟨j, l, hfar⟩ := h.far_of_inbound hx hside
    obtain rfl := Option.some_inj.mp (hz.symm.trans hfar)
    have hback := h.facing i k j l hfar
    obtain ⟨y, hy⟩ := h.exists_peer hback
    have hout : y.outbound = true := by
      rw [h.sides i k j l x y hfar hx hy, hside]
      rfl
    exact ⟨_, Or.inr (hd j l y _ hy hback hout)⟩

omit [DecidableEq ι] in
instance linked_symm : Std.Symm (Linked actions) := ⟨fun _ _ ⟨e, h⟩ => ⟨e, h.symm⟩⟩

/-- What a process of a run stores above genesis was mined by a node that a chain of dialed connections joins to it. -/
theorem row_joined (env : Env) (p2pPort : ι → Int32) (nodeId : ι → String) (started : ι → Int64)
    (stores : ι → PeerStore) (actions : List (MeshAction ι)) (i : ι) :
    ∀ r ∈ ((actions.foldl (Mesh.step env p2pPort) (start nodeId started stores)).processes i).ledger.blockchain.rows,
      r = genesisRow (started i) ∨
        ∃ j, r.minedBy = .bind (nodeId j) ∧ Relation.ReflTransGen (Linked actions) j i := by
  intro r hr
  obtain ⟨matched, -, hmirrors⟩ := exists_mirror (J := Relation.ReflTransGen (Linked actions)) env p2pPort nodeId started
    stores actions fun s hs j => ⟨.refl, fun z hz => by
      obtain ⟨hunlisted, hdialed⟩ := run_unlisted env p2pPort nodeId started stores actions s hs
      obtain ⟨k, hk⟩ := List.getElem?_of_mem hz
      exact .single (hdialed.linked hunlisted hk)⟩
  rw [hmirrors.nodes] at hr
  refine (Network.row_reached env nodeId started matched i r hr).imp_right fun ⟨j, hmined, hpath⟩ => ?_
  refine ⟨j, hmined.minedBy, hpath.lift' id fun a b ⟨m, hm, hsender, hreceiver, _⟩ => ?_⟩
  exact hsender ▸ hreceiver ▸ hmirrors.joined m hm

/-- Blocks stay among the nodes that connections join. In every run, the id of the miner in a block above genesis that a
    node stores is that of a node to which a chain of dialed connections leads; so where the ids are distinct, nodes
    that store the same mined block are joined by such a chain. -/
theorem blocks_stay_in_component (env : Env) (p2pPort : ι → Int32) (nodeId : ι → String) (started : ι → Int64)
    (stores : ι → PeerStore) (actions : List (MeshAction ι)) :
    let s := actions.foldl (Mesh.step env p2pPort) (start nodeId started stores)
    (∀ i, ∀ r ∈ (s.processes i).ledger.blockchain.rows, r = genesisRow (started i) ∨
      ∃ j, r.minedBy = .bind (nodeId j) ∧ Relation.ReflTransGen (Linked actions) j i) ∧
    (Function.Injective (fun i => CString.bind (nodeId i)) → ∀ i k,
      ∀ r ∈ (s.processes i).ledger.blockchain.rows, ∀ r' ∈ (s.processes k).ledger.blockchain.rows,
        r.toHeader = r'.toHeader → r ≠ genesisRow (started i) → r' ≠ genesisRow (started k) →
          Relation.ReflTransGen (Linked actions) i k) := by
  intro s
  have hjoined := row_joined env p2pPort nodeId started stores actions
  refine ⟨hjoined, fun hids i k r hr r' hr' hsame hi hk => ?_⟩
  obtain ⟨a, ha, hpath⟩ := (hjoined i r hr).resolve_left hi
  obtain ⟨b, hb, hpath'⟩ := (hjoined k r' hr').resolve_left hk
  have hminer : CString.bind (nodeId a) = .bind (nodeId b) := by
    rw [← ha, ← hb]
    exact congrArg Header.minedBy hsame
  obtain rfl := hids hminer
  exact (Std.Symm.symm _ _ hpath).trans hpath'

end Mesh

end

namespace Mesh

attribute [local instance] Arithmetic.binary64

/-- The block that `beta` takes comes from a node that a connection joins to it. -/
theorem blocks_stay_in_component_sampleMesh :
    ∃ r ∈ (sampleMesh.processes "beta").ledger.blockchain.rows, r.height = 1 ∧
      ∃ j, r.minedBy = .bind j ∧ Relation.ReflTransGen (Linked sampleActions) j "beta" := by
  obtain ⟨r, hr, hone⟩ : ∃ r ∈ (sampleMesh.processes "beta").ledger.blockchain.rows, r.height = 1 := by decide +kernel
  rcases (blocks_stay_in_component Node.sampleEnv (fun _ => 9000) id (fun _ => 1700000000) (fun _ => Table.empty)
    sampleActions).1 "beta" r hr with rfl | hlinked
  · exact absurd hone (by decide)
  · exact ⟨r, hr, hone, hlinked⟩

end Mesh

end NexusLedger
