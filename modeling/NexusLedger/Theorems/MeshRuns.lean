import NexusLedger.Theorems.PeerLists
import NexusLedger.Theorems.SharedLedger
import NexusLedger.Wire

/-! The mesh below the network. What the processes of a mesh make of their ledgers is what the nodes of a network make of
    them, where an action names the connections that the acting node has open. -/

namespace NexusLedger
set_option linter.unusedSectionVars false
variable [Arithmetic]

/-- A message that the ledger of its receiver answers, or takes in. -/
def Message.Ledger (msg : Message) : Prop :=
  msg.type = .getBlocks ∨ msg.type = .blocksResponse ∨ msg.type = .newTransaction ∨ msg.type = .newBlock

/-- What a node does on its own account in an action, but for asking for blocks. -/
def Action.ownWork? {ι : Type} : Action ι → Option (ι × OwnEvent)
  | .own _ _ _ (.sync _) => none
  | .own i _ _ e => some (i, e)
  | .deliver _ _ _ => none

def MeshAction.ownWork? {ι : Type} : MeshAction ι → Option (ι × OwnEvent)
  | .own _ (.sync _) => none
  | .own i e => some (i, e)
  | _ => none

/-! ### Ends -/

namespace Process
variable {ι : Type} {p : Process ι} {k : ℕ} {x : ℕ × Message} {effects : List Effect}

/-- The processes at the other ends of the clients. -/
def near (p : Process ι) : List ι := p.net.clients.filterMap fun k => (p.far[k]?).map (·.1)

/-- The process at the other end of a peer. -/
def across (p : Process ι) (i : ι) (k : ℕ) : ι := ((p.far[k]?).map (·.1)).getD i

theorem exists_far (h : p.far.length = p.net.peers.length) (hsends : p.sends x = true) :
    ∃ z, p.far[x.1]? = some z := by
  unfold sends at hsends
  rw [Option.any_eq_true] at hsends
  obtain ⟨y, hy, -⟩ := hsends
  have hk := (List.getElem?_eq_some_iff.mp hy).1
  rw [← h] at hk
  exact ⟨_, List.getElem?_eq_getElem hk⟩

/-- What a process sends for its ledger, a node of a network sends that has the same connections. -/
theorem mem_post (h : p.far.length = p.net.peers.length) (i : ι) (hx : x ∈ effects.flatMap (p.net.route k))
    (hsends : p.sends x = true) : ∃ j o, p.far[x.1]? = some (j, o) ∧
      { sender := i, receiver := j, message := x.2 } ∈ effects.flatMap (Network.post p.near i (p.across i k)) := by
  obtain ⟨⟨j, o⟩, hfar⟩ := exists_far h hsends
  refine ⟨j, o, hfar, ?_⟩
  obtain ⟨effect, heffect, hx⟩ := List.mem_flatMap.mp hx
  refine List.mem_flatMap.mpr ⟨effect, heffect, ?_⟩
  cases effect with
  | broadcast msg =>
    obtain ⟨m, hm, rfl⟩ := List.mem_map.mp hx
    refine List.mem_map.mpr ⟨j, List.mem_filterMap.mpr ⟨m, hm, ?_⟩, rfl⟩
    rw [hfar]
    rfl
  | reply msg =>
    obtain rfl := List.mem_singleton.mp hx
    refine List.mem_singleton.mpr ?_
    simp only [across, show p.far[k]? = some (j, o) from hfar, Option.map_some, Option.getD_some]
  | call c k => cases hx

/-- The other ends are joined to the process. -/
structure Joined (J : ι → ι → Prop) (i : ι) (p : Process ι) : Prop where
  self : J i i
  far : ∀ z ∈ p.far, J i z.1

theorem Joined.near {J : ι → ι → Prop} {i j : ι} (h : p.Joined J i) (hj : j ∈ p.near) : J i j := by
  obtain ⟨k, -, hk⟩ := List.mem_filterMap.mp hj
  obtain ⟨z, hz, rfl⟩ := Option.map_eq_some_iff.mp hk
  exact h.far z (List.mem_of_getElem? hz)

theorem Joined.across {J : ι → ι → Prop} {i : ι} (h : p.Joined J i) (k : ℕ) : J i (p.across i k) := by
  unfold Process.across
  rcases hk : p.far[k]? with _ | z
  · exact h.self
  · exact h.far z (List.mem_of_getElem? hk)

theorem Joined.congr {J : ι → ι → Prop} {i : ι} (h : p.Joined J i) {q : Process ι} (hfar : q.far = p.far) :
    q.Joined J i where
  self := h.self
  far := hfar ▸ h.far

/-- What a node of the network sends goes to nodes that are joined to it, where its connections do. -/
theorem Joined.receiver {J : ι → ι → Prop} {i : ι} (h : p.Joined J i) {m : Envelope ι}
    (hm : m ∈ effects.flatMap (Network.post p.near i (p.across i k))) : J m.sender m.receiver := by
  obtain ⟨effect, -, hm⟩ := List.mem_flatMap.mp hm
  cases effect with
  | broadcast msg =>
    obtain ⟨j, hj, rfl⟩ := List.mem_map.mp hm
    exact h.near hj
  | reply msg =>
    rw [List.mem_singleton.mp hm]
    exact h.across k
  | call c k => cases hm

theorem reads_frame (env : Env) (p2pPort : Int32) (k : ℕ) (now : Int64) (reach : ℕ → Reach ι) {msg : Message}
    (hlist : msg.type ≠ .peersList) (h : p.Reads k msg) :
    (p.arrive env p2pPort k msg now reach).1.ledger = p.ledger.step env (.message now msg) ∧
      (p.arrive env p2pPort k msg now reach).1.far = p.far ∧
      (p.arrive env p2pPort k msg now reach).2 =
        (p.arrive env p2pPort k msg now reach).1.ledger.answerPeers now (p.arrive env p2pPort k msg now reach).1.net msg ++
          (p.ledger.react env (.message now msg)).2.flatMap
            ((p.arrive env p2pPort k msg now reach).1.net.route k) := by
  rw [arrive_of_reads env p2pPort k now reach hlist h]
  exact ⟨rfl, rfl, rfl⟩

end Process

/-! ### The simulation -/

namespace Mesh
variable {ι : Type} [DecidableEq ι] {env : Env} {p2pPort : ι → Int32} {stores : ι → PeerStore} {s : Mesh ι}
  {t t' : Network ι} {J : ι → ι → Prop} {i : ι} {q : Process ι} {out : List (ℕ × Message)} {dials : List (Endpoint × ι)}

/-- The same ledgers, and every message of the ledger that was sent in the mesh was sent in the network, where messages
    go between joined nodes alone. -/
structure Mirrors (J : ι → ι → Prop) (s : Mesh ι) (t : Network ι) : Prop where
  nodes : ∀ i, (s.processes i).ledger = t.nodes i
  joined : ∀ x ∈ t.sent, J x.sender x.receiver
  sent : ∀ m ∈ s.sent, m.message.Ledger → ∃ j o, s.far? m.sender m.place = some (j, o) ∧
    { sender := m.sender, receiver := j, message := m.message } ∈ t.sent

omit [DecidableEq ι] in
theorem mirrors_start (nodeId : ι → String) (started : ι → Int64) (stores : ι → PeerStore) :
    (start nodeId started stores).Mirrors J (Network.start nodeId started) where
  nodes _ := rfl
  joined _ h := nomatch h
  sent _ h := nomatch h

/-- A process goes on, and what it sends for the ledger the network has sent too. -/
theorem Mirrors.put (h : s.Mirrors J t) (hf : (s.processes i).Follows dials q)
    (hnodes : t'.nodes = Function.update t.nodes i q.ledger) (hold : t.sent ⊆ t'.sent)
    (hjoined : ∀ x ∈ t'.sent, J x.sender x.receiver)
    (hout : ∀ x ∈ out, q.sends x = true → x.2.Ledger → ∃ j o, q.far[x.1]? = some (j, o) ∧
      { sender := i, receiver := j, message := x.2 } ∈ t'.sent) : (s.put i q out).Mirrors J t' where
  nodes a := by
    rw [hnodes]
    by_cases ha : a = i
    · subst ha
      rw [put_self, Function.update_self]
    · rw [put_of_ne ha, Function.update_of_ne ha]
      exact h.nodes a
  joined := hjoined
  sent m hm hledger := by
    rcases List.mem_append.mp hm with hm | hm
    · obtain ⟨j, o, hfar, hmem⟩ := h.sent m hm hledger
      exact ⟨j, o, (Unlisted.put_far hf _ _).1 _ hfar, hold hmem⟩
    · obtain ⟨x, hx, rfl⟩ := List.mem_map.mp hm
      obtain ⟨hx, hsends⟩ := List.mem_filter.mp hx
      obtain ⟨j, o, hfar, hmem⟩ := hout x hx hsends hledger
      refine ⟨j, o, ?_, hmem⟩
      rw [far?, put_self]
      exact hfar

/-- Nothing happens to a ledger, and no message of the ledger is sent. -/
theorem Mirrors.stutter (h : s.Mirrors J t) (hf : (s.processes i).Follows dials q)
    (hledger : q.ledger = (s.processes i).ledger) (hout : ∀ x ∈ out, ¬x.2.Ledger) : (s.put i q out).Mirrors J t := by
  refine h.put hf ?_ (List.Subset.refl _) h.joined fun x hx _ hl => absurd hl (hout x hx)
  rw [hledger, h.nodes i, Function.update_eq_self]

/-- A ledger takes a step, and so does the node of the network with the connections of the process. -/
theorem Mirrors.act (h : s.Mirrors J t) (hf : (s.processes i).Follows dials q)
    (hlength : q.far.length = q.net.peers.length) (hjoin : q.Joined J i) {e : Event} {k : ℕ} {a : Action ι}
    {more : List (ℕ × Message)} (hev : t.event? a = some (i, q.across i k, e)) (hclients : Network.clients a = q.near)
    (hledger : q.ledger = (s.processes i).ledger.step env e) (hmore : ∀ x ∈ more, ¬x.2.Ledger) :
    (s.put i q (more ++ ((s.processes i).ledger.react env e).2.flatMap (q.net.route k))).Mirrors J (t.step env a) := by
  have hstep : t.step env a = _ := Network.step_of_event hev
  rw [hclients, ← h.nodes i] at hstep
  refine h.put hf ?_ ?_ (fun x hx => ?_) fun x hx hsends hl => ?_
  · rw [hstep, hledger]
  · rw [hstep]
    exact List.subset_append_left _ _
  · rw [hstep] at hx
    exact (List.mem_append.mp hx).elim (h.joined x) hjoin.receiver
  · rcases List.mem_append.mp hx with hx | hx
    · exact absurd hl (hmore x hx)
    · obtain ⟨j, o, hfar, hmem⟩ := Process.mem_post hlength i hx hsends
      refine ⟨j, o, hfar, ?_⟩
      rw [hstep]
      exact List.mem_append_right _ hmem

theorem Mirrors.accept (h : s.Mirrors J t) (hs : s.Unlisted stores) {u : Mesh ι} {k : ℕ} {j : ι} {x : Net.Peer}
    (hopen : s.far? i k = some (j, none)) (ha : s.Accepts u i k j x) : u.Mirrors J t where
  nodes a := (ha.ledger a).trans (h.nodes a)
  joined := h.joined
  sent m hm hl := by
    obtain ⟨greetings, hsent, hgreetings⟩ := ha.sent
    rw [hsent] at hm
    rcases List.mem_append.mp hm with hm | hm
    · obtain ⟨b, o, hfar, hmem⟩ := h.sent m hm hl
      rw [ha.far]
      split
      case isTrue heq =>
        rw [heq.1, heq.2, hopen] at hfar
        cases hfar
        exact ⟨j, _, rfl, hmem⟩
      case isFalse =>
        rw [if_neg]
        · exact ⟨b, o, hfar, hmem⟩
        · rintro ⟨hsender, hplace⟩
          rw [hsender, hplace, far?, ← hs.length j, List.getElem?_length] at hfar
          cases hfar
    · obtain ⟨htype, -, -⟩ := hgreetings m hm
      rcases hl with hl | hl | hl | hl <;> rw [htype] at hl <;> cases hl

/-- A message that no ledger answers or takes in, and that asks for no synchronisation, is nothing to the ledger but
    for a pong. -/
theorem answers_quiet (env : Env) (n : Node) (now : Int64) {msg : Message} (hl : ¬msg.Ledger)
    (hgreet : msg.type ≠ .handshake) : (n.step env (.message now msg)) = n ∧
      ∀ x ∈ (n.react env (.message now msg)).2, x = .reply (n.pongMessage now) := by
  unfold Message.Ledger at hl
  cases htype : msg.type with
  | handshake => exact absurd htype hgreet
  | getBlocks => simp [htype] at hl
  | blocksResponse => simp [htype] at hl
  | newTransaction => simp [htype] at hl
  | newBlock => simp [htype] at hl
  | ping =>
    simp only [Node.step, Node.react, Node.handleMessage, htype]
    exact ⟨trivial, List.forall_mem_singleton.mpr rfl⟩
  | _ =>
    simp only [Node.step, Node.react, Node.handleMessage, htype]
    exact ⟨trivial, List.forall_mem_nil _⟩

theorem not_ledger_answerPeers (n : Node) (now : Int64) {net : Net.Connections} (msg : Message)
    (h : net.listed net.clients = []) : ∀ x ∈ n.answerPeers now net msg, ¬x.2.Ledger := by
  rw [Node.answerPeers_of_nil h]
  exact List.forall_mem_nil _

omit [DecidableEq ι] in
theorem ownWork?_own (i peer : ι) (clients : List ι) (e : OwnEvent) :
    (Action.own i peer clients e).ownWork? = (MeshAction.own i e).ownWork? := by
  cases e <;> rfl

/-- What a process does on its own account. -/
theorem Mirrors.own (h : s.Mirrors J t) (hs : s.Unlisted stores) (hjoin : ∀ i, (s.processes i).Joined J i) (i : ι)
    (e : OwnEvent) :
    ∃ bs : List (Action ι), bs.filterMap Action.ownWork? = (MeshAction.own i e).ownWork?.toList ∧
      (s.step env p2pPort (.own i e)).Mirrors J (bs.foldl (Network.step env) t) := by
  have hlength := hs.length i
  by_cases hsync : ∃ now, e = .sync now
  · obtain ⟨now, rfl⟩ := hsync
    rcases hclients : (s.processes i).net.clients with _ | ⟨k, rest⟩
    · have hown : (s.processes i).own env (.sync now) = (s.processes i, []) := by
        simp only [Process.own, hclients]
      refine ⟨[], rfl, ?_⟩
      simp only [Mesh.step, hown]
      exact h.stutter (.of_net rfl rfl) rfl (List.forall_mem_nil _)
    · have hown : (s.processes i).own env (.sync now) = (s.processes i,
          [] ++ ((s.processes i).ledger.react env (.own (.sync now))).2.flatMap ((s.processes i).net.route k)) := by
        simp only [Process.own, hclients, Node.broadcastPeersToAll_of_nil (hs.listed i (List.Subset.refl _))]
        rfl
      refine ⟨[.own i ((s.processes i).across i k) (s.processes i).near (.sync now)], rfl, ?_⟩
      simp only [Mesh.step, hown, List.foldl_cons, List.foldl_nil]
      exact h.act (e := .own (.sync now)) (.of_net rfl rfl) hlength (hjoin i) rfl rfl rfl (List.forall_mem_nil _)
  · have hown := Process.own_of_ledger env (s.processes i) fun now heq => hsync ⟨now, heq⟩
    refine ⟨[.own i ((s.processes i).across i 0) (s.processes i).near e], ?_, ?_⟩
    · rw [← ownWork?_own i ((s.processes i).across i 0) (s.processes i).near e]
      exact List.filterMap_cons
    · simp only [Mesh.step, hown, List.foldl_cons, List.foldl_nil]
      have hfollows : (s.processes i).Follows []
          { s.processes i with ledger := (s.processes i).ledger.step env (.own e) } := .of_net rfl rfl
      rw [← List.nil_append (List.flatMap _ _)]
      exact h.act hfollows hlength ((hjoin i).congr rfl) rfl rfl rfl (List.forall_mem_nil _)

/-- A message comes in: the network delivers it, or the node asks for blocks in answer to a HANDSHAKE, or the ledger is
    left as it is. -/
theorem Mirrors.arrive (h : s.Mirrors J t) (hs : s.Unlisted stores) (hjoin : ∀ i, (s.processes i).Joined J i) (m : ℕ)
    (now : Int64) (reach : ℕ → Reach ι) :
    ∃ bs : List (Action ι), bs.filterMap Action.ownWork? = [] ∧
      (s.step env p2pPort (.arrive m now reach)).Mirrors J (bs.foldl (Network.step env) t) := by
  rcases hx : s.sent[m]? with _ | x
  · exact ⟨[], rfl, by simp only [Mesh.step, hx]; exact h⟩
  rcases hfar : (s.processes x.sender).far[x.place]? with _ | ⟨j, _ | l⟩
  · exact ⟨[], rfl, by simp only [Mesh.step, hx, hfar]; exact h⟩
  · exact ⟨[], rfl, by simp only [Mesh.step, hx, hfar]; exact h⟩
  have hback : (s.processes j).far[l]? = some (x.sender, some x.place) := hs.facing _ _ _ _ hfar
  obtain ⟨hlist, hgreet⟩ := hs.arrives hx hfar
  have hfollows := Process.follows_arrive env (p2pPort j) now reach hlist hgreet (p := s.processes j)
  by_cases hreads : (s.processes j).Reads l x.message
  · obtain ⟨hledger, hfars, hout⟩ := Process.reads_frame env (p2pPort j) l now reach hlist hreads
    have hlengths := hfollows.far_length (hs.length j)
    -- Nobody is listed after the step either.
    have hquiet := (hs.put hfollows (List.forall_mem_nil _)).listed j (List.Subset.refl _)
    rw [put_self] at hquiet
    simp only [Mesh.step, hx, hfar]
    generalize (s.processes j).arrive env (p2pPort j) l x.message now reach = r at *
    have hmore := not_ledger_answerPeers r.1.ledger now x.message hquiet
    have hacross : r.1.across j l = x.sender := by
      simp only [Process.across, hfars, hback, Option.map_some, Option.getD_some]
    have hends := (hjoin j).congr hfars
    rw [hout]
    by_cases hl : x.message.Ledger
    · obtain ⟨b, o, hsame, hmem⟩ := h.sent x (List.mem_of_getElem? hx) hl
      obtain rfl : j = b := by
        rw [far?, hfar] at hsame
        exact (Prod.mk.inj (Option.some_inj.mp hsame)).1
      obtain ⟨k, hk⟩ := List.getElem?_of_mem hmem
      refine ⟨[.deliver k r.1.near now], rfl,
        h.act (a := .deliver k r.1.near now) hfollows hlengths hends ?_ rfl hledger hmore⟩
      rw [Network.event?, hk, hacross]
      rfl
    · by_cases hgreets : x.message.type = .handshake
      · have hreact : (s.processes j).ledger.react env (.message now x.message) =
            (s.processes j).ledger.react env (.own (.sync now)) := by
          simp only [Node.react, Node.handleMessage, hgreets, Node.ownStep]
        rw [hreact]
        rw [Node.step, hreact] at hledger
        exact ⟨[.own j (r.1.across j l) r.1.near (.sync now)], rfl,
          h.act (a := .own j (r.1.across j l) r.1.near (.sync now)) hfollows hlengths hends rfl rfl hledger hmore⟩
      · obtain ⟨hstep, hpong⟩ := answers_quiet env (s.processes j).ledger now hl hgreets
        refine ⟨[], rfl, h.stutter hfollows (hledger.trans hstep) fun y hy => ?_⟩
        rcases List.mem_append.mp hy with hy | hy
        · exact hmore y hy
        · obtain ⟨effect, heffect, hy⟩ := List.mem_flatMap.mp hy
          rw [hpong effect heffect] at hy
          rw [List.mem_singleton.mp hy]
          rintro (hc | hc | hc | hc) <;> cases hc
  · rw [Process.arrive_of_not_reads env (p2pPort j) l now reach hlist hreads] at hfollows
    refine ⟨[], rfl, ?_⟩
    simp only [Mesh.step, hx, hfar]
    rw [Process.arrive_of_not_reads env (p2pPort j) l now reach hlist hreads]
    exact h.stutter hfollows rfl (List.forall_mem_nil _)

/-- One step of the mesh is one step of the network, or none. -/
theorem Mirrors.step (h : s.Mirrors J t) (hs : s.Unlisted stores) (hjoin : ∀ i, (s.processes i).Joined J i)
    (a : MeshAction ι) :
    ∃ bs : List (Action ι), bs.filterMap Action.ownWork? = a.ownWork?.toList ∧
      (s.step env p2pPort a).Mirrors J (bs.foldl (Network.step env) t) := by
  cases a with
  | own i e => exact h.own hs hjoin i e
  | connectToPeer i e reach =>
    exact ⟨[], rfl, h.stutter (Process.follows_connectToPeer _ e reach) rfl (List.forall_mem_nil _)⟩
  | accept i k address port now =>
    refine ⟨[], rfl, ?_⟩
    rcases hopen : (s.processes i).far[k]? with _ | ⟨j, _ | l⟩
    · simp only [Mesh.step, Mesh.accept, hopen]
      exact h
    · obtain ⟨x, hx⟩ := hs.accepts hopen address port now p2pPort
      exact h.accept hs hopen hx
    · simp only [Mesh.step, Mesh.accept, hopen]
      exact h
  | arrive m now reach => exact h.arrive hs hjoin m now reach
  | gossip i idx now =>
    refine ⟨[], rfl, ?_⟩
    rw [Mesh.step, hs.gossipPeers]
    exact h.stutter (.of_net rfl rfl) rfl (List.forall_mem_nil _)
  | getPeers i now =>
    refine ⟨[], rfl, h.stutter (.of_net rfl rfl) rfl fun x hx => ?_⟩
    obtain ⟨k, -, rfl⟩ := List.mem_map.mp hx
    rintro (hl | hl | hl | hl) <;> cases hl
  | ping i now =>
    refine ⟨[], rfl, h.stutter (.of_net rfl rfl) rfl fun x hx => ?_⟩
    obtain ⟨k, -, rfl⟩ := List.mem_map.mp hx
    rintro (hl | hl | hl | hl) <;> cases hl
  | lost i k =>
    exact ⟨[], rfl, h.stutter (Process.follows_modify _ rfl rfl rfl fun x _ => ⟨rfl, fun _ => rfl⟩) rfl
      (List.forall_mem_nil _)⟩

/-- For every run there is one of the network in which the nodes do the same work of their own, have the same ledgers,
    and send between joined nodes. -/
theorem exists_mirror (env : Env) (p2pPort : ι → Int32) (nodeId : ι → String) (started : ι → Int64)
    (stores : ι → PeerStore) (actions : List (MeshAction ι))
    (hjoin : ∀ s ∈ Transition.states (Mesh.step env p2pPort) (start nodeId started stores) actions,
      ∀ i, (s.processes i).Joined J i) :
    ∃ matched : List (Action ι), matched.filterMap Action.ownWork? = actions.filterMap MeshAction.ownWork? ∧
      (actions.foldl (Mesh.step env p2pPort) (start nodeId started stores)).Mirrors J
        (matched.foldl (Network.step env) (Network.start nodeId started)) := by
  have hmatch : ∀ (s : Mesh ι) (a : MeshAction ι) (t : Network ι),
      s.Unlisted stores ∧ (∀ i, (s.processes i).Joined J i) → s.Mirrors J t →
      ∃ bs : List (Action ι), bs.filterMap Action.ownWork? = a.ownWork?.toList ∧
        (s.step env p2pPort a).Mirrors J (bs.foldl (Network.step env) t) := fun _ a _ hs h => h.step hs.1 hs.2 a
  refine Transition.exists_simulation (C := fun s _ => s.Unlisted stores ∧ ∀ i, (s.processes i).Joined J i) hmatch
    (mirrors_start nodeId started stores) fun x hx => ?_
  have hx := Transition.fst_mem_states _ x hx
  exact ⟨(run_unlisted env p2pPort nodeId started stores actions x.1 hx).1, hjoin x.1 hx⟩

/-- A mesh refines a network. For every run of processes that dial, accept, greet, gossip and lose connections there is
    a run of the network in which the nodes do the same work of their own and have the same ledgers. -/
theorem mesh_refines (env : Env) (p2pPort : ι → Int32) (nodeId : ι → String) (started : ι → Int64)
    (stores : ι → PeerStore) (actions : List (MeshAction ι)) :
    ∃ matched : List (Action ι), matched.filterMap Action.ownWork? = actions.filterMap MeshAction.ownWork? ∧
      ∀ i, ((actions.foldl (Mesh.step env p2pPort) (start nodeId started stores)).processes i).ledger =
        (matched.foldl (Network.step env) (Network.start nodeId started)).nodes i := by
  obtain ⟨matched, hwork, hmirrors⟩ := exists_mirror (J := fun _ _ => True) env p2pPort nodeId started stores actions
    fun _ _ _ => ⟨trivial, fun _ _ => trivial⟩
  exact ⟨matched, hwork, hmirrors.nodes⟩

end Mesh

end NexusLedger
