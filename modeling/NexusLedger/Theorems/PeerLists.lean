import NexusLedger.Mesh
import NexusLedger.Theorems.Registry
import NexusLedger.Theorems.Endpoints
import NexusLedger.Theorems.Provenance

/-! Peer discovery in a mesh of nodes. A HANDSHAKE is sent by the side that accepted, so the port of a client stays
    unknown, no list of peers has a member, and none is ever sent. -/

namespace NexusLedger

section
set_option linter.unusedSectionVars false
variable [Arithmetic]

namespace PeerStore

/-- The endpoints of the table, in its order. -/
def endpoints (peers : PeerStore) : List Endpoint := peers.rows.map fun p => { ip := p.ipAddress.val, port := p.port }

theorem endpoints_updatePeerSeen (peers : PeerStore) (ip : String) (port : Int32) (now : Int64) :
    (peers.updatePeerSeen ip port now).endpoints = peers.endpoints := by
  show (peers.rows.map _).map _ = peers.rows.map _
  rw [List.map_map]
  refine List.map_congr_left fun p _ => ?_
  obtain ⟨haddress, hport, -⟩ := setLastSeen_keys (.bind ip) port now p
  simp only [Function.comp_apply, haddress, hport]

end PeerStore

/-! ### What a message does to the connections -/

namespace Net

/-- What a peer is from its making on: its side, and the endpoint at the other end. -/
def Peer.card (p : Peer) : Bool × Endpoint := (p.outbound, { ip := p.address, port := p.port })

theorem Peer.card_turn (greets : Bool) (msg : Message) (p : Peer) : (p.turn greets msg).card = p.card := by
  have hread : ∀ q : Peer, q.read.card = q.card := by
    intro q
    unfold Peer.read
    split <;> rfl
  unfold Peer.turn
  simp only [hread]
  split
  · obtain ⟨-, hside, haddress, hport, -⟩ := Peer.onHandshake_cases msg ((p.receive msg).complete msg)
    unfold Peer.card
    rw [hside, haddress, hport]
    rfl
  · rfl

theorem Peer.p2pPort_turn (msg : Message) (p : Peer) : (p.turn false msg).p2pPort = p.p2pPort := by
  unfold Peer.turn Peer.read
  simp only [Bool.false_eq_true, if_false]
  split <;> rfl

theorem Peer.keep_frame (msg : Message) (p : Peer) : (p.keep msg).card = p.card ∧ (p.keep msg).p2pPort = p.p2pPort := by
  unfold Peer.keep
  split <;> exact ⟨rfl, rfl⟩

theorem Peer.outbound_of_card {p q : Peer} (h : q.card = p.card) : q.outbound = p.outbound := congrArg Prod.fst h

namespace Connections
variable {config : Config} {s : Connections} {k : ℕ} {msg : Message} {now : Int64} {dial : ℕ → Dial}

theorem endpoints_handleMessage (h : msg.type ≠ .peersList) :
    (s.handleMessage config k msg now dial).store.endpoints = s.store.endpoints := by
  unfold handleMessage
  split
  · dsimp only
    split
    · exact PeerStore.endpoints_updatePeerSeen _ _ _ _
    · rename_i htype
      exact absurd htype h
    · exact PeerStore.endpoints_updatePeerSeen _ _ _ _
  · rfl

/-- A message without a list of peers changes its own peer alone. -/
theorem arrive_frame (config : Config) (s : Connections) (k : ℕ) (now : Int64) (dial : ℕ → Dial)
    (h : msg.type ≠ .peersList) :
    (s.arrive config k msg now dial).peers =
        s.peers.modify k (if s.listens k then Peer.turn (greets config msg) msg else Peer.keep msg) ∧
      (s.arrive config k msg now dial).clients = s.clients ∧
      (s.arrive config k msg now dial).store.endpoints = s.store.endpoints := by
  by_cases hlistens : s.listens k = true
  · have hdials : dials config msg = [] := if_neg fun hc => h hc.2
    obtain ⟨hclients, -, extra, hpeers, -, hnone⟩ := arrive_dialed config hlistens msg now dial
    have hextra : extra = [] := hnone.mpr (by simp [hdials])
    rw [hextra, List.append_nil] at hpeers
    refine ⟨by rw [if_pos hlistens]; exact hpeers, hclients, ?_⟩
    unfold arrive
    rw [if_pos hlistens]
    exact endpoints_handleMessage h
  · rw [arrive_of_not_listens config hlistens, if_neg hlistens]
    exact ⟨rfl, rfl, rfl⟩

end Connections
end Net

/-! ### What a process does -/

/-- The types of what is sent to the peer that a message came from. -/
def Message.Answers (msg : Message) : Prop := msg.type = .getBlocks ∨ msg.type = .blocksResponse ∨ msg.type = .pong

/-- An answer, or a message to a client; no list of peers. -/
structure Net.Connections.Sends (s : Connections) (x : ℕ × Message) : Prop where
  inward : x.2.Answers ∨ x.1 ∈ s.clients
  unlisted : x.2.type ≠ .peersList

namespace Node
variable {env : Env} {n : Node} {e : Event}

/-- What a step of the ledger sends on the connections of the node. -/
theorem sends_route {s : Net.Connections} {k : ℕ} :
    ∀ x ∈ (n.react env e).2.flatMap (s.route k), s.Sends x := by
  intro x hx
  obtain ⟨effect, heffect, hx⟩ := List.mem_flatMap.mp hx
  cases react_emits heffect with
  | call => cases hx
  | block =>
    obtain ⟨k, hk, rfl⟩ := List.mem_map.mp hx
    exact ⟨Or.inr hk, nofun⟩
  | transaction =>
    obtain ⟨k, hk, rfl⟩ := List.mem_map.mp hx
    exact ⟨Or.inr hk, nofun⟩
  | blocks =>
    rw [List.mem_singleton.mp hx]
    exact ⟨Or.inl (Or.inr (Or.inl rfl)), nofun⟩
  | request =>
    rw [List.mem_singleton.mp hx]
    exact ⟨Or.inl (Or.inl rfl), nofun⟩
  | pong =>
    rw [List.mem_singleton.mp hx]
    exact ⟨Or.inl (Or.inr (Or.inr rfl)), nofun⟩

theorem broadcastPeersToAll_of_nil {s : Net.Connections} (h : s.listed s.clients = []) (n : Node) (now : Int64) :
    n.broadcastPeersToAll now s = [] := by
  simp only [broadcastPeersToAll, h, if_true]

/-- With nobody to list, only the ledger answers. -/
theorem answerPeers_of_nil {s : Net.Connections} (h : s.listed s.clients = []) (n : Node) (now : Int64) (msg : Message) :
    n.answerPeers now s msg = [] := by
  unfold answerPeers
  split
  · exact broadcastPeersToAll_of_nil h n now
  · simp only [broadcastPeers, h, if_true]
  · rfl

end Node

namespace Process
variable {ι : Type} {p q : Process ι} {out : List (ℕ × Message)}

/-- A process goes on without accepting a connection. Its peers stay what they are, and of those that came in no port
    becomes known; what it opens is dialed, to the endpoints and the processes given. -/
structure Follows (dials : List (Endpoint × ι)) (p q : Process ι) : Prop where
  far : q.far = p.far ++ dials.map fun d => (d.2, none)
  length : q.net.peers.length = p.net.peers.length + dials.length
  peers : ∀ (k : ℕ) x, p.net.peers[k]? = some x → ∃ y, q.net.peers[k]? = some y ∧ y.card = x.card ∧
    (x.outbound = false → y.p2pPort = x.p2pPort)
  dialed : ∀ (k : ℕ) d y, dials[k]? = some d → q.net.peers[p.net.peers.length + k]? = some y → y.card = (true, d.1)
  clients : q.net.clients = p.net.clients
  endpoints : q.net.store.endpoints = p.net.store.endpoints

theorem Follows.of_net (hnet : q.net = p.net) (hfar : q.far = p.far) : p.Follows [] q where
  far := by rw [hfar, List.map_nil, List.append_nil]
  length := by rw [hnet]; rfl
  peers k x hx := ⟨x, hnet ▸ hx, rfl, fun _ => rfl⟩
  dialed _ _ _ hd := nomatch hd
  clients := by rw [hnet]
  endpoints := by rw [hnet]

theorem Follows.far_length {dials : List (Endpoint × ι)} (h : p.Follows dials q)
    (hp : p.far.length = p.net.peers.length) : q.far.length = q.net.peers.length := by
  rw [h.far, h.length, List.length_append, List.length_map, hp]

theorem follows_connectToPeer (p : Process ι) (e : Endpoint) (reach : Reach ι) :
    p.Follows (reach.target?.toList.map (e, ·)) (p.connectToPeer e reach) := by
  have heq := Net.Connections.connectToPeer_eq p.ledger.nodeId p.net e reach.dial
  have hpeers : (p.connectToPeer e reach).net.peers =
      p.net.peers ++ reach.target?.toList.map fun _ => Net.dialedPeer p.ledger.nodeId e := by
    refine (congrArg Net.Connections.peers heq).trans ?_
    cases reach <;> rfl
  refine ⟨?_, ?_, fun k x hx => ⟨x, ?_, rfl, fun _ => rfl⟩, fun k d y hd hy => ?_, ?_, ?_⟩
  · rw [List.map_map]
    rfl
  · rw [hpeers, List.length_append, List.length_map, List.length_map]
  · rw [hpeers, List.getElem?_append_left (List.getElem?_eq_some_iff.mp hx).1]
    exact hx
  · rw [hpeers, List.getElem?_append_right (Nat.le_add_right _ _), Nat.add_sub_cancel_left, List.getElem?_map] at hy
    obtain ⟨j, -, rfl⟩ := Option.map_eq_some_iff.mp hy
    obtain ⟨j', -, rfl⟩ := Option.map_eq_some_iff.mp (List.getElem?_map ▸ hd)
    rfl
  · exact (congrArg Net.Connections.clients heq :)
  · exact (congrArg (fun s : Net.Connections => s.store.endpoints) heq :)

/-- A change of one peer that leaves it what it is, and its port if it came in. -/
theorem follows_modify {net : Net.Connections} {k : ℕ} {f : Net.Peer → Net.Peer} (ledger : Node)
    (hpeers : net.peers = p.net.peers.modify k f) (hclients : net.clients = p.net.clients)
    (hstore : net.store.endpoints = p.net.store.endpoints)
    (hf : ∀ x, p.net.peers[k]? = some x → (f x).card = x.card ∧ (x.outbound = false → (f x).p2pPort = x.p2pPort)) :
    p.Follows [] { ledger, net, far := p.far } where
  far := (List.append_nil _).symm
  length := by rw [hpeers, List.length_modify]; rfl
  peers m x hx := by
    rw [hpeers, List.getElem?_modify, hx]
    by_cases hm : k = m
    · subst hm
      exact ⟨f x, by simp, hf x hx⟩
    · exact ⟨x, by simp [hm], rfl, fun _ => rfl⟩
  dialed _ _ _ hd := nomatch hd
  clients := hclients
  endpoints := hstore

theorem own_of_ledger (env : Env) (p : Process ι) {e : OwnEvent} (h : ∀ now, e ≠ .sync now) :
    p.own env e = ({ p with ledger := p.ledger.step env (.own e) },
      (p.ledger.react env (.own e)).2.flatMap (p.net.route 0)) := by
  cases e with
  | sync now => exact absurd rfl (h now)
  | _ => rfl

theorem follows_own (env : Env) (p : Process ι) (e : OwnEvent) : p.Follows [] (p.own env e).1 := by
  by_cases hsync : ∃ now, e = .sync now
  · obtain ⟨now, rfl⟩ := hsync
    unfold own
    dsimp only
    split <;> exact .of_net rfl rfl
  · rw [own_of_ledger env p fun now heq => hsync ⟨now, heq⟩]
    exact .of_net rfl rfl

theorem sends_own (env : Env) (hlisted : p.net.listed p.net.clients = []) (e : OwnEvent) :
    ∀ x ∈ (p.own env e).2, (p.own env e).1.net.Sends x := by
  by_cases hsync : ∃ now, e = .sync now
  · obtain ⟨now, rfl⟩ := hsync
    unfold own
    dsimp only
    split
    · exact List.forall_mem_nil _
    · rw [Node.broadcastPeersToAll_of_nil hlisted]
      exact List.forall_mem_singleton.mpr ⟨Or.inl (Or.inl rfl), nofun⟩
  · rw [own_of_ledger env p fun now heq => hsync ⟨now, heq⟩]
    exact Node.sends_route

section Arrivals
variable {msg : Message}

/-- A handler is called with the message, and goes through it. -/
def Reads (p : Process ι) (k : ℕ) (msg : Message) : Prop :=
  p.net.listens k ∧ (msg.type = .handshake → Net.Peer.greetable msg)

/-- The connections after the message. -/
def netAfter (p2pPort : Int32) (p : Process ι) (k : ℕ) (msg : Message) (now : Int64) (reach : ℕ → Reach ι) :
    Net.Connections :=
  p.net.arrive (p.config p2pPort) k msg now fun i => (reach i).dial

theorem arrive_of_reads (env : Env) (p2pPort : Int32) (k : ℕ) (now : Int64) (reach : ℕ → Reach ι)
    (hlist : msg.type ≠ .peersList) (h : p.Reads k msg) :
    p.arrive env p2pPort k msg now reach =
      ({ ledger := p.ledger.step env (.message now msg)
         net := p.netAfter p2pPort k msg now reach
         far := p.far },
        (p.ledger.step env (.message now msg)).answerPeers now (p.netAfter p2pPort k msg now reach) msg ++
          (p.ledger.react env (.message now msg)).2.flatMap ((p.netAfter p2pPort k msg now reach).route k)) := by
  have hdials : Net.Connections.dials (p.config p2pPort) msg = [] := if_neg fun hc => hlist hc.2
  unfold Reads at h
  unfold arrive
  rw [if_pos h]
  simp only [hdials, ite_self, List.length_nil, List.range_zero, List.filterMap_nil, List.map_nil, List.append_nil]
  rfl

theorem arrive_of_not_reads (env : Env) (p2pPort : Int32) (k : ℕ) (now : Int64) (reach : ℕ → Reach ι)
    (hlist : msg.type ≠ .peersList) (h : ¬p.Reads k msg) :
    p.arrive env p2pPort k msg now reach = ({ p with net := p.netAfter p2pPort k msg now reach }, []) := by
  have hdials : Net.Connections.dials (p.config p2pPort) msg = [] := if_neg fun hc => hlist hc.2
  unfold Reads at h
  unfold arrive
  rw [if_neg h]
  simp only [hdials, ite_self, List.length_nil, List.range_zero, List.filterMap_nil, List.map_nil, List.append_nil]
  rfl

/-- A message comes in: a list of peers never does, and a HANDSHAKE comes on a peer that was dialed. -/
theorem follows_arrive (env : Env) (p2pPort : Int32) {k : ℕ} (now : Int64) (reach : ℕ → Reach ι)
    (hlist : msg.type ≠ .peersList)
    (hgreet : msg.type = .handshake → ∀ x, p.net.peers[k]? = some x → x.outbound = true) :
    p.Follows [] (p.arrive env p2pPort k msg now reach).1 := by
  obtain ⟨hpeers, hclients, hstore⟩ := Net.Connections.arrive_frame (p.config p2pPort) p.net k now
    (fun i => (reach i).dial) hlist
  have hfollows : ∀ ledger, p.Follows [] { ledger, net := p.netAfter p2pPort k msg now reach, far := p.far } := by
    refine fun ledger => follows_modify ledger hpeers hclients hstore fun x hx => ?_
    split
    · refine ⟨Net.Peer.card_turn _ msg x, fun hside => ?_⟩
      have hplain : Net.Connections.greets (p.config p2pPort) msg = false := by
        refine decide_eq_false fun hc => ?_
        rw [hgreet hc.2 x hx] at hside
        cases hside
      rw [hplain]
      exact Net.Peer.p2pPort_turn msg x
    · exact ⟨(Net.Peer.keep_frame msg x).1, fun _ => (Net.Peer.keep_frame msg x).2⟩
  by_cases h : p.Reads k msg
  · rw [arrive_of_reads env p2pPort k now reach hlist h]
    exact hfollows _
  · rw [arrive_of_not_reads env p2pPort k now reach hlist h]
    exact hfollows _

/-- Besides a list of peers, the answers are those of the ledger. -/
theorem sends_arrive {env : Env} {p2pPort : Int32} {k : ℕ} {now : Int64} {reach : ℕ → Reach ι}
    (hlist : msg.type ≠ .peersList) (hlisted : (p.arrive env p2pPort k msg now reach).1.net.listed
      (p.arrive env p2pPort k msg now reach).1.net.clients = []) :
    ∀ x ∈ (p.arrive env p2pPort k msg now reach).2, (p.arrive env p2pPort k msg now reach).1.net.Sends x := by
  by_cases h : p.Reads k msg
  · rw [arrive_of_reads env p2pPort k now reach hlist h] at hlisted ⊢
    rw [Node.answerPeers_of_nil hlisted, List.nil_append]
    exact Node.sends_route
  · rw [arrive_of_not_reads env p2pPort k now reach hlist h]
    exact fun x hx => absurd hx List.not_mem_nil

end Arrivals
end Process

/-! ### The mesh -/

namespace Mesh
variable {ι : Type}

def peer? (s : Mesh ι) (i : ι) (k : ℕ) : Option Net.Peer := (s.processes i).net.peers[k]?

def far? (s : Mesh ι) (i : ι) (k : ℕ) : Option (ι × Option ℕ) := (s.processes i).far[k]?

/-- The two ends of each connection know each other, and one of them dialed. No process knows the port of a peer that
    came in, and no list of peers was sent. -/
structure Unlisted (stores : ι → PeerStore) (s : Mesh ι) : Prop where
  length : ∀ i, (s.processes i).far.length = (s.processes i).net.peers.length
  halfOpen : ∀ i k j x, s.far? i k = some (j, none) → s.peer? i k = some x → x.outbound = true
  facing : ∀ i k j l, s.far? i k = some (j, some l) → s.far? j l = some (i, some k)
  sides : ∀ i k j l x y, s.far? i k = some (j, some l) → s.peer? i k = some x → s.peer? j l = some y →
    y.outbound = !x.outbound
  ports : ∀ i k x, s.peer? i k = some x → x.outbound = false → x.p2pPort = 0
  clients : ∀ i, ∀ k ∈ (s.processes i).net.clients, ∃ x, s.peer? i k = some x ∧ x.outbound = false
  inward : ∀ m ∈ s.sent, m.message.Answers ∨ ∃ x, s.peer? m.sender m.place = some x ∧ x.outbound = false
  lists : ∀ m ∈ s.sent, m.message.type ≠ .peersList
  endpoints : ∀ i, (s.processes i).net.store.endpoints = (stores i).endpoints

theorem unlisted_start (nodeId : ι → String) (started : ι → Int64) (stores : ι → PeerStore) :
    (start nodeId started stores).Unlisted stores where
  length _ := rfl
  halfOpen _ _ _ _ h := nomatch h
  facing _ _ _ _ h := nomatch h
  sides _ _ _ _ _ _ h := nomatch h
  ports _ _ _ h := nomatch h
  clients _ _ h := nomatch h
  inward _ h := nomatch h
  lists _ h := nomatch h
  endpoints _ := rfl

section Steps
variable {stores : ι → PeerStore} {s : Mesh ι} {i : ι} {q : Process ι} {out : List (ℕ × Message)}
  {dials : List (Endpoint × ι)}

/-! ### One process goes on -/

theorem put_self [DecidableEq ι] : (s.put i q out).processes i = q := Function.update_self _ _ _

theorem put_of_ne [DecidableEq ι] {a : ι} (ha : a ≠ i) : (s.put i q out).processes a = s.processes a :=
  Function.update_of_ne ha _ _

namespace Unlisted

/-- A client's port is unknown, so it is on no list. -/
theorem listed (h : s.Unlisted stores) (i : ι) {clients : List ℕ} (hsub : clients ⊆ (s.processes i).net.clients) :
    (s.processes i).net.listed clients = [] := by
  refine List.filterMap_eq_nil_iff.mpr fun k hk => ?_
  obtain ⟨x, hx, hside⟩ := h.clients i k (hsub hk)
  rw [show (s.processes i).net.peers[k]? = some x from hx, Option.bind_some]
  exact if_neg fun hc => hc.1 (h.ports i k x hx hside)

theorem gossipPeers (h : s.Unlisted stores) (i : ι) (now : Int64) (idx : ℕ) :
    (s.processes i).ledger.gossipPeers now (s.processes i).net idx = [] := by
  unfold Node.gossipPeers
  split
  · rfl
  · split
    · rfl
    · simp only [h.listed i (List.eraseIdx_subset), if_true]

theorem exists_peer (h : s.Unlisted stores) {a : ι} {k : ℕ} {z : ι × Option ℕ} (hz : s.far? a k = some z) :
    ∃ x, s.peer? a k = some x := by
  have hk := (List.getElem?_eq_some_iff.mp hz).1
  rw [h.length a] at hk
  exact ⟨_, List.getElem?_eq_getElem hk⟩

theorem exists_far (h : s.Unlisted stores) {a : ι} {k : ℕ} {x : Net.Peer} (hx : s.peer? a k = some x) :
    ∃ z, s.far? a k = some z := by
  have hk := (List.getElem?_eq_some_iff.mp hx).1
  rw [← h.length a] at hk
  exact ⟨_, List.getElem?_eq_getElem hk⟩

/-- A peer that came in has its other end. -/
theorem far_of_inbound (h : s.Unlisted stores) {a : ι} {k : ℕ} {x : Net.Peer} (hx : s.peer? a k = some x)
    (hside : x.outbound = false) : ∃ j l, s.far? a k = some (j, some l) := by
  obtain ⟨⟨j, _ | l⟩, hz⟩ := h.exists_far hx
  · have hout := h.halfOpen a k j x hz hx
    rw [hside] at hout
    cases hout
  · exact ⟨j, l, hz⟩

variable [DecidableEq ι]

/-- What was known of the ends stays, and what is new was dialed. -/
theorem put_far (hf : (s.processes i).Follows dials q) (a : ι) (k : ℕ) :
    (∀ z, s.far? a k = some z → (s.put i q out).far? a k = some z) ∧
      ∀ z, (s.put i q out).far? a k = some z →
        s.far? a k = some z ∨ (s.far? a k = none ∧ ∃ j, z = (j, none)) := by
  unfold far?
  by_cases ha : a = i
  · subst ha
    simp only [put_self, hf.far]
    refine ⟨fun z hz => ?_, fun z hz => ?_⟩
    · rw [List.getElem?_append_left (List.getElem?_eq_some_iff.mp hz).1, hz]
    · rcases Nat.lt_or_ge k (s.processes a).far.length with hk | hk
      · rw [List.getElem?_append_left hk] at hz
        exact Or.inl hz
      · rw [List.getElem?_append_right hk, List.getElem?_map] at hz
        obtain ⟨d, -, rfl⟩ := Option.map_eq_some_iff.mp hz
        exact Or.inr ⟨List.getElem?_eq_none hk, d.2, rfl⟩
  · simp only [put_of_ne ha]
    exact ⟨fun z hz => hz, fun z hz => Or.inl hz⟩

theorem put_peer (hf : (s.processes i).Follows dials q) (a : ι) (k : ℕ) :
    (∀ x, s.peer? a k = some x → ∃ y, (s.put i q out).peer? a k = some y ∧ y.card = x.card ∧
        (x.outbound = false → y.p2pPort = x.p2pPort)) ∧
      ∀ y, (s.put i q out).peer? a k = some y →
        (∃ x, s.peer? a k = some x ∧ y.card = x.card ∧ (x.outbound = false → y.p2pPort = x.p2pPort)) ∨
          (a = i ∧ s.peer? a k = none ∧ ∃ d ∈ dials, y.card = (true, d.1) ∧
            ∀ z, (s.put i q out).far? a k = some z → (s.processes i).far.length = (s.processes i).net.peers.length →
              z.1 = d.2) := by
  unfold peer?
  by_cases ha : a = i
  · subst ha
    simp only [put_self]
    refine ⟨hf.peers k, fun y hy => ?_⟩
    cases hx : (s.processes a).net.peers[k]? with
    | some x =>
      obtain ⟨y', hy', hcard, hport⟩ := hf.peers k x hx
      obtain rfl := Option.some_inj.mp (hy.symm.trans hy')
      exact Or.inl ⟨x, rfl, hcard, hport⟩
    | none =>
      obtain ⟨m, rfl⟩ := Nat.exists_eq_add_of_le (List.getElem?_eq_none_iff.mp hx)
      have hm : m < dials.length := by
        have hlt := (List.getElem?_eq_some_iff.mp hy).1
        rw [hf.length] at hlt
        omega
      have hd := List.getElem?_eq_getElem hm
      refine Or.inr ⟨trivial, rfl, dials[m], List.getElem_mem hm, hf.dialed m _ y hd hy, fun z hz hlength => ?_⟩
      simp only [far?, put_self] at hz
      rw [hf.far, ← hlength, List.getElem?_append_right (Nat.le_add_right _ _), Nat.add_sub_cancel_left,
        List.getElem?_map, hd] at hz
      exact (congrArg Prod.fst (Option.some_inj.mp hz)).symm
  · simp only [put_of_ne ha]
    exact ⟨fun x hx => ⟨x, hx, rfl, fun _ => rfl⟩, fun y hy => Or.inl ⟨y, hy, rfl, fun _ => rfl⟩⟩

/-- A peer that came in stays one that came in. -/
theorem put_inbound (hf : (s.processes i).Follows dials q) {a : ι} {k : ℕ}
    (h : ∃ x, s.peer? a k = some x ∧ x.outbound = false) :
    ∃ y, (s.put i q out).peer? a k = some y ∧ y.outbound = false := by
  obtain ⟨x, hx, hside⟩ := h
  obtain ⟨y, hy, hcard, -⟩ := (put_peer hf a k).1 x hx
  exact ⟨y, hy, (Net.Peer.outbound_of_card hcard).trans hside⟩

theorem mem_sent_put (hout : ∀ x ∈ out, q.net.Sends x) {m : Parcel ι} (hm : m ∈ (s.put i q out).sent) :
    m ∈ s.sent ∨ (m.sender = i ∧ q.net.Sends (m.place, m.message)) := by
  refine (List.mem_append.mp hm).imp_right fun hnew => ?_
  obtain ⟨x, hx, rfl⟩ := List.mem_map.mp hnew
  exact ⟨rfl, hout x (List.mem_of_mem_filter hx)⟩

theorem put_length (h : s.Unlisted stores) (hf : (s.processes i).Follows dials q) (a : ι) :
    ((s.put i q out).processes a).far.length = ((s.put i q out).processes a).net.peers.length := by
  by_cases ha : a = i
  · subst ha
    simp only [put_self]
    exact hf.far_length (h.length a)
  · simp only [put_of_ne ha]
    exact h.length a

theorem put_halfOpen (h : s.Unlisted stores) (hf : (s.processes i).Follows dials q) {a j : ι} {k : ℕ} {y : Net.Peer}
    (hz : (s.put i q out).far? a k = some (j, none)) (hy : (s.put i q out).peer? a k = some y) : y.outbound = true := by
  rcases (put_peer hf a k).2 y hy with ⟨x, hx, hcard, -⟩ | ⟨-, -, d, -, hcard, -⟩
  · rcases (put_far hf a k).2 _ hz with hold | ⟨hnone, -⟩
    · exact (Net.Peer.outbound_of_card hcard).trans (h.halfOpen a k j x hold hx)
    · have hk := (List.getElem?_eq_some_iff.mp hx).1
      rw [← h.length a] at hk
      exact absurd hnone (by rw [far?, List.getElem?_eq_getElem hk]; exact Option.some_ne_none _)
  · exact congrArg Prod.fst hcard

/-- A process that goes on meets nobody. -/
theorem far_put_met (hf : (s.processes i).Follows dials q) {a j : ι} {k l : ℕ}
    (hz : (s.put i q out).far? a k = some (j, some l)) : s.far? a k = some (j, some l) := by
  rcases (put_far hf a k).2 _ hz with hold | ⟨-, _, hnone⟩
  · exact hold
  · cases hnone

theorem put_facing (h : s.Unlisted stores) (hf : (s.processes i).Follows dials q) {a j : ι} {k l : ℕ}
    (hz : (s.put i q out).far? a k = some (j, some l)) : (s.put i q out).far? j l = some (a, some k) :=
  (put_far hf j l).1 _ (h.facing a k j l (far_put_met hf hz))

theorem put_sides (h : s.Unlisted stores) (hf : (s.processes i).Follows dials q) {a j : ι} {k l : ℕ} {y y' : Net.Peer}
    (hz : (s.put i q out).far? a k = some (j, some l)) (hy : (s.put i q out).peer? a k = some y)
    (hy' : (s.put i q out).peer? j l = some y') : y'.outbound = !y.outbound := by
  have hold := far_put_met hf hz
  obtain ⟨x, hx⟩ := h.exists_peer hold
  obtain ⟨x', hx'⟩ := h.exists_peer (h.facing a k j l hold)
  obtain ⟨z, hz, hcard, -⟩ := (put_peer hf a k).1 x hx
  obtain ⟨z', hz', hcard', -⟩ := (put_peer hf j l).1 x' hx'
  obtain rfl := Option.some_inj.mp (hy.symm.trans hz)
  obtain rfl := Option.some_inj.mp (hy'.symm.trans hz')
  rw [Net.Peer.outbound_of_card hcard, Net.Peer.outbound_of_card hcard', h.sides a k j l x x' hold hx hx']

theorem put_ports (h : s.Unlisted stores) (hf : (s.processes i).Follows dials q) {a : ι} {k : ℕ} {y : Net.Peer}
    (hy : (s.put i q out).peer? a k = some y) (hside : y.outbound = false) : y.p2pPort = 0 := by
  rcases (put_peer hf a k).2 y hy with ⟨x, hx, hcard, hport⟩ | ⟨-, -, d, -, hcard, -⟩
  · have hold : x.outbound = false := (Net.Peer.outbound_of_card hcard).symm.trans hside
    rw [hport hold, h.ports a k x hx hold]
  · rw [show y.outbound = true from congrArg Prod.fst hcard] at hside
    cases hside

theorem put_clients (h : s.Unlisted stores) (hf : (s.processes i).Follows dials q) {a : ι} {k : ℕ}
    (hk : k ∈ ((s.put i q out).processes a).net.clients) :
    ∃ y, (s.put i q out).peer? a k = some y ∧ y.outbound = false := by
  refine put_inbound hf (h.clients a k ?_)
  by_cases ha : a = i
  · subst ha
    simp only [put_self] at hk
    exact hf.clients ▸ hk
  · simp only [put_of_ne ha] at hk
    exact hk

theorem put_inward (h : s.Unlisted stores) (hf : (s.processes i).Follows dials q) (hout : ∀ x ∈ out, q.net.Sends x)
    {m : Parcel ι} (hm : m ∈ (s.put i q out).sent) :
    m.message.Answers ∨ ∃ y, (s.put i q out).peer? m.sender m.place = some y ∧ y.outbound = false := by
  rcases mem_sent_put hout hm with hold | ⟨rfl, hnew⟩
  · exact (h.inward m hold).imp_right (put_inbound hf)
  · exact hnew.inward.imp_right fun hclient => put_inbound hf (h.clients _ _ (hf.clients ▸ hclient))

theorem put_endpoints (h : s.Unlisted stores) (hf : (s.processes i).Follows dials q) (a : ι) :
    ((s.put i q out).processes a).net.store.endpoints = (stores a).endpoints := by
  by_cases ha : a = i
  · subst ha
    simp only [put_self, hf.endpoints]
    exact h.endpoints a
  · simp only [put_of_ne ha]
    exact h.endpoints a

/-- A process goes on, and sends answers and messages to its clients. -/
theorem put (h : s.Unlisted stores) (hf : (s.processes i).Follows dials q) (hout : ∀ x ∈ out, q.net.Sends x) :
    (s.put i q out).Unlisted stores where
  length := put_length h hf
  halfOpen _ _ _ _ := put_halfOpen h hf
  facing _ _ _ _ := put_facing h hf
  sides _ _ _ _ _ _ := put_sides h hf
  ports _ _ _ := put_ports h hf
  clients _ _ := put_clients h hf
  inward _ := put_inward h hf hout
  lists m hm := (mem_sent_put hout hm).elim (h.lists m) fun hnew => hnew.2.unlisted
  endpoints := put_endpoints h hf

end Unlisted

/-! ### Accepted connections -/

theorem getElem?_concat {α : Type} (xs : List α) (x : α) (m : ℕ) :
    (xs ++ [x])[m]? = if m = xs.length then some x else xs[m]? := by
  split
  case isTrue hm => rw [hm, List.getElem?_concat_length]
  case isFalse hm =>
    rcases Nat.lt_or_gt_of_ne hm with hlt | hgt
    · rw [List.getElem?_append_left hlt]
    · rw [List.getElem?_eq_none (by simp; omega), List.getElem?_eq_none hgt.le]

variable [DecidableEq ι] {j : ι} {k : ℕ} {address : String} {port : Int32} {now : Int64} {p2pPort : ι → Int32}

theorem meet_far (s : Mesh ι) (i : ι) (k l : ℕ) (a : ι) (m : ℕ) :
    (s.meet i k l).far? a m = if a = i ∧ m = k then (s.far? i k).map fun x => (x.1, some l) else s.far? a m := by
  unfold far? meet
  by_cases ha : a = i
  · subst ha
    simp only [Function.update_self, List.getElem?_modify, true_and]
    by_cases hm : m = k
    · subst hm
      simp
    · simp [hm, Ne.symm hm]
  · simp only [Function.update_of_ne ha, ha, false_and, if_false]

theorem meet_frame (s : Mesh ι) (i : ι) (k l : ℕ) (a : ι) :
    ((s.meet i k l).processes a).net = (s.processes a).net ∧
      ((s.meet i k l).processes a).ledger = (s.processes a).ledger ∧
      ((s.meet i k l).processes a).far.length = (s.processes a).far.length := by
  unfold meet
  by_cases ha : a = i
  · subst ha
    simp only [Function.update_self, List.length_modify, and_self]
  · simp only [Function.update_of_ne ha, and_self]

/-- Process `j` has accepted what process `i` dialed as its peer `k`: the new peer came in, it is greeted at most, and
    the two ends know each other. -/
structure Accepts (s t : Mesh ι) (i : ι) (k : ℕ) (j : ι) (x : Net.Peer) : Prop where
  inbound : x.outbound = false ∧ x.p2pPort = 0
  far : ∀ a m, t.far? a m =
    if a = i ∧ m = k then some (j, some (s.processes j).net.peers.length)
    else if a = j ∧ m = (s.processes j).net.peers.length then some (i, some k) else s.far? a m
  peers : ∀ a m, t.peer? a m = if a = j ∧ m = (s.processes j).net.peers.length then some x else s.peer? a m
  length : ∀ a, (t.processes a).far.length = (t.processes a).net.peers.length
  clients : ∀ a, ∀ m ∈ (t.processes a).net.clients,
    m ∈ (s.processes a).net.clients ∨ (a = j ∧ m = (s.processes j).net.peers.length)
  store : ∀ a, (t.processes a).net.store = (s.processes a).net.store
  ledger : ∀ a, (t.processes a).ledger = (s.processes a).ledger
  sent : ∃ greetings, t.sent = s.sent ++ greetings ∧ ∀ m ∈ greetings, m.message.type = .handshake ∧ m.sender = j ∧
    m.place = (s.processes j).net.peers.length

theorem store_handleAccept (handler : Net.Handler) (s : Net.Connections) (address : String) (port : Int32) :
    (s.handleAccept handler address port).store = s.store := by
  cases handler with
  | node =>
    simp only [Net.Connections.handleAccept, Net.Connections.handleConnection]
    split
    · rfl
    · split <;> rfl
  | _ => rfl

/-- What came in is the last peer of the process, and is a client at most. -/
theorem handleAccept_node (c : Net.Connections) (address : String) (port : Int32) :
    ∃ x : Net.Peer, (x.outbound = false ∧ x.p2pPort = 0) ∧
      (c.handleAccept .node address port).peers = c.peers ++ [x] ∧
      ∀ m ∈ (c.handleAccept .node address port).clients, m ∈ c.clients ∨ m = c.peers.length := by
  rcases Net.Connections.accept_node c address port with ⟨hp, hc⟩ | ⟨hp, hc⟩
  · exact ⟨_, ⟨rfl, rfl⟩, hp, fun m hm => Or.inl (hc ▸ hm)⟩
  · refine ⟨_, ⟨rfl, rfl⟩, hp, fun m hm => ?_⟩
    rw [hc, List.mem_append, List.mem_singleton] at hm
    exact hm

/-- The process that accepts, before the dialer knows of it. -/
def accepted (s : Mesh ι) (i : ι) (k : ℕ) (j : ι) (address : String) (port : Int32) : Process ι :=
  { s.processes j with
    net := (s.processes j).net.handleAccept .node address port
    far := (s.processes j).far ++ [(i, some k)] }

/-- The HANDSHAKE for a new client. -/
def greetings (s : Mesh ι) (j : ι) (q : Process ι) (now : Int64) (p2pPort : Int32) : List (ℕ × Message) :=
  if (s.processes j).net.peers.length ∈ q.net.clients then
    [((s.processes j).net.peers.length, (s.processes j).ledger.handshakeMessage now p2pPort)] else []

theorem accept_eq (hopen : s.far? i k = some (j, none)) :
    s.accept p2pPort i k address port now =
      (s.put j (s.accepted i k j address port)
        (s.greetings j (s.accepted i k j address port) now (p2pPort j))).meet i k (s.processes j).net.peers.length := by
  unfold far? at hopen
  unfold Mesh.accept
  rw [hopen]
  rfl

theorem far_put_accepted (hlength : (s.processes j).far.length = (s.processes j).net.peers.length) (a : ι) (m : ℕ) :
    (s.put j (s.accepted i k j address port) out).far? a m =
      if a = j ∧ m = (s.processes j).net.peers.length then some (i, some k) else s.far? a m := by
  unfold far?
  by_cases ha : a = j
  · subst ha
    simp only [put_self, accepted, getElem?_concat, hlength, true_and]
  · simp only [put_of_ne ha, ha, false_and, if_false]

theorem net_put (a : ι) : ((s.put j q out).processes a).net = if a = j then q.net else (s.processes a).net := by
  by_cases ha : a = j
  · subst ha
    rw [put_self, if_pos rfl]
  · rw [put_of_ne ha, if_neg ha]

theorem ledger_put_accepted (a : ι) :
    ((s.put j (s.accepted i k j address port) out).processes a).ledger = (s.processes a).ledger := by
  by_cases ha : a = j
  · subst ha
    rw [put_self]
    rfl
  · rw [put_of_ne ha]

theorem length_put_accepted (h : s.Unlisted stores) (a : ι) :
    ((s.put j (s.accepted i k j address port) out).processes a).far.length =
      ((s.put j (s.accepted i k j address port) out).processes a).net.peers.length := by
  by_cases ha : a = j
  · subst ha
    obtain ⟨x, -, hpeers, -⟩ := handleAccept_node (s.processes a).net address port
    simp only [put_self, accepted, hpeers, List.length_append, List.length_singleton, h.length a]
  · simp only [put_of_ne ha]
    exact h.length a

omit [DecidableEq ι] in
theorem of_mem_greetings {now : Int64} {p2pPort : Int32} {y : ℕ × Message} (hy : y ∈ s.greetings j q now p2pPort) :
    y.2.type = .handshake ∧ y.1 = (s.processes j).net.peers.length := by
  unfold greetings at hy
  split at hy
  · rw [List.mem_singleton.mp hy]
    exact ⟨rfl, rfl⟩
  · cases hy

theorem Unlisted.accepts (h : s.Unlisted stores) (hopen : s.far? i k = some (j, none)) (address : String) (port : Int32)
    (now : Int64) (p2pPort : ι → Int32) : ∃ x, s.Accepts (s.accept p2pPort i k address port now) i k j x := by
  obtain ⟨x, hx, hpeers, hclients⟩ := handleAccept_node (s.processes j).net address port
  have hlength := h.length j
  have hdialer : ¬(i = j ∧ k = (s.processes j).net.peers.length) := by
    rintro ⟨rfl, rfl⟩
    exact absurd hlength (Nat.ne_of_gt (List.getElem?_eq_some_iff.mp hopen).1)
  rw [accept_eq hopen]
  refine ⟨x, hx, fun a m => ?far, fun a m => ?peers, fun a => ?length, fun a m hm => ?clients, fun a => ?store,
    fun a => ?ledger, _, rfl, fun m hm => ?sent⟩
  case far =>
    rw [meet_far, far_put_accepted hlength, far_put_accepted hlength, if_neg hdialer, hopen]
    rfl
  case peers =>
    unfold peer?
    rw [(meet_frame _ _ _ _ a).1, net_put]
    by_cases ha : a = j
    · subst ha
      simp only [if_true, true_and, accepted, hpeers, getElem?_concat]
    · simp only [ha, if_false, false_and]
  case length =>
    rw [(meet_frame _ _ _ _ a).1, (meet_frame _ _ _ _ a).2.2, length_put_accepted h]
  case clients =>
    rw [(meet_frame _ _ _ _ a).1, net_put] at hm
    by_cases ha : a = j
    · subst ha
      rw [if_pos rfl] at hm
      exact (hclients m hm).imp_right fun heq => ⟨rfl, heq⟩
    · rw [if_neg ha] at hm
      exact Or.inl hm
  case store =>
    rw [(meet_frame _ _ _ _ a).1, net_put]
    by_cases ha : a = j
    · subst ha
      rw [if_pos rfl]
      exact store_handleAccept _ _ _ _
    · rw [if_neg ha]
  case ledger => rw [(meet_frame _ _ _ _ a).2.1, ledger_put_accepted]
  case sent =>
    obtain ⟨y, hy, rfl⟩ := List.mem_map.mp hm
    obtain ⟨htype, hplace⟩ := of_mem_greetings (List.mem_of_mem_filter hy)
    exact ⟨htype, rfl, hplace⟩

namespace Accepts
variable {t : Mesh ι} {x : Net.Peer}

theorem far_cases (ha : s.Accepts t i k j x) {a : ι} {m : ℕ} {z : ι × Option ℕ} (hz : t.far? a m = some z) :
    (a = i ∧ m = k ∧ z = (j, some (s.processes j).net.peers.length)) ∨
      (a = j ∧ m = (s.processes j).net.peers.length ∧ z = (i, some k)) ∨
      (¬(a = j ∧ m = (s.processes j).net.peers.length) ∧ s.far? a m = some z) := by
  rw [ha.far] at hz
  split at hz
  case isTrue heq => exact Or.inl ⟨heq.1, heq.2, (Option.some_inj.mp hz).symm⟩
  case isFalse =>
    split at hz
    case isTrue heq => exact Or.inr (Or.inl ⟨heq.1, heq.2, (Option.some_inj.mp hz).symm⟩)
    case isFalse hne => exact Or.inr (Or.inr ⟨hne, hz⟩)

theorem peer_new (ha : s.Accepts t i k j x) : t.peer? j (s.processes j).net.peers.length = some x := by
  rw [ha.peers, if_pos ⟨rfl, rfl⟩]

/-- The place of the new peer was free. -/
theorem peer_old (ha : s.Accepts t i k j x) {a : ι} {m : ℕ} {y : Net.Peer} (hy : s.peer? a m = some y) :
    t.peer? a m = some y := by
  rw [ha.peers, if_neg]
  · exact hy
  · rintro ⟨rfl, rfl⟩
    exact absurd (List.getElem?_eq_some_iff.mp hy).1 (Nat.lt_irrefl _)

theorem peer_cases (ha : s.Accepts t i k j x) {a : ι} {m : ℕ} {y : Net.Peer} (hy : t.peer? a m = some y) :
    (a = j ∧ m = (s.processes j).net.peers.length ∧ y = x) ∨ s.peer? a m = some y := by
  rw [ha.peers] at hy
  split at hy
  case isTrue heq => exact Or.inl ⟨heq.1, heq.2, (Option.some_inj.mp hy).symm⟩
  case isFalse => exact Or.inr hy

theorem inbound_old (ha : s.Accepts t i k j x) {a : ι} {m : ℕ} (h : ∃ y, s.peer? a m = some y ∧ y.outbound = false) :
    ∃ y, t.peer? a m = some y ∧ y.outbound = false := by
  obtain ⟨y, hy, hside⟩ := h
  exact ⟨y, ha.peer_old hy, hside⟩

theorem halfOpen (ha : s.Accepts t i k j x) (h : s.Unlisted stores) {a b : ι} {m : ℕ} {y : Net.Peer}
    (hz : t.far? a m = some (b, none)) (hy : t.peer? a m = some y) : y.outbound = true := by
  rcases ha.far_cases hz with ⟨-, -, heq⟩ | ⟨-, -, heq⟩ | ⟨hnew, hz⟩
  · cases heq
  · cases heq
  · rcases ha.peer_cases hy with ⟨rfl, rfl, -⟩ | hy
    · exact absurd ⟨rfl, rfl⟩ hnew
    · exact h.halfOpen a m b y hz hy

theorem facing (ha : s.Accepts t i k j x) (h : s.Unlisted stores) (hopen : s.far? i k = some (j, none)) {a b : ι}
    {m l : ℕ} (hz : t.far? a m = some (b, some l)) : t.far? b l = some (a, some m) := by
  have hfree : s.far? j (s.processes j).net.peers.length = none :=
    List.getElem?_eq_none (Nat.le_of_eq (h.length j))
  have hdialer : ¬(j = i ∧ (s.processes j).net.peers.length = k) := by
    rintro ⟨rfl, rfl⟩
    rw [hopen] at hfree
    cases hfree
  rcases ha.far_cases hz with ⟨rfl, rfl, heq⟩ | ⟨rfl, rfl, heq⟩ | ⟨-, hz⟩
  · cases heq
    rw [ha.far, if_neg hdialer, if_pos ⟨rfl, rfl⟩]
  · cases heq
    rw [ha.far, if_pos ⟨rfl, rfl⟩]
  · have hback := h.facing a m b l hz
    rw [ha.far, if_neg, if_neg]
    · exact hback
    · rintro ⟨rfl, rfl⟩
      rw [hfree] at hback
      cases hback
    · rintro ⟨rfl, rfl⟩
      rw [hopen] at hback
      cases hback

/-- The dialer of the new connection is on the other side. -/
theorem sides_new (ha : s.Accepts t i k j x) (h : s.Unlisted stores) (hopen : s.far? i k = some (j, none))
    {y y' : Net.Peer} (hy : t.peer? i k = some y) (hy' : t.peer? j (s.processes j).net.peers.length = some y') :
    y.outbound = true ∧ y'.outbound = false := by
  obtain ⟨dialed, hdialed⟩ := h.exists_peer hopen
  obtain rfl := Option.some_inj.mp (hy.symm.trans (ha.peer_old hdialed))
  obtain rfl := Option.some_inj.mp (hy'.symm.trans ha.peer_new)
  exact ⟨h.halfOpen i k j y hopen hdialed, ha.inbound.1⟩

theorem sides (ha : s.Accepts t i k j x) (h : s.Unlisted stores) (hopen : s.far? i k = some (j, none)) {a b : ι}
    {m l : ℕ} {y y' : Net.Peer} (hz : t.far? a m = some (b, some l)) (hy : t.peer? a m = some y)
    (hy' : t.peer? b l = some y') : y'.outbound = !y.outbound := by
  rcases ha.far_cases hz with ⟨rfl, rfl, heq⟩ | ⟨rfl, rfl, heq⟩ | ⟨-, hz⟩
  · cases heq
    obtain ⟨hdialer, hclient⟩ := ha.sides_new h hopen hy hy'
    rw [hdialer, hclient]
    rfl
  · cases heq
    obtain ⟨hdialer, hclient⟩ := ha.sides_new h hopen hy' hy
    rw [hdialer, hclient]
    rfl
  · obtain ⟨z, hz'⟩ := h.exists_peer hz
    obtain ⟨z', hz''⟩ := h.exists_peer (h.facing a m b l hz)
    obtain rfl := Option.some_inj.mp (hy.symm.trans (ha.peer_old hz'))
    obtain rfl := Option.some_inj.mp (hy'.symm.trans (ha.peer_old hz''))
    exact h.sides a m b l y y' hz hz' hz''

theorem ports (ha : s.Accepts t i k j x) (h : s.Unlisted stores) {a : ι} {m : ℕ} {y : Net.Peer}
    (hy : t.peer? a m = some y) (hside : y.outbound = false) : y.p2pPort = 0 := by
  rcases ha.peer_cases hy with ⟨-, -, rfl⟩ | hy
  · exact ha.inbound.2
  · exact h.ports a m y hy hside

theorem inbound_clients (ha : s.Accepts t i k j x) (h : s.Unlisted stores) {a : ι} {m : ℕ}
    (hm : m ∈ (t.processes a).net.clients) : ∃ y, t.peer? a m = some y ∧ y.outbound = false := by
  rcases ha.clients a m hm with hm | ⟨rfl, rfl⟩
  · exact ha.inbound_old (h.clients a m hm)
  · exact ⟨x, ha.peer_new, ha.inbound.1⟩

theorem mem_sent (ha : s.Accepts t i k j x) {m : Parcel ι} (hm : m ∈ t.sent) :
    m ∈ s.sent ∨ (m.message.type = .handshake ∧ m.sender = j ∧ m.place = (s.processes j).net.peers.length) := by
  obtain ⟨greetings, hsent, hgreetings⟩ := ha.sent
  rw [hsent] at hm
  exact (List.mem_append.mp hm).imp_right (hgreetings m)

theorem inward (ha : s.Accepts t i k j x) (h : s.Unlisted stores) {m : Parcel ι} (hm : m ∈ t.sent) :
    m.message.Answers ∨ ∃ y, t.peer? m.sender m.place = some y ∧ y.outbound = false := by
  rcases ha.mem_sent hm with hm | ⟨-, hsender, hplace⟩
  · exact (h.inward m hm).imp_right ha.inbound_old
  · rw [hsender, hplace]
    exact Or.inr ⟨x, ha.peer_new, ha.inbound.1⟩

theorem lists (ha : s.Accepts t i k j x) (h : s.Unlisted stores) {m : Parcel ι} (hm : m ∈ t.sent) :
    m.message.type ≠ .peersList := by
  rcases ha.mem_sent hm with hm | ⟨htype, -⟩
  · exact h.lists m hm
  · rw [htype]
    exact nofun

end Accepts

theorem Unlisted.accept {t : Mesh ι} {x : Net.Peer} (h : s.Unlisted stores) (hopen : s.far? i k = some (j, none))
    (ha : s.Accepts t i k j x) : t.Unlisted stores where
  length := ha.length
  halfOpen _ _ _ _ := ha.halfOpen h
  facing _ _ _ _ := ha.facing h hopen
  sides _ _ _ _ _ _ := ha.sides h hopen
  ports _ _ _ := ha.ports h
  clients _ _ := ha.inbound_clients h
  inward _ := ha.inward h
  lists _ := ha.lists h
  endpoints a := by
    rw [ha.store]
    exact h.endpoints a

/-! ### Steps and runs -/

omit [DecidableEq ι] in
/-- A message that arrives is no list of peers, and a HANDSHAKE arrives at the end that dialed. -/
theorem Unlisted.arrives (h : s.Unlisted stores) {m l : ℕ} {x : Parcel ι} (hx : s.sent[m]? = some x)
    (hfar : s.far? x.sender x.place = some (j, some l)) : x.message.type ≠ .peersList ∧
      (x.message.type = .handshake → ∀ y, s.peer? j l = some y → y.outbound = true) := by
  have hmem := List.mem_of_getElem? hx
  refine ⟨h.lists x hmem, fun htype y hy => ?_⟩
  have hgreets : ¬x.message.Answers := by simp [Message.Answers, htype]
  obtain ⟨z, hz, hside⟩ := (h.inward x hmem).resolve_left hgreets
  rw [h.sides _ _ j l z y hfar hz hy, hside]
  rfl

/-- What a step does: a process goes on, and sends what its ledger answers, or it accepts a connection, or nothing
    happens. -/
inductive Goes (s t : Mesh ι) (a : MeshAction ι) : Prop
  | put (i : ι) (dials : List (Endpoint × ι)) (q : Process ι) (out : List (ℕ × Message)) (eq : t = s.put i q out)
    (follows : (s.processes i).Follows dials q) (sends : ∀ x ∈ out, q.net.Sends x)
    (dialed : ∀ d ∈ dials, a = .connectToPeer i d.1 (.connected d.2))
  | accept (i : ι) (k : ℕ) (j : ι) (x : Net.Peer) (halfOpen : s.far? i k = some (j, none))
    (accepts : s.Accepts t i k j x)
  | none (eq : t = s)

theorem Unlisted.goes (env : Env) (p2pPort : ι → Int32) (h : s.Unlisted stores) (a : MeshAction ι) :
    s.Goes (s.step env p2pPort a) a := by
  have quiet : ∀ (i : ι) (q : Process ι) (out : List (ℕ × Message)), s.step env p2pPort a = s.put i q out →
      (s.processes i).Follows [] q → (∀ x ∈ out, q.net.Sends x) → s.Goes (s.step env p2pPort a) a :=
    fun i q out heq hf hout => .put i [] q out heq hf hout (List.forall_mem_nil _)
  have toAll : ∀ (i : ι) (msg : Message), msg.type ≠ .peersList →
      ∀ x ∈ (s.processes i).net.toAll msg, (s.processes i).net.Sends x := by
    intro i msg hmsg x hx
    obtain ⟨k, hk, rfl⟩ := List.mem_map.mp hx
    exact ⟨Or.inr hk, hmsg⟩
  cases a with
  | own i e =>
    have hlisted := h.listed i (List.Subset.refl _)
    exact quiet i _ _ rfl (Process.follows_own env _ e) (Process.sends_own env hlisted e)
  | connectToPeer i e reach =>
    refine .put i _ _ [] rfl (Process.follows_connectToPeer _ e reach) (List.forall_mem_nil _) fun d hd => ?_
    obtain ⟨j, hj, rfl⟩ := List.mem_map.mp hd
    cases reach with
    | connected j' => rw [List.mem_singleton.mp hj]
    | _ => cases hj
  | accept i k address port now =>
    rcases hopen : (s.processes i).far[k]? with _ | ⟨j, _ | l⟩
    · exact .none (by simp only [Mesh.step, Mesh.accept, hopen])
    · obtain ⟨x, hx⟩ := h.accepts hopen address port now p2pPort
      exact .accept i k j x hopen hx
    · exact .none (by simp only [Mesh.step, Mesh.accept, hopen])
  | arrive m now reach =>
    rcases hx : s.sent[m]? with _ | x
    · exact .none (by simp only [Mesh.step, hx])
    · rcases hfar : (s.processes x.sender).far[x.place]? with _ | ⟨j, _ | l⟩
      · exact .none (by simp only [Mesh.step, hx, hfar])
      · exact .none (by simp only [Mesh.step, hx, hfar])
      · obtain ⟨hlist, hgreet⟩ := h.arrives hx hfar
        have hfollows : (s.processes j).Follows [] ((s.processes j).arrive env (p2pPort j) l x.message now reach).1 :=
          Process.follows_arrive env (p2pPort j) now reach hlist hgreet
        have hquiet := (h.put hfollows (List.forall_mem_nil _)).listed j (List.Subset.refl _)
        simp only [Mesh.put, Function.update_self] at hquiet
        refine quiet j _ _ ?_ hfollows (Process.sends_arrive hlist hquiet)
        simp only [Mesh.step, hx, hfar]
  | gossip i idx now =>
    refine quiet i _ [] ?_ (.of_net rfl rfl) (List.forall_mem_nil _)
    rw [Mesh.step, h.gossipPeers]
  | getPeers i now =>
    exact quiet i _ _ rfl (.of_net rfl rfl) (toAll i _ nofun)
  | ping i now =>
    exact quiet i _ _ rfl (.of_net rfl rfl) (toAll i _ nofun)
  | lost i k =>
    exact quiet i _ [] rfl (Process.follows_modify _ rfl rfl rfl fun x _ => ⟨rfl, fun _ => rfl⟩) (List.forall_mem_nil _)

theorem Unlisted.step (env : Env) (p2pPort : ι → Int32) (h : s.Unlisted stores) (a : MeshAction ι) :
    (s.step env p2pPort a).Unlisted stores := by
  rcases h.goes env p2pPort a with ⟨i, dials, q, out, heq, hf, hout, -⟩ | ⟨i, k, j, x, hopen, ha⟩ | heq
  · rw [heq]
    exact h.put hf hout
  · exact h.accept hopen ha
  · rw [heq]
    exact h

/-- Every peer that a node dialed was to be dialed by an action, which reached the process at its other end. -/
def Dialed (actions : List (MeshAction ι)) (s : Mesh ι) : Prop :=
  ∀ i k x z, s.peer? i k = some x → s.far? i k = some z → x.outbound = true →
    MeshAction.connectToPeer i { ip := x.address, port := x.port } (.connected z.1) ∈ actions

theorem Dialed.step {env : Env} {actions : List (MeshAction ι)} (hd : s.Dialed actions) (h : s.Unlisted stores)
    {a : MeshAction ι} (ha : a ∈ actions) : (s.step env p2pPort a).Dialed actions := by
  intro b m y z hy hz hside
  rcases h.goes env p2pPort a with ⟨i, dials, q, out, heq, hf, -, hdials⟩ | ⟨i, k, j, x, hopen, haccepts⟩ | heq
  · rw [heq] at hy hz
    rcases (Unlisted.put_peer hf b m).2 y hy with ⟨x, hx, hsame, -⟩ | ⟨rfl, -, d, hmem, hnew, hend⟩
    · have hold : s.far? b m = some z := by
        refine ((Unlisted.put_far hf b m).2 z hz).resolve_right fun hnone => ?_
        have hm := (List.getElem?_eq_some_iff.mp hx).1
        rw [← h.length b] at hm
        exact absurd hnone.1 (by rw [far?, List.getElem?_eq_getElem hm]; exact Option.some_ne_none _)
      have hcard : Endpoint.mk y.address y.port = Endpoint.mk x.address x.port := congrArg Prod.snd hsame
      rw [hcard]
      exact hd b m x z hx hold ((Net.Peer.outbound_of_card hsame).symm.trans hside)
    · have hcard : Endpoint.mk y.address y.port = d.1 := congrArg Prod.snd hnew
      rw [hcard, hend z hz (h.length b), ← hdials d hmem]
      exact ha
  · rw [haccepts.peers] at hy
    split at hy
    case isTrue =>
      obtain rfl := Option.some_inj.mp hy
      rw [haccepts.inbound.1] at hside
      cases hside
    case isFalse hnew =>
      rw [haccepts.far, if_neg hnew] at hz
      split at hz
      case isTrue hsame =>
        rw [hsame.1, hsame.2] at hy
        rw [hsame.1]
        cases hz
        exact hd i k y (j, none) hy hopen hside
      case isFalse => exact hd b m y z hy hz hside
  · rw [heq] at hy hz
    exact hd b m y z hy hz hside

theorem run_unlisted (env : Env) (p2pPort : ι → Int32) (nodeId : ι → String) (started : ι → Int64)
    (stores : ι → PeerStore) (actions : List (MeshAction ι)) :
    ∀ s ∈ Transition.states (Mesh.step env p2pPort) (start nodeId started stores) actions,
      s.Unlisted stores ∧ s.Dialed actions := by
  have hstart : (start nodeId started stores).Dialed actions := by
    intro i k x z hx
    cases hx
  exact Transition.invariant_of_steps (I := fun s : Mesh ι => s.Unlisted stores ∧ s.Dialed actions)
    (C := fun _ a => a ∈ actions) (fun s a ha h => ⟨h.1.step env p2pPort a, h.2.step h.1 ha⟩)
    ⟨unlisted_start nodeId started stores, hstart⟩ (Transition.snd_mem_of_mem_steps _)

/-- Peer discovery never comes about. In a network of nodes, whatever is dialed, accepted, delivered or lost, and in
    whatever order, no node ever sends a list of peers, no table of peers ever gets another endpoint, and a node has
    dialed only what it was told to dial. -/
theorem discovery_is_dead (env : Env) (p2pPort : ι → Int32) (nodeId : ι → String) (started : ι → Int64)
    (stores : ι → PeerStore) (actions : List (MeshAction ι)) :
    ∀ s ∈ Transition.states (Mesh.step env p2pPort) (start nodeId started stores) actions,
      (∀ m ∈ s.sent, m.message.type ≠ .peersList) ∧ ∀ i,
        (s.processes i).net.store.endpoints = (stores i).endpoints ∧
        ∀ x ∈ (s.processes i).net.peers, x.outbound = true →
          ∃ j, .connectToPeer i { ip := x.address, port := x.port } (.connected j) ∈ actions := by
  intro s hs
  obtain ⟨hunlisted, hdialed⟩ := run_unlisted env p2pPort nodeId started stores actions s hs
  refine ⟨hunlisted.lists, fun i => ⟨hunlisted.endpoints i, fun x hx hside => ?_⟩⟩
  obtain ⟨k, hk⟩ := List.getElem?_of_mem hx
  obtain ⟨z, hz⟩ := hunlisted.exists_far hk
  exact ⟨z.1, hdialed i k x z hk hz hside⟩

/-- What a node sends of its own accord goes one way. In every run, a message that is no answer was sent on a connection
    that its sender accepted, to a node that was told to dial it: who dials nobody hears of no block and no
    transaction. -/
theorem announcements_go_to_dialers (env : Env) (p2pPort : ι → Int32) (nodeId : ι → String) (started : ι → Int64)
    (stores : ι → PeerStore) (actions : List (MeshAction ι)) :
    ∀ s ∈ Transition.states (Mesh.step env p2pPort) (start nodeId started stores) actions, ∀ m ∈ s.sent,
      m.message.Answers ∨ ∃ x j l e, s.peer? m.sender m.place = some x ∧ x.outbound = false ∧
        s.far? m.sender m.place = some (j, some l) ∧ .connectToPeer j e (.connected m.sender) ∈ actions := by
  intro s hs m hm
  obtain ⟨hunlisted, hdialed⟩ := run_unlisted env p2pPort nodeId started stores actions s hs
  refine (hunlisted.inward m hm).imp_right fun ⟨x, hx, hside⟩ => ?_
  obtain ⟨j, l, hfar⟩ := hunlisted.far_of_inbound hx hside
  have hback := hunlisted.facing _ _ j l hfar
  obtain ⟨y, hy⟩ := hunlisted.exists_peer hback
  have hout : y.outbound = true := by
    rw [hunlisted.sides _ _ j l x y hfar hx hy, hside]
    rfl
  exact ⟨x, j, l, _, hx, hside, hfar, hdialed j l y _ hy hback hout⟩

end Steps

end Mesh

end

namespace Mesh

attribute [local instance] Arithmetic.binary64

/-- `beta` dials `alpha`, which greets it, mines a block and announces it. -/
def sampleActions : List (MeshAction String) :=
  [.connectToPeer "beta" { ip := "10.0.0.1", port := 9000 } (.connected "alpha"),
    .accept "beta" 0 "10.0.0.2" 40000 1700000000,
    .arrive 0 1700000000 fun _ => .refused] ++
  Node.sampleRound.map (.own "alpha") ++ [.arrive 2 1700143364 fun _ => .refused]

def sampleMesh : Mesh String :=
  sampleActions.foldl (step Node.sampleEnv fun _ => 9000) (start id (fun _ => 1700000000) fun _ => Table.empty)

/-- `beta` has a dialed peer, and its peers table is as empty as before. -/
theorem discovery_is_dead_sampleMesh :
    (∃ x ∈ (sampleMesh.processes "beta").net.peers, x.outbound = true) ∧
    (∀ m ∈ sampleMesh.sent, m.message.type ≠ .peersList) ∧ ∀ i,
      (sampleMesh.processes i).net.store.endpoints = PeerStore.endpoints Table.empty ∧
      ∀ x ∈ (sampleMesh.processes i).net.peers, x.outbound = true →
        ∃ j, .connectToPeer i { ip := x.address, port := x.port } (.connected j) ∈ sampleActions :=
  ⟨by decide +kernel, discovery_is_dead Node.sampleEnv (fun _ => 9000) id (fun _ => 1700000000)
    (fun _ => Table.empty) sampleActions sampleMesh (Transition.foldl_mem_states _ _ _)⟩

theorem announcements_go_to_dialers_sampleMesh :
    (sampleMesh.sent.map (·.message.type) = [.handshake, .getBlocks, .newBlock] ∧
      (sampleMesh.processes "beta").ledger.blockchain.getHeight = 1) ∧
    ∀ m ∈ sampleMesh.sent, m.message.Answers ∨ ∃ x j l e, sampleMesh.peer? m.sender m.place = some x ∧
      x.outbound = false ∧ sampleMesh.far? m.sender m.place = some (j, some l) ∧
      .connectToPeer j e (.connected m.sender) ∈ sampleActions :=
  ⟨by decide +kernel, announcements_go_to_dialers Node.sampleEnv (fun _ => 9000) id (fun _ => 1700000000)
    (fun _ => Table.empty) sampleActions sampleMesh (Transition.foldl_mem_states _ _ _)⟩

end Mesh

end NexusLedger
