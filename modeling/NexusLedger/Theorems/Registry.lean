import NexusLedger.Connections
import NexusLedger.Lib.Transition

/-! The registry `clients_` of a node. Inbound connections enter it, outbound ones do not, and nothing leaves it. -/

namespace NexusLedger.Net

/-! ### Peers -/

namespace Peer
variable {p : Peer} {msg : Message}

/-- What the registry reads of a peer. -/
def view (p : Peer) : Bool × Bool × String × Int32 := (p.isConnected, p.outbound, p.address, p.port)

@[simp] theorem view_read (p : Peer) : p.read.view = p.view := by
  unfold read
  split <;> rfl

theorem isConnected_of_view {q : Peer} (h : q.view = p.view) : q.isConnected = p.isConnected := congrArg Prod.fst h

/-- A socket that is open belongs to a peer that is connected. -/
def Sound (p : Peer) : Prop := p.isOpen = true → p.isConnected = true

theorem onHandshake_cases (msg : Message) (p : Peer) :
    (p.onHandshake msg).isOpen = p.isOpen ∧ (p.onHandshake msg).outbound = p.outbound ∧
      (p.onHandshake msg).address = p.address ∧ (p.onHandshake msg).port = p.port ∧
      ((p.onHandshake msg).state = .ready ∨ (p.onHandshake msg).state = p.state) := by
  unfold onHandshake
  simp only
  split
  · exact ⟨rfl, rfl, rfl, rfl, Or.inl rfl⟩
  · split
    · exact ⟨rfl, rfl, rfl, rfl, Or.inr rfl⟩
    · exact ⟨rfl, rfl, rfl, rfl, Or.inl rfl⟩

theorem mail_onHandshake (msg : Message) (p : Peer) :
    (p.onHandshake msg).loops = p.loops ∧ (p.onHandshake msg).arrived = p.arrived ∧
      (p.onHandshake msg).handled = p.handled := by
  unfold onHandshake
  simp only
  split
  · exact ⟨rfl, rfl, rfl⟩
  · split
    · exact ⟨rfl, rfl, rfl⟩
    · exact ⟨rfl, rfl, rfl⟩

theorem isConnected_onHandshake (msg : Message) (h : p.isConnected = true) :
    (p.onHandshake msg).isConnected = true := by
  obtain ⟨hopen, -, -, -, hstate⟩ := onHandshake_cases msg p
  unfold isConnected at h ⊢
  rw [hopen]
  rcases hstate with hready | hsame
  · rw [hready, (Bool.and_eq_true_iff.mp h).1]
    rfl
  · rw [hsame]
    exact h

theorem view_onHandshake (msg : Message) (h : p.isConnected = true) : (p.onHandshake msg).view = p.view := by
  obtain ⟨-, hside, haddress, hport, -⟩ := onHandshake_cases msg p
  unfold view
  rw [isConnected_onHandshake msg h, h, hside, haddress, hport]

theorem isConnected_disconnect (p : Peer) : p.disconnect.isConnected = false := rfl

theorem view_disconnect (h : p.isConnected = false) : p.disconnect.view = p.view := by
  unfold view
  rw [h, isConnected_disconnect]
  rfl

/-- What the arrival of a message does to a peer that reads. -/
def turn (greets : Bool) (msg : Message) (p : Peer) : Peer :=
  let p := (p.receive msg).complete msg
  (if greets then p.onHandshake msg else p).read

theorem view_turn (greets : Bool) (msg : Message) (h : p.isConnected = true) : (p.turn greets msg).view = p.view := by
  unfold turn
  simp only [view_read]
  split
  · exact view_onHandshake (p := (p.receive msg).complete msg) msg h
  · rfl

theorem isOpen_read (p : Peer) : p.read.isOpen = p.isOpen := by
  unfold read
  split <;> rfl

theorem isOpen_turn (greets : Bool) (msg : Message) (p : Peer) : (p.turn greets msg).isOpen = p.isOpen := by
  unfold turn
  simp only [isOpen_read]
  split
  · exact (onHandshake_cases msg _).1
  · rfl

theorem Sound.turn (h : p.Sound) (greets : Bool) (msg : Message) : (p.turn greets msg).Sound := by
  intro hopen
  rw [isOpen_turn] at hopen
  exact (isConnected_of_view (view_turn greets msg (h hopen))).trans (h hopen)

/-- A message that no read waits for. -/
def keep (msg : Message) (p : Peer) : Peer := if p.isOpen then p.receive msg else p

theorem view_keep (msg : Message) (p : Peer) : (p.keep msg).view = p.view := by
  unfold keep
  split <;> rfl

theorem isOpen_keep (msg : Message) (p : Peer) : (p.keep msg).isOpen = p.isOpen := by
  unfold keep
  split <;> rfl

theorem Sound.keep (h : p.Sound) (msg : Message) : (p.keep msg).Sound := by
  intro hopen
  rw [isOpen_keep] at hopen
  exact (isConnected_of_view (view_keep msg p)).trans (h hopen)

end Peer

/-- The peer of a successful `connect`. -/
def dialedPeer (nodeId : String) (e : Endpoint) : Peer :=
  { Peer.new true with id := nodeId, address := e.ip, port := e.port, state := .connected, isOpen := true, loops := 1 }

namespace Connections
variable {config : Config} {s t : Connections} {k : Nat} {p : Peer} {msg : Message} {now : Int64}

/-! ### What a step does -/

theorem connectToPeer_eq (nodeId : String) (s : Connections) (e : Endpoint) (dial : Dial) :
    s.connectToPeer nodeId e dial =
      { s with peers := s.peers ++ if dial = .connected then [dialedPeer nodeId e] else [] } := by
  cases dial with
  | badAddress => simp [connectToPeer, connect]
  | refused => simp [connectToPeer, connect, onConnection]
  | connected => rfl

/-- Some endpoints are dialed: each connection that comes of it is a new peer at the end, and no client. -/
structure Dialed (nodeId : String) (dial : Nat → Dial) (dialed : List Endpoint) (s t : Connections) : Prop where
  clients : t.clients = s.clients
  serverClients : t.serverClients = s.serverClients
  peers : ∃ extra, t.peers = s.peers ++ extra ∧ (∀ p ∈ extra, ∃ e, p = dialedPeer nodeId e) ∧
    (extra = [] ↔ ∀ i < dialed.length, dial i ≠ .connected)

theorem dialAll_dialed (nodeId : String) (now : Int64) (dialed : List Endpoint) (dial : Nat → Dial) (s : Connections) :
    Dialed nodeId dial dialed s (s.dialAll nodeId now dialed dial) := by
  induction dialed generalizing dial s with
  | nil => exact ⟨rfl, rfl, [], by simp [dialAll], by simp, by simp⟩
  | cons e rest ih =>
    rw [dialAll, connectToPeer_eq]
    obtain ⟨hclients, hserver, extra, hpeers, hextra, hnone⟩ := ih (fun i => dial (i + 1))
      { s with
        store := (s.store.addPeer e.ip e.port "" now).2
        peers := s.peers ++ if dial 0 = .connected then [dialedPeer nodeId e] else [] }
    refine ⟨hclients, hserver, (if dial 0 = .connected then [dialedPeer nodeId e] else []) ++ extra, ?_, ?_, ?_⟩
    · rw [← List.append_assoc]
      exact hpeers
    · intro p hp
      rcases List.mem_append.mp hp with hfirst | hlater
      · split at hfirst
        · exact ⟨e, List.mem_singleton.mp hfirst⟩
        · cases hfirst
      · exact hextra p hlater
    · rw [List.append_eq_nil_iff, hnone, List.length_cons, Nat.forall_lt_succ_left]
      refine and_congr_left' ?_
      split <;> simp_all

theorem Dialed.refl (nodeId : String) (dial : Nat → Dial) (s : Connections) : Dialed nodeId dial [] s s :=
  ⟨rfl, rfl, [], (List.append_nil _).symm, by simp, by simp⟩

theorem Dialed.modify {nodeId : String} {dial : Nat → Dial} {dialed : List Endpoint} (h : Dialed nodeId dial dialed s t)
    (hlow : k < s.peers.length) (f : Peer → Peer) : Dialed nodeId dial dialed (s.modify k f) (t.modify k f) := by
  obtain ⟨hclients, hserver, extra, hpeers, hextra, hnone⟩ := h
  refine ⟨hclients, hserver, extra, ?_, hextra, hnone⟩
  show t.peers.modify k f = s.peers.modify k f ++ extra
  rw [hpeers]
  refine List.ext_getElem? fun i => ?_
  rcases Nat.lt_or_ge i s.peers.length with hi | hi
  · rw [List.getElem?_append_left (by rwa [List.length_modify]), List.getElem?_modify, List.getElem?_modify,
      List.getElem?_append_left hi]
  · rw [List.getElem?_append_right (by rwa [List.length_modify]), List.length_modify,
      List.getElem?_modify_ne _ _ (by omega), List.getElem?_append_right hi]

theorem exists_of_listens (h : s.listens k = true) : ∃ p, s.peers[k]? = some p ∧ p.isOpen = true ∧ 0 < p.loops := by
  unfold listens at h
  rw [Option.any_eq_true] at h
  obtain ⟨p, hp, hlistens⟩ := h
  rw [Bool.and_eq_true, decide_eq_true_iff] at hlistens
  exact ⟨p, hp, hlistens⟩

/-- Whether the handling of a message takes it for a HANDSHAKE. -/
def greets (config : Config) (msg : Message) : Bool := decide (config.handler = .node ∧ msg.type = .handshake)

theorem handleMessage_dialed (config : Config) (hp : s.peers[k]? = some p) (msg : Message) (now : Int64)
    (dial : Nat → Dial) :
    Dialed config.nodeId dial (dials config msg)
      (s.modify k fun p => if greets config msg then p.onHandshake msg else p)
      (s.handleMessage config k msg now dial) := by
  have hid : (s.modify k fun p => p) = s := by
    unfold Connections.modify
    rw [show (fun p : Peer => p) = id from rfl, List.modify_id]
  unfold handleMessage greets dials
  rw [hp]
  cases hhandler : config.handler with
  | node =>
    cases htype : msg.type with
    | handshake =>
      simp only [reduceCtorEq, and_false, if_false, and_self, decide_true, if_true]
      exact ⟨rfl, rfl, (Dialed.refl config.nodeId dial (s.modify k (Peer.onHandshake msg))).peers⟩
    | peersList =>
      have hdialed := dialAll_dialed config.nodeId now (Node.peersListDials config.p2pPort msg.payload) dial
        { s with store := s.store.updatePeerSeen p.address p.port now }
      simp only [true_and, reduceCtorEq, and_false, decide_false, Bool.false_eq_true, if_false, hid, if_true]
      exact ⟨hdialed.clients, hdialed.serverClients, hdialed.peers⟩
    | _ =>
      simp only [reduceCtorEq, and_false, decide_false, Bool.false_eq_true, if_false, hid]
      exact ⟨rfl, rfl, (Dialed.refl config.nodeId dial s).peers⟩
  | _ =>
    simp only [reduceCtorEq, false_and, decide_false, Bool.false_eq_true, if_false, hid]
    exact Dialed.refl _ _ _

/-- A message that is read changes its own peer, and may open connections. -/
theorem arrive_dialed (config : Config) (h : s.listens k = true) (msg : Message) (now : Int64) (dial : Nat → Dial) :
    Dialed config.nodeId dial (dials config msg) (s.modify k (Peer.turn (greets config msg) msg))
      (s.arrive config k msg now dial) := by
  obtain ⟨p, hp, -⟩ := exists_of_listens h
  have hlow : k < s.peers.length := (List.getElem?_eq_some_iff.mp hp).1
  have hcompleted : (s.modify k fun p => (p.receive msg).complete msg).peers[k]? =
      some ((p.receive msg).complete msg) := by
    show (s.peers.modify k _)[k]? = _
    rw [List.getElem?_modify_eq, hp]
    rfl
  have hdialed := (handleMessage_dialed config hcompleted msg now dial).modify
    (by simpa [Connections.modify] using hlow) Peer.read
  have hturn : s.modify k (Peer.turn (greets config msg) msg) =
      ((s.modify k fun p => (p.receive msg).complete msg).modify k
        fun p => if greets config msg then p.onHandshake msg else p).modify k Peer.read := by
    unfold Connections.modify
    simp only [List.modify_modify_eq]
    rfl
  unfold arrive
  rw [if_pos h, hturn]
  exact hdialed

theorem arrive_of_not_listens (config : Config) (h : ¬s.listens k = true) (msg : Message) (now : Int64)
    (dial : Nat → Dial) : s.arrive config k msg now dial = s.modify k (Peer.keep msg) := by
  unfold arrive
  rw [if_neg h]
  rfl

/-- The peer of an accepted connection, before a handler sees it. -/
def acceptedPeer (address : String) (port : Int32) : Peer :=
  { Peer.new false with isOpen := true, state := .connected, address, port }

theorem modify_concat (l : List Peer) (p : Peer) (f : Peer → Peer) : (l ++ [p]).modify l.length f = l ++ [f p] := by
  induction l with
  | nil => rfl
  | cons x l ih => rw [List.cons_append, List.length_cons, List.modify_succ_cons, ih, List.cons_append]

/-- A node takes the connection over, or it closes it. -/
theorem accept_node (s : Connections) (address : String) (port : Int32) :
    ((s.handleAccept .node address port).peers = s.peers ++ [(acceptedPeer address port).disconnect] ∧
        (s.handleAccept .node address port).clients = s.clients) ∨
      ((s.handleAccept .node address port).peers = s.peers ++ [(acceptedPeer address port).read] ∧
        (s.handleAccept .node address port).clients = s.clients ++ [s.peers.length]) := by
  have hnew : (s.peers ++ [acceptedPeer address port])[s.peers.length]? = some (acceptedPeer address port) :=
    List.getElem?_concat_length
  have haccept : s.handleAccept .node address port =
      handleConnection
        { s with
          peers := s.peers ++ [acceptedPeer address port]
          serverClients := s.serverClients ++ [s.peers.length] } s.peers.length := rfl
  rw [haccept]
  unfold handleConnection
  simp only [hnew]
  split
  · exact Or.inl ⟨modify_concat _ _ _, rfl⟩
  · exact Or.inr ⟨modify_concat _ _ _, rfl⟩

/-- What is accepted, once the connection handler is through with it. -/
def Accepted (handler : Handler) (address : String) (port : Int32) (p : Peer) : Prop :=
  match handler with
  | .node => p = (acceptedPeer address port).disconnect ∨ p = (acceptedPeer address port).read
  | _ => p = acceptedPeer address port

/-- Everything but an accept leaves peers as they should be. -/
structure Kept (config : Config) (J : Peer → Prop) : Prop where
  dialed : ∀ e, J (dialedPeer config.nodeId e)
  turn : ∀ (p : Peer) (msg : Message), p.isOpen = true → 0 < p.loops → J p → J (p.turn (greets config msg) msg)
  keep : ∀ (p : Peer) (msg : Message), ¬(p.isOpen = true ∧ 0 < p.loops) → J p → J (p.keep msg)
  disconnect : ∀ p : Peer, J p → J p.disconnect

theorem forall_modify {J : Peer → Prop} {f : Peer → Peer} (h : ∀ p ∈ s.peers, J p)
    (hf : ∀ p, s.peers[k]? = some p → J p → J (f p)) : ∀ p ∈ (s.modify k f).peers, J p := by
  intro p hp
  obtain ⟨i, hi⟩ := List.getElem?_of_mem hp
  have hget : (s.peers.modify k f)[i]? = some p := hi
  rw [List.getElem?_modify] at hget
  obtain ⟨q, hq, rfl⟩ := Option.map_eq_some_iff.mp hget
  have hold := h q (List.mem_of_getElem? hq)
  split
  · rename_i heq
    exact hf q (heq ▸ hq) hold
  · exact hold

theorem forall_append {J : Peer → Prop} {extra : List Peer} (h : ∀ p ∈ s.peers, J p)
    (hpeers : t.peers = s.peers ++ extra) (hextra : ∀ p ∈ extra, J p) : ∀ p ∈ t.peers, J p := by
  rw [hpeers]
  exact List.forall_mem_append.mpr ⟨h, hextra⟩

theorem exists_accepted (handler : Handler) (s : Connections) (address : String) (port : Int32) :
    ∃ p, Accepted handler address port p ∧ (s.handleAccept handler address port).peers = s.peers ++ [p] := by
  cases handler with
  | node =>
    rcases accept_node s address port with ⟨hpeers, -⟩ | ⟨hpeers, -⟩
    · exact ⟨_, Or.inl rfl, hpeers⟩
    · exact ⟨_, Or.inr rfl, hpeers⟩
  | _ => exact ⟨_, rfl, rfl⟩

theorem Kept.step {J : Peer → Prop} {e : Event} (hJ : Kept config J)
    (haccept : ∀ address port, e = .accept address port → ∀ p, Accepted config.handler address port p → J p)
    (h : ∀ p ∈ s.peers, J p) : ∀ p ∈ (s.step config e).peers, J p := by
  cases e with
  | connectToPeer e dial =>
    refine forall_append h (congrArg peers (connectToPeer_eq _ _ _ _)) fun p hp => ?_
    split at hp
    · rw [List.mem_singleton.mp hp]
      exact hJ.dialed e
    · cases hp
  | accept address port =>
    obtain ⟨p, hp, hpeers⟩ := exists_accepted config.handler s address port
    refine forall_append h hpeers fun q hq => ?_
    rw [List.mem_singleton.mp hq]
    exact haccept address port rfl p hp
  | acceptError => exact h
  | arrive k msg now dial =>
    show ∀ p ∈ (s.arrive config k msg now dial).peers, J p
    by_cases hlistens : s.listens k = true
    · obtain ⟨-, -, extra, hpeers, hextra, -⟩ := arrive_dialed config hlistens msg now dial
      refine forall_append (forall_modify h fun p hp hold => ?_) hpeers fun p hp => ?_
      · obtain ⟨q, hq, hopen, hloops⟩ := exists_of_listens hlistens
        rw [hp] at hq
        cases hq
        exact hJ.turn p msg hopen hloops hold
      · obtain ⟨e, rfl⟩ := hextra p hp
        exact hJ.dialed e
    · rw [arrive_of_not_listens config hlistens]
      refine forall_modify h fun p hp hold => hJ.keep p msg (fun hreads => hlistens ?_) hold
      unfold listens
      simp only [hp, Option.any_some, hreads.1, hreads.2, decide_true, Bool.and_self]
  | lost k => exact forall_modify h fun p _ hold => hJ.disconnect p hold

/-! ### The registry -/

/-- Each connected peer has one entry, no other peer has one, and no endpoint is dialed twice. -/
structure Registered (s : Connections) : Prop where
  entered : ∀ k p, s.peers[k]? = some p → p.isConnected = true → s.clients.count k = 1
  live : ∀ k ∈ s.clients, ∃ p, s.peers[k]? = some p ∧ p.isConnected = true
  single : ∀ (i j : Nat) (p q : Peer), s.peers[i]? = some p → s.peers[j]? = some q → p.isConnected = true →
    q.isConnected = true → p.outbound = true → q.outbound = true → p.address = q.address → p.port = q.port → i = j

theorem exists_of_views {l l' : List Peer} (h : l'.map Peer.view = l.map Peer.view) (hp : l'[k]? = some p) :
    ∃ q, l[k]? = some q ∧ q.view = p.view := by
  have hview : (l'.map Peer.view)[k]? = some p.view := by rw [List.getElem?_map, hp, Option.map_some]
  rw [h, List.getElem?_map, Option.map_eq_some_iff] at hview
  exact hview

theorem Registered.congr (h : s.Registered) (hpeers : t.peers.map Peer.view = s.peers.map Peer.view)
    (hclients : t.clients = s.clients) : t.Registered := by
  refine ⟨fun k p hp hconn => ?_, fun k hk => ?_, fun i j p q hp hq hpc hqc hpo hqo haddress hport => ?_⟩
  · obtain ⟨p', hp', hview⟩ := exists_of_views hpeers hp
    rw [hclients]
    exact h.entered k p' hp' ((Peer.isConnected_of_view hview).trans hconn)
  · obtain ⟨p, hp, hconn⟩ := h.live k (hclients ▸ hk)
    obtain ⟨p', hp', hview⟩ := exists_of_views hpeers.symm hp
    exact ⟨p', hp', (Peer.isConnected_of_view hview).trans hconn⟩
  · obtain ⟨p', hp', hpview⟩ := exists_of_views hpeers hp
    obtain ⟨q', hq', hqview⟩ := exists_of_views hpeers hq
    have hpeq := hpview
    have hqeq := hqview
    simp only [Peer.view, Prod.mk.injEq] at hpeq hqeq
    exact h.single i j p' q' hp' hq' (hpeq.1.trans hpc) (hqeq.1.trans hqc) (hpeq.2.1.trans hpo) (hqeq.2.1.trans hqo)
      (by rw [hpeq.2.2.1, hqeq.2.2.1, haddress]) (by rw [hpeq.2.2.2, hqeq.2.2.2, hport])

theorem views_modify {l : List Peer} {f : Peer → Peer} (h : ∀ p, l[k]? = some p → (f p).view = p.view) :
    (l.modify k f).map Peer.view = l.map Peer.view := by
  refine List.ext_getElem? fun i => ?_
  rw [List.getElem?_map, List.getElem?_map, List.getElem?_modify]
  split
  · rename_i heq
    subst heq
    cases hp : l[k]? with
    | none => rfl
    | some p => exact congrArg some (h p hp)
  · simp

theorem registered_modify_iff {f : Peer → Peer} (h : ∀ p, s.peers[k]? = some p → (f p).view = p.view) :
    (s.modify k f).Registered ↔ s.Registered :=
  ⟨fun hr => hr.congr (views_modify h).symm rfl, fun hr => hr.congr (views_modify h) rfl⟩

/-- A connection that no client is made for breaks the registry. -/
theorem registered_append_iff {extra : List Peer} (h : s.Registered) (hpeers : t.peers = s.peers ++ extra)
    (hclients : t.clients = s.clients) (hextra : ∀ p ∈ extra, p.isConnected = true) : t.Registered ↔ extra = [] := by
  constructor
  · intro ht
    cases extra with
    | nil => rfl
    | cons p extra =>
      have hnew : t.peers[s.peers.length]? = some p := by
        rw [hpeers, List.getElem?_append_right (le_refl _), Nat.sub_self]
        rfl
      have hcount := ht.entered _ p hnew (hextra p List.mem_cons_self)
      have hmem : s.peers.length ∈ s.clients := by
        rw [← hclients]
        exact List.count_pos_iff.mp (by omega)
      obtain ⟨q, hq, -⟩ := h.live _ hmem
      have hlow := (List.getElem?_eq_some_iff.mp hq).1
      omega
  · rintro rfl
    rw [List.append_nil] at hpeers
    exact h.congr (by rw [hpeers]) hclients

theorem registered_accept (h : s.Registered) (address : String) (port : Int32) :
    (s.handleAccept .node address port).Registered := by
  rcases accept_node s address port with ⟨hpeers, hclients⟩ | ⟨hpeers, hclients⟩
  · have hold {i : Nat} {p : Peer} (hp : (s.handleAccept .node address port).peers[i]? = some p)
        (hconn : p.isConnected = true) : s.peers[i]? = some p := by
      rw [hpeers, Table.getElem?_concat_iff] at hp
      refine hp.resolve_right ?_
      rintro ⟨-, rfl⟩
      cases hconn
    refine ⟨fun k p hp hconn => ?_, fun k hk => ?_, fun i j p q hp hq hpc hqc => ?_⟩
    · rw [hclients]
      exact h.entered k p (hold hp hconn) hconn
    · obtain ⟨p, hp, hconn⟩ := h.live k (hclients ▸ hk)
      exact ⟨p, by rw [hpeers]; exact Table.getElem?_concat_iff.mpr (Or.inl hp), hconn⟩
    · exact h.single i j p q (hold hp hpc) (hold hq hqc) hpc hqc
  · have hfresh : s.peers.length ∉ s.clients := by
      intro hmem
      obtain ⟨p, hp, -⟩ := h.live _ hmem
      exact absurd (List.getElem?_eq_some_iff.mp hp).1 (lt_irrefl _)
    have hold {i : Nat} {p : Peer} (hp : (s.handleAccept .node address port).peers[i]? = some p)
        (hside : p.outbound = true) : s.peers[i]? = some p := by
      rw [hpeers, Table.getElem?_concat_iff] at hp
      refine hp.resolve_right ?_
      rintro ⟨-, rfl⟩
      cases hside
    refine ⟨fun k p hp hconn => ?_, fun k hk => ?_, fun i j p q hp hq hpc hqc hpo hqo => ?_⟩
    · rw [hclients, List.count_append]
      rw [hpeers, Table.getElem?_concat_iff] at hp
      rcases hp with hp | ⟨rfl, -⟩
      · have hlow := (List.getElem?_eq_some_iff.mp hp).1
        rw [h.entered k p hp hconn, List.count_eq_zero_of_not_mem (by simp; omega)]
      · rw [List.count_eq_zero_of_not_mem hfresh, List.count_singleton_self]
    · rw [hclients, List.mem_append, List.mem_singleton] at hk
      rw [hpeers]
      rcases hk with hk | rfl
      · obtain ⟨p, hp, hconn⟩ := h.live k hk
        exact ⟨p, Table.getElem?_concat_iff.mpr (Or.inl hp), hconn⟩
      · exact ⟨_, Table.getElem?_concat_iff.mpr (Or.inr ⟨rfl, rfl⟩), rfl⟩
    · exact h.single i j p q (hold hp hpo) (hold hq hqo) hpc hqc hpo hqo

/-! ### The registry in a run -/

/-- Every open socket belongs to a peer that is connected. -/
def Sound (s : Connections) : Prop := ∀ p ∈ s.peers, p.Sound

theorem sound_step (config : Config) (s : Connections) (e : Event) (h : s.Sound) : (s.step config e).Sound := by
  have hkept : Kept config Peer.Sound :=
    { dialed := fun e _ => rfl
      turn := fun p msg _ _ hp => hp.turn _ msg
      keep := fun p msg _ hp => hp.keep msg
      disconnect := fun p _ hopen => by cases hopen }
  refine hkept.step (fun address port _ p hp => ?_) h
  unfold Accepted at hp
  split at hp
  · rcases hp with rfl | rfl
    · exact fun hopen => by cases hopen
    · exact fun _ => rfl
  · rw [hp]
    exact fun _ => rfl

/-- The condition on a step: no connection is dialed with success, and no connection is lost. -/
def Calm (config : Config) (s : Connections) : Event → Prop
  | .connectToPeer _ dial => dial ≠ .connected
  | .accept _ _ => True
  | .acceptError => True
  | .arrive k msg _ dial => s.listens k = true → ∀ i < (dials config msg).length, dial i ≠ .connected
  | .lost k => ∀ p, s.peers[k]? = some p → p.isConnected = false

theorem registered_of_dialed {nodeId : String} {dial : Nat → Dial} {dialed : List Endpoint}
    (hd : Dialed nodeId dial dialed s t) (h : s.Registered) :
    t.Registered ↔ ∀ i < dialed.length, dial i ≠ .connected := by
  obtain ⟨hclients, -, extra, hpeers, hextra, hnone⟩ := hd
  rw [← hnone]
  refine registered_append_iff h hpeers hclients fun p hp => ?_
  obtain ⟨e, rfl⟩ := hextra p hp
  rfl

theorem registered_lost_iff (h : s.Registered) :
    (s.modify k Peer.disconnect).Registered ↔ ∀ p, s.peers[k]? = some p → p.isConnected = false := by
  constructor
  · intro ht p hp
    by_contra hconn
    rw [Bool.not_eq_false] at hconn
    have hcount := h.entered k p hp hconn
    obtain ⟨q, hq, hqconn⟩ := ht.live k (List.count_pos_iff.mp (hcount ▸ Nat.one_pos))
    have hgone : (s.modify k Peer.disconnect).peers[k]? = some p.disconnect := by
      show (s.peers.modify k _)[k]? = _
      rw [List.getElem?_modify_eq, hp]
      rfl
    rw [hgone] at hq
    cases hq
    cases hqconn
  · intro hlost
    exact (registered_modify_iff fun p hp => Peer.view_disconnect (hlost p hp)).mpr h

theorem registered_step_iff (hnode : config.handler = .node) (hs : s.Sound) (h : s.Registered) (e : Event) :
    (s.step config e).Registered ↔ s.Calm config e := by
  cases e with
  | connectToPeer e dial =>
    have heq : s.step config (.connectToPeer e dial) = _ := connectToPeer_eq config.nodeId s e dial
    rw [registered_append_iff h (congrArg peers heq) (by rw [heq])]
    · unfold Calm
      split <;> simp_all
    · intro p hp
      split at hp
      · rw [List.mem_singleton.mp hp]
        rfl
      · cases hp
  | accept address port =>
    rw [step, hnode]
    exact iff_of_true (registered_accept h address port) trivial
  | acceptError => exact iff_of_true h trivial
  | arrive k msg now dial =>
    show (s.arrive config k msg now dial).Registered ↔ (s.listens k = true → _)
    by_cases hlistens : s.listens k = true
    · have hturn : (s.modify k (Peer.turn (greets config msg) msg)).Registered := by
        refine (registered_modify_iff fun p hp => ?_).mpr h
        obtain ⟨q, hq, hopen, -⟩ := exists_of_listens hlistens
        rw [hp] at hq
        cases hq
        exact Peer.view_turn _ _ (hs p (List.mem_of_getElem? hp) hopen)
      rw [registered_of_dialed (arrive_dialed config hlistens msg now dial) hturn]
      exact ⟨fun hnone _ => hnone, fun hnone => hnone hlistens⟩
    · rw [arrive_of_not_listens config hlistens]
      exact iff_of_true ((registered_modify_iff fun p _ => Peer.view_keep msg p).mpr h) fun hl => absurd hl hlistens
  | lost k => exact registered_lost_iff h

/-- In a run of a node the registry is right in every state exactly when no connection is ever dialed with success, and
    none is ever lost. -/
theorem registry_iff (nodeId : String) (p2pPort : Int32) (store : PeerStore) (events : List Event) :
    (∀ s ∈ Transition.states (step ⟨nodeId, p2pPort, .node⟩) (start store) events, s.Registered) ↔
      ∀ x ∈ Transition.steps (step ⟨nodeId, p2pPort, .node⟩) (start store) events,
        x.1.Calm ⟨nodeId, p2pPort, .node⟩ x.2 := by
  refine Transition.forall_states_iff (I := fun s _ => s.Sound) (fun s e _ => sound_step _ s e)
    (fun s e _ hs h => registered_step_iff rfl hs h e) (fun p hp => absurd hp List.not_mem_nil) ?_
  exact ⟨fun k p hp => (nomatch hp), fun k hk => absurd hk List.not_mem_nil, fun i j p q hp => (nomatch hp)⟩

/-- One connection to a peer, and one from another peer that is then lost. -/
def staleEvents : List Event :=
  [.connectToPeer { ip := "10.0.0.2", port := 8001 } .connected,
    .connectToPeer { ip := "10.0.0.2", port := 8001 } .connected, .accept "10.0.0.3" 40001, .lost 2]

/-- The peer that was dialed twice is connected twice and has no entry; the entry that there is belongs to the peer that
    is gone. -/
theorem registry_stale :
    ¬∀ s ∈ Transition.states (step ⟨"node", 8000, .node⟩) (start Table.empty) staleEvents, s.Registered := by
  intro h
  have hlast := h _ (Transition.foldl_mem_states _ _ _)
  have hdialed := hlast.entered 0 (dialedPeer "node" { ip := "10.0.0.2", port := 8001 }) rfl rfl
  cases hdialed

end Connections

end NexusLedger.Net
