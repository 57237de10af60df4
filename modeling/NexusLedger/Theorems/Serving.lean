import NexusLedger.Theorems.Registry

/-! Which of the accepted connections are read. `handle_accept` calls `read` before the peer is connected, so a read
    loop starts only where the connection handler starts one. -/

namespace NexusLedger.Net

namespace Peer
variable {p : Peer} {msg : Message}

/-- One read waits on the socket, and each message that came in went to a handler once, in its turn. -/
def Attended (p : Peer) : Prop := p.loops = 1 ∧ p.handled = p.arrived

theorem Attended.turn (h : p.Attended) (hconn : p.isConnected = true) (greets : Bool) (msg : Message) :
    (p.turn greets msg).Attended := by
  obtain ⟨hloops, hhandled⟩ := h
  have hread : ∀ q : Peer, q.isConnected = true → q.loops = 0 → q.handled = q.arrived → q.read.Attended := by
    intro q hq hzero hsame
    unfold read
    rw [if_pos hq]
    exact ⟨by rw [hzero], hsame⟩
  have hdone : ((p.receive msg).complete msg).loops = 0 ∧
      ((p.receive msg).complete msg).handled = ((p.receive msg).complete msg).arrived := by
    refine ⟨?_, ?_⟩
    · show p.loops - 1 = 0
      rw [hloops]
    · show p.handled ++ [msg] = p.arrived ++ [msg]
      rw [hhandled]
  unfold Peer.turn
  simp only
  split
  · obtain ⟨hkloops, hkarrived, hkhandled⟩ := mail_onHandshake msg ((p.receive msg).complete msg)
    refine hread _ (isConnected_onHandshake msg hconn) (hkloops.trans hdone.1) ?_
    rw [hkhandled, hkarrived]
    exact hdone.2
  · exact hread _ hconn hdone.1 hdone.2

/-- An open socket is read. -/
def Served (p : Peer) : Prop := p.isOpen = true → p.isConnected = true ∧ p.Attended

theorem Served.turn (h : p.Served) (greets : Bool) (msg : Message) : (p.turn greets msg).Served := by
  intro hopen
  rw [isOpen_turn] at hopen
  obtain ⟨hconn, hattended⟩ := h hopen
  exact ⟨(isConnected_of_view (view_turn greets msg hconn)).trans hconn, hattended.turn hconn greets msg⟩

theorem outbound_of_view {q : Peer} (h : q.view = p.view) : q.outbound = p.outbound :=
  congrArg (fun v : Bool × Bool × String × Int32 => v.2.1) h

theorem outbound_turn (greets : Bool) (msg : Message) (p : Peer) : (p.turn greets msg).outbound = p.outbound := by
  unfold turn
  simp only
  rw [outbound_of_view (view_read _)]
  split
  · exact (onHandshake_cases msg _).2.1
  · rfl

end Peer

namespace Connections
variable {config : Config} {s : Connections}

/-- Every accepted connection that is still open is read once. -/
def Served (s : Connections) : Prop := ∀ p ∈ s.peers, p.outbound = false → p.isOpen = true → p.Attended

/-- Where the connection handler starts a read, every connection is read, the dialed ones too. -/
theorem served_node (nodeId : String) (p2pPort : Int32) (store : PeerStore) (events : List Event) :
    ∀ s ∈ Transition.states (step ⟨nodeId, p2pPort, .node⟩) (start store) events, ∀ p ∈ s.peers, p.Served := by
  have hkept : Kept ⟨nodeId, p2pPort, .node⟩ Peer.Served :=
    { dialed := fun e _ => ⟨rfl, rfl, rfl⟩
      turn := fun p msg _ _ hp => hp.turn _ msg
      keep := fun p msg hnot hp hopen => by
        rw [Peer.isOpen_keep] at hopen
        exact absurd ⟨hopen, (hp hopen).2.1 ▸ Nat.one_pos⟩ hnot
      disconnect := fun p _ hopen => by cases hopen }
  refine Transition.invariant (fun s e h => hkept.step (fun address port _ p hp => ?_) h)
    fun p hp => absurd hp List.not_mem_nil
  rcases hp with rfl | rfl
  · exact fun hopen => by cases hopen
  · exact fun _ => ⟨rfl, rfl, rfl⟩

/-- Where nothing is accepted, there is nothing to serve. -/
theorem outbound_of_no_accept (store : PeerStore) {events : List Event}
    (h : ∀ address port, Event.accept address port ∉ events) :
    ∀ s ∈ Transition.states (step config) (start store) events, ∀ p ∈ s.peers, p.outbound = true := by
  have hkept : Kept config fun p => p.outbound = true :=
    { dialed := fun e => rfl
      turn := fun p msg _ _ hp => (Peer.outbound_turn _ msg p).trans hp
      keep := fun p msg _ hp => (Peer.outbound_of_view (Peer.view_keep msg p)).trans hp
      disconnect := fun p hp => hp }
  refine Transition.invariant_of_steps (C := fun _ e => ∀ address port, e ≠ .accept address port)
    (fun s e he hs => hkept.step (fun address port heq => absurd heq (he address port)) hs)
    (fun p hp => absurd hp List.not_mem_nil) fun x hx address port heq => ?_
  exact h address port (heq ▸ Transition.snd_mem_of_mem_steps _ x hx)

/-- A connection that no handler of the repository reads is not served. -/
theorem not_served_accept (h : config.handler ≠ .node) (s : Connections) (address : String) (port : Int32) :
    ¬(s.step config (.accept address port)).Served := by
  intro hserved
  obtain ⟨p, hp, hpeers⟩ := exists_accepted config.handler s address port
  have heq : p = acceptedPeer address port := by
    unfold Accepted at hp
    split at hp
    · rename_i hnode
      exact absurd hnode h
    · exact hp
  subst heq
  have hmem : acceptedPeer address port ∈ (s.step config (.accept address port)).peers := by
    show _ ∈ (s.handleAccept config.handler address port).peers
    rw [hpeers]
    exact List.mem_append_right _ (List.mem_singleton_self _)
  have hloops := (hserved _ hmem rfl rfl).1
  cases hloops

/-- In a run of a server all accepted connections are served in every state exactly when its connection handler is the
    one of a node, or nothing is accepted. -/
theorem served_iff (config : Config) (store : PeerStore) (events : List Event) :
    (∀ s ∈ Transition.states (step config) (start store) events, s.Served) ↔
      config.handler = .node ∨ ∀ address port, Event.accept address port ∉ events := by
  constructor
  · intro hserved
    refine or_iff_not_imp_left.mpr fun hother address port hmem => ?_
    rw [← Transition.map_snd_steps (step config) (start store) events, List.mem_map] at hmem
    obtain ⟨x, hx, heq⟩ := hmem
    have hstep := hserved _ (Transition.step_mem_states _ x hx)
    rw [heq] at hstep
    exact not_served_accept hother x.1 address port hstep
  · rintro (hnode | hnone) s hs p hp hside hopen
    · obtain ⟨nodeId, p2pPort, handler⟩ := config
      cases hnode
      exact (served_node nodeId p2pPort store events s hs p hp hopen).2
    · rw [outbound_of_no_accept store hnone s hs p hp] at hside
      cases hside

/-- A client connects and sends a PING. -/
def pingEvents : List Event :=
  [.accept "10.0.0.2" 40000,
    .arrive 0 { type := .ping, senderId := "test-client", timestamp := 1700000000, payload := .null } 1700000000
      fun _ => .refused]

/-- The server of `testNetwork` gets it and never answers it. -/
theorem ping_unanswered :
    ((pingEvents.foldl (step ⟨"test-server", 8000, .testNetwork⟩) (start Table.empty)).peers.map fun p =>
        (p.isConnected, p.loops, p.arrived.length, p.handled.length)) = [(true, 0, 1, 0)] ∧
      ¬∀ s ∈ Transition.states (step ⟨"test-server", 8000, .testNetwork⟩) (start Table.empty) pingEvents,
        s.Served := by
  have hother : Handler.testNetwork ≠ .node := by decide
  refine ⟨rfl, fun hserved => ?_⟩
  have hfirst := hserved _ (List.mem_cons_of_mem _ (Transition.mem_states_self _ _ _))
  exact not_served_accept hother (start Table.empty) "10.0.0.2" 40000 hfirst

end Connections

end NexusLedger.Net
