import NexusLedger.Connections
import Mathlib.Logic.Function.Basic

/-! Processes that are connected to each other: the ledger of a node of `src/core/node.cpp`, its connections, and what
    it sends on which of them, peer discovery included. A message that was sent may arrive at the other end of its
    connection in any order, late, more than once or never. -/

namespace NexusLedger
variable [Arithmetic]

/-! ### Messages about peers -/

namespace Net

/-- `int` of the member `port` of a HANDSHAKE: where it cannot be read, the handler ends there. -/
def Peer.greetable (msg : Message) : Bool :=
  match msg.payload.member? "port" with
  | none => true
  | some port => port.getInt.toOption.isSome

namespace Connections

/-- The members of a PEERS_LIST: those of the clients whose P2P port and id are known. -/
def listed (s : Connections) (clients : List ℕ) : List Json :=
  clients.filterMap fun k => s.peers[k]?.bind fun p =>
    if p.p2pPort ≠ 0 ∧ p.id ≠ "" then some (.obj [("ip", .str p.address), ("port", .int p.p2pPort.toInt)]) else none

/-- The peers, by their places, that a message for every client goes to. -/
def toAll (s : Connections) (msg : Message) : List (ℕ × Message) := s.clients.map (·, msg)

/-- The peers that an effect sends to; a reply goes to the peer at place `k`. -/
def route (s : Connections) (k : ℕ) : Effect → List (ℕ × Message)
  | .broadcast msg => s.toAll msg
  | .reply msg => [(k, msg)]
  | .call _ _ => []

end Connections
end Net

namespace Node

def handshakeMessage (n : Node) (now : Int64) (p2pPort : Int32) : Message where
  type := .handshake
  senderId := n.nodeId
  timestamp := now
  payload := .obj [("node_id", .str n.nodeId), ("port", .int p2pPort.toInt), ("version", .str "1.0")]

def pingMessage (n : Node) (now : Int64) : Message where
  type := .ping
  senderId := n.nodeId
  timestamp := now
  payload := .null

def getPeersMessage (n : Node) (now : Int64) : Message where
  type := .getPeers
  senderId := n.nodeId
  timestamp := now
  payload := .null

def peersListMessage (n : Node) (now : Int64) (peers : List Json) : Message where
  type := .peersList
  senderId := n.nodeId
  timestamp := now
  payload := .arr peers

def broadcastPeers (n : Node) (now : Int64) (s : Net.Connections) : List (ℕ × Message) :=
  let arr := s.listed s.clients
  if arr = [] then [] else s.toAll (n.peersListMessage now arr)

/-- It differs from `broadcastPeers` in what it logs. -/
def broadcastPeersToAll (n : Node) (now : Int64) (s : Net.Connections) : List (ℕ × Message) :=
  let arr := s.listed s.clients
  if arr = [] then [] else s.toAll (n.peersListMessage now arr)

/-- A round of `gossipPeers`; `idx` is the client it draws. -/
def gossipPeers (n : Node) (now : Int64) (s : Net.Connections) (idx : ℕ) : List (ℕ × Message) :=
  if s.clients.length < 2 then []
  else
    match s.clients[idx]? with
    | none => []
    | some target =>
      let peerList := s.listed (s.clients.eraseIdx idx)
      if peerList = [] then [] else [(target, n.peersListMessage now peerList)]

/-- What `handleMessage` sends about peers. -/
def answerPeers (n : Node) (now : Int64) (s : Net.Connections) (msg : Message) : List (ℕ × Message) :=
  match msg.type with
  | .handshake => n.broadcastPeersToAll now s
  | .getPeers => n.broadcastPeers now s
  | _ => []

end Node

/-! ### Processes -/

/-- What comes of a `connect`, with the process at the other end. -/
inductive Reach (ι : Type)
  | badAddress
  | refused
  | connected (j : ι)

namespace Reach
variable {ι : Type}

def dial : Reach ι → Net.Dial
  | .badAddress => .badAddress
  | .refused => .refused
  | .connected _ => .connected

def target? : Reach ι → Option ι
  | .connected j => some j
  | _ => none

end Reach

/-- A node with its connections. `far` is the other end of each of its peers: the process there, and the place that the
    peer has in it once it has accepted the connection. -/
structure Process (ι : Type) where
  ledger : Node
  net : Net.Connections
  far : List (ι × Option ℕ)

namespace Process
variable {ι : Type}

def config (p2pPort : Int32) (p : Process ι) : Net.Config where
  nodeId := p.ledger.nodeId
  p2pPort
  handler := .node

/-- What a node does on its own account. The periodic synchronisation asks the first client, and passes the list of
    peers on. -/
def own (env : Env) (p : Process ι) (e : OwnEvent) : Process ι × List (ℕ × Message) :=
  match e with
  | .sync now =>
    match p.net.clients with
    | [] => (p, [])
    | k :: _ => (p, (k, p.ledger.syncMessage now) :: p.ledger.broadcastPeersToAll now p.net)
  | e =>
    let (ledger, effects) := p.ledger.ownStep env e
    ({ p with ledger }, effects.flatMap (p.net.route 0))

def connectToPeer (p : Process ι) (e : Endpoint) (reach : Reach ι) : Process ι :=
  { p with
    net := p.net.connectToPeer p.ledger.nodeId e reach.dial
    far := p.far ++ reach.target?.toList.map (·, none) }

/-- A message comes in on the peer at place `k`; `reach` answers the calls of `connectToPeer` that it leads to. -/
def arrive (env : Env) (p2pPort : Int32) (p : Process ι) (k : ℕ) (msg : Message) (now : Int64) (reach : ℕ → Reach ι) :
    Process ι × List (ℕ × Message) :=
  let dials := if p.net.listens k then Net.Connections.dials (p.config p2pPort) msg else []
  let targets := (List.range dials.length).filterMap fun i => (reach i).target?
  let net := p.net.arrive (p.config p2pPort) k msg now fun i => (reach i).dial
  let far := p.far ++ targets.map (·, none)
  if p.net.listens k ∧ (msg.type = .handshake → Net.Peer.greetable msg) then
    let (ledger, effects) := p.ledger.handleMessage env now msg
    ({ ledger, net, far }, ledger.answerPeers now net msg ++ effects.flatMap (net.route k))
  else ({ p with net, far }, [])

/-- `Peer::send`: nothing is sent on a peer that is not connected. -/
def sends (p : Process ι) (x : ℕ × Message) : Bool := p.net.peers[x.1]?.any (·.isConnected)

end Process

/-! ### The mesh -/

/-- A message on its way, by the end it was written at. -/
structure Parcel (ι : Type) where
  sender : ι
  place : ℕ
  message : Message

structure Mesh (ι : Type) where
  processes : ι → Process ι
  sent : List (Parcel ι)

/-- `accept` takes over the connection that process `i` dialed as its peer `k`; `address` and `port` are those of its
    socket there. `getPeers` and `ping` are the periodic messages to every client. -/
inductive MeshAction (ι : Type)
  | own (i : ι) (e : OwnEvent)
  | connectToPeer (i : ι) (e : Endpoint) (reach : Reach ι)
  | accept (i : ι) (k : ℕ) (address : String) (port : Int32) (now : Int64)
  | arrive (m : ℕ) (now : Int64) (reach : ℕ → Reach ι)
  | gossip (i : ι) (idx : ℕ) (now : Int64)
  | getPeers (i : ι) (now : Int64)
  | ping (i : ι) (now : Int64)
  | lost (i : ι) (k : ℕ)

namespace Mesh
variable {ι : Type}

/-- Every node on its own fresh ledger, with the peers it knows of. -/
def start (nodeId : ι → String) (started : ι → Int64) (stores : ι → PeerStore) : Mesh ι where
  processes i := { ledger := .start (nodeId i) (started i), net := .start (stores i), far := [] }
  sent := []

variable [DecidableEq ι]

/-- Process `i` has acted, and sends. -/
def put (s : Mesh ι) (i : ι) (p : Process ι) (out : List (ℕ × Message)) : Mesh ι where
  processes := Function.update s.processes i p
  sent := s.sent ++ (out.filter p.sends).map fun x => { sender := i, place := x.1, message := x.2 }

/-- The other end of a peer is at place `l` of its process from now on. -/
def meet (s : Mesh ι) (i : ι) (k l : ℕ) : Mesh ι :=
  let p := s.processes i
  { s with processes := Function.update s.processes i { p with far := p.far.modify k fun x => (x.1, some l) } }

/-- `handle_accept`, and `handleConnection` with its HANDSHAKE: a connection that is rejected enters no client. -/
def accept (p2pPort : ι → Int32) (s : Mesh ι) (i : ι) (k : ℕ) (address : String) (port : Int32) (now : Int64) :
    Mesh ι :=
  match (s.processes i).far[k]? with
  | some (j, none) =>
    let p := s.processes j
    let l := p.net.peers.length
    let net := p.net.handleAccept .node address port
    let out := if l ∈ net.clients then [(l, p.ledger.handshakeMessage now (p2pPort j))] else []
    (s.put j { p with net, far := p.far ++ [(i, some k)] } out).meet i k l
  | _ => s

def step (env : Env) (p2pPort : ι → Int32) (s : Mesh ι) : MeshAction ι → Mesh ι
  | .own i e =>
    let (p, out) := (s.processes i).own env e
    s.put i p out
  | .connectToPeer i e reach => s.put i ((s.processes i).connectToPeer e reach) []
  | .accept i k address port now => s.accept p2pPort i k address port now
  | .arrive m now reach =>
    match s.sent[m]? with
    | none => s
    | some x =>
      match (s.processes x.sender).far[x.place]? with
      | some (j, some l) =>
        let (p, out) := (s.processes j).arrive env (p2pPort j) l x.message now reach
        s.put j p out
      | _ => s
  | .gossip i idx now =>
    s.put i (s.processes i) ((s.processes i).ledger.gossipPeers now (s.processes i).net idx)
  | .getPeers i now =>
    s.put i (s.processes i) ((s.processes i).net.toAll ((s.processes i).ledger.getPeersMessage now))
  | .ping i now => s.put i (s.processes i) ((s.processes i).net.toAll ((s.processes i).ledger.pingMessage now))
  | .lost i k =>
    s.put i { s.processes i with net := (s.processes i).net.modify k Net.Peer.disconnect } []

end Mesh

end NexusLedger
