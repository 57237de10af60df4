import NexusLedger.Node
import NexusLedger.Discovery

/-! The connections of a process: `src/network/peer.cpp`, `client.cpp` and `server.cpp` as far as they open, read and
    close sockets, and the handlers of `src/core/node.cpp` that keep `clients_`. Messages are framed already; what the
    network answers to a `connect` is part of the event. -/

namespace NexusLedger.Net

inductive PeerState
  | disconnected
  | connecting
  | connected
  | handshake
  | ready
  deriving DecidableEq

/-- A `Peer` with its socket: `isOpen` is `socket->is_open()`, and `loops` counts the reads that wait on it.
    `outbound` tells which side dialed; `arrived` are the messages that came in, `handled` those of them that a handler
    was called with. -/
structure Peer where
  id : String
  address : String
  port : Int32
  p2pPort : Int32
  state : PeerState
  isOpen : Bool
  loops : Nat
  outbound : Bool
  arrived : List Message
  handled : List Message

namespace Peer

/-- The constructor. It leaves `port` unset; both callers set it before it is read. -/
def new (outbound : Bool) : Peer where
  id := ""
  address := ""
  port := 0
  p2pPort := 0
  state := .disconnected
  isOpen := false
  loops := 0
  outbound
  arrived := []
  handled := []

def isConnected (p : Peer) : Bool := p.isOpen && (p.state == .connected || p.state == .ready)

/-- `disconnect`: the reads that wait on the socket are aborted. -/
def disconnect (p : Peer) : Peer := { p with isOpen := false, state := .disconnected, loops := 0 }

/-- `read`: on a peer that is not connected it returns at once. -/
def read (p : Peer) : Peer := if p.isConnected then { p with loops := p.loops + 1 } else p

def receive (msg : Message) (p : Peer) : Peer := { p with arrived := p.arrived ++ [msg] }

/-- A read completes, and its callback is called. -/
def complete (msg : Message) (p : Peer) : Peer := { p with loops := p.loops - 1, handled := p.handled ++ [msg] }

/-- HANDSHAKE. A port that is no number is thrown out of the handler. -/
def onHandshake (msg : Message) (p : Peer) : Peer :=
  let p := { p with id := msg.senderId }
  match msg.payload.member? "port" with
  | none => { p with state := .ready }
  | some port =>
    match port.getInt with
    | .error _ => p
    | .ok p2pPort => { p with p2pPort, state := .ready }

end Peer

/-- What comes of a `connect`: the address is not one, the network refuses, or there is a connection. -/
inductive Dial
  | badAddress
  | refused
  | connected
  deriving DecidableEq

/-- `Client::connect` on a new client: its result, its peer, and what its connection handler is called with. The first
    `read` comes before the socket is open. -/
def connect (nodeId : String) (e : Endpoint) : Dial → Bool × Option Peer × Option Bool
  | .badAddress => (false, none, none)
  | .refused => (false, none, some false)
  | .connected =>
    let peer := Peer.read { Peer.new true with id := nodeId }
    let peer := { peer with isOpen := true, state := .connected, address := e.ip, port := e.port }
    (true, some peer.read, none)

/-- The connection handler of the server: the one of a node, the one of `testNetwork`, or none. -/
inductive Handler
  | node
  | testNetwork
  | absent
  deriving DecidableEq

structure Config where
  nodeId : String
  p2pPort : Int32
  handler : Handler

/-- The peers in the order of their making, `clients_` of the server and of the node, each entry the place of its peer,
    and the peers table. -/
structure Connections where
  peers : List Peer
  serverClients : List Nat
  clients : List Nat
  store : PeerStore

namespace Connections

def start (store : PeerStore) : Connections where
  peers := []
  serverClients := []
  clients := []
  store

def modify (s : Connections) (k : Nat) (f : Peer → Peer) : Connections := { s with peers := s.peers.modify k f }

/-! ### Outbound -/

/-- The connection handler that `connectToPeer` installs, for a client whose peer has the place `k`. -/
def onConnection (s : Connections) (k : Nat) (connected : Bool) : Connections :=
  if connected then { s with clients := s.clients ++ [k] } else s

def connectToPeer (nodeId : String) (s : Connections) (e : Endpoint) (dial : Dial) : Connections :=
  let (_, peer, notice) := connect nodeId e dial
  let k := s.peers.length
  let s := { s with peers := s.peers ++ peer.toList }
  match notice with
  | some connected => s.onConnection k connected
  | none => s

/-- The calls that the PEERS_LIST handler makes; `dial` answers the `connect` of each one. -/
def dialAll (nodeId : String) (now : Int64) : List Endpoint → (Nat → Dial) → Connections → Connections
  | [], _, s => s
  | e :: rest, dial, s =>
    let s := { s with store := (s.store.addPeer e.ip e.port "" now).2 }
    dialAll nodeId now rest (fun i => dial (i + 1)) (s.connectToPeer nodeId e (dial 0))

/-! ### Inbound -/

/-- `client->get_peer()` has this address and this port. -/
def hasEndpoint (s : Connections) (peer : Peer) (k : Nat) : Bool :=
  s.peers[k]?.any fun p => p.address == peer.address && p.port == peer.port

/-- `handleConnection`, on the peer at place `k`. -/
def handleConnection (s : Connections) (k : Nat) : Connections :=
  match s.peers[k]? with
  | none => s
  | some peer =>
    if s.clients.any (s.hasEndpoint peer) then s.modify k Peer.disconnect
    else { s with clients := s.clients ++ [k] }.modify k Peer.read

/-- `handle_accept` without an error. The handler of `testNetwork` only greets. -/
def handleAccept (handler : Handler) (s : Connections) (address : String) (port : Int32) : Connections :=
  let k := s.peers.length
  -- `read` is called before the peer is connected.
  let peer := Peer.read { Peer.new false with isOpen := true }
  let peer := { peer with state := .connected, address, port }
  let s := { s with peers := s.peers ++ [peer], serverClients := s.serverClients ++ [k] }
  match handler with
  | .node => s.handleConnection k
  | .testNetwork => s
  | .absent => s

/-! ### Messages -/

/-- The endpoints that the handling of a message dials. -/
def dials (config : Config) (msg : Message) : List Endpoint :=
  if config.handler = .node ∧ msg.type = .peersList then Node.peersListDials config.p2pPort msg.payload else []

/-- `handleMessage` of a node, as far as it touches peers. The message handlers without a node only reply. -/
def handleMessage (config : Config) (s : Connections) (k : Nat) (msg : Message) (now : Int64) (dial : Nat → Dial) :
    Connections :=
  match config.handler, s.peers[k]? with
  | .node, some peer =>
    let s := { s with store := s.store.updatePeerSeen peer.address peer.port now }
    match msg.type with
    | .handshake => s.modify k (Peer.onHandshake msg)
    | .peersList => s.dialAll config.nodeId now (Node.peersListDials config.p2pPort msg.payload) dial
    | _ => s
  | _, _ => s

/-- Whether a message on this connection reaches a handler: some read waits for it. -/
def listens (s : Connections) (k : Nat) : Bool := s.peers[k]?.any fun p => p.isOpen && decide (0 < p.loops)

/-- A message comes in. The handler of a completed read calls the callback and reads on. -/
def arrive (config : Config) (s : Connections) (k : Nat) (msg : Message) (now : Int64) (dial : Nat → Dial) :
    Connections :=
  if s.listens k then
    let s := s.modify k fun p => (p.receive msg).complete msg
    (s.handleMessage config k msg now dial).modify k Peer.read
  else s.modify k fun p => if p.isOpen then p.receive msg else p

end Connections

/-- `lost` is a failed read or write, after which the peer disconnects. -/
inductive Event
  | connectToPeer (e : Endpoint) (dial : Dial)
  | accept (address : String) (port : Int32)
  | acceptError
  | arrive (k : Nat) (msg : Message) (now : Int64) (dial : Nat → Dial)
  | lost (k : Nat)

namespace Connections

def step (config : Config) (s : Connections) : Event → Connections
  | .connectToPeer e dial => s.connectToPeer config.nodeId e dial
  | .accept address port => s.handleAccept config.handler address port
  | .acceptError => s
  | .arrive k msg now dial => s.arrive config k msg now dial
  | .lost k => s.modify k Peer.disconnect

end Connections

end NexusLedger.Net
