import NexusLedger.Peer
import NexusLedger.Network

/-! Nodes over TCP. A message travels as the bytes of its line, and the bytes come in by any pieces; between two pieces
    the other threads of a node may act. -/

namespace NexusLedger
variable [Arithmetic]

/-- The cast of an `int` back to the `enum class`, where a case of the switch meets it. -/
def MessageType.ofCode (code : Int32) : Option MessageType :=
  [.handshake, .ping, .pong, .getPeers, .peersList, .getBlocks, .blocksResponse, .newTransaction, .newBlock,
    .syncRequest, .syncResponse, .error].find? fun type => type.code == code

namespace Node

/-- `handleMessage` on what was read from the wire: any other type falls to `default`. -/
def handleReceived (env : Env) (n : Node) (now : Int64) (r : Received) : Node × List Effect :=
  match MessageType.ofCode r.type with
  | some type =>
    n.handleMessage env now { type, senderId := r.senderId, timestamp := r.timestamp, payload := r.payload }
  | none => (n, [])

end Node

/-! ### Connections -/

/-- One direction of a connection: what was sent, the bytes on their way, the `read_buffer_` at the other end, and what
    came out of it. -/
structure Flow where
  messages : List Message
  transit : Bytes
  buffer : Bytes
  handled : List Received

namespace Flow

def empty : Flow where
  messages := []
  transit := []
  buffer := []
  handled := []

def send (env : Env) (msg : Message) (f : Flow) : Flow :=
  { f with messages := f.messages ++ [msg], transit := f.transit ++ Peer.send (utf8 (msg.serialize env)) }

/-- `async_read_until` takes bytes from the socket as long as its buffer holds no newline. -/
def arrive (n : Nat) (f : Flow) : Flow :=
  if Peer.newline ∈ f.buffer then f
  else { f with buffer := f.buffer ++ f.transit.take n, transit := f.transit.drop n }

/-- The handler of a read: what the callback makes of the line. -/
def complete (parse : Bytes → Option Json) (now : Int64) (f : Flow) : Option Received × Flow :=
  match Peer.readUntil f.buffer with
  | none => (none, f)
  | some bytes =>
    let (data, buffer) := Peer.onRead f.buffer bytes
    let received := data.bind fun data => Peer.callback parse (now, data)
    (received, { f with buffer, handled := f.handled ++ received.toList })

end Flow

/-- A connection, its two ends `false` and `true`, and what each end writes. -/
structure Link (ι : Type) where
  ends : Bool → ι
  isOpen : Bool
  flows : Bool → Flow

namespace Link
variable {ι : Type}

def modify (l : Link ι) (b : Bool) (f : Flow → Flow) : Link ι :=
  { l with flows := Function.update l.flows b (f (l.flows b)) }

/-- `Peer::send`: nothing is written to a connection that is closed. -/
def send (env : Env) (b : Bool) (msg : Message) (l : Link ι) : Link ι := if l.isOpen then l.modify b (.send env msg) else l

end Link

/-- A connection, by its place, and the end that writes. -/
abbrev Port : Type := Nat × Bool

structure Wire (ι : Type) where
  nodes : ι → Node
  links : List (Link ι)

/-- `complete` runs the handler of a read that found its newline; a handler that waits when the connection closes still
    runs. The ports in an action are those that the acting node writes to: each broadcast goes to `clients`, a request
    of its own to `peer`. -/
inductive WireAction (ι : Type)
  | own (i : ι) (peer : Port) (clients : List Port) (e : OwnEvent)
  | connect (dialer acceptor : ι)
  | arrive (p : Port) (n : Nat)
  | complete (p : Port) (clients : List Port) (now : Int64)
  | close (k : Nat)

/-- What a node does on its own account in an action. -/
def WireAction.own? {ι : Type} : WireAction ι → Option (ι × OwnEvent)
  | .own i _ _ e => some (i, e)
  | _ => none

def Action.own? {ι : Type} : Action ι → Option (ι × OwnEvent)
  | .own i _ _ e => some (i, e)
  | .deliver _ _ _ => none

namespace Wire
variable {ι : Type} [DecidableEq ι]

def start (nodeId : ι → String) (started : ι → Int64) : Wire ι where
  nodes i := .start (nodeId i) (started i)
  links := []

/-- A node writes only to its own ends. -/
def write (env : Env) (i : ι) (msg : Message) (links : List (Link ι)) (p : Port) : List (Link ι) :=
  links.modify p.1 fun l => if l.ends p.2 = i then l.send env p.2 msg else l

def post (env : Env) (i : ι) (clients : List Port) (peer : Port) (links : List (Link ι)) : Effect → List (Link ι)
  | .broadcast msg => clients.foldl (write env i msg) links
  | .reply msg => write env i msg links peer
  | .call _ _ => links

/-- A node has acted. -/
def act (env : Env) (s : Wire ι) (i : ι) (clients : List Port) (peer : Port) (x : Node × List Effect) : Wire ι where
  nodes := Function.update s.nodes i x.1
  links := x.2.foldl (post env i clients peer) s.links

def opened (dialer acceptor : ι) : Link ι where
  ends b := if b then acceptor else dialer
  isOpen := true
  flows _ := .empty

def setFlow (s : Wire ι) (p : Port) (flow : Flow) : Wire ι :=
  { s with links := s.links.modify p.1 fun l => l.modify p.2 fun _ => flow }

/-- The handler of a read on a connection of `receiver`; what it answers goes out on the same connection. -/
def handle (env : Env) (s : Wire ι) (receiver : ι) (p : Port) (clients : List Port) (now : Int64) :
    Option Received × Flow → Wire ι
  | (none, flow) => s.setFlow p flow
  | (some r, flow) =>
    (s.setFlow p flow).act env receiver clients (p.1, !p.2) ((s.nodes receiver).handleReceived env now r)

def step (env : Env) (parse : Bytes → Option Json) (s : Wire ι) : WireAction ι → Wire ι
  | .own i peer clients e => s.act env i clients peer ((s.nodes i).ownStep env e)
  | .connect dialer acceptor => { s with links := s.links ++ [opened dialer acceptor] }
  | .arrive p n => { s with links := s.links.modify p.1 fun l => if l.isOpen then l.modify p.2 (.arrive n) else l }
  | .complete p clients now =>
    match s.links[p.1]? with
    | none => s
    | some l => s.handle env (l.ends !p.2) p clients now ((l.flows p.2).complete parse now)
  | .close k => { s with links := s.links.modify k fun l => { l with isOpen := false } }

end Wire

end NexusLedger
