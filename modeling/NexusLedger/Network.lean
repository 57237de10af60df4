import NexusLedger.Node
import Mathlib.Logic.Function.Basic

/-! Several nodes that exchange messages. What was sent stays available, so it may arrive in any order, late,
    more than once or never. -/

namespace NexusLedger
variable [Arithmetic]

structure Envelope (ι : Type) where
  sender : ι
  receiver : ι
  message : Message

structure Network (ι : Type) where
  nodes : ι → Node
  sent : List (Envelope ι)

/-- A node acts on its own account, or the envelope at some index arrives. Each action names the connections
    that the acting node has open; a request of its own goes to `peer`. -/
inductive Action (ι : Type)
  | own (i peer : ι) (clients : List ι) (e : OwnEvent)
  | deliver (k : Nat) (clients : List ι) (now : Int64)

namespace Network
variable {ι : Type}

/-- Every node on its own fresh database. -/
def start (nodeId : ι → String) (started : ι → Int64) : Network ι where
  nodes i := .start (nodeId i) (started i)
  sent := []

/-- The node that acts, the peer that its replies go to, and its event. -/
def event? (s : Network ι) : Action ι → Option (ι × ι × Event)
  | .own i peer _ e => some (i, peer, .own e)
  | .deliver k _ now => s.sent[k]?.map fun x => (x.receiver, x.sender, .message now x.message)

def clients : Action ι → List ι
  | .own _ _ clients _ => clients
  | .deliver _ clients _ => clients

/-- What an effect puts on the network: a broadcast goes to every connection, a reply to the peer. -/
def post (clients : List ι) (i peer : ι) : Effect → List (Envelope ι)
  | .broadcast msg => clients.map fun j => { sender := i, receiver := j, message := msg }
  | .reply msg => [{ sender := i, receiver := peer, message := msg }]
  | .call _ _ => []

def step [DecidableEq ι] (env : Env) (s : Network ι) (a : Action ι) : Network ι :=
  match s.event? a with
  | none => s
  | some (i, peer, e) =>
    let (n, effects) := (s.nodes i).react env e
    { nodes := Function.update s.nodes i n
      sent := s.sent ++ effects.flatMap (post (clients a) i peer) }

end Network

end NexusLedger
