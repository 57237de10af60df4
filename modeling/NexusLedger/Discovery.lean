import NexusLedger.Lib.Table
import NexusLedger.Lib.Json
import Mathlib.Data.List.Sort

/-! The peers that a node knows of: the peers table of the store, and the endpoints that a node dials when it starts
    and when a PEERS_LIST message arrives. -/

namespace NexusLedger

/-- An endpoint as a message, the table or the list of seed nodes names it. -/
structure Endpoint where
  ip : String
  port : Int32
  deriving DecidableEq

/-! ### The peers table -/

structure PeerRow where
  ipAddress : CString
  port : Int32
  nodeId : CString
  lastSeen : Int64
  deriving DecidableEq

/-- `CHECK (port > 0 AND port < 65536)`, `node_id UNIQUE`, `UNIQUE (ip_address, port)`. -/
def peersSchema : Schema PeerRow where
  check p := decide (0 < p.port) && decide (p.port < 65536)
  clash a b := a.nodeId == b.nodeId || (a.ipAddress == b.ipAddress && a.port == b.port)

/-- The peers table. No statement joins it with another table, so it stands beside the ledger. -/
abbrev PeerStore : Type := Table peersSchema

namespace PeerStore

/-- `addPeer`: what a constraint refuses counts as done. -/
def addPeer (peers : PeerStore) (ip : String) (port : Int32) (nodeId : String) (now : Int64) : Bool × PeerStore :=
  (true, peers.insertOrIgnore { ipAddress := .bind ip, port, nodeId := .bind nodeId, lastSeen := now })

/-- `ORDER BY last_seen DESC`: the index is read backwards, so among equals the newest row comes first. -/
def byLastSeen (peers : PeerStore) : List PeerRow :=
  peers.rows.reverse.insertionSort fun a b => b.lastSeen ≤ a.lastSeen

/-- `LIMIT`: a negative bound is none. -/
def limit (maxCount : Int32) (rows : List PeerRow) : List PeerRow :=
  if maxCount < 0 then rows else rows.take maxCount.toInt.toNat

def getPeers (peers : PeerStore) (maxCount : Int32) : List Endpoint :=
  (limit maxCount peers.byLastSeen).map fun p => { ip := p.ipAddress.val, port := p.port }

def setLastSeen (ip : CString) (port : Int32) (now : Int64) (p : PeerRow) : PeerRow :=
  if p.ipAddress = ip ∧ p.port = port then { p with lastSeen := now } else p

theorem setLastSeen_keys (ip : CString) (port : Int32) (now : Int64) (p : PeerRow) :
    (setLastSeen ip port now p).ipAddress = p.ipAddress ∧ (setLastSeen ip port now p).port = p.port ∧
      (setLastSeen ip port now p).nodeId = p.nodeId := by
  unfold setLastSeen
  split <;> exact ⟨rfl, rfl, rfl⟩

def updatePeerSeen (peers : PeerStore) (ip : String) (port : Int32) (now : Int64) : PeerStore :=
  peers.update (setLastSeen (.bind ip) port now)
    (fun p => by simp only [peersSchema, (setLastSeen_keys _ _ _ p).2.1])
    (fun a b => by
      obtain ⟨haddress, hport, hid⟩ := setLastSeen_keys (.bind ip) port now a
      obtain ⟨haddress', hport', hid'⟩ := setLastSeen_keys (.bind ip) port now b
      simp only [peersSchema, haddress, hport, hid, haddress', hport', hid'])

end PeerStore

/-! ### The endpoints that are dialed -/

namespace Node

/-- `ip` and `port` of a member of a PEERS_LIST payload. -/
def readEndpoint (p : Json) : Json.Read Endpoint := do
  let ip ← p.value Json.getString "ip" ""
  let port ← p.value Json.getInt "port" 0
  return { ip, port }

/-- The loop of the PEERS_LIST handler: what it hands to `addPeer` and `connectToPeer`. A failed read is thrown out of
    the whole loop. -/
def listDials (p2pPort : Int32) : List Json → List Endpoint
  | [] => []
  | p :: rest =>
    match readEndpoint p with
    | .error _ => []
    | .ok e => if e.ip ≠ "" ∧ 0 < e.port ∧ e.port ≠ p2pPort then e :: listDials p2pPort rest else listDials p2pPort rest

/-- PEERS_LIST, up to its calls of `connectToPeer`. -/
def peersListDials (p2pPort : Int32) : Json → List Endpoint
  | .arr peers => listDials p2pPort peers
  | _ => []

def seeds : List Endpoint :=
  [{ ip := "139.100.207.199", port := 8000 }, { ip := "139.100.207.83", port := 8001 },
    { ip := "139.100.207.102", port := 8002 }]

/-- The constructor, up to its calls of `connectToPeer`: the saved peers, or else the seed nodes. -/
def startDials (p2pPort : Int32) (savedPeers : List Endpoint) : List Endpoint :=
  (savedPeers.filter fun e => e.port ≠ p2pPort) ++
    if savedPeers = [] then seeds.filter fun e => e.port ≠ p2pPort else []

end Node

end NexusLedger
