import NexusLedger.Node
import Mathlib.Data.List.DropRight

/-! A connection: the codec of `src/network/message.h`, and `send` and `read` of `src/network/peer.cpp`. What
    travels is bytes; what the JSON library makes of some bytes is a parameter. -/

namespace NexusLedger

abbrev Bytes := List UInt8

/-- The bytes of a `std::string`. -/
def utf8 (s : String) : Bytes := s.toUTF8.data.toList

/-! ### Messages -/

/-- The value of the `enum class`. -/
def MessageType.code : MessageType → Int32
  | .handshake => 0
  | .ping => 1
  | .pong => 2
  | .getPeers => 3
  | .peersList => 4
  | .getBlocks => 5
  | .blocksResponse => 6
  | .newTransaction => 7
  | .newBlock => 8
  | .syncRequest => 9
  | .syncResponse => 10
  | .error => 99

/-- A message as it is read from the wire: its type is any `int`. -/
structure Received where
  type : Int32
  senderId : String
  timestamp : Int64
  payload : Json

namespace Message

/-- The message as its receiver should have it. -/
def received (msg : Message) : Received where
  type := msg.type.code
  senderId := msg.senderId
  timestamp := msg.timestamp
  payload := msg.payload

/-- The object that `serialize` dumps, in the order of its keys. -/
def toJson (msg : Message) : Json :=
  .obj
    [("payload", msg.payload),
     ("sender_id", .str msg.senderId),
     ("timestamp", .int msg.timestamp.toInt),
     ("type", .int msg.type.code.toInt)]

def serialize (env : Env) (msg : Message) : String := env.dump msg.toJson

/-- The fields of a parsed message. `j["type"]` fails on anything but an object, and puts a null where the key
    is missing, which is no `int`. -/
def readReceived (now : Int64) (j : Json) : Json.Read Received := do
  let type ← ((j.member? "type").getD .null).getInt
  let senderId ← j.value Json.getString "sender_id" ""
  let timestamp ← j.value Json.getLong "timestamp" now
  let payload ← j.value Except.ok "payload" (.obj [])
  return { type, senderId, timestamp, payload }

/-- `deserialize`, within the callback that catches what it throws. -/
def deserialize (parse : Bytes → Option Json) (now : Int64) (data : Bytes) : Option Received :=
  (parse data).bind fun j => (readReceived now j).toOption

end Message

/-! ### The connection -/

namespace Peer

/-- `'\n'`. -/
def newline : UInt8 := 10

/-- `'\r'`. -/
def carriageReturn : UInt8 := 13

def send (data : Bytes) : Bytes := data ++ [newline]

/-- The byte count that `async_read_until` completes with, once the buffer holds a newline. -/
def readUntil (buffer : Bytes) : Option Nat :=
  if newline ∈ buffer then some (buffer.idxOf newline + 1) else none

/-- `std::getline` on the buffer: the line, and what it leaves. -/
def getline (buffer : Bytes) : Bytes × Bytes :=
  (buffer.takeWhile (· != newline), (buffer.dropWhile (· != newline)).tail)

/-- `streambuf::consume`. -/
def consume (buffer : Bytes) (n : Nat) : Bytes := buffer.drop n

def isBreak (b : UInt8) : Bool := b == carriageReturn || b == newline

/-- The two loops that strip line breaks, first from the end and then from the start. -/
def strip (data : Bytes) : Bytes := (data.rdropWhile isBreak).dropWhile isBreak

/-- What the callback gets: a line that is empty without its line breaks is passed over. -/
def clean (line : Bytes) : Option Bytes := if strip line = [] then none else some (strip line)

/-- The handler of a read that completed with `bytes`. -/
def onRead (buffer : Bytes) (bytes : Nat) : Option Bytes × Bytes :=
  let (line, buffer) := getline buffer
  (clean line, consume buffer bytes)

/-- The reads that complete without further bytes from the socket, each started by the handler of the one
    before. Each takes the newline off that it completed with, so as many as there are bytes are enough. -/
def read (buffer : Bytes) : Nat → List Bytes × Bytes
  | 0 => ([], buffer)
  | fuel + 1 =>
    match readUntil buffer with
    | none => ([], buffer)
    | some bytes =>
      let (data, buffer) := onRead buffer bytes
      let (rest, buffer) := read buffer fuel
      (data.toList ++ rest, buffer)

/-- Bytes that arrive together, at a time. -/
structure Chunk where
  now : Int64
  bytes : Bytes

/-- The data that the callback gets while the chunks arrive, each with the time. -/
def receive (buffer : Bytes) : List Chunk → List (Int64 × Bytes)
  | [] => []
  | chunk :: chunks =>
    let (data, rest) := read (buffer ++ chunk.bytes) (buffer ++ chunk.bytes).length
    data.map (chunk.now, ·) ++ receive rest chunks

/-- The callback that a node hands to `read`, up to `handleMessage`. -/
def callback (parse : Bytes → Option Json) (x : Int64 × Bytes) : Option Received :=
  Message.deserialize parse x.1 x.2

/-- The messages that the callback chain makes of the chunks of a connection. -/
def deliver (parse : Bytes → Option Json) (chunks : List Chunk) : List Received :=
  (receive [] chunks).filterMap (callback parse)

end Peer

end NexusLedger
