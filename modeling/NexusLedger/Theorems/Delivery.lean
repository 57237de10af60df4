import NexusLedger.Lib.Framing
import NexusLedger.Peer
import NexusLedger.Theorems.ChainStore

/-! What a connection delivers. The handler of a read takes its line off the buffer twice, by `std::getline` and
    by `consume`: bytes that stand behind the line already are lost. -/

namespace NexusLedger
open Framing Peer

/-! ### The library -/

namespace Message
variable {env : Env} {parse : Bytes → Option Json} {msg : Message}

/-- The bytes of a serialised message. -/
def text (env : Env) (msg : Message) : Bytes := utf8 (msg.serialize env)

/-- What the JSON library does with the object of a message: parsing undoes dumping, control characters are
    escaped, and no proper end of the text is the text of a value. -/
structure Encodes (env : Env) (parse : Bytes → Option Json) (msg : Message) : Prop where
  nonempty : msg.text env ≠ []
  parse_text : parse (msg.text env) = some msg.toJson
  printable : ∀ b ∈ msg.text env, 32 ≤ b
  strict : ∀ u, u <:+ msg.text env → u ≠ msg.text env → parse u = none

theorem readReceived_toJson (now : Int64) (msg : Message) : readReceived now msg.toJson = .ok msg.received := by
  simp [readReceived, toJson, Json.member?, List.lookup_cons]
  rfl

theorem Encodes.deserialize_text (h : msg.Encodes env parse) (now : Int64) :
    deserialize parse now (msg.text env) = some msg.received := by
  rw [deserialize, h.parse_text, Option.bind_some, readReceived_toJson]
  rfl

theorem isBreak_eq_false {b : UInt8} (h : 32 ≤ b) : isBreak b = false := by
  unfold isBreak newline carriageReturn
  rw [Bool.or_eq_false_iff, beq_eq_false_iff_ne, beq_eq_false_iff_ne]
  constructor <;> rintro rfl <;> revert h <;> decide

theorem Encodes.newline_notMem (h : msg.Encodes env parse) : newline ∉ msg.text env := by
  intro hm
  have hbreak := isBreak_eq_false (h.printable newline hm)
  revert hbreak
  decide

end Message

/-! ### Lines -/

namespace Peer
variable {t x buffer : Bytes} {fuel : Nat}

theorem strip_eq_self (h : ∀ b ∈ t, isBreak b = false) : strip t = t := by
  have hback : t.rdropWhile isBreak = t := by
    rw [List.rdropWhile_eq_self_iff]
    exact fun ht => by simp [h _ (List.getLast_mem ht)]
  rw [strip, hback, List.dropWhile_eq_self_iff]
  exact fun ht => by simp [h _ (List.getElem_mem ht)]

theorem clean_of_printable (h : ∀ b ∈ t, isBreak b = false) : clean t = if t = [] then none else some t := by
  rw [clean, strip_eq_self h]

theorem read_of_notMem (h : newline ∉ buffer) (fuel : Nat) : read buffer fuel = ([], buffer) := by
  cases fuel with
  | zero => rfl
  | succ fuel => simp only [read, readUntil, h, if_false]

/-- The line goes to the callback; as many bytes again as it had are skipped, its newline included. -/
theorem read_of_line (h : newline ∉ t) (x : Bytes) (fuel : Nat) :
    read (t ++ newline :: x) (fuel + 1) =
      ((clean t).toList ++ (read (x.drop (t.length + 1)) fuel).1, (read (x.drop (t.length + 1)) fuel).2) := by
  have hne : ∀ b ∈ t, (b != newline) = true := fun b hb => by
    rw [bne_iff_ne]
    exact fun heq => h (heq ▸ hb)
  have hbytes : readUntil (t ++ newline :: x) = some (t.length + 1) := by
    simp [readUntil, List.idxOf_append_of_notMem h]
  have hline : getline (t ++ newline :: x) = (t, x) := by
    simp [getline, List.takeWhile_append_of_pos hne, List.dropWhile_append_of_pos hne]
  simp only [read, hbytes, onRead, hline, consume]

theorem receive_cons (buffer : Bytes) (chunk : Chunk) (chunks : List Chunk) :
    receive buffer (chunk :: chunks) =
      (read (buffer ++ chunk.bytes) (buffer ++ chunk.bytes).length).1.map (chunk.now, ·) ++
        receive (read (buffer ++ chunk.bytes) (buffer ++ chunk.bytes).length).2 chunks := rfl

/-! ### What is read, with the losses -/

/-- The data that a line gives the callback, with its time. -/
def cleanAt (line : Int64 × Bytes) : Option (Int64 × Bytes) := (clean line.2).map (line.1, ·)

theorem filterMap_cleanAt (now : Int64) (lines : List Bytes) :
    (lines.map (now, ·)).filterMap cleanAt = (lines.filterMap clean).map (now, ·) := by
  rw [List.filterMap_map, List.map_filterMap]
  rfl

/-- The buffer and what comes after it are read line by line. -/
theorem read_reads (fuel : Nat) (buffer more : Bytes) :
    ∃ lines : List Bytes, (read buffer fuel).1 = lines.filterMap clean ∧
      ∀ out, Reads newline ((read buffer fuel).2 ++ more) out → Reads newline (buffer ++ more) (lines ++ out) := by
  induction fuel generalizing buffer with
  | zero => exact ⟨[], rfl, fun out h => h⟩
  | succ fuel ih =>
    by_cases hm : newline ∈ buffer
    · obtain ⟨t, x, rfl, ht⟩ := List.eq_append_cons_of_mem hm
      obtain ⟨lines, hlines, hreads⟩ := ih (x.drop (t.length + 1))
      rw [read_of_line ht]
      refine ⟨t :: lines, ?_, fun out h => ?_⟩
      · simp only [hlines]
        cases hclean : clean t with
        | none => rw [List.filterMap_cons_none hclean]; rfl
        | some data => rw [List.filterMap_cons_some hclean]; rfl
      · -- No more is skipped than the buffer holds.
        have hdrop : (x ++ more).drop (min (t.length + 1) x.length) = x.drop (t.length + 1) ++ more := by
          rw [List.drop_append_of_le_length (min_le_right _ _)]
          rcases le_total (t.length + 1) x.length with hle | hle
          · rw [min_eq_left hle]
          · rw [min_eq_right hle, List.drop_length, List.drop_eq_nil_of_le hle]
        rw [List.append_assoc, List.cons_append]
        refine .text (min (t.length + 1) x.length) ht ?_
        rw [hdrop]
        exact hreads out h
    · rw [read_of_notMem hm]
      exact ⟨[], rfl, fun out h => h⟩

theorem receive_reads (chunks : List Chunk) (buffer : Bytes) :
    ∃ lines : List (Int64 × Bytes), receive buffer chunks = lines.filterMap cleanAt ∧
      Reads newline (buffer ++ chunks.flatMap (·.bytes)) (lines.map Prod.snd) := by
  induction chunks generalizing buffer with
  | nil => exact ⟨[], rfl, .stop _⟩
  | cons chunk chunks ih =>
    rw [receive_cons, List.flatMap_cons, ← List.append_assoc]
    obtain ⟨lines, hlines, hreads⟩ :=
      read_reads (buffer ++ chunk.bytes).length (buffer ++ chunk.bytes) (chunks.flatMap (·.bytes))
    obtain ⟨lines', hlines', hreads'⟩ := ih (read (buffer ++ chunk.bytes) (buffer ++ chunk.bytes).length).2
    refine ⟨lines.map (chunk.now, ·) ++ lines', ?_, ?_⟩
    · rw [List.filterMap_append, filterMap_cleanAt, hlines, hlines']
    · rw [List.map_append, List.map_map]
      have hlabels : lines.map (Prod.snd ∘ (chunk.now, ·)) = lines := List.map_id lines
      rw [hlabels]
      exact hreads _ hreads'

end Peer

/-! ### Delivery -/

namespace Message
variable {env : Env} {parse : Bytes → Option Json} {msg : Message} {u : Bytes}

/-- The message that a line of the stream becomes. -/
def ofLine (parse : Bytes → Option Json) (line : Int64 × Bytes) : Option Received :=
  (cleanAt line).bind (callback parse)

theorem clean_suffix (h : msg.Encodes env parse) (hu : u <:+ msg.text env) : clean u = if u = [] then none else some u :=
  clean_of_printable fun b hb => isBreak_eq_false (h.printable b (hu.subset hb))

theorem ofLine_of_part (h : msg.Encodes env parse) (hu : u <:+ msg.text env) (hne : u ≠ msg.text env) (now : Int64) :
    ofLine parse (now, u) ≠ some msg.received := by
  unfold ofLine cleanAt
  rw [clean_suffix h hu]
  split
  · simp
  · simp [callback, deserialize, h.strict u hu hne]

/-- The whole text goes to the callback. -/
theorem clean_text (h : msg.Encodes env parse) : clean (msg.text env) = some (msg.text env) := by
  rw [clean_suffix h (List.suffix_refl _), if_neg h.nonempty]

end Message

namespace Peer
variable {env : Env} {parse : Bytes → Option Json}

/-- What is lost is never made up for. -/
theorem ne_of_lost {msgs : List Message} (hlib : ∀ msg ∈ msgs, msg.Encodes env parse) {buffer : Bytes}
    {chunks : List Chunk} (fuel : Nat) (now : Int64)
    (hs : buffer ++ chunks.flatMap (·.bytes) <:+ stream newline (msgs.map (·.text env)))
    (hlost : buffer ++ chunks.flatMap (·.bytes) ≠ stream newline (msgs.map (·.text env))) :
    ((read buffer fuel).1.map (now, ·) ++ receive (read buffer fuel).2 chunks).filterMap (callback parse) ≠
      msgs.map (·.received) := by
  obtain ⟨lines, hlines, hreads⟩ := read_reads fuel buffer (chunks.flatMap (·.bytes))
  obtain ⟨lines', hlines', hreads'⟩ := receive_reads chunks (read buffer fuel).2
  rw [hlines, hlines', ← filterMap_cleanAt, ← List.filterMap_append, List.filterMap_filterMap]
  refine Reads.values_ne (Message.ofLine parse) (fun msg hmsg => (hlib msg hmsg).newline_notMem)
    (fun msg hmsg u hu hne now => Message.ofLine_of_part (hlib msg hmsg) hu hne now) hs hlost ?_
  rw [List.map_append, List.map_map]
  have hlabels : lines.map (Prod.snd ∘ (now, ·)) = lines := List.map_id lines
  rw [hlabels]
  exact hreads _ hreads'

variable {buffer x t : Bytes} {chunk : Chunk} {msg : Message}

/-- The message that a chunk completes is delivered, whatever follows it. -/
theorem receive_of_text (h : msg.Encodes env parse) (hsplit : buffer ++ chunk.bytes = msg.text env ++ newline :: x)
    (chunks : List Chunk) :
    ∃ fuel, (receive buffer (chunk :: chunks)).filterMap (callback parse) =
      msg.received ::
        ((read (x.drop ((msg.text env).length + 1)) fuel).1.map (chunk.now, ·) ++
          receive (read (x.drop ((msg.text env).length + 1)) fuel).2 chunks).filterMap (callback parse) := by
  have hlength : (buffer ++ chunk.bytes).length = (msg.text env).length + x.length + 1 := by
    rw [hsplit, List.length_append, List.length_cons, Nat.add_assoc]
  refine ⟨(msg.text env).length + x.length, ?_⟩
  have hcallback : callback parse (chunk.now, msg.text env) = some msg.received := h.deserialize_text chunk.now
  rw [receive_cons, hlength, hsplit, read_of_line h.newline_notMem, Message.clean_text h, Option.toList_some,
    List.singleton_append, List.map_cons, List.cons_append, List.filterMap_cons_some hcallback]

/-- The first newline of a chunk is its last byte when nothing follows. -/
theorem newline_notMem_dropLast_iff (hbuffer : newline ∉ buffer) (ht : newline ∉ t)
    (hsplit : buffer ++ chunk.bytes = t ++ newline :: x) : newline ∉ chunk.bytes.dropLast ↔ x = [] := by
  have hne : chunk.bytes ≠ [] := by
    intro hnil
    rw [hnil, List.append_nil] at hsplit
    exact hbuffer (hsplit ▸ by simp)
  have hdrop := congrArg List.dropLast hsplit
  rw [List.dropLast_append_of_ne_nil hne] at hdrop
  have hmem : newline ∈ chunk.bytes.dropLast ↔ newline ∈ (t ++ newline :: x).dropLast := by
    rw [← hdrop, List.mem_append]
    exact ⟨Or.inr, fun h => h.resolve_left hbuffer⟩
  rw [hmem]
  cases x with
  | nil => simpa using ht
  | cons b x => simp [List.dropLast_append_of_ne_nil]

/-- Between two chunks the buffer holds the beginning of a line. -/
theorem receive_iff (chunks : List Chunk) {buffer : Bytes} {msgs : List Message}
    (hlib : ∀ msg ∈ msgs, msg.Encodes env parse) (hbuffer : newline ∉ buffer)
    (hstream : buffer ++ chunks.flatMap (·.bytes) = stream newline (msgs.map (·.text env))) :
    (receive buffer chunks).filterMap (callback parse) = msgs.map (·.received) ↔
      ∀ chunk ∈ chunks, newline ∉ chunk.bytes.dropLast := by
  induction chunks generalizing buffer msgs with
  | nil =>
    cases msgs with
    | nil => simp [receive]
    | cons msg msgs =>
      rw [List.flatMap_nil, List.append_nil] at hstream
      exact absurd (hstream ▸ by simp) hbuffer
  | cons chunk chunks ih =>
    rw [List.flatMap_cons, ← List.append_assoc] at hstream
    rw [List.forall_mem_cons]
    by_cases hm : newline ∈ buffer ++ chunk.bytes
    · obtain ⟨t, x, hsplit, ht⟩ := List.eq_append_cons_of_mem hm
      rw [newline_notMem_dropLast_iff hbuffer ht hsplit]
      rw [hsplit] at hstream
      cases msgs with
      | nil => simp at hstream
      | cons msg msgs =>
        rw [List.forall_mem_cons] at hlib
        rw [List.append_assoc, List.cons_append, List.map_cons, stream_cons] at hstream
        obtain ⟨rfl, hrest⟩ := text_unique ht hlib.1.newline_notMem hstream
        obtain ⟨fuel, heq⟩ := receive_of_text hlib.1 hsplit chunks
        rw [heq, List.map_cons, List.cons.injEq, eq_self, true_and]
        cases x with
        | nil =>
          rw [List.drop_nil, read_of_notMem List.not_mem_nil]
          simpa using ih hlib.2 List.not_mem_nil hrest
        | cons b x =>
          -- At least the first byte behind the line is skipped.
          refine iff_of_false ?_ (by simp)
          refine ne_of_lost hlib.2 fuel chunk.now ?_ fun heq => ?_
          · rw [← hrest]
            exact ⟨(b :: x).take ((msg.text env).length + 1), by rw [← List.append_assoc, List.take_append_drop]⟩
          · have hlength := congrArg List.length (heq.trans hrest.symm)
            simp only [List.length_append, List.length_drop, List.length_cons] at hlength
            omega
    · rw [receive_cons, read_of_notMem hm]
      have hchunk : newline ∉ chunk.bytes.dropLast := fun hd =>
        hm (List.mem_append_right _ (List.mem_of_mem_dropLast hd))
      simpa [hchunk] using ih hlib hm hstream

/-- All messages of a connection arrive as they were sent exactly when no chunk brings bytes behind a newline. -/
theorem delivery_iff (env : Env) {parse : Bytes → Option Json} {msgs : List Message}
    (hlib : ∀ msg ∈ msgs, msg.Encodes env parse) {chunks : List Chunk}
    (hchunks : chunks.flatMap (·.bytes) = msgs.flatMap fun msg => send (utf8 (msg.serialize env))) :
    deliver parse chunks = msgs.map (·.received) ↔ ∀ chunk ∈ chunks, newline ∉ chunk.bytes.dropLast := by
  refine receive_iff chunks hlib List.not_mem_nil ?_
  rw [List.nil_append, hchunks, stream, List.flatMap_map]
  rfl

/-! ### A ping and a pong -/

/-- A message without a payload. -/
def bareMessage (type : MessageType) : Message where
  type
  senderId := "alpha"
  timestamp := 1700000000
  payload := .null

def bareText (type : Char) : String :=
  "\x7b\"payload\":null,\"sender_id\":\"alpha\",\"timestamp\":1700000000,\"type\":" ++ type.toString ++ "\x7d"

/-- The JSON library on the two messages and their texts. -/
def pingEnv : Env :=
  { headerEnv with
    dump := fun j =>
      match j.member? "type" with
      | some (.int 1) => bareText '1'
      | _ => bareText '2' }

def pingParse (data : Bytes) : Option Json :=
  if data = utf8 (bareText '1') then some (bareMessage .ping).toJson
  else if data = utf8 (bareText '2') then some (bareMessage .pong).toJson
  else none

theorem pingParse_of_part {c : Char} {u : Bytes} (hlength : (utf8 (bareText c)).length = 68)
    (hu : u <:+ utf8 (bareText c)) (hne : u ≠ utf8 (bareText c)) : pingParse u = none := by
  have hshort : u.length ≠ 68 := fun h => hne (hu.eq_of_length (h.trans hlength.symm))
  unfold pingParse
  rw [if_neg, if_neg] <;> rintro rfl <;> exact hshort (by decide +kernel)

theorem ping_encodes : (bareMessage .ping).Encodes pingEnv pingParse where
  nonempty := by decide +kernel
  parse_text := if_pos (by decide +kernel)
  printable := by decide +kernel
  strict u hu hne := pingParse_of_part (c := '1') (by decide +kernel) hu hne

theorem pong_encodes : (bareMessage .pong).Encodes pingEnv pingParse where
  nonempty := by decide +kernel
  parse_text := by
    show pingParse (utf8 (bareText '2')) = _
    rw [pingParse, if_neg (by decide +kernel), if_pos rfl]
  printable := by decide +kernel
  strict u hu hne := pingParse_of_part (c := '2') (by decide +kernel) hu hne

theorem pings_encode : ∀ msg ∈ [bareMessage .ping, bareMessage .pong], msg.Encodes pingEnv pingParse := by
  rw [List.forall_mem_cons, List.forall_mem_singleton]
  exact ⟨ping_encodes, pong_encodes⟩

/-- The two arrive one after the other, the first one in two pieces. -/
def pieces : List Chunk :=
  [{ now := 1700000000, bytes := (utf8 (bareText '1')).take 10 },
    { now := 1700000001, bytes := (utf8 (bareText '1')).drop 10 ++ [newline] },
    { now := 1700000001, bytes := utf8 (bareText '2') ++ [newline] }]

theorem delivery_iff_pieces :
    deliver pingParse pieces = [bareMessage .ping, bareMessage .pong].map (·.received) :=
  (delivery_iff pingEnv pings_encode (by decide +kernel)).mpr (by decide +kernel)

/-- The two arrive together: the second one is skipped, for it is as long as the first. -/
def together : List Chunk :=
  [{ now := 1700000000, bytes := send (utf8 (bareText '1')) ++ send (utf8 (bareText '2')) }]

theorem second_message_lost :
    (∀ msg ∈ [bareMessage .ping, bareMessage .pong], msg.Encodes pingEnv pingParse) ∧
      (together.flatMap (·.bytes) =
        [bareMessage .ping, bareMessage .pong].flatMap fun msg => send (utf8 (msg.serialize pingEnv))) ∧
      deliver pingParse together ≠ [bareMessage .ping, bareMessage .pong].map (·.received) := by
  refine ⟨pings_encode, by decide +kernel, fun heq => ?_⟩
  have hlength := congrArg List.length heq
  revert hlength
  decide +kernel

end Peer

end NexusLedger
