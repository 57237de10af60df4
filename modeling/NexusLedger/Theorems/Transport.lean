import NexusLedger.Wire
import NexusLedger.Theorems.Delivery

/-! Nodes over TCP against nodes that exchange messages. A read that skips bytes loses messages and parts of messages,
    but what a handler gets was sent on its connection, in this order and no more often. So each run over TCP is a run
    of the network whose envelopes may arrive late or never. -/

namespace NexusLedger
open Framing Peer

section
set_option linter.unusedSectionVars false
variable [Arithmetic]

/-! ### Messages as their receiver handles them -/

theorem MessageType.ofCode_code (type : MessageType) : ofCode type.code = some type := by
  cases type <;> decide

theorem Node.handleReceived_received (env : Env) (n : Node) (now : Int64) (msg : Message) :
    n.handleReceived env now msg.received = n.handleMessage env now msg := by
  rw [handleReceived, Message.received, MessageType.ofCode_code]

/-! ### One direction of a connection -/

namespace Flow
variable {env : Env} {parse : Bytes → Option Json} {msg : Message} {f : Flow} {now : Int64}

/-- Some first messages are past, each of them handled or lost; the rest of the stream is what is left of the others. -/
def Ordered (env : Env) (f : Flow) : Prop :=
  ∃ past left, f.messages = past ++ left ∧ f.handled.Sublist (past.map (·.received)) ∧
    f.buffer ++ f.transit <:+ stream newline (left.map (·.text env))

theorem ordered_empty : Flow.empty.Ordered env := ⟨[], [], rfl, List.Sublist.refl _, List.suffix_refl _⟩

theorem Ordered.handled_sublist (h : f.Ordered env) : f.handled.Sublist (f.messages.map (·.received)) := by
  obtain ⟨past, left, hmessages, hhandled, -⟩ := h
  rw [hmessages, List.map_append]
  exact hhandled.trans (List.sublist_append_left _ _)

theorem Ordered.send (h : f.Ordered env) (msg : Message) : (f.send env msg).Ordered env := by
  obtain ⟨past, left, hmessages, hhandled, front, hstream⟩ := h
  refine ⟨past, left ++ [msg], ?_, hhandled, front, ?_⟩
  · show f.messages ++ [msg] = _
    rw [hmessages, List.append_assoc]
  · show front ++ (f.buffer ++ (f.transit ++ Peer.send (msg.text env))) = _
    rw [← List.append_assoc f.buffer, ← List.append_assoc front, hstream, List.map_append, stream_append]
    simp [Peer.send]

theorem Ordered.arrive (h : f.Ordered env) (n : Nat) : (f.arrive n).Ordered env := by
  obtain ⟨past, left, hmessages, hhandled, hstream⟩ := h
  unfold Flow.arrive
  split
  · exact ⟨past, left, hmessages, hhandled, hstream⟩
  · refine ⟨past, left, hmessages, hhandled, ?_⟩
    show f.buffer ++ f.transit.take n ++ f.transit.drop n <:+ _
    rw [List.append_assoc, List.take_append_drop]
    exact hstream

theorem onRead_of_line {t : Bytes} (h : newline ∉ t) (x : Bytes) :
    readUntil (t ++ newline :: x) = some (t.length + 1) ∧
      onRead (t ++ newline :: x) (t.length + 1) = (clean t, x.drop (t.length + 1)) := by
  have hne : ∀ b ∈ t, (b != newline) = true := fun b hb => by
    rw [bne_iff_ne]
    exact fun heq => h (heq ▸ hb)
  constructor
  · simp [readUntil, List.idxOf_append_of_notMem h]
  · simp [onRead, getline, consume, List.takeWhile_append_of_pos hne, List.dropWhile_append_of_pos hne]

/-- A line that is the end of a message is the message or nothing. -/
theorem callback_of_part (hlib : msg.Encodes env parse) {t : Bytes} (ht : t <:+ msg.text env) (now : Int64) :
    ((clean t).bind fun data => callback parse (now, data)) =
      if t = msg.text env then some msg.received else none := by
  rw [Message.clean_suffix hlib ht]
  by_cases hwhole : t = msg.text env
  · rw [if_pos hwhole, hwhole, if_neg hlib.nonempty, Option.bind_some]
    exact hlib.deserialize_text now
  · rw [if_neg hwhole]
    split
    · rfl
    · rw [Option.bind_some, callback, Message.deserialize, hlib.strict t ht hwhole, Option.bind_none]

theorem messages_complete (parse : Bytes → Option Json) (now : Int64) (f : Flow) :
    (f.complete parse now).2.messages = f.messages := by
  unfold complete
  split <;> rfl

/-- A read that completes handles a message that was sent, or none, and leaves the messages that it skips behind. -/
theorem Ordered.complete (h : f.Ordered env) (hlib : ∀ msg ∈ f.messages, msg.Encodes env parse) (now : Int64) :
    (f.complete parse now).2.Ordered env ∧
      ∀ r, (f.complete parse now).1 = some r → ∃ msg ∈ f.messages, msg.received = r := by
  by_cases hm : newline ∈ f.buffer
  · obtain ⟨past, left, hmessages, hhandled, hstream⟩ := h
    obtain ⟨t, x, hbuffer, ht⟩ := List.eq_append_cons_of_mem hm
    rw [hbuffer, List.append_assoc, List.cons_append] at hstream
    have hplain : ∀ u ∈ left.map (·.text env), newline ∉ u := List.forall_mem_map.mpr fun msg hmsg =>
      (hlib msg (hmessages ▸ List.mem_append_right _ hmsg)).newline_notMem
    obtain ⟨before, u, after, hleft, htu, hrest⟩ := exists_text_of_suffix hplain ht hstream
    obtain ⟨skipped, others, rfl, hskipped, hothers⟩ := List.map_eq_append_iff.mp hleft
    obtain ⟨msg, later, rfl, rfl, rfl⟩ := List.map_eq_cons_iff.mp hothers
    have hmsg : msg ∈ f.messages := by
      rw [hmessages]
      exact List.mem_append_right _ (List.mem_append_right _ List.mem_cons_self)
    have hread : f.complete parse now =
        (if t = msg.text env then some msg.received else none,
          { f with
            buffer := x.drop (t.length + 1)
            handled := f.handled ++ (if t = msg.text env then some msg.received else none).toList }) := by
      obtain ⟨hbytes, hline⟩ := onRead_of_line ht x
      unfold Flow.complete
      rw [hbuffer, hbytes]
      simp only [hline, callback_of_part (hlib msg hmsg) htu now]
    rw [hread]
    refine ⟨⟨past ++ skipped ++ [msg], later, ?_, ?_, ?_⟩, fun r hr => ⟨msg, hmsg, ?_⟩⟩
    · simp [hmessages]
    · rw [List.map_append, List.map_append]
      refine (hhandled.trans (List.sublist_append_left _ _)).append ?_
      split
      · exact List.Sublist.refl _
      · exact List.nil_sublist _
    · show x.drop (t.length + 1) ++ f.transit <:+ _
      rw [← hrest]
      exact ⟨x.take (t.length + 1), by rw [← List.append_assoc, List.take_append_drop]⟩
    · simp only at hr
      split at hr
      · exact Option.some.inj hr
      · cases hr
  · have hnone : f.complete parse now = (none, f) := by
      unfold Flow.complete
      simp only [readUntil, hm, if_false]
    rw [hnone]
    refine ⟨h, fun r hr => ?_⟩
    cases hr

end Flow

/-! ### The connections of a network -/

namespace Wire
variable {ι : Type} [DecidableEq ι] {env : Env} {parse : Bytes → Option Json} {links : List (Link ι)} {i : ι}
  {clients : List Port} {peer : Port}

/-- Every message that was sent on a connection is one that the JSON library reads back. -/
def Encoded (env : Env) (parse : Bytes → Option Json) (s : Wire ι) : Prop :=
  ∀ l ∈ s.links, ∀ b, ∀ msg ∈ (l.flows b).messages, msg.Encodes env parse

omit [DecidableEq ι] in
theorem forall_modify {J : Link ι → Prop} {f : Link ι → Link ι} (h : ∀ l ∈ links, J l) (hf : ∀ l, J l → J (f l))
    (k : Nat) : ∀ l ∈ links.modify k f, J l := by
  intro l hl
  obtain ⟨j, hj⟩ := List.mem_iff_getElem?.mp hl
  rw [List.getElem?_modify, Option.map_eq_map, Option.map_eq_some_iff] at hj
  obtain ⟨l', hl', rfl⟩ := hj
  have hJ := h l' (List.mem_of_getElem? hl')
  split
  · exact hf l' hJ
  · exact hJ

/-- What writing a message keeps, a node that acts keeps. -/
theorem act_keeps {J : Link ι → Prop} (keep : ∀ l b msg, J l → J (l.send env b msg)) {s : Wire ι}
    (h : ∀ l ∈ s.links, J l) (i : ι) (clients : List Port) (peer : Port) (x : Node × List Effect) :
    ∀ l ∈ (s.act env i clients peer x).links, J l := by
  have hwrite : ∀ (msg : Message) (links : List (Link ι)) (p : Port), (∀ l ∈ links, J l) →
      ∀ l ∈ write env i msg links p, J l := fun msg links p hl =>
    forall_modify hl (fun l hJ => by split; exacts [keep l p.2 msg hJ, hJ]) p.1
  have hclients : ∀ (msg : Message) (ports : List Port) (links : List (Link ι)), (∀ l ∈ links, J l) →
      ∀ l ∈ ports.foldl (write env i msg) links, J l := by
    intro msg ports
    induction ports with
    | nil => exact fun links hl => hl
    | cons p ports ih => exact fun links hl => ih _ (hwrite msg links p hl)
  have hpost : ∀ (links : List (Link ι)) (e : Effect), (∀ l ∈ links, J l) →
      ∀ l ∈ post env i clients peer links e, J l := by
    intro links e hl
    cases e with
    | broadcast msg => exact hclients msg clients links hl
    | reply msg => exact hwrite msg links peer hl
    | call before c => exact hl
  show ∀ l ∈ x.2.foldl (post env i clients peer) s.links, J l
  generalize s.links = links at h
  induction x.2 generalizing links with
  | nil => exact h
  | cons e effects ih => exact ih _ (hpost links e h)

/-! ### Streams stay in order -/

def Ordered (env : Env) (s : Wire ι) : Prop := ∀ l ∈ s.links, ∀ b, (l.flows b).Ordered env

omit [DecidableEq ι] in
theorem ordered_modify {l : Link ι} (h : ∀ b, (l.flows b).Ordered env) {b : Bool} {f : Flow → Flow}
    (hf : (f (l.flows b)).Ordered env) : ∀ c, ((l.modify b f).flows c).Ordered env := by
  intro c
  show (Function.update l.flows b (f (l.flows b)) c).Ordered env
  by_cases hc : c = b
  · subst hc
    rw [Function.update_self]
    exact hf
  · rw [Function.update_of_ne hc]
    exact h c

omit [DecidableEq ι] in
theorem ordered_send {l : Link ι} (h : ∀ b, (l.flows b).Ordered env) (b : Bool) (msg : Message) :
    ∀ c, ((l.send env b msg).flows c).Ordered env := by
  unfold Link.send
  split
  · exact ordered_modify h ((h b).send msg)
  · exact h

theorem Ordered.act {s : Wire ι} (h : s.Ordered env) (i : ι) (clients : List Port) (peer : Port)
    (x : Node × List Effect) : (s.act env i clients peer x).Ordered env :=
  act_keeps (J := fun l => ∀ b, (l.flows b).Ordered env) (fun _ b msg hl => ordered_send hl b msg) h i clients peer x

omit [DecidableEq ι] in
theorem Ordered.setFlow {s : Wire ι} (h : s.Ordered env) {flow : Flow} (hflow : flow.Ordered env) (p : Port) :
    (s.setFlow p flow).Ordered env :=
  forall_modify (J := fun l => ∀ b, (l.flows b).Ordered env) h
    (fun _ hl => ordered_modify (f := fun _ => flow) hl hflow) p.1

theorem Ordered.step {s : Wire ι} (h : s.Ordered env) (hlib : s.Encoded env parse) (a : WireAction ι) :
    (s.step env parse a).Ordered env := by
  cases a with
  | own i peer clients e => exact h.act i clients peer _
  | connect dialer acceptor =>
    intro l hl
    rcases List.mem_append.mp hl with hl | hl
    · exact h l hl
    · rw [List.mem_singleton.mp hl]
      exact fun b => Flow.ordered_empty
  | arrive p n =>
    refine forall_modify (J := fun l : Link ι => ∀ b, (l.flows b).Ordered env) h (fun l hl => ?_) p.1
    split
    · exact ordered_modify hl ((hl p.2).arrive n)
    · exact hl
  | complete p clients now =>
    rw [Wire.step]
    cases hlink : s.links[p.1]? with
    | none => exact h
    | some l =>
      have hmem := List.mem_of_getElem? hlink
      have hread := ((h l hmem p.2).complete (hlib l hmem p.2) now).1
      show (s.handle env (l.ends !p.2) p clients now ((l.flows p.2).complete parse now)).Ordered env
      cases hx : (l.flows p.2).complete parse now with
      | mk received flow =>
        rw [hx] at hread
        cases received with
        | none => exact h.setFlow hread p
        | some r => exact (h.setFlow hread p).act _ _ _ _
  | close k =>
    exact forall_modify (J := fun l : Link ι => ∀ b, (l.flows b).Ordered env)
      (f := fun l => { l with isOpen := false }) h (fun _ hl => hl) k

/-! ### Connections against envelopes -/

/-- The envelopes hold all that was sent on the connections. -/
def Carries (links : List (Link ι)) (sent : List (Envelope ι)) : Prop :=
  ∀ l ∈ links, ∀ b, ∀ msg ∈ (l.flows b).messages, { sender := l.ends b, receiver := l.ends !b, message := msg } ∈ sent

/-- The node at the other end of a port, where the port is one of `i`. -/
def receiver? (links : List (Link ι)) (i : ι) (p : Port) : Option ι :=
  links[p.1]?.bind fun l => if l.ends p.2 = i then some (l.ends !p.2) else none

theorem receiver?_congr {links' : List (Link ι)} (h : links'.map (·.ends) = links.map (·.ends)) (i : ι) (p : Port) :
    receiver? links' i p = receiver? links i p := by
  have hends := congrArg (·[p.1]?) h
  simp only [List.getElem?_map] at hends
  unfold receiver?
  cases hl : links[p.1]? with
  | none =>
    rw [hl, Option.map_none, Option.map_eq_none_iff] at hends
    rw [hends]
  | some l =>
    rw [hl, Option.map_some, Option.map_eq_some_iff] at hends
    obtain ⟨l', hl', heq⟩ := hends
    rw [hl', Option.bind_some, Option.bind_some, heq]

omit [DecidableEq ι] in
theorem ends_modify {f : Link ι → Link ι} (hf : ∀ l, (f l).ends = l.ends) (links : List (Link ι)) (k : Nat) :
    (links.modify k f).map (·.ends) = links.map (·.ends) := by
  refine List.ext_getElem? fun j => ?_
  rw [List.getElem?_map, List.getElem?_map, List.getElem?_modify]
  cases links[j]? with
  | none => rfl
  | some l =>
    by_cases hk : k = j
    · simp [hk, hf]
    · simp [hk]

omit [DecidableEq ι] in
theorem ends_send (l : Link ι) (b : Bool) (msg : Message) : (l.send env b msg).ends = l.ends := by
  unfold Link.send
  split <;> rfl

theorem ends_write (env : Env) (i : ι) (msg : Message) (links : List (Link ι)) (p : Port) :
    (write env i msg links p).map (·.ends) = links.map (·.ends) :=
  ends_modify (fun l => by split; exacts [ends_send l p.2 msg, rfl]) links p.1

omit [DecidableEq ι] in
theorem mem_messages_send {l : Link ι} {b c : Bool} {msg msg' : Message}
    (h : msg' ∈ ((l.send env b msg).flows c).messages) : msg' ∈ (l.flows c).messages ∨ c = b ∧ msg' = msg := by
  unfold Link.send at h
  split at h
  · replace h : msg' ∈ (Function.update l.flows b ((l.flows b).send env msg) c).messages := h
    by_cases hc : c = b
    · subst hc
      rw [Function.update_self] at h
      rcases List.mem_append.mp h with h | h
      · exact Or.inl h
      · exact Or.inr ⟨rfl, List.mem_singleton.mp h⟩
    · rw [Function.update_of_ne hc] at h
      exact Or.inl h
  · exact Or.inl h

/-- A node writes to a port what an envelope to the other end holds. -/
theorem Carries.write {sent : List (Envelope ι)} {msg : Message} (h : Carries links sent) (p : Port)
    (hsent : ∀ j, receiver? links i p = some j → { sender := i, receiver := j, message := msg } ∈ sent) :
    Carries (write env i msg links p) sent := by
  intro l hl b msg' hmsg'
  obtain ⟨k, hk⟩ := List.mem_iff_getElem?.mp hl
  rw [Wire.write, List.getElem?_modify, Option.map_eq_map, Option.map_eq_some_iff] at hk
  obtain ⟨l', hl', rfl⟩ := hk
  have hmem := List.mem_of_getElem? hl'
  by_cases hp : p.1 = k
  · rw [if_pos hp] at hmsg' ⊢
    by_cases hi : l'.ends p.2 = i
    · rw [if_pos hi] at hmsg' ⊢
      rw [ends_send]
      rcases mem_messages_send hmsg' with hold | ⟨rfl, rfl⟩
      · exact h l' hmem b msg' hold
      · rw [hi]
        exact hsent _ (by rw [receiver?, hp, hl', Option.bind_some, if_pos hi])
    · rw [if_neg hi] at hmsg' ⊢
      exact h l' hmem b msg' hmsg'
  · rw [if_neg hp] at hmsg' ⊢
    exact h l' hmem b msg' hmsg'

omit [DecidableEq ι] in
theorem Carries.mono {sent sent' : List (Envelope ι)} (h : Carries links sent) (hsub : sent ⊆ sent') :
    Carries links sent' := fun l hl b msg hmsg => hsub (h l hl b msg hmsg)

/-- The receivers of a broadcast on the level of envelopes. -/
def receivers (links : List (Link ι)) (i : ι) (clients : List Port) : List ι := clients.filterMap (receiver? links i)

theorem Carries.broadcast {sent : List (Envelope ι)} {msg : Message} (h : Carries links sent) (clients : List Port)
    (hsent : ∀ j ∈ receivers links i clients, { sender := i, receiver := j, message := msg } ∈ sent) :
    Carries (clients.foldl (Wire.write env i msg) links) sent ∧
      (clients.foldl (Wire.write env i msg) links).map (·.ends) = links.map (·.ends) := by
  induction clients generalizing links with
  | nil => exact ⟨h, rfl⟩
  | cons p clients ih =>
    have hends := ends_write env i msg links p
    have hfirst : Carries (Wire.write env i msg links p) sent := h.write p fun j hj =>
      hsent j (List.mem_filterMap.mpr ⟨p, List.mem_cons_self, hj⟩)
    obtain ⟨hrest, hends'⟩ := ih hfirst fun j hj => by
      obtain ⟨q, hq, hjq⟩ := List.mem_filterMap.mp hj
      rw [receiver?_congr hends] at hjq
      exact hsent j (List.mem_filterMap.mpr ⟨q, List.mem_cons_of_mem _ hq, hjq⟩)
    exact ⟨hrest, hends'.trans hends⟩

/-- The envelopes of an effect. -/
theorem Carries.post {sent : List (Envelope ι)} (h : Carries links sent) (env : Env) (i : ι) (clients : List Port)
    (peer : Port) (e : Effect) :
    Carries (Wire.post env i clients peer links e)
        (sent ++ Network.post (receivers links i clients) i ((receiver? links i peer).getD i) e) ∧
      (Wire.post env i clients peer links e).map (·.ends) = links.map (·.ends) := by
  have hmore := h.mono (List.subset_append_left sent
    (Network.post (receivers links i clients) i ((receiver? links i peer).getD i) e))
  cases e with
  | broadcast msg =>
    refine hmore.broadcast clients fun j hj => List.mem_append_right _ ?_
    exact List.mem_map_of_mem hj
  | reply msg =>
    refine ⟨hmore.write peer fun j hj => List.mem_append_right _ ?_, ends_write env i msg links peer⟩
    rw [Network.post, hj, Option.getD_some]
    exact List.mem_singleton_self _
  | call before c => exact ⟨hmore, rfl⟩

theorem Carries.effects {sent : List (Envelope ι)} (h : Carries links sent) (env : Env) (i : ι) (clients : List Port)
    (peer : Port) (effects : List Effect) :
    Carries (effects.foldl (Wire.post env i clients peer) links)
      (sent ++ effects.flatMap (Network.post (receivers links i clients) i ((receiver? links i peer).getD i))) := by
  induction effects generalizing links sent with
  | nil => simpa using h
  | cons e effects ih =>
    obtain ⟨hfirst, hends⟩ := h.post env i clients peer e
    have hreceivers : receivers (Wire.post env i clients peer links e) i clients = receivers links i clients :=
      List.filterMap_congr fun p _ => receiver?_congr hends i p
    have hrest := ih hfirst
    rw [hreceivers, receiver?_congr hends] at hrest
    rw [List.foldl_cons, List.flatMap_cons, ← List.append_assoc]
    exact hrest

omit [DecidableEq ι] in
/-- A change that sends nothing. -/
theorem Carries.modify {sent : List (Envelope ι)} (h : Carries links sent) {f : Link ι → Link ι} {k : Nat}
    (hends : ∀ l, (f l).ends = l.ends)
    (hmessages : ∀ l, links[k]? = some l → ∀ b, ((f l).flows b).messages = (l.flows b).messages) :
    Carries (links.modify k f) sent := by
  intro l hl b msg hmsg
  obtain ⟨j, hj⟩ := List.mem_iff_getElem?.mp hl
  rw [List.getElem?_modify, Option.map_eq_map, Option.map_eq_some_iff] at hj
  obtain ⟨l', hl', rfl⟩ := hj
  by_cases hk : k = j
  · subst hk
    rw [if_pos rfl] at hmsg ⊢
    rw [hmessages l' hl'] at hmsg
    rw [hends]
    exact h l' (List.mem_of_getElem? hl') b msg hmsg
  · rw [if_neg hk] at hmsg ⊢
    exact h l' (List.mem_of_getElem? hl') b msg hmsg

omit [DecidableEq ι] in
theorem messages_modify {l : Link ι} {b : Bool} {f : Flow → Flow} (h : (f (l.flows b)).messages = (l.flows b).messages)
    (c : Bool) : ((l.modify b f).flows c).messages = (l.flows c).messages := by
  show (Function.update l.flows b (f (l.flows b)) c).messages = _
  by_cases hc : c = b
  · subst hc
    rw [Function.update_self]
    exact h
  · rw [Function.update_of_ne hc]

/-! ### A step over TCP is a step of the network, or none -/

/-- The nodes are the same, and what was sent on a connection stands in an envelope. -/
structure Simulates (s : Wire ι) (t : Network ι) : Prop where
  nodes : t.nodes = s.nodes
  carries : Carries s.links t.sent

variable {s : Wire ι} {t : Network ι}

theorem Simulates.act (env : Env) (h : s.Simulates t) (i : ι) (clients : List Port) (peer : Port) (x : Node × List Effect) :
    (s.act env i clients peer x).Simulates
      { nodes := Function.update t.nodes i x.1
        sent := t.sent ++
          x.2.flatMap (Network.post (receivers s.links i clients) i ((receiver? s.links i peer).getD i)) } :=
  ⟨congrArg (Function.update · i x.1) h.nodes, h.carries.effects env i clients peer x.2⟩

omit [DecidableEq ι] in
theorem Simulates.setFlow (h : s.Simulates t) {p : Port} {l : Link ι} (hl : s.links[p.1]? = some l) {flow : Flow}
    (hflow : flow.messages = (l.flows p.2).messages) : (s.setFlow p flow).Simulates t where
  nodes := h.nodes
  carries := h.carries.modify (fun _ => rfl) fun l' hl' b => by
    cases hl.symm.trans hl'
    exact messages_modify hflow b

omit [DecidableEq ι] in
theorem ends_setFlow (s : Wire ι) (p : Port) (flow : Flow) : (s.setFlow p flow).links.map (·.ends) = s.links.map (·.ends) :=
  ends_modify (f := fun l => l.modify p.2 fun _ => flow) (fun _ => rfl) s.links p.1

/-- A message that a read hands to the handler arrives in its envelope. -/
theorem Simulates.handle (env : Env) (h : s.Simulates t) {p : Port} {l : Link ι} (hl : s.links[p.1]? = some l) {msg : Message}
    (hmsg : msg ∈ (l.flows p.2).messages) {flow : Flow} (hflow : flow.messages = (l.flows p.2).messages)
    (clients : List Port) (now : Int64) :
    ∃ k clients', (s.handle env (l.ends !p.2) p clients now (some msg.received, flow)).Simulates
      (t.step env (.deliver k clients' now)) := by
  obtain ⟨k, hk⟩ := List.mem_iff_getElem?.mp (h.carries l (List.mem_of_getElem? hl) p.2 msg hmsg)
  have hpeer : receiver? (s.setFlow p flow).links (l.ends !p.2) (p.1, !p.2) = some (l.ends p.2) := by
    rw [receiver?_congr (ends_setFlow s p flow), receiver?, hl, Option.bind_some, if_pos rfl, Bool.not_not]
  refine ⟨k, receivers (s.setFlow p flow).links (l.ends !p.2) clients, ?_⟩
  have hact := (h.setFlow hl hflow).act env (l.ends !p.2) clients (p.1, !p.2)
    ((s.nodes (l.ends !p.2)).handleReceived env now msg.received)
  rw [hpeer, Option.getD_some] at hact
  rw [Network.step, Network.event?, hk, Option.map_some]
  simp only [Node.react, ← Node.handleReceived_received, h.nodes]
  rw [h.nodes] at hact
  exact hact

/-- Every step over TCP is matched. -/
theorem simulates_step (hord : s.Ordered env) (h : s.Simulates t) (hlib : s.Encoded env parse) (a : WireAction ι) :
    ∃ actions : List (Action ι), actions.filterMap Action.own? = a.own?.toList ∧
      (s.step env parse a).Simulates (actions.foldl (Network.step env) t) := by
  cases a with
  | own i peer clients e =>
    refine ⟨[.own i ((receiver? s.links i peer).getD i) (receivers s.links i clients) e], rfl, ?_⟩
    have hact := h.act env i clients peer ((s.nodes i).ownStep env e)
    rw [← h.nodes] at hact
    rw [List.foldl_cons, List.foldl_nil, Wire.step, ← h.nodes]
    exact hact
  | connect dialer acceptor =>
    refine ⟨[], rfl, h.nodes, fun l hl b msg hmsg => ?_⟩
    rcases List.mem_append.mp hl with hl | hl
    · exact h.carries l hl b msg hmsg
    · rw [List.mem_singleton.mp hl] at hmsg
      exact absurd hmsg List.not_mem_nil
  | arrive p n =>
    refine ⟨[], rfl, h.nodes, h.carries.modify (fun l => by split <;> rfl) fun l _ b => ?_⟩
    split
    · refine messages_modify ?_ b
      unfold Flow.arrive
      split <;> rfl
    · rfl
  | complete p clients now =>
    rw [Wire.step]
    cases hl : s.links[p.1]? with
    | none => exact ⟨[], rfl, h⟩
    | some l =>
      have hmem := List.mem_of_getElem? hl
      have hread := ((hord l hmem p.2).complete (hlib l hmem p.2) now).2
      have hflow := Flow.messages_complete parse now (l.flows p.2)
      show ∃ actions : List (Action ι), actions.filterMap Action.own? = [] ∧
        (s.handle env (l.ends !p.2) p clients now ((l.flows p.2).complete parse now)).Simulates _
      cases hx : (l.flows p.2).complete parse now with
      | mk received flow =>
        rw [hx] at hread hflow
        cases received with
        | none => exact ⟨[], rfl, h.setFlow hl hflow⟩
        | some r =>
          obtain ⟨msg, hmsg, rfl⟩ := hread r rfl
          obtain ⟨k, clients', hhandle⟩ := h.handle env hl hmsg hflow clients now
          exact ⟨[.deliver k clients' now], rfl, hhandle⟩
  | close k =>
    exact ⟨[], rfl, h.nodes,
      h.carries.modify (f := fun l => { l with isOpen := false }) (fun _ => rfl) fun _ _ _ => rfl⟩

/-! ### Runs -/

variable {nodeId : ι → String} {started : ι → Int64} {actions : List (WireAction ι)}

omit [DecidableEq ι] in
theorem ordered_start : (start nodeId started).Ordered env := fun _ hl => absurd hl List.not_mem_nil

/-- However the network cuts the bytes up and however the threads of the nodes take turns, what the handlers of a
    connection get was sent on it, in the order of the sending: no message is made up of pieces, repeated or moved. -/
theorem handled_in_order (env : Env) (parse : Bytes → Option Json) (nodeId : ι → String) (started : ι → Int64)
    (actions : List (WireAction ι))
    (hlib : ∀ s ∈ Transition.states (step env parse) (start nodeId started) actions, s.Encoded env parse) :
    ∀ s ∈ Transition.states (step env parse) (start nodeId started) actions, ∀ l ∈ s.links, ∀ b,
      (l.flows b).handled.Sublist ((l.flows b).messages.map (·.received)) := by
  intro s hs l hl b
  have hord : s.Ordered env := Transition.invariant_of_steps (C := fun s _ => s.Encoded env parse)
    (fun s a hc h => h.step hc a) ordered_start (fun x hx => hlib x.1 (Transition.fst_mem_states _ x hx)) s hs
  exact (hord l hl b).handled_sublist

/-- Every run of nodes over TCP is a run of the network that exchanges whole messages, with the same acts of the nodes
    on their own account: the nodes end in the same states. -/
theorem wire_refines (env : Env) (parse : Bytes → Option Json) (nodeId : ι → String) (started : ι → Int64)
    (actions : List (WireAction ι))
    (hlib : ∀ s ∈ Transition.states (step env parse) (start nodeId started) actions, s.Encoded env parse) :
    ∃ matched : List (Action ι), matched.filterMap Action.own? = actions.filterMap WireAction.own? ∧
      (matched.foldl (Network.step env) (Network.start nodeId started)).nodes =
        (actions.foldl (step env parse) (start nodeId started)).nodes := by
  let R (s : Wire ι) (t : Network ι) : Prop := s.Ordered env ∧ s.Simulates t
  have hmatch : ∀ (s : Wire ι) (a : WireAction ι) (t : Network ι), s.Encoded env parse → R s t →
      ∃ bs : List (Action ι), bs.filterMap Action.own? = a.own?.toList ∧
        R (s.step env parse a) (bs.foldl (Network.step env) t) := by
    intro s a t hc ⟨hord, hsim⟩
    obtain ⟨bs, hown, hstep⟩ := simulates_step hord hsim hc a
    exact ⟨bs, hown, hord.step hc a, hstep⟩
  have hstart : R (start nodeId started) (Network.start nodeId started) :=
    ⟨ordered_start, rfl, fun _ hl => absurd hl List.not_mem_nil⟩
  obtain ⟨matched, hown, -, hrun⟩ := Transition.exists_simulation (C := fun s _ => s.Encoded env parse) hmatch hstart
    fun x hx => hlib x.1 (Transition.fst_mem_states _ x hx)
  exact ⟨matched, hown, hrun.nodes⟩

end Wire

end

/-! ### A request over TCP -/

namespace Wire

attribute [local instance] Arithmetic.binary64

/-- What a node on a fresh database asks for when it synchronises. -/
def syncRequest : Message where
  type := .getBlocks
  senderId := "alpha"
  timestamp := 1700000000
  payload := .obj [("from_height", .int 1)]

def syncText : String :=
  "\x7b\"payload\":\x7b\"from_height\":1\x7d,\"sender_id\":\"alpha\",\"timestamp\":1700000000,\"type\":5\x7d"

/-- The JSON library on the request and its text. -/
def syncEnv : Env := { headerEnv with dump := fun _ => syncText }

def syncParse (data : Bytes) : Option Json := if data = utf8 syncText then some syncRequest.toJson else none

theorem encodes_syncRequest : syncRequest.Encodes syncEnv syncParse where
  nonempty := by decide +kernel
  parse_text := if_pos rfl
  printable := by decide +kernel
  strict u hu hne := by
    rw [syncParse, if_neg]
    rintro rfl
    exact hne rfl

/-- The request comes in by two pieces. -/
def syncActions : List (WireAction Bool) :=
  [.connect false true, .own false (0, false) [] (.sync 1700000000), .arrive (0, false) 20, .arrive (0, false) 100,
    .complete (0, false) [] 1700000001]

def syncNames (i : Bool) : String := if i then "beta" else "alpha"

def isSyncRequest (msg : Message) : Bool :=
  decide (msg.type = .getBlocks) && msg.senderId == "alpha" && msg.timestamp == 1700000000 &&
    match msg.payload with
    | .obj [(key, .int n)] => key == "from_height" && n == 1
    | _ => false

theorem eq_of_isSyncRequest {msg : Message} (h : isSyncRequest msg = true) : msg = syncRequest := by
  obtain ⟨type, senderId, timestamp, payload⟩ := msg
  unfold isSyncRequest at h
  split at h
  · rename_i key n heq
    simp only [Bool.and_eq_true, decide_eq_true_eq, beq_iff_eq] at h heq
    obtain ⟨⟨⟨rfl, rfl⟩, rfl⟩, rfl, rfl⟩ := h
    rw [heq]
    rfl
  · simp at h

theorem encoded_syncActions :
    ∀ s ∈ Transition.states (step syncEnv syncParse) (start syncNames fun _ => 0) syncActions,
      s.Encoded syncEnv syncParse := by
  have hsent : ∀ s ∈ Transition.states (step syncEnv syncParse) (start syncNames fun _ => 0) syncActions,
      ∀ l ∈ s.links, ∀ b, ∀ msg ∈ (l.flows b).messages, isSyncRequest msg = true := by decide +kernel
  intro s hs l hl b msg hmsg
  rw [eq_of_isSyncRequest (hsent s hs l hl b msg hmsg)]
  exact encodes_syncRequest

theorem handled_in_order_syncActions :
    (syncActions.foldl (step syncEnv syncParse) (start syncNames fun _ => 0)).links.map
        (fun l => (l.flows false).handled.length) = [1] ∧
      ∀ l ∈ (syncActions.foldl (step syncEnv syncParse) (start syncNames fun _ => 0)).links, ∀ b,
        (l.flows b).handled.Sublist ((l.flows b).messages.map (·.received)) :=
  ⟨by decide +kernel, handled_in_order syncEnv syncParse syncNames (fun _ => 0) syncActions encoded_syncActions _
    (Transition.foldl_mem_states _ _ _)⟩

theorem wire_refines_syncActions :
    ∃ matched : List (Action Bool), matched.filterMap Action.own? = [(false, .sync 1700000000)] ∧
      (matched.foldl (Network.step syncEnv) (Network.start syncNames fun _ => 0)).nodes =
        (syncActions.foldl (step syncEnv syncParse) (start syncNames fun _ => 0)).nodes :=
  wire_refines syncEnv syncParse syncNames (fun _ => 0) syncActions encoded_syncActions

end Wire

end NexusLedger
