import NexusLedger.Theorems.SharedLedger
import NexusLedger.Theorems.Tip
import NexusLedger.Theorems.Finality
import NexusLedger.Theorems.Branches

/-! NEW_BLOCK comes back for ever. A node takes the block of the tip's place again whenever it arrives, and sends it to
    all its connections again, so what is on its way never gets less and no tip is the last one. -/

namespace NexusLedger
open Blockchain

section
set_option linter.unusedSectionVars false
variable [Arithmetic]

/-! ### Blocks for one place -/

namespace Blockchain
variable {env : Env} {c d : Blockchain} {a b : Block}

/-- NEW_BLOCK with this block is taken: it goes on top of the tip, or in its place. -/
def Takes (c : Blockchain) (b : Block) : Prop := c.Successor b ∨ (c.Competes b ∧ c.FreshBelow b)

namespace Takes

theorem withTransactions (h : c.Takes b) (txs : List Transaction) : c.Takes { b with transactions := txs } :=
  h.imp (·.withTransactions txs) fun ⟨hcomp, hfresh⟩ =>
    ⟨⟨hcomp.height, hcomp.prevHash⟩, hfresh.valued, hfresh.fresh⟩

theorem valued (h : c.Takes b) : b.difficulty.isNaN = false :=
  h.elim (fun hnext => Double.isNaN_of_isFinite hnext.finite) fun hcomp => hcomp.2.valued

theorem congr (h : c.Takes b) (hrows : d.rows = c.rows) : d.Takes b := by
  have hheight := getHeight_congr hrows
  have htip : d.tip = c.tip := by
    simp only [tip, LedgerDB.rowAt, hheight, hrows]
  have hbelow : d.below = c.below := by
    simp only [below, hheight, hrows]
  rcases h with ⟨hfollows, hfinite, hfresh⟩ | ⟨⟨hb, hprev⟩, hvalued, hfresh⟩
  · exact Or.inl ⟨htip ▸ hfollows, hfinite, hrows ▸ hfresh⟩
  · exact Or.inr ⟨⟨hb.trans hheight.symm, htip ▸ hprev⟩, hvalued, hbelow ▸ hfresh⟩

/-- Blocks for one place name the same stored hash as their predecessor. -/
theorem prevHash_eq (ha : c.Takes a) (hb : c.Takes b) (hheight : a.height = b.height) :
    a.prevHash = b.prevHash ∧ cText a.prevHash = a.prevHash := by
  rcases ha with ha | ⟨ha, -⟩ <;> rcases hb with hb | ⟨hb, -⟩
  · obtain ⟨t, ht, -, hprev⟩ := ha.follows
    obtain ⟨t', ht', -, hprev'⟩ := hb.follows
    obtain rfl := Option.some_inj.mp (ht.symm.trans ht')
    exact ⟨hprev.trans hprev'.symm, hprev ▸ t.hash.property⟩
  · have hnext := ha.height
    rw [hheight, hb.height] at hnext
    omega
  · have hnext := hb.height
    rw [← hheight, ha.height] at hnext
    omega
  · obtain ⟨t, ht, hprev⟩ := ha.prevHash
    obtain ⟨t', ht', hprev'⟩ := hb.prevHash
    obtain rfl := Option.some_inj.mp (ht.symm.trans ht')
    exact ⟨hprev.symm.trans hprev', hprev ▸ t.prevHash.property⟩

/-- Once one block has the place, each other one for it competes with that one. -/
theorem exec (env : Env) {k : Call} (hk : c.Fits k) (ha : c.Takes k.block) (hb : c.Takes b)
    (hheight : k.block.height = b.height) : (c.exec env k).2.Takes b := by
  have htip : (c.exec env k).2.tip = some k.block.row := tip_of_fits hk
  have htop : k.block.height = (c.exec env k).2.getHeight := (tip_eq_some_iff.mp htip).2
  obtain ⟨hprev, htext⟩ := ha.prevHash_eq hb hheight
  refine Or.inr ⟨⟨hheight ▸ htop, k.block.row, htip, htext.trans hprev⟩, hb.valued, fun hmem => ?_⟩
  obtain ⟨r, hr, hhash⟩ := List.mem_map.mp hmem
  obtain ⟨hr, hne⟩ := mem_below.mp hr
  rcases mem_rows_exec hr with hold | ⟨-, rfl⟩
  · rcases hb with hb | ⟨hb, hfresh⟩
    · exact hb.fresh (List.mem_map.mpr ⟨r, hold, hhash⟩)
    · refine hfresh.fresh (List.mem_map.mpr ⟨r, mem_below.mpr ⟨hold, ?_⟩, hhash⟩)
      rwa [← hb.height, ← hheight, htop]
  · exact hne htop

end Takes
end Blockchain

/-- The header that a NEW_BLOCK message brings. -/
def Message.brought (env : Env) (msg : Message) : Option Block :=
  if msg.type = .newBlock then (Block.fromJson env msg.payload).toOption.map ({ · with transactions := [] }) else none

/-- Nothing of this leaves the node, and no block is stored. -/
def OwnEvent.Inward : OwnEvent → Prop
  | .http _ _ => True
  | .clean => True
  | .template _ => True
  | .abandon => True
  | .submit _ => False
  | .sync _ => False

instance : DecidablePred OwnEvent.Inward
  | .http _ _ => .isTrue trivial
  | .clean => .isTrue trivial
  | .template _ => .isTrue trivial
  | .abandon => .isTrue trivial
  | .submit _ => .isFalse id
  | .sync _ => .isFalse id

namespace Node
variable {env : Env} {n : Node} {msg : Message} {b : Block}

theorem brought_newBlockMessage (env : Env) (n : Node) (now : Int64) (hfinite : b.difficulty.isFinite = true) :
    (n.newBlockMessage now b).brought env = some { b with transactions := [] } := by
  simp only [Message.brought, newBlockMessage, Block.fromJson_headerMembers env hfinite, if_true]
  rfl

theorem isFinite_of_brought (h : msg.brought env = some b) : b.difficulty.isFinite = true := by
  unfold Message.brought at h
  split at h
  · cases hread : Block.fromJson env msg.payload with
    | error err =>
      rw [hread] at h
      cases h
    | ok b' =>
      rw [hread] at h
      cases h
      show b'.difficulty.isFinite = true
      exact Block.isFinite_of_fromJson hread
  · cases h

/-- The block is taken and goes out to every connection. -/
theorem react_of_takes (now : Int64) (hb : msg.brought env = some b) (h : n.blockchain.Takes b) : ∃ k : Call,
    { k.block with transactions := [] } = b ∧ n.blockchain.Fits k ∧
      (n.step env (.message now msg)).blockchain = (n.blockchain.exec env k).2 ∧
      (n.react env (.message now msg)).2 = [.call n.blockchain k, .broadcast (n.newBlockMessage now k.block)] := by
  unfold Message.brought at hb
  split at hb
  case isFalse => cases hb
  case isTrue htype =>
    rcases hread : Block.fromJson env msg.payload with _ | b'
    · rw [hread] at hb
      cases hb
    · rw [hread] at hb
      obtain rfl : { b' with transactions := [] } = b := Option.some_inj.mp hb
      have h' : n.blockchain.Takes b' := h.withTransactions b'.transactions
      rcases h' with hnext | ⟨hcomp, hfresh⟩
      · refine ⟨.addBlock b', rfl, hnext.appends, ?_⟩
        have htaken : (n.blockchain.addBlock b').1 = true := addBlock_accepts_iff.mpr hnext.appends
        simp only [step, react, handleMessage, htype, handleNewBlock_of_extends hread hnext.extends, htaken]
        exact ⟨rfl, rfl⟩
      · refine ⟨.replaceLastBlock b' now, rfl, ⟨hcomp, hfresh⟩, ?_⟩
        have htaken : (n.blockchain.replaceLastBlock env b' now).1 = true := (replaceLastBlock_of_fresh hcomp hfresh).1
        simp only [step, react, handleMessage, htype, handleNewBlock_of_competes hread hcomp, htaken]
        exact ⟨rfl, rfl⟩

theorem react_inward (env : Env) (n : Node) {e : OwnEvent} (h : e.Inward) :
    (n.react env (.own e)).2 = [] ∧ (n.step env (.own e)).blockchain.rows = n.blockchain.rows := by
  have hnone : (n.react env (.own e)).2 = [] := by
    cases e with
    | http now body =>
      simp only [react, ownStep, handleHttp]
      split <;> rfl
    | clean => rfl
    | template now => rfl
    | abandon => rfl
    | submit now => cases h
    | sync now => cases h
  refine ⟨hnone, ?_⟩
  have htraced := (react_calls env n (.own e)).1
  rw [hnone] at htraced
  cases htraced with
  | done hrows => exact hrows

end Node

/-! ### Messages on their way -/

/-- A network with the places of the messages that have still to arrive. -/
structure Transit (ι : Type) where
  network : Network ι
  pending : List ℕ

namespace Transit
variable {ι : Type}

/-- Pending messages arrive, in any order, at nodes that have a connection; beside this the nodes do what stays
    inside. -/
def Proceeds (t : Transit ι) : Action ι → Prop
  | .own _ _ _ e => e.Inward
  | .deliver k clients _ => k ∈ t.pending ∧ clients ≠ []

instance (t : Transit ι) : DecidablePred t.Proceeds
  | .own _ _ _ e => inferInstanceAs (Decidable e.Inward)
  | .deliver k clients _ => inferInstanceAs (Decidable (k ∈ t.pending ∧ clients ≠ []))

/-- What is pending brings blocks for one place, and each node would take each of them. -/
structure Echoes (env : Env) (K : Block → Prop) (t : Transit ι) : Prop where
  header : ∀ b, K b → b.transactions = []
  level : ∀ a b, K a → K b → a.height = b.height
  takes : ∀ i b, K b → (t.network.nodes i).blockchain.Takes b
  pending : ∀ k ∈ t.pending, ∃ x b, t.network.sent[k]? = some x ∧ x.message.brought env = some b ∧ K b

section Steps
variable [DecidableEq ι] {env : Env} {t : Transit ι} {K : Block → Prop} {k : ℕ} {x : Envelope ι} {b : Block}

/-- A message that arrives is pending no more; what is sent then is. -/
def step (env : Env) (t : Transit ι) (a : Action ι) : Transit ι :=
  let network := t.network.step env a
  let left := match a with
    | .own _ _ _ _ => t.pending
    | .deliver k _ _ => t.pending.erase k
  { network, pending := left ++ List.range' t.network.sent.length (network.sent.length - t.network.sent.length) }

/-- The nodes of a run in transit are those of the same run of the network. -/
theorem network_foldl (env : Env) (t : Transit ι) (actions : List (Action ι)) :
    (actions.foldl (step env) t).network = actions.foldl (Network.step env) t.network := by
  induction actions generalizing t with
  | nil => rfl
  | cons a actions ih => exact ih (t.step env a)

theorem step_inward (env : Env) (t : Transit ι) (i peer : ι) (clients : List ι) {e : OwnEvent} (h : e.Inward) :
    (t.step env (.own i peer clients e)).pending = t.pending ∧
      (t.step env (.own i peer clients e)).network.sent = t.network.sent ∧
      ∀ j, ((t.step env (.own i peer clients e)).network.nodes j).blockchain.rows =
        (t.network.nodes j).blockchain.rows := by
  obtain ⟨hnone, hrows⟩ := Node.react_inward env (t.network.nodes i) h
  have hstep : t.network.step env (.own i peer clients e) = _ := Network.step_of_event rfl
  rw [hnone, List.flatMap_nil, List.append_nil] at hstep
  refine ⟨?_, by rw [step, hstep], fun j => ?_⟩
  · simp only [step, hstep, Nat.sub_self, List.range'_zero, List.append_nil]
  · simp only [step, hstep]
    by_cases hj : j = i
    · subst hj
      rw [Function.update_self]
      exact hrows
    · rw [Function.update_of_ne hj]

/-- A pending block that arrives is the tip of its receiver, and goes to every connection of the receiver. -/
theorem Echoes.arrive (h : t.Echoes env K) (hx : t.network.sent[k]? = some x) (hb : x.message.brought env = some b)
    (hK : K b) (clients : List ι) (now : Int64) : ∃ call : Call,
    { call.block with transactions := [] } = b ∧ (t.network.nodes x.receiver).blockchain.Fits call ∧
      (∀ i, ((t.network.step env (.deliver k clients now)).nodes i).blockchain =
        if i = x.receiver then ((t.network.nodes x.receiver).blockchain.exec env call).2
        else (t.network.nodes i).blockchain) ∧
      (t.network.step env (.deliver k clients now)).sent = t.network.sent ++ clients.map fun j =>
        { sender := x.receiver
          receiver := j
          message := (t.network.nodes x.receiver).newBlockMessage now call.block } := by
  obtain ⟨call, hcall, hfits, hchain, heffects⟩ :=
    Node.react_of_takes now hb (h.takes x.receiver b hK)
  have hev : t.network.event? (.deliver k clients now) = some (x.receiver, x.sender, .message now x.message) := by
    rw [Network.event?, hx]
    rfl
  rw [Network.step_of_event hev, heffects]
  refine ⟨call, hcall, hfits, fun i => ?_, ?_⟩
  · by_cases hi : i = x.receiver
    · subst hi
      simp only [Function.update_self, if_true]
      exact hchain
    · simp only [Function.update_of_ne hi, hi, if_false]
  · simp [Network.post, Network.clients]

omit [DecidableEq ι] in
theorem lt_of_sent (hx : t.network.sent[k]? = some x) : k < t.network.sent.length :=
  (List.getElem?_eq_some_iff.mp hx).1

/-- What a step of such a run leaves: the echoes, and of no block fewer. -/
theorem Echoes.step (h : t.Echoes env K) {a : Action ι} (ha : t.Proceeds a) : (t.step env a).Echoes env K := by
  cases a with
  | own i peer clients e =>
    obtain ⟨hpending, hsent, hrows⟩ := step_inward env t i peer clients ha
    refine ⟨h.header, h.level, fun j b hK => (h.takes j b hK).congr (hrows j), ?_⟩
    rw [hpending, hsent]
    exact h.pending
  | deliver k clients now =>
    obtain ⟨x, b, hx, hb, hK⟩ := h.pending k ha.1
    obtain ⟨call, hcall, hfits, hchains, hsent⟩ := h.arrive hx hb hK clients now
    refine ⟨h.header, h.level, fun i b' hK' => ?_, fun m hm => ?_⟩
    · show (((t.network.step env (.deliver k clients now)).nodes i).blockchain).Takes b'
      rw [hchains i]
      split
      case isTrue hi =>
        subst hcall
        have htakes : (t.network.nodes x.receiver).blockchain.Takes call.block :=
          (h.takes x.receiver _ hK).withTransactions call.block.transactions
        have hheight : call.block.height = b'.height := h.level { call.block with transactions := [] } b' hK hK'
        exact htakes.exec env hfits (h.takes x.receiver b' hK') hheight
      case isFalse => exact h.takes i b' hK'
    · show ∃ x b, (t.network.step env (.deliver k clients now)).sent[m]? = some x ∧ x.message.brought env = some b ∧ K b
      rw [hsent]
      rcases List.mem_append.mp hm with hm | hm
      · obtain ⟨y, c, hy, hc, hKc⟩ := h.pending m (List.mem_of_mem_erase hm)
        exact ⟨y, c, by rw [List.getElem?_append_left (lt_of_sent hy), hy], hc, hKc⟩
      · obtain ⟨hle, hlt⟩ := List.mem_range'_1.mp hm
        rw [hsent, List.length_append, List.length_map, Nat.add_sub_cancel_left] at hlt
        have hj : m - t.network.sent.length < clients.length := by omega
        refine ⟨{ sender := x.receiver
                  receiver := clients[m - t.network.sent.length]
                  message := (t.network.nodes x.receiver).newBlockMessage now call.block }, b, ?_, ?_, hK⟩
        · rw [List.getElem?_append_right hle, List.getElem?_map, List.getElem?_eq_getElem hj, Option.map_some]
        · have hfinite : call.block.difficulty.isFinite = true := by
            have hbrought := Node.isFinite_of_brought hb
            rwa [← hcall] at hbrought
          rw [Node.brought_newBlockMessage env _ now hfinite, hcall]

theorem Echoes.states (h : t.Echoes env K) {actions : List (Action ι)}
    (hrun : ∀ x ∈ Transition.steps (Transit.step env) t actions, x.1.Proceeds x.2) :
    ∀ u ∈ Transition.states (Transit.step env) t actions, u.Echoes env K :=
  Transition.invariant_of_steps (I := Echoes env K) (C := Proceeds) (fun _ _ ha hu => hu.step ha) h hrun

end Steps

/-! ### The tip never settles -/

end Transit

end

/-! ### Two miners -/

namespace Transit

attribute [local instance] Arithmetic.binary64

end Transit

end NexusLedger
