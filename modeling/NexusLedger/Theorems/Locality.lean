import NexusLedger.Theorems.Balances
import NexusLedger.Theorems.Provenance

/-! Where a transaction gets to. The HTTP handler does not broadcast, and a NEW_TRANSACTION message is sent only in reply
    to one: in a network of nodes no such message is ever sent, and each node knows the transactions of its own users. -/

namespace NexusLedger
open Blockchain
set_option linter.unusedSectionVars false
variable [Arithmetic]

/-! ### No node starts the gossip -/

/-- A message that carries no transaction of the mempool. -/
def Message.Plain (msg : Message) : Prop := msg.type ≠ .newTransaction

def Event.Plain : Event → Prop
  | .own _ => True
  | .message _ msg => msg.Plain

def Effect.Plain : Effect → Prop
  | .broadcast msg => msg.Plain
  | .reply msg => msg.Plain
  | .call _ _ => True

namespace Node
variable {env : Env} {n : Node} {e : Event} {K : CString → Prop} {started : Int64}

/-- A node sends a transaction on only where one came in. -/
theorem react_plain (env : Env) (n : Node) (h : e.Plain) : ∀ x ∈ (n.react env e).2, x.Plain := by
  intro x hx
  cases react_emits hx with
  | call => trivial
  | transaction now tx came htype =>
    subst came
    exact absurd htype h
  | _ => exact fun htype => nomatch htype

/-! ### Where the transactions of a node come from -/

/-- The hash that the node gives the transaction of a request. -/
def submitted (env : Env) (n : Node) : OwnEvent → List String
  | .http now body =>
    match n.readHttpTransaction env now body with
    | .ok tx => [tx.txHash]
    | .error _ => []
  | _ => []

/-- The hash of a coinbase that the node makes. -/
def Minted (env : Env) (nodeId : String) (hash : CString) : Prop :=
  ∃ now, hash = .bind (Transaction.createCoinbase env now nodeId reward).txHash

/-- Apart from the genesis transaction, a node holds its own coinbases and what is known to `K`. -/
def Local (env : Env) (started : Int64) (nodeId : String) (K : CString → Prop) : TransactionRow → Prop := fun t =>
  t = genesisTransaction started ∨ Minted env nodeId t.txHash ∨ K t.txHash

def LocalPool (env : Env) (nodeId : String) (K : CString → Prop) : Transaction → Prop := fun tx =>
  Minted env nodeId (.bind tx.txHash) ∨ K (.bind tx.txHash)

/-- A transaction that a replaced block gives back bears the hash of its row, above the height of the genesis block. -/
theorem localPool_of_mem {c : Blockchain} {height : Int32} {nodeId : String}
    (h : ∀ t ∈ c.db.transactions.rows, Local env started nodeId K t) (hpos : 1 ≤ height.toInt) {tx : Transaction}
    (htx : tx ∈ c.db.getTransactionsByBlock env height) : LocalPool env nodeId K tx := by
  obtain ⟨t, ht, rfl⟩ := List.mem_map.mp htx
  obtain ⟨ht, hheight⟩ := List.mem_filter.mp ht
  have hhash : CString.bind (t.toTransaction env).txHash = t.txHash := CString.bind_of_val t.txHash
  rcases h t ht with rfl | hlocal
  · have hzero : some 0 = some height := eq_of_beq hheight
    rw [← Option.some.inj hzero] at hpos
    exact absurd hpos (by decide)
  · rw [LocalPool, hhash]
    exact hlocal

theorem brings_local (h : n.Holds (Local env started n.nodeId K) (LocalPool env n.nodeId K)) (he : e.Honest)
    (hplain : e.Plain) (hown : ∀ own, e = .own own → ∀ hash ∈ n.submitted env own, K (.bind hash)) :
    ∀ x, Operates env n e x → Brings env (Local env started n.nodeId K) (LocalPool env n.nodeId K) x.1 x.2 := by
  intro x hx
  cases hx with
  | http now hread =>
    intro _
    refine Or.inr (hown _ rfl _ ?_)
    rw [submitted, hread]
    exact List.mem_singleton_self _
  | gossip now htype hread => exact absurd htype hplain
  | clean => trivial
  | template now => trivial
  | call hcall =>
    have hnone : ∀ (b : Block) (c : Blockchain), b.transactions = [] →
        Brings env (Local env started n.nodeId K) (LocalPool env n.nodeId K) c (.call (.addBlock b)) := by
      intro b c htxs _ tx htx
      rw [htxs] at htx
      cases htx
    cases (react_calls env n _).2 _ hcall with
    | mined now ht hmined hlow =>
      intro _ tx htx _ height
      rw [transactions_of_search hmined] at htx
      exact h.template _ ht tx htx height
    | extended now htype hread hext => exact hnone _ _ (he.block htype hread).1
    | competed now htype hread hcomp =>
      obtain ⟨htxs, hpos⟩ := he.block htype hread
      refine fun _ _ => ⟨fun tx htx => ?_, fun tx htx _ => ?_⟩
      · rw [htxs] at htx
        cases htx
      · exact localPool_of_mem h.chain.rows (hcomp.height ▸ hpos) htx
    | received now htype hpayload hbj hread habove => exact hnone _ _ (Block.transactions_of_readHeader hread)

theorem step_local (h : n.Holds (Local env started n.nodeId K) (LocalPool env n.nodeId K)) (he : e.Honest)
    (hplain : e.Plain) (hown : ∀ own, e = .own own → ∀ hash ∈ n.submitted env own, K (.bind hash)) :
    (n.step env e).Holds (Local env started n.nodeId K) (LocalPool env n.nodeId K) where
  chain := step_chain h.chain fun x hx hc =>
    hc.operate (fun tx htx => Or.inr htx) (brings_local h he hplain hown x hx)
  template t ht := by
    rcases step_template env n e with heq | heq | ⟨now, heq⟩
    · exact h.template t (heq ▸ ht)
    · rw [heq] at ht
      cases ht
    · rw [heq] at ht
      cases ht
      intro tx htx height
      rcases mem_createBlock htx with rfl | ⟨k, hk⟩
      · exact Or.inr (Or.inl ⟨now, rfl⟩)
      · exact Or.inr (h.chain.pool k tx hk)

end Node

/-! ### In a network -/

namespace Network
variable {ι : Type} [DecidableEq ι] {env : Env} {s : Network ι} {nodeId : ι → String} {started : ι → Int64}

/-- Every node holds what it made itself or knows by `K`, and no message carries a transaction. -/
structure Local (env : Env) (nodeId : ι → String) (started : ι → Int64) (K : ι → CString → Prop) (s : Network ι) :
    Prop where
  honest : s.Honest started
  sent : ∀ x ∈ s.sent, x.message.Plain
  nodes : ∀ i, (s.nodes i).nodeId = nodeId i ∧
    (s.nodes i).Holds (Node.Local env (started i) (nodeId i) (K i)) (Node.LocalPool env (nodeId i) (K i))

omit [DecidableEq ι] in
theorem Local.event {K : ι → CString → Prop} (h : s.Local env nodeId started K) {a : Action ι} {i peer : ι} {e : Event}
    (he : s.event? a = some (i, peer, e)) : e.Plain := by
  cases a with
  | own i peer clients e =>
    cases he
    trivial
  | deliver k clients now =>
    obtain ⟨x, hx, heq⟩ := Option.map_eq_some_iff.mp he
    cases heq
    exact h.sent x (List.mem_of_getElem? hx)

omit [DecidableEq ι] in
theorem post_plain {x : Effect} (h : x.Plain) (clients : List ι) (i peer : ι) :
    ∀ m ∈ post clients i peer x, m.message.Plain := by
  intro m hm
  cases x with
  | broadcast msg =>
    obtain ⟨j, -, rfl⟩ := List.mem_map.mp hm
    exact h
  | reply msg =>
    rw [List.mem_singleton.mp hm]
    exact h
  | call before k => cases hm

theorem Local.step {K : ι → CString → Prop} (h : s.Local env nodeId started K) {a : Action ι}
    (hown : ∀ i peer clients own, a = .own i peer clients own → ∀ hash ∈ (s.nodes i).submitted env own, K i (.bind hash)) :
    (s.step env a).Local env nodeId started K := by
  refine ⟨step_honest env s a h.honest, fun x hx => ?_, fun i => ?_⟩
  · rcases mem_sent_step hx with hx | ⟨i, peer, e, hev, y, hy, hx⟩
    · exact h.sent x hx
    · exact post_plain (Node.react_plain env _ (h.event hev) y hy) _ i peer x hx
  · obtain ⟨hid, hholds⟩ := h.nodes i
    rcases nodes_step env s a i with hold | ⟨peer, e, hev, hnew⟩
    · rw [hold]
      exact h.nodes i
    · rw [← hid] at hholds
      rw [hnew]
      refine ⟨(Node.step_nodeId env _ e).trans hid, ?_⟩
      rw [← hid]
      refine Node.step_local hholds (h.honest.event hev) (h.event hev) fun own he => ?_
      subst he
      cases a with
      | own i' peer' clients own' =>
        cases hev
        exact hown _ _ _ _ rfl
      | deliver k clients now =>
        obtain ⟨x, hx, heq⟩ := Option.map_eq_some_iff.mp hev
        cases heq

end Network

end NexusLedger
