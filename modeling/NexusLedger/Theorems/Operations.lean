import NexusLedger.Theorems.NodeSteps
import NexusLedger.Theorems.Transactions

/-! A step of a node as operations on its chain, each with where it comes from. What all of them keep, the
    chain of the node keeps. -/

namespace NexusLedger
open Blockchain
variable [Arithmetic]

namespace Node
variable {env : Env} {n : Node} {e : Event}

/-- The ways a step comes to an operation, with the chain that it runs on. -/
inductive Operates (env : Env) (n : Node) : Event → Blockchain × Operation → Prop
  | http (now : Int64) {body : Json} {tx : Transaction} (read : n.readHttpTransaction env now body = .ok tx) :
    Operates env n (.own (.http now body)) (n.blockchain, .addTransaction tx now)
  | gossip (now : Int64) {msg : Message} {tx : Transaction} (type : msg.type = .newTransaction)
    (read : readNewTransaction env now msg.payload = .ok tx) :
    Operates env n (.message now msg) (n.blockchain, .addTransaction tx now)
  | clean : Operates env n (.own .clean) (n.blockchain, .cleanMempool)
  | template (now : Int64) : Operates env n (.own (.template now)) (n.blockchain, .createBlock n.nodeId now)
  | call {e : Event} {x : Blockchain × Call} (h : x ∈ calls (n.react env e).2) :
    Operates env n e (x.1, .call x.2)

/-- Some operations of a step lead from one chain to the other. -/
def Leads (env : Env) (n : Node) (e : Event) (c d : Blockchain) : Prop :=
  ∃ ops : List Operation, d = ops.foldl (operate env) c ∧
    ∀ x ∈ Transition.steps (operate env) c ops, Operates env n e x

theorem Leads.refl (c : Blockchain) : Leads env n e c c :=
  ⟨[], rfl, fun _ hx => absurd hx List.not_mem_nil⟩

theorem Leads.cons {c d : Blockchain} {op : Operation} (h : Operates env n e (c, op))
    (rest : Leads env n e (operate env c op) d) : Leads env n e c d := by
  obtain ⟨ops, hd, hops⟩ := rest
  refine ⟨op :: ops, hd, ?_⟩
  rw [Transition.steps_cons, List.forall_mem_cons]
  exact ⟨h, hops⟩

theorem Leads.one {c : Blockchain} {op : Operation} (h : Operates env n e (c, op)) :
    Leads env n e c (operate env c op) := .cons h (.refl _)

theorem Leads.keeps {I : Blockchain → Prop} {c d : Blockchain} (h : Leads env n e c d) (hc : I c)
    (keep : ∀ x, Operates env n e x → I x.1 → I (operate env x.1 x.2)) : I d := by
  obtain ⟨ops, rfl, hops⟩ := h
  have kept : ∀ c op, Operates env n e (c, op) → I c → I (operate env c op) := fun c op => keep (c, op)
  exact Transition.invariant_of_steps kept hc hops _ (Transition.foldl_mem_states _ _ _)

theorem addReceived_leads (bs : List Json) (c : Blockchain)
    (h : ∀ x ∈ calls (addReceived c bs).2, Operates env n e (x.1, .call x.2)) :
    Leads env n e c (addReceived c bs).1 := by
  induction bs generalizing c with
  | nil => exact .refl c
  | cons bj bs ih =>
    rcases addReceived_cases c bj bs with heq | heq | ⟨b, -, -, heq⟩
    · rw [heq]
      exact .refl c
    · rw [heq] at h ⊢
      exact ih c h
    · rw [heq] at h ⊢
      rw [calls_cons_call, List.forall_mem_cons] at h
      exact .cons h.1 (ih _ h.2)

theorem handleNewTransaction_fst (env : Env) (n : Node) (now : Int64) {payload : Json} {tx : Transaction}
    (h : readNewTransaction env now payload = .ok tx) :
    (n.handleNewTransaction env now payload).1 =
      { n with blockchain := (n.blockchain.addTransaction env tx now).2 } := by
  unfold handleNewTransaction
  rw [h]
  rcases hadd : n.blockchain.addTransaction env tx now with ⟨_ | _, d⟩ <;> simp only [hadd]

theorem step_leads (env : Env) (n : Node) (e : Event) : Leads env n e n.blockchain (n.step env e).blockchain := by
  have called : ∀ x ∈ calls (n.react env e).2, Operates env n e (x.1, .call x.2) := fun x hx => .call hx
  cases e with
  | own own =>
    cases own with
    | http now body =>
      simp only [step, react, ownStep, handleHttp]
      split
      · exact .refl _
      · rename_i tx htx
        exact .one (.http now htx)
    | clean => exact .one .clean
    | template now =>
      simp only [step, react, ownStep, makeTemplate]
      split
      · exact .refl _
      · exact .one (.template now)
    | submit now =>
      rcases submit_cases env n now with ⟨t, b, ht, hmined, hlow⟩ | heq
      · simp only [step, react, ownStep, submit_of_mined ht hmined hlow] at called ⊢
        exact .one (called _ List.mem_cons_self)
      · simp only [step, react, ownStep, heq]
        exact .refl _
    | abandon => exact .refl _
    | sync now => exact .refl _
  | message now msg =>
    cases htype : msg.type with
    | newBlock =>
      simp only [step, react, handleMessage, htype] at called ⊢
      rcases handleNewBlock_cases env n now msg.payload with ⟨b, hread, hext⟩ | ⟨b, hread, hcomp⟩ | ⟨hn, -⟩
      · rw [handleNewBlock_of_extends hread hext] at called ⊢
        exact .one (called _ List.mem_cons_self)
      · rw [handleNewBlock_of_competes hread hcomp] at called ⊢
        exact .one (called _ List.mem_cons_self)
      · rw [hn]
        exact .refl _
    | blocksResponse =>
      simp only [step, react, handleMessage, htype, handleBlocksResponse] at called ⊢
      split at called
      · exact addReceived_leads _ _ called
      · exact .refl _
    | newTransaction =>
      simp only [step, react, handleMessage, htype]
      cases hread : readNewTransaction env now msg.payload with
      | error err =>
        simp only [handleNewTransaction, hread]
        exact .refl _
      | ok tx =>
        rw [handleNewTransaction_fst env n now hread]
        exact .one (.gossip now htype hread)
    | getBlocks =>
      simp only [step, react, handleMessage, htype]
      rw [(handleGetBlocks_frame env n now msg.payload).1]
      exact .refl _
    | _ =>
      simp only [step, react, handleMessage, htype]
      exact .refl _

/-- What every operation of a step keeps, the chain keeps. -/
theorem step_chain {I : Blockchain → Prop} (h : I n.blockchain)
    (keep : ∀ x, Operates env n e x → I x.1 → I (operate env x.1 x.2)) : I (n.step env e).blockchain :=
  (step_leads env n e).keeps h keep

end Node

end NexusLedger
