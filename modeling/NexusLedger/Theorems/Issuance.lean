import NexusLedger.Theorems.Contents
import NexusLedger.Theorems.Settlement
import Mathlib.Algebra.Order.BigOperators.Group.List

/-! Who can create and spend money. `SYSTEM` is an ordinary text to the code, and the status of a transaction
    is what its sender wrote: both are safe as long as nobody uses them. -/

namespace NexusLedger
open Blockchain

section
set_option linter.unusedSectionVars false
variable [Arithmetic]

/-! ### What a message brings -/

theorem Json.Read.forall_of_mapM {α β : Type} {f : α → Json.Read β} {P : β → Prop} (hf : ∀ a b, f a = .ok b → P b) :
    ∀ {l : List α} {bs : List β}, l.mapM f = .ok bs → ∀ b ∈ bs, P b
  | [], _, h, b, hb => by
    cases h
    cases hb
  | a :: l, _, h, b, hb => by
    rw [List.mapM_cons] at h
    obtain ⟨x, hx, h⟩ := Json.Read.bind_eq_ok.mp h
    obtain ⟨xs, hxs, h⟩ := Json.Read.bind_eq_ok.mp h
    cases h
    rcases List.mem_cons.mp hb with rfl | hb
    · exact hf a b hx
    · exact Json.Read.forall_of_mapM hf hxs b hb

theorem Block.finite_of_readTransaction {env : Env} {j : Json} {tx : Transaction}
    (h : Block.readTransaction env j = .ok tx) : tx.Finite := by
  simp only [Block.readTransaction, Json.Read.bind_eq_ok] at h
  obtain ⟨_, -, _, -, amount, hamount, fee, hfee, _, -, _, -, _, -, _, -, _, -, h⟩ := h
  cases h
  exact ⟨Json.isFinite_of_value rfl hamount, Json.isFinite_of_value rfl hfee⟩

/-- JSON has finite numbers only. -/
theorem Block.finite_of_fromJson {env : Env} {j : Json} {b : Block} (h : Block.fromJson env j = .ok b) :
    ∀ tx ∈ b.transactions, tx.Finite := by
  simp only [Block.fromJson, Json.Read.bind_eq_ok] at h
  obtain ⟨header, hheader, h⟩ := h
  split at h
  · obtain ⟨txs, htxs, h⟩ := Json.Read.bind_eq_ok.mp h
    cases h
    exact Json.Read.forall_of_mapM (fun _ _ => Block.finite_of_readTransaction) htxs
  · cases h
    rw [Block.transactions_of_readHeader hheader]
    simp

/-! ### Balances -/

namespace Blockchain
variable {env : Env} {c : Blockchain} {M : Transaction → Prop}

/-- A row of finite numbers that takes nothing from an ordinary address. -/
def Issued (t : TransactionRow) : Prop :=
  t.confirmed = true → t.fromAddress = .bind "SYSTEM" ∧ t.amount.val.isFinite = true ∧ t.fee.val.isFinite = true

/-- A transaction that is not stored as confirmed. -/
def NotConfirmed (tx : Transaction) : Prop := cText tx.status ≠ "confirmed"

theorem effect_nonneg {t : TransactionRow} {a : CString} (hissued : Issued t) (hamount : 0 < t.amount.val)
    (ha : a ≠ .bind "SYSTEM") : 0 ≤ LedgerDB.effect a t := by
  unfold LedgerDB.effect
  split
  · rename_i hconf
    obtain ⟨hfrom, hfinite, -⟩ := hissued hconf
    have hpositive : 0 < t.amount.val.value := (Double.lt_of_isFinite rfl hfinite).mp hamount
    unfold LedgerDB.entry
    rw [hfrom, if_neg ha.symm]
    split
    · exact le_of_lt hpositive
    · exact le_refl _
  · exact le_refl _

/-- Without debits of ordinary addresses a balance is a sum of amounts. -/
theorem Holds.balance_nonneg (hexact : Arithmetic.Exact) (h : c.Holds Issued M) {a : String}
    (ha : CString.bind a ≠ .bind "SYSTEM") : 0 ≤ (c.getBalance a).1 := by
  show 0 ≤ (c.db.getBalance a).1
  rw [LedgerDB.getBalance_fst]
  obtain ⟨hfinite, hvalue⟩ := LedgerDB.viewBalance_exact hexact (fun t ht hconf => (h.rows t ht hconf).2) (.bind a)
  rw [Double.le_of_isFinite rfl hfinite, hvalue]
  refine List.sum_nonneg fun x hx => ?_
  obtain ⟨t, ht, rfl⟩ := List.mem_map.mp hx
  have hcheck := c.db.transactions.checked t ht
  simp only [transactionsSchema, Bool.and_eq_true, decide_eq_true_eq] at hcheck
  exact effect_nonneg (h.rows t ht) hcheck.1.1 ha

/-- A transaction that is a debit of an ordinary address as soon as it is stored. -/
def Debits (tx : Transaction) : Prop :=
  cText tx.status = "confirmed" ∧ CString.bind tx.fromAddress ≠ .bind "SYSTEM"

theorem issued_of_not_debits {tx : Transaction} (hfinite : tx.Finite) (h : ¬Debits tx) (height : Option Int32) :
    Issued (tx.row height) := by
  intro hconf
  refine ⟨?_, LedgerDB.finite_row hfinite height⟩
  by_contra hfrom
  exact h ⟨confirmed_row.mp hconf, hfrom⟩

/-- An accepted block that brings a debit, or gives back a transaction that reads as confirmed. -/
def Forges (env : Env) (c : Blockchain) : Call → Prop
  | .addBlock b => c.Appends b ∧ ∃ tx ∈ b.transactions, ¬c.db.Unstorable tx ∧ Debits tx
  | .replaceLastBlock b _ => c.Competes b ∧ c.FreshBelow b ∧
    ((∃ tx ∈ b.transactions, ¬(c.db.deleteBlock c.getHeight).Unstorable tx ∧ Debits tx) ∨
      ∃ tx ∈ c.db.getTransactionsByBlock env c.getHeight, Returned tx ∧ ¬NotConfirmed tx)

theorem brings_of_not_forges {k : Call} (hfinite : ∀ tx ∈ k.block.transactions, tx.Finite) (h : ¬c.Forges env k) :
    Brings env Issued NotConfirmed c (.call k) := by
  cases k with
  | addBlock b =>
    intro ha tx htx hnew height
    exact issued_of_not_debits (hfinite tx htx) (fun hd => h ⟨ha, tx, htx, hnew, hd⟩) height
  | replaceLastBlock b now =>
    intro hc hf
    constructor
    · intro tx htx hnew height
      exact issued_of_not_debits (hfinite tx htx) (fun hd => h ⟨hc, hf, Or.inl ⟨tx, htx, hnew, hd⟩⟩) height
    · intro tx htx hback
      by_contra hconf
      exact h ⟨hc, hf, Or.inr ⟨tx, htx, hback, hconf⟩⟩

end Blockchain

namespace Node
variable {env : Env} {n : Node} {e : Event}

/-- A message whose block forges a debit. -/
def Forged (env : Env) (n : Node) : Event → Prop
  | .own _ => False
  | .message now msg => ∃ k ∈ calls (n.react env (.message now msg)).2, k.1.Forges env k.2

theorem notConfirmed_of_pending {tx : Transaction} (h : tx.status = "pending") : NotConfirmed tx := by
  unfold NotConfirmed
  rw [h]
  decide +kernel

/-- The transactions of a block that a message brings hold finite numbers. -/
theorem finite_of_call {now : Int64} {msg : Message} {x : Blockchain × Call}
    (h : x ∈ calls (n.react env (.message now msg)).2) : ∀ tx ∈ x.2.block.transactions, tx.Finite := by
  cases (react_calls env n _).2 x h with
  | extended now htype hread hext => exact Block.finite_of_fromJson hread
  | competed now htype hread hcomp => exact Block.finite_of_fromJson hread
  | received now htype hpayload hbj hread habove =>
    simp [Call.block, Block.transactions_of_readHeader hread]

theorem supplied_of_not_forged (h : ¬n.Forged env e) : n.Supplied env Issued NotConfirmed e := by
  cases e with
  | own own =>
    cases own with
    | http now body => exact fun tx hread _ => notConfirmed_of_pending (pending_of_readHttpTransaction hread).1
    | _ => trivial
  | message now msg =>
    intro x hx
    cases hx with
    | gossip now htype hread => exact fun _ => notConfirmed_of_pending (pending_of_readNewTransaction hread).1
    | call hcall => exact brings_of_not_forges (finite_of_call hcall) fun hforges => h ⟨_, hcall, hforges⟩

theorem holds_start (nodeId : String) (now : Int64) : (start nodeId now).Holds Issued NotConfirmed where
  chain := by
    constructor
    · intro t ht
      rw [List.mem_singleton.mp ht]
      exact fun _ => ⟨rfl, rfl, rfl⟩
    · intro k tx hk
      simp [start, genesis] at hk
  template t ht := by cases ht

theorem step_issued (env : Env) (h : n.Holds Issued NotConfirmed) (he : ¬n.Forged env e) :
    (n.step env e).Holds Issued NotConfirmed :=
  step_holds h (fun _ _ hpending hconf => absurd (confirmed_row.mp hconf) hpending) (fun _ _ _ _ => ⟨rfl, rfl, rfl⟩)
    (supplied_of_not_forged he)

/-- In a run without forged debits no address but `SYSTEM` is ever overdrawn, with exact numbers. -/
theorem no_overdraft (hexact : Arithmetic.Exact) (env : Env) (nodeId : String) (now : Int64) (events : List Event)
    (h : ∀ x ∈ Transition.steps (step env) (start nodeId now) events, ¬x.1.Forged env x.2) :
    ∀ n ∈ Transition.states (step env) (start nodeId now) events, ∀ a : String,
      CString.bind a ≠ .bind "SYSTEM" → 0 ≤ (n.blockchain.getBalance a).1 := by
  intro n hn a ha
  have hholds : n.Holds Issued NotConfirmed :=
    Transition.invariant_of_steps (fun m e he hm => step_issued env hm he) (holds_start nodeId now) h n hn
  exact hholds.chain.balance_nonneg hexact ha

/-- Only NEW_BLOCK brings transactions with a block. -/
theorem not_forged_of_type {now : Int64} {msg : Message} (h : msg.type ≠ .newBlock) :
    ¬n.Forged env (.message now msg) := by
  rintro ⟨k, hk, hforges⟩
  cases (react_calls env n _).2 k hk with
  | extended now htype hread hext => exact h htype
  | competed now htype hread hcomp => exact h htype
  | received now htype hpayload hbj hread habove =>
    obtain ⟨-, tx, htx, -⟩ := hforges
    rw [Block.transactions_of_readHeader hread] at htx
    cases htx

end Node

end

namespace Node
variable {env : Env} {n : Node}

attribute [local instance] Arithmetic.unrounded

/-- The sample run, and a header for the next height in a response. -/
def sampleSync : List Event :=
  sampleEvents ++
    [.message 1700143364
      { type := .blocksResponse
        senderId := "beta"
        timestamp := 1700143364
        payload := .arr [.obj (plainBlock 2 "b2" sampleBlockHash).headerMembers] }]

theorem no_overdraft_sampleSync :
    0 ≤ ((sampleSync.foldl (step sampleEnv) (start "alpha" 1700000000)).blockchain.getBalance "genesis_miner").1 := by
  refine no_overdraft Arithmetic.exact_unrounded sampleEnv "alpha" 1700000000 sampleSync (fun x hx => ?_) _
    (Transition.foldl_mem_states _ _ _)
    "genesis_miner" (by decide +kernel)
  have hevent := Transition.snd_mem_of_mem_steps _ x hx
  rcases List.mem_append.mp hevent with hown | hmsg
  · obtain ⟨own, -, heq⟩ := List.mem_map.mp hown
    rw [← heq]
    exact id
  · rw [List.mem_singleton.mp hmsg]
    exact not_forged_of_type (by decide)

/-- SHA-256 for the one transaction that the forged block carries. -/
def forgedEnv : Env :=
  { headerEnv with
    sha256 := fun s =>
      (List.lookup s
        [("alicebob500", "e8e94c18d331bf2864e8482855f43bca557f8ba091fe68ea52e41c8f3b8e4ebe")]).getD "" }

/-- A block at height 1 with a transaction that says of itself that it is confirmed. -/
def forgedPayload : Json :=
  .obj
    [("height", .int 1),
      ("hash", .str "a1"),
      ("prevHash", .str zeroHash),
      ("transactions",
        .arr [.obj [("from", .str "alice"), ("to", .str "bob"), ("amount", .float 5), ("status", .str "confirmed")]])]

/-- Alice, who never had anything, owes 5. -/
theorem alice_overdrawn :
    ¬∀ n ∈ Transition.states (step forgedEnv) (start "node" 0)
        [.message 0 { type := .newBlock, senderId := "peer", timestamp := 0, payload := forgedPayload }],
      ∀ a : String, CString.bind a ≠ .bind "SYSTEM" → 0 ≤ (n.blockchain.getBalance a).1 := by
  intro h
  have hbalance := h _ (List.mem_cons_of_mem _ List.mem_cons_self) "alice" (by decide +kernel)
  revert hbalance
  decide +kernel

end Node

section
set_option linter.unusedSectionVars false
variable [Arithmetic]

/-! ### Issuance -/

namespace Blockchain
variable {env : Env} {c : Blockchain} {R : TransactionRow → Prop}

/-- `SYSTEM` pays in the next block once: its reward to the miner. -/
def IssuesOnce (env : Env) (c : Blockchain) (miner : String) (now : Int64) : Prop :=
  ∃ coinbase, (c.createBlock env miner now).1.transactions.filter (fun tx => tx.fromAddress = "SYSTEM") = [coinbase] ∧
    coinbase.toAddress = miner ∧ coinbase.amount = reward

/-- A transaction in the name of `SYSTEM` with an amount and a fee that `addTransaction` takes: it asks for no
    balance then. -/
def Mints (tx : Transaction) : Prop := tx.fromAddress = "SYSTEM" ∧ ¬tx.amount ≤ 0 ∧ ¬tx.fee < 0

theorem Holds.issuesOnce (h : c.Holds R fun tx => tx.fromAddress ≠ "SYSTEM") (miner : String) (now : Int64) :
    c.IssuesOnce env miner now := by
  refine ⟨Transaction.createCoinbase env now miner reward, ?_, rfl, rfl⟩
  have hselected : ∀ tx ∈ (selectTransactions c.mempool c.mempoolByPriority.elems c.db 0).1,
      ¬decide (tx.fromAddress = "SYSTEM") = true := by
    intro tx htx
    obtain ⟨p, -, hlookup⟩ := mem_selectTransactions c.mempool htx
    simpa using h.pool _ tx hlookup
  have hcoinbase : decide ((Transaction.createCoinbase env now miner reward).fromAddress = "SYSTEM") = true :=
    decide_eq_true rfl
  show List.filter _ (Transaction.createCoinbase env now miner reward :: _) = _
  rw [List.filter_cons, if_pos hcoinbase, List.filter_eq_nil_iff.mpr hselected]

end Blockchain

namespace Node
variable {env : Env} {n : Node} {e : Event}

/-- An event that brings a transaction in the name of `SYSTEM`. -/
def Impersonates (env : Env) (n : Node) : Event → Prop
  | .own (.http now body) => ∃ tx, n.readHttpTransaction env now body = .ok tx ∧ Mints tx
  | .own _ => False
  | .message now msg => msg.type = .newTransaction ∧ ∃ tx, readNewTransaction env now msg.payload = .ok tx ∧ Mints tx

theorem supplied_of_not_impersonates (h : ¬n.Impersonates env e) :
    n.Supplied env (fun _ => True) (fun tx => tx.fromAddress ≠ "SYSTEM") e := by
  cases e with
  | own own =>
    cases own with
    | http now body => exact fun tx hread ha hfrom => h ⟨tx, hread, hfrom, ha.1, ha.2.1⟩
    | _ => trivial
  | message now msg =>
    intro x hx
    cases hx with
    | gossip now htype hread => exact fun ha hfrom => h ⟨htype, _, hread, hfrom, ha.1, ha.2.1⟩
    | @call _ k hcall =>
      obtain ⟨c, k⟩ := k
      cases k with
      | addBlock b => exact fun _ _ _ _ _ => trivial
      | replaceLastBlock b now => exact fun _ _ => ⟨fun _ _ _ _ => trivial, fun tx _ hback => hback.1⟩

/-- In a run that brings no transaction in the name of `SYSTEM` every block that a node makes issues the reward
    and nothing else. -/
theorem single_issuance (env : Env) (nodeId : String) (now : Int64) (events : List Event)
    (h : ∀ x ∈ Transition.steps (step env) (start nodeId now) events, ¬x.1.Impersonates env x.2) :
    ∀ n ∈ Transition.states (step env) (start nodeId now) events, ∀ (miner : String) (time : Int64),
      n.blockchain.IssuesOnce env miner time := by
  intro n hn miner time
  have hstart : (start nodeId now).Holds (fun _ => True) fun tx => tx.fromAddress ≠ "SYSTEM" := by
    refine ⟨⟨fun _ _ => trivial, fun k tx hk => ?_⟩, fun t ht => by cases ht⟩
    simp [start, genesis] at hk
  have hholds : n.Holds (fun _ => True) fun tx => tx.fromAddress ≠ "SYSTEM" :=
    Transition.invariant_of_steps (I := Holds (fun _ => True) fun tx => tx.fromAddress ≠ "SYSTEM")
      (fun m e he hm => step_holds hm (fun _ _ _ => trivial) (fun _ _ _ => trivial) (supplied_of_not_impersonates he))
      hstart h n hn
  exact hholds.chain.issuesOnce miner time

theorem fromAddress_of_readHttpTransaction {now : Int64} {body : Json} {tx : Transaction}
    (h : n.readHttpTransaction env now body = .ok tx) :
    body.value Json.getString "from" "unknown" = .ok tx.fromAddress := by
  simp only [readHttpTransaction, Json.Read.bind_eq_ok] at h
  obtain ⟨fromAddress, hfrom, _, -, _, -, h⟩ := h
  cases h
  exact hfrom

end Node

end

namespace Node

attribute [local instance] Arithmetic.binary64

theorem single_issuance_sampleEvents :
    (sampleEvents.foldl (step sampleEnv) (start "alpha" 1700000000)).blockchain.IssuesOnce sampleEnv "alpha"
      1700143364 := by
  refine single_issuance sampleEnv "alpha" 1700000000 sampleEvents (fun x hx => ?_) _
    (Transition.foldl_mem_states _ _ _) "alpha" 1700143364
  have hevent := Transition.snd_mem_of_mem_steps _ x hx
  simp only [sampleEvents, sampleRound, List.map_cons, List.map_nil, List.mem_cons, List.not_mem_nil, or_false] at hevent
  rcases hevent with heq | heq | heq <;> rw [heq]
  · rintro ⟨tx, hread, hfrom, -⟩
    have hbody := fromAddress_of_readHttpTransaction hread
    rw [hfrom] at hbody
    simp at hbody
  · exact id
  · exact id

/-- SHA-256 for what the run below hashes, and the JSON text of its transaction. -/
def mintEnv : Env :=
  { sampleEnv with
    sha256 := fun s =>
      (List.lookup s
        [("SYSTEMmallory10000.0011700000000", "38d5f098e93b786612638f884b1368951317c3c94f36aa41e53211fcab5c85f5"),
          ("SYSTEMalpha10001700143364", sampleCoinbaseHash),
          (sampleCoinbaseHash ++ "38d5f098e93b786612638f884b1368951317c3c94f36aa41e53211fcab5c85f5",
            "34cd5b6743fc4fb93b60579ab81196bb62289f52700a8253e49732995206e7e9")]).getD ""
    dump := fun _ =>
      "\x7b\"amount\":1000.0,\"data\":\"\",\"fee\":0.001,\"from\":\"SYSTEM\",\"nonce\":1," ++
        "\"signature\":\"http_sig\",\"status\":\"pending\",\"timestamp\":1700000000,\"to\":\"mallory\"," ++
        "\"txHash\":\"38d5f098e93b786612638f884b1368951317c3c94f36aa41e53211fcab5c85f5\"\x7d" }

/-- Mallory posts a transaction of 1000 from `SYSTEM` to herself, and the next block carries it. -/
theorem mallory_paid :
    ¬∀ n ∈ Transition.states (step mintEnv) (start "alpha" 1700000000)
        [.own (.http 1700000000 (.obj [("from", .str "SYSTEM"), ("to", .str "mallory"), ("amount", .float 1000)]))],
      ∀ (miner : String) (time : Int64), n.blockchain.IssuesOnce mintEnv miner time := by
  intro h
  obtain ⟨coinbase, hcoinbase, -⟩ := h _ (List.mem_cons_of_mem _ List.mem_cons_self) "alpha" 1700143364
  have hlength := congrArg List.length hcoinbase
  rw [List.length_singleton] at hlength
  revert hlength
  decide +kernel

end Node

end NexusLedger
