import NexusLedger.Theorems.Wallets

/-! The nonces of the wallets table. An admission stores the number after the nonce of the transaction, and the
    next nonce is the number after the stored one; no check compares a nonce with either. -/

namespace NexusLedger

section
set_option linter.unusedSectionVars false
variable [Arithmetic]

/-! ### The stored nonce -/

namespace LedgerDB
variable {db db' : LedgerDB} {a b : String} {nonce : UInt64}

/-- The column `nonce` of the address; where it has no row, the default of the column. -/
def storedNonce (db : LedgerDB) (address : String) : Int64 :=
  match db.wallets.rows.find? fun w => w.address == .bind address with
  | some w => w.nonce
  | none => 0

theorem getNextNonce_eq (db : LedgerDB) (a : String) : db.getNextNonce a = (db.storedNonce a).toUInt64 + 1 := by
  unfold getNextNonce storedNonce
  cases db.wallets.rows.find? fun w => w.address == .bind a <;> rfl

theorem storedNonce_congr (h : db'.wallets = db.wallets) (a : String) : db'.storedNonce a = db.storedNonce a := by
  unfold storedNonce
  rw [h]

/-- A new wallet comes with the default. -/
theorem storedNonce_ensure (db : LedgerDB) (a b : String) :
    (db.ensureWalletExists b).2.storedNonce a = db.storedNonce a := by
  unfold ensureWalletExists
  split
  · rfl
  · split
    · rename_i u hu
      unfold storedNonce
      simp only [(Table.insert_eq_some hu).2, List.find?_append, List.find?_singleton]
      cases db.wallets.rows.find? fun w => w.address == .bind a with
      | some w => rfl
      | none =>
        rw [Option.none_or]
        split <;> rename_i hfind
        · split at hfind
          · cases hfind
            rfl
          · cases hfind
        · rfl
    · rfl

theorem storedNonce_getBalance (db : LedgerDB) (a b : String) : (db.getBalance b).2.storedNonce a = db.storedNonce a :=
  storedNonce_ensure db a b

theorem find_setNonce (address : CString) (nonce : Int64) (a : String) (rows : List WalletRow) :
    (rows.map (setNonce address nonce)).find? (fun w => w.address == .bind a) =
      (rows.find? fun w => w.address == .bind a).map (setNonce address nonce) := by
  have htest : ((fun w : WalletRow => w.address == .bind a) ∘ setNonce address nonce) =
      fun w => w.address == .bind a := by
    funext w
    simp
  rw [List.find?_map, htest]

theorem storedNonce_updateNonce_of_ne (h : CString.bind b ≠ .bind a) :
    (db.updateNonce b nonce).2.storedNonce a = db.storedNonce a := by
  unfold storedNonce updateNonce Table.update
  simp only [find_setNonce]
  cases hfind : db.wallets.rows.find? fun w => w.address == .bind a with
  | none => rfl
  | some w =>
    have hw : w.address = .bind a := by simpa using List.find?_some hfind
    simp only [Option.map_some, setNonce, hw]
    rw [if_neg (Ne.symm h)]

theorem storedNonce_updateNonce_self (hw : db.HasWallet b) (h : CString.bind b = .bind a) :
    (db.updateNonce b nonce).2.storedNonce a = nonce.toInt64 := by
  obtain ⟨w, hmem, hadd⟩ := hw
  unfold storedNonce updateNonce Table.update
  simp only [find_setNonce]
  cases hfind : db.wallets.rows.find? fun w => w.address == .bind a with
  | none =>
    rw [List.find?_eq_none] at hfind
    exact absurd (beq_iff_eq.mpr (hadd.trans h)) (hfind w hmem)
  | some u =>
    have hu : u.address = .bind a := by simpa using List.find?_some hfind
    simp only [Option.map_some, setNonce, hu]
    rw [if_pos h.symm]

end LedgerDB

/-! ### The stored nonce after an admission -/

/-- The sender's address as the wallets table has it. `SYSTEM` has no nonce. -/
def Transaction.SentBy (a : String) (tx : Transaction) : Prop :=
  tx.fromAddress ≠ "SYSTEM" ∧ CString.bind tx.fromAddress = .bind a

instance (a : String) : DecidablePred (Transaction.SentBy a) := fun _ => inferInstanceAs (Decidable (_ ∧ _))

namespace Blockchain
open LedgerDB
variable {env : Env} {c : Blockchain} {tx : Transaction} {now : Int64} {a : String}

theorem storedNonce_queried (c : Blockchain) (tx : Transaction) (a : String) :
    (c.queried tx).storedNonce a = c.db.storedNonce a := by
  rw [queried, storedNonce_getBalance, storedNonce_ensure, storedNonce_ensure]

theorem enqueue_wallets (env : Env) (c : Blockchain) (tx : Transaction) (now : Int64) :
    (c.enqueue env tx now).db.wallets = c.db.wallets := by
  have htx : ∀ db : LedgerDB, (db.addTransaction tx (-1)).2.wallets = db.wallets := by
    intro db
    unfold LedgerDB.addTransaction
    split <;> rfl
  have hpool : ∀ db : LedgerDB, (db.addToMempool tx now).2.wallets = db.wallets := by
    intro db
    unfold addToMempool
    split <;> rfl
  unfold enqueue
  simp only [hpool, htx, evict_db]

/-- An admission from `SYSTEM` makes a wallet at most; any other one also sets the nonce of its sender. -/
theorem addTransaction_wallets (env : Env) (now : Int64) (h : c.Admits tx) :
    (c.addTransaction env tx now).2.db.wallets =
      if tx.fromAddress = "SYSTEM" then (c.db.ensureWalletExists tx.toAddress).2.wallets
      else ((c.queried tx).updateNonce tx.fromAddress (tx.nonce + 1)).2.wallets := by
  obtain ⟨hamount, hfee, hbalance⟩ := h
  unfold addTransaction
  rw [if_neg hamount, if_neg hfee]
  by_cases hsystem : tx.fromAddress = "SYSTEM"
  · rw [if_pos hsystem, if_pos hsystem, enqueue_wallets]
  · have hpays := hbalance.resolve_left hsystem
    rw [← getBalance_of_ensured] at hpays
    rw [if_neg hsystem, if_neg hsystem]
    simp only
    rw [if_neg hpays]
    simp only [updateNonce, if_true]
    rw [enqueue_wallets]
    rfl

theorem storedNonce_of_admitted (env : Env) (now : Int64) (h : c.Admits tx) (hsent : tx.SentBy a) :
    (c.addTransaction env tx now).2.db.storedNonce a = (tx.nonce + 1).toInt64 := by
  have hwallets := addTransaction_wallets env now h
  rw [if_neg hsent.1] at hwallets
  rw [storedNonce_congr hwallets]
  exact storedNonce_updateNonce_self (hasWallet_getBalance _ _) hsent.2

/-- Nothing else moves the nonce of an address. -/
theorem storedNonce_of_not_admitted (env : Env) (c : Blockchain) (tx : Transaction) (now : Int64)
    (h : tx.SentBy a → ¬c.Admits tx) : (c.addTransaction env tx now).2.db.storedNonce a = c.db.storedNonce a := by
  by_cases ha : c.Admits tx
  · have hwallets := addTransaction_wallets env now ha
    by_cases hsystem : tx.fromAddress = "SYSTEM"
    · rw [if_pos hsystem] at hwallets
      rw [storedNonce_congr hwallets, storedNonce_ensure]
    · have hother : CString.bind tx.fromAddress ≠ .bind a := fun heq => h ⟨hsystem, heq⟩ ha
      rw [if_neg hsystem] at hwallets
      rw [storedNonce_congr hwallets, storedNonce_updateNonce_of_ne hother, storedNonce_queried]
  · by_cases hdeclined : c.Declined tx
    · rw [addTransaction_of_declined env now hdeclined]
      exact storedNonce_queried c tx a
    · rw [addTransaction_of_not_declined env now hdeclined ha]

/-- The next nonce is two ahead of the admitted one. -/
theorem getNextNonce_of_admitted (env : Env) (now : Int64) (h : c.Admits tx) (hsent : tx.SentBy a) :
    (c.addTransaction env tx now).2.db.getNextNonce a = tx.nonce + 1 + 1 := by
  rw [getNextNonce_eq, storedNonce_of_admitted env now h hsent, UInt64.toUInt64_toInt64]

end Blockchain

/-! ### Runs of arriving transactions -/

namespace Node
open Blockchain LedgerDB
variable {env : Env} {n : Node} {e : Event} {a : String} {events : List Event}

/-- A transaction over HTTP, or a NEW_TRANSACTION message. -/
def Arrives : Event → Prop
  | .own (.http _ _) => True
  | .message _ msg => msg.type = .newTransaction
  | _ => False

/-- The transaction that the handler makes of it, with the second of its arrival. -/
def arrival (env : Env) (n : Node) : Event → Option (Transaction × Int64)
  | .own (.http now body) => (n.readHttpTransaction env now body).toOption.map (·, now)
  | .message now msg =>
    if msg.type = .newTransaction then (readNewTransaction env now msg.payload).toOption.map (·, now) else none
  | _ => none

/-- Both entry points hand it to `addTransaction`, and do nothing else to the chain. -/
theorem step_of_arrives (env : Env) (n : Node) (h : Arrives e) :
    (n.step env e).blockchain =
      match arrival env n e with
      | some (tx, now) => (n.blockchain.addTransaction env tx now).2
      | none => n.blockchain := by
  cases e with
  | own o =>
    cases o with
    | http now body =>
      simp only [step, react, ownStep, handleHttp, arrival]
      cases n.readHttpTransaction env now body <;> rfl
    | _ => exact h.elim
  | message now msg =>
    have htype : msg.type = .newTransaction := h
    simp only [step, react, handleMessage, handleNewTransaction, arrival, htype, if_true]
    cases readNewTransaction env now msg.payload with
    | error err => rfl
    | ok tx =>
      simp only [Except.toOption, Option.map_some]
      cases n.blockchain.addTransaction env tx now with
      | mk accepted c => cases accepted <;> rfl

/-- The nonce of the transaction, when `addTransaction` takes it from this sender. -/
def acceptedNonce (env : Env) (a : String) (n : Node) (e : Event) : Option UInt64 :=
  match arrival env n e with
  | some (tx, now) =>
    if tx.SentBy a ∧ (n.blockchain.addTransaction env tx now).1 = true then some tx.nonce else none
  | none => none

/-- The nonces that a sender's accepted transactions have in a run, in their order. -/
def acceptedNonces (env : Env) (a : String) (n : Node) (events : List Event) : List UInt64 :=
  (Transition.steps (step env) n events).filterMap fun x => acceptedNonce env a x.1 x.2

/-- The nonces of a sender increase, its stored nonce never decreases, and its next nonce always is the one after
    the last accepted. -/
structure ReplayProtected (env : Env) (a : String) (n : Node) (events : List Event) : Prop where
  increasing : (acceptedNonces env a n events).Pairwise (· < ·)
  kept : ∀ x ∈ Transition.steps (step env) n events,
    x.1.blockchain.db.storedNonce a ≤ (x.1.step env x.2).blockchain.db.storedNonce a
  next : ∀ before after k, events = before ++ after → (acceptedNonces env a n before).getLast? = some k →
    (before.foldl (step env) n).blockchain.db.getNextNonce a = k + 1

/-- The event brings a transaction of this sender that passes the checks. -/
def Spends (env : Env) (a : String) (n : Node) (e : Event) : Prop :=
  ∃ tx now, arrival env n e = some (tx, now) ∧ tx.SentBy a ∧ n.blockchain.Admits tx

theorem acceptedNonce_eq_none_iff : acceptedNonce env a n e = none ↔ ¬Spends env a n e := by
  unfold acceptedNonce Spends
  cases arrival env n e with
  | none => simp
  | some y =>
    obtain ⟨tx, now⟩ := y
    simp [addTransaction_accepts_iff]

theorem acceptedNonce_of_spends {tx : Transaction} {now : Int64} (harrival : arrival env n e = some (tx, now))
    (hsent : tx.SentBy a) (ha : n.blockchain.Admits tx) : acceptedNonce env a n e = some tx.nonce := by
  simp only [acceptedNonce, harrival]
  exact if_pos ⟨hsent, (addTransaction_accepts_iff env now).mpr ha⟩

theorem storedNonce_step_of_not_spends (h : Arrives e) (hnot : ¬Spends env a n e) :
    (n.step env e).blockchain.db.storedNonce a = n.blockchain.db.storedNonce a := by
  rw [step_of_arrives env n h]
  cases harrival : arrival env n e with
  | none => rfl
  | some y =>
    obtain ⟨tx, now⟩ := y
    exact storedNonce_of_not_admitted env _ tx now fun hsent ha => hnot ⟨tx, now, harrival, hsent, ha⟩

theorem getNextNonce_step_of_spends (h : Arrives e) {tx : Transaction} {now : Int64}
    (harrival : arrival env n e = some (tx, now)) (hsent : tx.SentBy a) (ha : n.blockchain.Admits tx) :
    (n.step env e).blockchain.db.getNextNonce a = tx.nonce + 1 + 1 := by
  rw [step_of_arrives env n h, harrival]
  exact getNextNonce_of_admitted env now ha hsent

/-- In a run of arriving transactions, from any state of the node, a sender is protected against replay exactly
    when none of its transactions is admitted. -/
theorem replay_protected_iff (env : Env) (n : Node) (events : List Event) (a : String)
    (harrives : ∀ e ∈ events, Arrives e) :
    ReplayProtected env a n events ↔ ∀ x ∈ Transition.steps (step env) n events, ¬Spends env a x.1 x.2 := by
  constructor
  · rintro ⟨-, -, hnext⟩ x hx ⟨tx, now, harrival, hsent, ha⟩
    obtain ⟨before, after, hsplit, hfold⟩ := Transition.exists_prefix_of_mem_steps (step env) x hx
    have hlast : (acceptedNonces env a n (before ++ [x.2])).getLast? = some tx.nonce := by
      rw [acceptedNonces, Transition.steps_append, List.filterMap_append, ← hfold, Transition.steps_cons,
        Transition.steps_nil, List.filterMap_cons, acceptedNonce_of_spends harrival hsent ha]
      simp
    have hafter := hnext (before ++ [x.2]) after tx.nonce (by rw [hsplit]; simp) hlast
    have hx₂ : Arrives x.2 := harrives x.2 (Transition.snd_mem_of_mem_steps _ x hx)
    rw [List.foldl_append, ← hfold, List.foldl_cons, List.foldl_nil,
      getNextNonce_step_of_spends hx₂ harrival hsent ha] at hafter
    -- Two ahead is not one ahead, not even around the end of 64 bits.
    have htoNat := congrArg UInt64.toNat hafter
    simp only [UInt64.toNat_add, UInt64.reduceToNat] at htoNat
    omega
  · intro hnone
    have hempty : ∀ before after, events = before ++ after → acceptedNonces env a n before = [] := by
      intro before after hsplit
      refine List.filterMap_eq_nil_iff.mpr fun x hx => acceptedNonce_eq_none_iff.mpr (hnone x ?_)
      rw [hsplit, Transition.steps_append]
      exact List.mem_append_left _ hx
    refine ⟨?_, fun x hx => ?_, fun before after k hsplit hlast => ?_⟩
    · rw [hempty events [] (List.append_nil events).symm]
      exact List.Pairwise.nil
    · have hx₂ : Arrives x.2 := harrives x.2 (Transition.snd_mem_of_mem_steps _ x hx)
      exact Int64.le_of_eq (storedNonce_step_of_not_spends hx₂ (hnone x hx)).symm
    · rw [hempty before after hsplit] at hlast
      cases hlast

end Node

end

namespace Node

attribute [local instance] Arithmetic.binary64

/-- A payment over HTTP from a wallet without funds. -/
def unfundedArrivals : List Event :=
  [.own (.http 1700000000 (.obj [("from", .str "mallory"), ("to", .str "bob"), ("amount", .float 10)]))]

theorem replay_protected_iff_unfundedArrivals :
    ReplayProtected sampleEnv "mallory" (start "node" 1700000000) unfundedArrivals ↔
      ∀ x ∈ Transition.steps (step sampleEnv) (start "node" 1700000000) unfundedArrivals,
        ¬Spends sampleEnv "mallory" x.1 x.2 :=
  replay_protected_iff sampleEnv (start "node" 1700000000) unfundedArrivals "mallory" fun e he => by
    rw [List.mem_singleton.mp he]
    trivial

/-- The sample payment twice over HTTP, then again from a peer that names no nonce. -/
def replayedArrivals : List Event :=
  let payment : Json := .obj [("from", .str "genesis_miner"), ("to", .str "alice"), ("amount", .float 10)]
  [.own (.http 1700000000 payment), .own (.http 1700000000 payment),
    .message 1700000000 ((start "peer" 0).newTransactionMessage 1700000000 samplePayment)]

/-- The three have the nonces 1, 3 and 1: the next nonce is 3 after the first of them, and the stored one falls from
    4 to 2. -/
theorem payment_replayed :
    acceptedNonces sampleEnv "genesis_miner" (start "node" 1700000000) replayedArrivals = [1, 3, 1] ∧
      ((start "node" 1700000000).step sampleEnv
        (replayedArrivals.head (List.cons_ne_nil _ _))).blockchain.db.getNextNonce "genesis_miner" = 3 ∧
      ((replayedArrivals.take 2).foldl (step sampleEnv)
        (start "node" 1700000000)).blockchain.db.storedNonce "genesis_miner" = 4 ∧
      (replayedArrivals.foldl (step sampleEnv)
        (start "node" 1700000000)).blockchain.db.storedNonce "genesis_miner" = 2 ∧
      ¬ReplayProtected sampleEnv "genesis_miner" (start "node" 1700000000) replayedArrivals := by
  obtain ⟨hnonces, hnext, hbefore, hafter⟩ :
      acceptedNonces sampleEnv "genesis_miner" (start "node" 1700000000) replayedArrivals = [1, 3, 1] ∧
        ((start "node" 1700000000).step sampleEnv
          (replayedArrivals.head (List.cons_ne_nil _ _))).blockchain.db.getNextNonce "genesis_miner" = 3 ∧
        ((replayedArrivals.take 2).foldl (step sampleEnv)
          (start "node" 1700000000)).blockchain.db.storedNonce "genesis_miner" = 4 ∧
        (replayedArrivals.foldl (step sampleEnv)
          (start "node" 1700000000)).blockchain.db.storedNonce "genesis_miner" = 2 := by
    decide +kernel
  refine ⟨hnonces, hnext, hbefore, hafter, fun h => ?_⟩
  have hincreasing := h.increasing
  rw [hnonces] at hincreasing
  revert hincreasing
  decide

end Node

end NexusLedger
