import NexusLedger.Theorems.Settlement
import Mathlib.Algebra.Order.BigOperators.Group.List

/-! The columns of the view `wallet_balance` against one another. The balance is one CASE over the rows of an
    address, and its first branch takes a row that the address both sends and receives for a receipt alone. -/

namespace NexusLedger

section
set_option linter.unusedSectionVars false
variable [Arithmetic]

namespace LedgerDB
variable {db db' : LedgerDB} {t : TransactionRow} {a : CString}

/-! ### One wallet -/

/-- A confirmed row from an address to itself. -/
def Circular (a : CString) (t : TransactionRow) : Prop := t.confirmed = true ∧ t.toAddress = a ∧ t.fromAddress = a

instance (a : CString) : DecidablePred (Circular a) := fun _ => inferInstanceAs (Decidable (_ ∧ _ ∧ _))

/-- What a row adds to the received and to the sent amount of an address, as an exact number. -/
def received (a : CString) (t : TransactionRow) : ℚ := if t.toAddress == a && t.confirmed then t.amount.val.value else 0

def sent (a : CString) (t : TransactionRow) : ℚ :=
  if t.fromAddress == a && t.confirmed then t.amount.val.value + t.fee.val.value else 0

theorem sum_filter_map {α : Type} (p : α → Bool) (f : α → ℚ) (l : List α) :
    ((l.filter p).map f).sum = (l.map fun x => if p x then f x else 0).sum := by
  induction l with
  | nil => rfl
  | cons x l ih =>
    by_cases hx : p x = true
    · simp [hx, ih]
    · simp [hx, ih]

/-- With exact sums a column adds up what its rows add, if these are finite numbers. -/
theorem coalescedSum_filter (hexact : Arithmetic.Exact) (p : TransactionRow → Bool) (f : TransactionRow → Double)
    {l : List TransactionRow} (h : ∀ t ∈ l, p t = true → (f t).isFinite = true) :
    (coalescedSum ((l.filter p).map f)).value = (l.map fun t => if p t then (f t).value else 0).sum := by
  have hterms : ∀ x ∈ (l.filter p).map f, x.isFinite = true := by
    intro x hx
    obtain ⟨t, ht, rfl⟩ := List.mem_map.mp hx
    obtain ⟨ht, hp⟩ := List.mem_filter.mp ht
    exact h t ht hp
  rw [(coalescedSum_exact hexact hterms).2, List.map_map, sum_filter_map]
  rfl

theorem totalReceived_exact (hexact : Arithmetic.Exact) (hfinite : db.Finite) (a : CString) :
    (db.totalReceived a).value = (db.transactions.rows.map (received a)).sum :=
  coalescedSum_filter hexact _ _ fun t ht hcond => (hfinite t ht (Bool.and_eq_true_iff.mp hcond).2).1

theorem totalSent_exact (hexact : Arithmetic.Exact) (hfinite : db.Finite) (a : CString) :
    (db.totalSent a).value = (db.transactions.rows.map (sent a)).sum := by
  have hadd : ∀ t ∈ db.transactions.rows, (t.fromAddress == a && t.confirmed) = true →
      (Arithmetic.add t.amount.val t.fee.val).isFinite = true ∧
        (Arithmetic.add t.amount.val t.fee.val).value = t.amount.val.value + t.fee.val.value := by
    intro t ht hcond
    obtain ⟨hamount, hfee⟩ := hfinite t ht (Bool.and_eq_true_iff.mp hcond).2
    exact hexact.add hamount hfee
  refine (coalescedSum_filter hexact _ _ fun t ht hcond => (hadd t ht hcond).1).trans ?_
  refine congrArg List.sum (List.map_congr_left fun t ht => ?_)
  unfold sent
  split
  · rename_i hcond
    exact (hadd t ht hcond).2
  · rfl

/-- Row by row the balance is what was received less what was sent, but for a circular row: its debit is missing. -/
theorem effect_eq (a : CString) (t : TransactionRow) :
    effect a t = received a t - sent a t + if Circular a t then t.amount.val.value + t.fee.val.value else 0 := by
  unfold effect received sent entry Circular
  by_cases hconf : t.confirmed = true
  · by_cases hto : t.toAddress = a
    · by_cases hfrom : t.fromAddress = a
      · simp [hconf, hto, hfrom]
      · simp [hconf, hto, hfrom]
    · by_cases hfrom : t.fromAddress = a
      · simp [hconf, hto, hfrom]
        ring
      · simp [hconf, hto, hfrom]
  · simp [hconf]

theorem viewBalance_eq (hexact : Arithmetic.Exact) (hfinite : db.Finite) (a : CString) :
    (db.viewBalance a).value = (db.totalReceived a).value - (db.totalSent a).value +
      (db.transactions.rows.map fun t => if Circular a t then t.amount.val.value + t.fee.val.value else 0).sum := by
  rw [(viewBalance_exact hexact hfinite a).2, totalReceived_exact hexact hfinite, totalSent_exact hexact hfinite]
  clear hfinite
  induction db.transactions.rows with
  | nil => simp
  | cons t rows ih =>
    simp only [List.map_cons, List.sum_cons, ih, effect_eq a t]
    ring

/-- The CHECKs: an amount is positive, a fee is not negative. -/
theorem checked_amounts (ht : transactionsSchema.check t = true) : 0 < t.amount.val ∧ 0 ≤ t.fee.val := by
  simp only [transactionsSchema, Bool.and_eq_true, decide_eq_true_eq] at ht
  exact ht.1

theorem checked_values (ht : transactionsSchema.check t = true) (hamount : t.amount.val.isFinite = true)
    (hfee : t.fee.val.isFinite = true) : 0 < t.amount.val.value ∧ 0 ≤ t.fee.val.value :=
  (checked_amounts ht).imp (Double.lt_of_isFinite rfl hamount).mp (Double.le_of_isFinite rfl hfee).mp

theorem sum_ite_eq_zero_iff {α : Type} {p : α → Prop} [DecidablePred p] {f : α → ℚ} {l : List α}
    (h : ∀ x ∈ l, p x → 0 < f x) : (l.map fun x => if p x then f x else 0).sum = 0 ↔ ∀ x ∈ l, ¬p x := by
  induction l with
  | nil => simp
  | cons x l ih =>
    rw [List.forall_mem_cons] at h
    have hrest : 0 ≤ (l.map fun x => if p x then f x else 0).sum := by
      refine List.sum_nonneg fun q hq => ?_
      obtain ⟨y, hy, rfl⟩ := List.mem_map.mp hq
      split
      · rename_i hp
        exact le_of_lt (h.2 y hy hp)
      · exact le_refl _
    rw [List.map_cons, List.sum_cons, List.forall_mem_cons, ← ih h.2]
    by_cases hx : p x
    · have := h.1 hx
      simp only [hx, if_true, not_true, false_and, iff_false]
      linarith
    · simp [hx]

/-- The balance of an address is what it received less what it sent exactly when it sent nothing to itself. -/
theorem balance_eq_iff (hexact : Arithmetic.Exact) (hfinite : db.Finite) (a : CString) :
    (db.viewBalance a).value = (db.totalReceived a).value - (db.totalSent a).value ↔
      ∀ t ∈ db.transactions.rows, ¬Circular a t := by
  have hpositive : ∀ t ∈ db.transactions.rows, Circular a t → 0 < t.amount.val.value + t.fee.val.value :=
    fun t ht hcircular => by
      obtain ⟨hamount, hfee⟩ := hfinite t ht hcircular.1
      obtain ⟨hamount, hfee⟩ := checked_values (db.transactions.checked t ht) hamount hfee
      exact add_pos_of_pos_of_nonneg hamount hfee
  rw [viewBalance_eq hexact hfinite, add_eq_left, sum_ite_eq_zero_iff hpositive]

/-! ### All wallets -/

/-- The exact sum of the balances that the view shows. -/
def totalBalance (db : LedgerDB) : ℚ := (db.walletBalance.map (·.2.value)).sum

theorem nodup_wallets (db : LedgerDB) : (db.wallets.rows.map (·.address)).Nodup := by
  rw [List.Nodup, List.pairwise_map]
  refine db.wallets.distinct.imp fun {a b} hab => ?_
  simpa [walletsSchema] using hab

/-- Over distinct addresses a confirmed row between two of them adds up to its fee, taken away, or to its amount
    where both are the same. -/
theorem sum_entry (t : TransactionRow) {l : List CString} (hnodup : l.Nodup) (hto : t.toAddress ∈ l)
    (hfrom : t.fromAddress ∈ l) :
    (l.map fun a => entry a t).sum =
      if t.fromAddress = t.toAddress then t.amount.val.value else -t.fee.val.value := by
  have hsum : ∀ l : List CString, l.Nodup → (l.map fun a => entry a t).sum =
      (if t.toAddress ∈ l then t.amount.val.value else 0) +
        if t.fromAddress ∈ l ∧ t.fromAddress ≠ t.toAddress then -t.amount.val.value - t.fee.val.value else 0 := by
    intro l hl
    induction l with
    | nil => simp
    | cons a l ih =>
      obtain ⟨ha, hl⟩ := List.nodup_cons.mp hl
      rw [List.map_cons, List.sum_cons, ih hl]
      unfold entry
      by_cases hto : t.toAddress = a
      · subst hto
        by_cases hfrom : t.fromAddress = t.toAddress
        · simp [ha, hfrom]
        · simp [ha, hfrom]
      · by_cases hfrom : t.fromAddress = a
        · subst hfrom
          simp [ha, hto, Ne.symm hto]
          ring
        · simp [hto, hfrom]
  rw [hsum l hnodup, if_pos hto]
  by_cases heq : t.fromAddress = t.toAddress
  · simp [heq]
  · simp [heq, hfrom]
    ring

theorem totalBalance_append (hexact : Arithmetic.Exact) (hfinite : db'.Finite) (hwallets : db'.wallets = db.wallets)
    (hrows : db'.transactions.rows = db.transactions.rows ++ [t]) (hconf : t.confirmed = true)
    (hfrom : t.fromAddress ∈ db.wallets.rows.map (·.address)) (hto : t.toAddress ∈ db.wallets.rows.map (·.address)) :
    db'.totalBalance =
      db.totalBalance + if t.fromAddress = t.toAddress then t.amount.val.value else -t.fee.val.value := by
  have heffect : ∀ a : CString, (db'.viewBalance a).value = (db.viewBalance a).value + entry a t := fun a => by
    rw [viewBalance_append hexact hfinite hrows, effect, if_pos hconf]
  have hentry := sum_entry t db.nodup_wallets hto hfrom
  simp only [List.map_map, Function.comp_def] at hentry
  simp only [totalBalance, walletBalance, List.map_map, Function.comp_def, hwallets, heffect, List.sum_map_add, hentry]

/-- With exact numbers, for every wallet the balance is what it received less what it sent exactly when it has no
    confirmed row to itself; and a confirmed row between wallets takes its fee from the sum of all balances exactly
    when they are two. -/
theorem double_entry_iff (hexact : Arithmetic.Exact) (db : LedgerDB) (hfinite : db.Finite) :
    (∀ w ∈ db.wallets.rows,
      (db.viewBalance w.address).value = (db.totalReceived w.address).value - (db.totalSent w.address).value ↔
        ∀ t ∈ db.transactions.rows, ¬Circular w.address t) ∧
    ∀ (db' : LedgerDB) (t : TransactionRow), db'.wallets = db.wallets →
      db'.transactions.rows = db.transactions.rows ++ [t] → t.confirmed = true →
      t.amount.val.isFinite = true → t.fee.val.isFinite = true →
      t.fromAddress ∈ db.wallets.rows.map (·.address) → t.toAddress ∈ db.wallets.rows.map (·.address) →
        (db'.totalBalance = db.totalBalance - t.fee.val.value ↔ t.fromAddress ≠ t.toAddress) := by
  refine ⟨fun w _ => balance_eq_iff hexact hfinite w.address, ?_⟩
  intro db' t hwallets hrows hconf hamount hfee hfrom hto
  have ht : t ∈ db'.transactions.rows := hrows ▸ List.mem_append_right _ (List.mem_singleton_self _)
  have hfinite' : db'.Finite := hfinite.append hrows fun _ => ⟨hamount, hfee⟩
  obtain ⟨hamount, hfee⟩ := checked_values (db'.transactions.checked t ht) hamount hfee
  rw [totalBalance_append hexact hfinite' hwallets hrows hconf hfrom hto]
  by_cases heq : t.fromAddress = t.toAddress
  · simp only [heq, if_true, ne_eq, not_true, iff_false]
    intro hsame
    linarith
  · simp [heq, sub_eq_add_neg]

end LedgerDB

end

namespace LedgerDB

attribute [local instance] Arithmetic.unrounded

/-- The genesis wallet pays itself 10 for a fee of 1. -/
def circularPayment : Transaction where
  txHash := "c1"
  fromAddress := "genesis_miner"
  toAddress := "genesis_miner"
  amount := 10
  fee := 1
  signature := ""
  timestamp := 1700000000
  data := ""
  status := "confirmed"
  nonce := 0

def circularStore : LedgerDB := ((schema 1700000000).addTransaction circularPayment 1).2

theorem finite_circularStore : circularStore.Finite := by
  unfold Finite
  decide +kernel

/-- The store in which the genesis wallet has paid itself, and the step to it. -/
theorem double_entry_iff_circularStore :
    (∀ w ∈ circularStore.wallets.rows,
      (circularStore.viewBalance w.address).value =
          (circularStore.totalReceived w.address).value - (circularStore.totalSent w.address).value ↔
        ∀ t ∈ circularStore.transactions.rows, ¬Circular w.address t) ∧
    (circularStore.totalBalance = (schema 1700000000).totalBalance - 1 ↔
      CString.bind "genesis_miner" ≠ CString.bind "genesis_miner") :=
  ⟨(double_entry_iff Arithmetic.exact_unrounded circularStore finite_circularStore).1,
    (double_entry_iff Arithmetic.exact_unrounded (schema 1700000000) (by unfold Finite; decide +kernel)).2
      circularStore (circularPayment.row (some 1)) rfl (by decide +kernel) (by decide +kernel) rfl rfl
      (by decide +kernel) (by decide +kernel)⟩

/-- Paying itself, the genesis wallet gains. -/
theorem circular_payment_credited :
    Arithmetic.Exact ∧ circularStore.Finite ∧
      circularStore.viewBalance (.bind "genesis_miner") = 10010 ∧
      (circularStore.totalReceived (.bind "genesis_miner")).value -
        (circularStore.totalSent (.bind "genesis_miner")).value = 9999 ∧
      circularStore.totalBalance = (schema 1700000000).totalBalance + 10 ∧
      ¬∀ w ∈ circularStore.wallets.rows, (circularStore.viewBalance w.address).value =
        (circularStore.totalReceived w.address).value - (circularStore.totalSent w.address).value := by
  refine ⟨Arithmetic.exact_unrounded, finite_circularStore, by decide +kernel, by decide +kernel, by decide +kernel,
    fun h => ?_⟩
  revert h
  decide +kernel

end LedgerDB

end NexusLedger
