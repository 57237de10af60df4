import Mathlib.Data.List.Chain
import Mathlib.Order.Lattice

/-! Hash chains: rows that ascend in a key, each naming the hash of the row before it. The two operations
    are an extension above the last row and an exchange of the last row, which deletes before it inserts.
    A chain refuses a row whose hash it holds, and may refuse others. -/

/-- How a row names itself and its predecessor. -/
structure Links (ρ κ η : Type) where
  key : ρ → κ
  hash : ρ → η
  prev : ρ → η

namespace Links
variable {ρ κ η : Type} [LinearOrder κ] (L : Links ρ κ η)

structure Linked (l : List ρ) : Prop where
  ascending : l.Pairwise fun a b => L.key a < L.key b
  linked : l.IsChain fun a b => L.prev b = L.hash a

/-- Whether a row can follow the last one. -/
def Follows (l : List ρ) (r : ρ) : Prop :=
  ∃ last, l.getLast? = some last ∧ L.key last < L.key r ∧ L.prev r = L.hash last ∧ L.hash r ∉ l.map L.hash

/-- Whether a row competes with the last one. -/
def Competes (l : List ρ) (r : ρ) : Prop :=
  ∃ last, l.getLast? = some last ∧ L.key r = L.key last ∧ L.prev r = L.prev last

/-- What one operation makes of a chain that it does not empty. -/
inductive Step (l : List ρ) : List ρ → Prop
  | kept : Step l l
  | extended (r : ρ) (h : L.Follows l r) : Step l (l ++ [r])
  | replaced (r : ρ) (h : L.Competes l r) (fresh : L.hash r ∉ l.dropLast.map L.hash) : Step l (l.dropLast ++ [r])
  | dropped (r : ρ) (h : L.Competes l r) (left : l.dropLast ≠ []) : Step l l.dropLast

variable {L} {l m : List ρ} {r a b last : ρ}

/-! ### The last row -/

theorem Linked.key_le_last (h : L.Linked l) (hlast : l.getLast? = some last) (ha : a ∈ l) :
    L.key a ≤ L.key last := by
  obtain ⟨front, rfl⟩ := List.getLast?_eq_some_iff.mp hlast
  rcases List.mem_append.mp ha with ha | ha
  · exact le_of_lt ((List.pairwise_append.mp h.ascending).2.2 a ha last (by simp))
  · rw [List.mem_singleton.mp ha]

theorem Linked.key_lt_last (h : L.Linked l) (hlast : l.getLast? = some last) (ha : a ∈ l.dropLast) :
    L.key a < L.key last := by
  obtain ⟨front, rfl⟩ := List.getLast?_eq_some_iff.mp hlast
  rw [List.dropLast_concat] at ha
  exact (List.pairwise_append.mp h.ascending).2.2 a ha last (by simp)

/-! ### Steps keep a chain linked -/

theorem Linked.dropLast (h : L.Linked l) : L.Linked l.dropLast where
  ascending := h.ascending.sublist (List.dropLast_sublist l)
  linked := h.linked.dropLast

theorem Linked.extended (h : L.Linked l) (hf : L.Follows l r) : L.Linked (l ++ [r]) := by
  obtain ⟨last, hlast, hkey, hprev, -⟩ := hf
  constructor
  · rw [List.pairwise_append]
    refine ⟨h.ascending, List.pairwise_singleton _ _, fun x hx y hy => ?_⟩
    rw [List.mem_singleton.mp hy]
    exact lt_of_le_of_lt (h.key_le_last hlast hx) hkey
  · rw [List.isChain_append]
    refine ⟨h.linked, List.isChain_singleton _, fun x hx y hy => ?_⟩
    rw [hlast] at hx
    cases hx
    cases hy
    exact hprev

theorem Linked.replaced (h : L.Linked l) (hc : L.Competes l r) : L.Linked (l.dropLast ++ [r]) := by
  obtain ⟨last, hlast, hkey, hprev⟩ := hc
  constructor
  · rw [List.pairwise_append]
    refine ⟨h.dropLast.ascending, List.pairwise_singleton _ _, fun x hx y hy => ?_⟩
    rw [List.mem_singleton.mp hy, hkey]
    exact h.key_lt_last hlast hx
  · rw [List.isChain_append]
    refine ⟨h.dropLast.linked, List.isChain_singleton _, fun x hx y hy => ?_⟩
    cases hy
    rw [hprev]
    obtain ⟨front, rfl⟩ := List.getLast?_eq_some_iff.mp hlast
    rw [List.dropLast_concat] at hx
    exact (List.isChain_append.mp h.linked).2.2 x hx last rfl

theorem Step.linked (h : L.Linked l) (hs : L.Step l m) : L.Linked m := by
  cases hs with
  | kept => exact h
  | extended r hf => exact h.extended hf
  | replaced r hc _ => exact h.replaced hc
  | dropped r hc _ => exact h.dropLast

theorem Step.ne_nil (hl : l ≠ []) (hs : L.Step l m) : m ≠ [] := by
  cases hs with
  | kept => exact hl
  | extended r _ => simp
  | replaced r _ _ => simp
  | dropped r _ left => exact left

/-- What holds of every row, and of each one that follows or competes, holds after a step. -/
theorem Step.forall_mem {P : ρ → Prop} (hs : L.Step l m) (hl : ∀ a ∈ l, P a)
    (hf : ∀ r, L.Follows l r → P r) (hc : ∀ r, L.Competes l r → P r) : ∀ a ∈ m, P a := by
  intro a ha
  cases hs with
  | kept => exact hl a ha
  | extended r h =>
    rcases List.mem_append.mp ha with ha | ha
    · exact hl a ha
    · rw [List.mem_singleton.mp ha]
      exact hf r h
  | replaced r h _ =>
    rcases List.mem_append.mp ha with ha | ha
    · exact hl a ((List.dropLast_sublist l).subset ha)
    · rw [List.mem_singleton.mp ha]
      exact hc r h
  | dropped r _ _ => exact hl a ((List.dropLast_sublist l).subset ha)

/-! ### Neighbours in key order -/

/-- Of two rows with no third one between them in key order, the upper one names the lower one's hash. -/
theorem Linked.prev_eq_of_adjacent (h : L.Linked l) (ha : a ∈ l) (hb : b ∈ l) (hab : L.key a < L.key b)
    (hnone : ∀ c ∈ l, ¬(L.key a < L.key c ∧ L.key c < L.key b)) : L.prev b = L.hash a := by
  obtain ⟨i, hi, rfl⟩ := List.mem_iff_getElem.mp ha
  obtain ⟨j, hj, rfl⟩ := List.mem_iff_getElem.mp hb
  have hmono := List.pairwise_iff_getElem.mp h.ascending
  have hij : i < j := by
    rcases Nat.lt_trichotomy i j with hij | rfl | hji
    · exact hij
    · exact absurd hab (lt_irrefl _)
    · exact absurd (hmono j i hj hi hji) (not_lt_of_gt hab)
  -- A row strictly between the two indices would lie between the two keys.
  have hj' : j = i + 1 := by
    by_contra hne
    have hi1 : i + 1 < l.length := by omega
    exact hnone l[i + 1] (List.getElem_mem hi1)
      ⟨hmono i (i + 1) hi hi1 (by omega), hmono (i + 1) j hi1 hj (by omega)⟩
  subst hj'
  exact List.isChain_iff_getElem.mp h.linked i hj

end Links
