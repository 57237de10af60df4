import NexusLedger.Lib.Chain
import Mathlib.Data.List.Infix

/-! Branches: chains on one root whose rows all come from one stock, which names no hash twice. Two branches that
    meet in a row are the same below it. -/

namespace Links
variable {ρ κ η : Type} (L : Links ρ κ η)

/-- Rows that their hashes tell apart, from each other and from the root. -/
structure Named (root : η) (K : ρ → Prop) : Prop where
  injective : ∀ a b, K a → K b → L.hash a = L.hash b → a = b
  offRoot : ∀ a, K a → L.hash a ≠ root

/-- A stock that grew on a root: the row that one of its rows names as its predecessor is the root or of the stock,
    one key below. -/
structure Stock (next : κ → κ) (root : η) (base : κ) (K : ρ → Prop) : Prop extends L.Named root K where
  grown : ∀ a, K a → (L.prev a = root ∧ L.key a = next base) ∨
    ∃ p, K p ∧ L.prev a = L.hash p ∧ L.key a = next (L.key p)

/-- A row that has the root's hash, with rows of the stock above it, each naming the hash of the row before it. -/
structure Branch (root : η) (base : κ) (K : ρ → Prop) (g : ρ) (l : List ρ) : Prop where
  hash : L.hash g = root
  key : L.key g = base
  linked : (g :: l).IsChain fun a b => L.prev b = L.hash a
  stock : ∀ a ∈ l, K a

variable {L} {next : κ → κ} {root : η} {base : κ} {K : ρ → Prop} {g h a r last : ρ} {l m : List ρ}

namespace Branch

theorem left (hl : L.Branch root base K g (l ++ m)) : L.Branch root base K g l where
  hash := hl.hash
  key := hl.key
  linked := by
    have hchain := hl.linked
    rw [← List.cons_append] at hchain
    exact (List.isChain_append.mp hchain).1
  stock a ha := hl.stock a (List.mem_append_left _ ha)

theorem prev_singleton (hl : L.Branch root base K g [a]) : L.prev a = root :=
  ((List.isChain_cons_cons.mp hl.linked).1).trans hl.hash

theorem prev_concat (hl : L.Branch root base K g (l ++ [last] ++ [a])) : L.prev a = L.hash last := by
  have hchain := hl.linked
  rw [List.append_assoc, ← List.cons_append] at hchain
  exact (List.isChain_cons_cons.mp (List.isChain_append.mp hchain).2.1).1

/-! ### Two branches of one stock -/

/-- Below a row that both hold, two branches are the same: the row names its predecessor, and the stock has one row
    of that hash. -/
theorem front_eq (hK : L.Named root K) : ∀ {l m : List ρ} {a : ρ},
    L.Branch root base K g (l ++ [a]) → L.Branch root base K h (m ++ [a]) → l = m := by
  intro l
  induction l using List.reverseRecOn with
  | nil =>
    intro m a hl hm
    rcases List.eq_nil_or_concat' m with rfl | ⟨m, y, rfl⟩
    · rfl
    · exact absurd (hm.prev_concat.symm.trans hl.prev_singleton) (hK.offRoot y (hm.stock y (by simp)))
  | append_singleton l x ih =>
    intro m a hl hm
    rcases List.eq_nil_or_concat' m with rfl | ⟨m, y, rfl⟩
    · exact absurd (hl.prev_concat.symm.trans hm.prev_singleton) (hK.offRoot x (hl.stock x (by simp)))
    · have hxy : x = y :=
        hK.injective x y (hl.stock x (by simp)) (hm.stock y (by simp)) (hl.prev_concat.symm.trans hm.prev_concat)
      subst hxy
      rw [ih hl.left hm.left]

/-- Two branches that hold a row in common agree up to it. -/
theorem agree (hK : L.Named root K) (hl : L.Branch root base K g l) (hm : L.Branch root base K h m) (hal : a ∈ l)
    (ham : a ∈ m) : ∃ front l' m', l = front ++ a :: l' ∧ m = front ++ a :: m' := by
  obtain ⟨front, l', rfl⟩ := List.append_of_mem hal
  obtain ⟨front', m', rfl⟩ := List.append_of_mem ham
  rw [List.append_cons] at hl hm
  rw [front_eq hK hl.left hm.left]
  exact ⟨front', l', m', rfl, rfl⟩

/-- A branch whose rows are all on another one is a first part of it. -/
theorem isPrefix (hK : L.Named root (· ∈ l)) (hl : L.Branch root base (· ∈ l) g l)
    (hm : L.Branch root base (· ∈ l) h m) : m <+: l := by
  rcases List.eq_nil_or_concat' m with rfl | ⟨m, x, rfl⟩
  · exact List.nil_prefix
  · have hx : x ∈ m ++ [x] := List.mem_append_right _ (List.mem_singleton_self x)
    obtain ⟨l₁, l₂, hsplit⟩ := List.append_of_mem (hm.stock x hx)
    have hl' : L.Branch root base (· ∈ l) g (l₁ ++ [x] ++ l₂) := by
      rw [← List.append_cons, ← hsplit]
      exact hl
    rw [front_eq hK hm hl'.left, hsplit]
    exact ⟨l₂, (List.append_cons l₁ x l₂).symm⟩

/-! ### Keys of a branch -/

/-- A branch of a stock that grew leaves no key out. -/
theorem consecutive (hK : L.Stock next root base K) (hl : L.Branch root base K g l) :
    (g :: l).IsChain fun a b => L.key b = next (L.key a) := by
  induction l using List.reverseRecOn with
  | nil => exact List.isChain_singleton g
  | append_singleton l a ih =>
    rw [← List.cons_append, List.isChain_append]
    refine ⟨ih hl.left, List.isChain_singleton a, fun x hx y hy => ?_⟩
    cases hy
    have ha : K a := hl.stock a (by simp)
    rcases List.eq_nil_or_concat' l with rfl | ⟨l, z, rfl⟩
    · have hxg : g = x := Option.some.inj hx
      rcases hK.grown a ha with ⟨-, hkey⟩ | ⟨p, hp, hprev, -⟩
      · rw [hkey, ← hxg, hl.key]
      · exact absurd (hprev.symm.trans hl.prev_singleton) (hK.offRoot p hp)
    · rw [← List.cons_append, List.getLast?_concat] at hx
      have hxz : z = x := Option.some.inj hx
      have hz : K z := hl.stock z (by simp)
      rcases hK.grown a ha with ⟨hroot, -⟩ | ⟨p, hp, hprev, hkey⟩
      · exact absurd (hl.prev_concat.symm.trans hroot) (hK.offRoot z hz)
      · rw [hkey, ← hxz, hK.injective p z hp hz (hprev.symm.trans hl.prev_concat)]

/-! ### Steps of a branch -/

variable [LinearOrder κ]

theorem extended (hl : L.Branch root base K g l) (hr : K r) (hf : L.Follows (g :: l) r) :
    L.Branch root base K g (l ++ [r]) where
  hash := hl.hash
  key := hl.key
  linked := by
    obtain ⟨last, hlast, -, hprev, -⟩ := hf
    rw [← List.cons_append, List.isChain_append]
    refine ⟨hl.linked, List.isChain_singleton r, fun x hx y hy => ?_⟩
    rw [hlast] at hx
    cases hx
    cases hy
    exact hprev
  stock a ha := by
    rcases List.mem_append.mp ha with ha | ha
    · exact hl.stock a ha
    · rw [List.mem_singleton.mp ha]
      exact hr

/-- A row of the stock that competes with the last one holds no hash of a row below it. -/
theorem fresh_of_competes (hK : L.Named root K) (hl : L.Branch root base K g l) (hord : L.Linked (g :: l)) (hr : K r)
    (hc : L.Competes (g :: l) r) : L.hash r ∉ (g :: l).dropLast.map L.hash := by
  intro hmem
  obtain ⟨a, ha, heq⟩ := List.mem_map.mp hmem
  obtain ⟨last, hlast, hkey, -⟩ := hc
  have hlt := hord.key_lt_last hlast ha
  rcases List.mem_cons.mp ((List.dropLast_sublist _).subset ha) with rfl | hal
  · exact hK.offRoot r hr (heq.symm.trans hl.hash)
  · rw [hK.injective a r (hl.stock a hal) hr heq, hkey] at hlt
    exact lt_irrefl _ hlt

end Branch
end Links
