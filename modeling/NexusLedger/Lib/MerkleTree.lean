import Mathlib.Data.Nat.Log
import Mathlib.Data.Set.Function
import Mathlib.Tactic.Ring

/-! Binary trees over lists of any length. The list is folded in pairs, level by level, and an odd level is filled up
    with a copy of its last element; seen from the root, a half that would stay empty is a copy of the other half. -/

namespace NexusLedger

namespace MerkleTree
variable {α : Type}

theorem append_subset_append {l₁ l₂ r₁ r₂ : List α} (hl : l₁ ⊆ l₂) (hr : r₁ ⊆ r₂) : l₁ ++ r₁ ⊆ l₂ ++ r₂ :=
  List.append_subset.mpr ⟨List.subset_append_of_subset_left _ hl, List.subset_append_of_subset_right _ hr⟩

/-! ### One level -/

variable (node : α → α → α) (d : α)

/-- The nodes above the neighbours. -/
def level : List α → List α
  | [] => []
  | [a] => [node a a]
  | a :: b :: rest => node a b :: level rest

theorem length_level (xs : List α) : (level node xs).length = (xs.length + 1) / 2 := by
  induction xs using level.induct with
  | case1 => simp [level]
  | case2 a => simp [level]
  | case3 a b rest ih =>
    simp only [level, List.length_cons, ih]
    omega

theorem level_ne_nil {xs : List α} (h : xs ≠ []) : level node xs ≠ [] := by
  have hpos := List.length_pos_iff.mpr h
  rw [← List.length_pos_iff, length_level]
  omega

theorem take_level (m : Nat) (xs : List α) : (level node xs).take m = level node (xs.take (2 * m)) := by
  induction xs using level.induct generalizing m with
  | case1 => simp [level]
  | case2 a => cases m <;> simp [level, Nat.mul_succ]
  | case3 a b rest ih => cases m <;> simp [level, Nat.mul_succ, ih]

theorem drop_level (m : Nat) (xs : List α) : (level node xs).drop m = level node (xs.drop (2 * m)) := by
  induction xs using level.induct generalizing m with
  | case1 => simp [level]
  | case2 a => cases m <;> simp [level, Nat.mul_succ]
  | case3 a b rest ih => cases m <;> simp [level, Nat.mul_succ, ih]

/-! ### From the root down -/

/-- The list goes into a tree of depth `k`. -/
structure Fits (k : Nat) (xs : List α) : Prop where
  ne_nil : xs ≠ []
  length_le : xs.length ≤ 2 ^ k

/-- What lies under the two children of the root of a tree of depth `k + 1`. -/
def halves (k : Nat) (xs : List α) : List α × List α :=
  if xs.length ≤ 2 ^ k then (xs, xs) else (xs.take (2 ^ k), xs.drop (2 ^ k))

/-- The root of the tree of depth `k`; `d` stands in for the leaf of an empty list. -/
def tree : Nat → List α → α
  | 0, xs => xs.headD d
  | k + 1, xs => node (tree k (halves k xs).1) (tree k (halves k xs).2)

/-- The lowest level of the tree, filled up. -/
def leaves : Nat → List α → List α
  | 0, xs => xs
  | k + 1, xs => leaves k (halves k xs).1 ++ leaves k (halves k xs).2

/-- The pairs that the tree joins. -/
def pairs : Nat → List α → List (α × α)
  | 0, _ => []
  | k + 1, xs =>
    (tree node d k (halves k xs).1, tree node d k (halves k xs).2) ::
      (pairs k (halves k xs).1 ++ pairs k (halves k xs).2)

theorem Fits.halves {k : Nat} {xs : List α} (h : Fits (k + 1) xs) :
    Fits k (halves k xs).1 ∧ Fits k (halves k xs).2 := by
  unfold MerkleTree.halves
  split
  · rename_i hshort
    exact ⟨⟨h.ne_nil, hshort⟩, h.ne_nil, hshort⟩
  · rename_i hlong
    have hpos : 0 < 2 ^ k := Nat.two_pow_pos k
    have hfit := h.length_le
    rw [Nat.pow_succ] at hfit
    refine ⟨⟨?_, ?_⟩, ?_, ?_⟩
    · rw [← List.length_pos_iff, List.length_take]
      omega
    · rw [List.length_take]
      omega
    · rw [← List.length_pos_iff, List.length_drop]
      omega
    · rw [List.length_drop]
      omega

theorem Fits.eq_singleton {xs : List α} (h : Fits 0 xs) : ∃ a, xs = [a] :=
  List.length_eq_one_iff.mp (Nat.le_antisymm h.length_le (List.length_pos_iff.mpr h.ne_nil))

theorem Fits.level {k : Nat} {xs : List α} (h : Fits (k + 1) xs) : Fits k (level node xs) := by
  have hfit := h.length_le
  rw [Nat.pow_succ] at hfit
  refine ⟨level_ne_nil node h.ne_nil, ?_⟩
  rw [length_level]
  omega

theorem fits_clog {xs : List α} (h : xs ≠ []) : Fits (Nat.clog 2 xs.length) xs := ⟨h, Nat.le_pow_clog (by omega) _⟩

theorem length_leaves {k : Nat} {xs : List α} (h : Fits k xs) : (leaves k xs).length = 2 ^ k := by
  induction k generalizing xs with
  | zero =>
    obtain ⟨a, rfl⟩ := h.eq_singleton
    rfl
  | succ k ih =>
    rw [leaves, List.length_append, ih h.halves.1, ih h.halves.2, Nat.pow_succ]
    omega

/-! ### One level up -/

theorem halves_level (k : Nat) (xs : List α) :
    halves k (level node xs) = (level node (halves (k + 1) xs).1, level node (halves (k + 1) xs).2) := by
  have hhalf : (level node xs).length ≤ 2 ^ k ↔ xs.length ≤ 2 ^ (k + 1) := by
    rw [length_level, Nat.pow_succ]
    omega
  have hdouble : 2 * 2 ^ k = 2 ^ (k + 1) := by ring
  unfold halves
  by_cases hshort : xs.length ≤ 2 ^ (k + 1)
  · rw [if_pos (hhalf.mpr hshort), if_pos hshort]
  · rw [if_neg (mt hhalf.mp hshort), if_neg hshort, take_level, drop_level, hdouble]

/-- The tree over a list is the tree over the level above it, with one level more. -/
theorem tree_level {k : Nat} {xs : List α} (h : Fits (k + 1) xs) :
    tree node d k (level node xs) = tree node d (k + 1) xs := by
  induction k generalizing xs with
  | zero =>
    match xs, h.ne_nil, h.length_le with
    | [a], _, _ => rfl
    | [a, b], _, _ => rfl
  | succ k ih =>
    rw [tree, tree, halves_level, ih h.halves.1, ih h.halves.2]

theorem pairs_level_subset {k : Nat} {xs : List α} (h : Fits (k + 1) xs) :
    pairs node d k (level node xs) ⊆ pairs node d (k + 1) xs := by
  induction k generalizing xs with
  | zero => exact List.nil_subset _
  | succ k ih =>
    rw [pairs, pairs, halves_level, tree_level node d h.halves.1, tree_level node d h.halves.2]
    exact List.cons_subset_cons _ (append_subset_append (ih h.halves.1) (ih h.halves.2))

/-- The nodes `j` levels above the list. -/
def above (j : Nat) (xs : List α) : List α := (level node)^[j] xs

theorem Fits.above {k j : Nat} {xs : List α} (h : Fits (k + j) xs) :
    Fits k (above node j xs) ∧ tree node d k (above node j xs) = tree node d (k + j) xs ∧
      pairs node d k (above node j xs) ⊆ pairs node d (k + j) xs := by
  induction j generalizing xs with
  | zero => exact ⟨h, rfl, List.Subset.refl _⟩
  | succ j ih =>
    obtain ⟨hfits, htree, hpairs⟩ := ih (Fits.level node h)
    exact ⟨hfits, htree.trans (tree_level node d h), List.Subset.trans hpairs (pairs_level_subset node d h)⟩

/-! ### From the leaves up -/

/-- Level by level until one element is left. -/
def reduce : Nat → List α → List α
  | 0, xs => xs
  | fuel + 1, xs => if 1 < xs.length then reduce fuel (level node xs) else xs

/-- What is left is the root of the lowest tree with room for the list. -/
theorem reduce_eq_tree {fuel : Nat} {xs : List α} (hne : xs ≠ []) (hfuel : xs.length ≤ fuel + 1) :
    reduce node fuel xs = [tree node d (Nat.clog 2 xs.length) xs] := by
  have hsingle : ∀ {xs : List α}, xs ≠ [] → xs.length ≤ 1 → xs = [tree node d (Nat.clog 2 xs.length) xs] := by
    intro xs hne hone
    obtain ⟨a, rfl⟩ := Fits.eq_singleton ⟨hne, hone⟩
    rfl
  induction fuel generalizing xs with
  | zero => exact hsingle hne hfuel
  | succ fuel ih =>
    rw [reduce]
    split
    · rename_i hlong
      have hdepth : Nat.clog 2 xs.length = Nat.clog 2 (level node xs).length + 1 := by
        rw [length_level]
        exact Nat.clog_of_two_le (by omega) hlong
      have hfits : Fits (Nat.clog 2 (level node xs).length + 1) xs := hdepth ▸ fits_clog hne
      rw [ih (level_ne_nil node hne) (by rw [length_level]; omega), tree_level node d hfits, hdepth]
    · exact hsingle hne (by omega)

/-! ### What the root determines -/

section
variable {node d}

theorem tree_mem {P : α → Prop} (hnode : ∀ a b, P (node a b)) {k : Nat} {xs : List α} (h : Fits k xs)
    (hxs : ∀ x ∈ xs, P x) : P (tree node d k xs) := by
  cases k with
  | zero =>
    obtain ⟨a, rfl⟩ := h.eq_singleton
    exact hxs a List.mem_cons_self
  | succ k => exact hnode _ _

theorem mem_of_mem_halves {k : Nat} {xs : List α} {x : α} (h : x ∈ (halves k xs).1 ∨ x ∈ (halves k xs).2) : x ∈ xs := by
  unfold halves at h
  split at h
  · exact h.elim id id
  · exact h.elim List.mem_of_mem_take List.mem_of_mem_drop

theorem pairs_mem {P : α → Prop} (hnode : ∀ a b, P (node a b)) {k : Nat} {xs : List α} (h : Fits k xs)
    (hxs : ∀ x ∈ xs, P x) : ∀ p ∈ pairs node d k xs, P p.1 ∧ P p.2 := by
  induction k generalizing xs with
  | zero =>
    intro p hp
    cases hp
  | succ k ih =>
    have hleft : ∀ x ∈ (halves k xs).1, P x := fun x hx => hxs x (mem_of_mem_halves (Or.inl hx))
    have hright : ∀ x ∈ (halves k xs).2, P x := fun x hx => hxs x (mem_of_mem_halves (Or.inr hx))
    intro p hp
    rw [pairs, List.mem_cons, List.mem_append] at hp
    rcases hp with rfl | hp | hp
    · exact ⟨tree_mem hnode h.halves.1 hleft, tree_mem hnode h.halves.2 hright⟩
    · exact ih h.halves.1 hleft p hp
    · exact ih h.halves.2 hright p hp

/-- Lists that fill up to the same leaves have the same root. -/
theorem tree_eq_of_leaves_eq {k : Nat} {xs ys : List α} (hx : Fits k xs) (hy : Fits k ys)
    (h : leaves k xs = leaves k ys) : tree node d k xs = tree node d k ys := by
  induction k generalizing xs ys with
  | zero => exact congrArg (List.headD · d) h
  | succ k ih =>
    have hlen : (leaves k (halves k xs).1).length = (leaves k (halves k ys).1).length := by
      rw [length_leaves hx.halves.1, length_leaves hy.halves.1]
    obtain ⟨hleft, hright⟩ := List.append_inj h hlen
    rw [tree, tree, ih hx.halves.1 hy.halves.1 hleft, ih hx.halves.2 hy.halves.2 hright]

/-- No two of the pairs collide. -/
def Distinct (node : α → α → α) (ps : List (α × α)) : Prop :=
  Set.InjOn (fun p : α × α => node p.1 p.2) {p | p ∈ ps}

theorem Distinct.mono {ps qs : List (α × α)} (h : Distinct node qs) (hsub : ps ⊆ qs) : Distinct node ps :=
  Set.InjOn.mono hsub h

/-- Where none of the joined pairs collide, lists with the same root fill up to the same leaves. -/
theorem leaves_eq_of_tree_eq {k : Nat} {xs ys : List α} (hx : Fits k xs) (hy : Fits k ys)
    (hinj : Distinct node (pairs node d k xs ++ pairs node d k ys))
    (h : tree node d k xs = tree node d k ys) : leaves k xs = leaves k ys := by
  induction k generalizing xs ys with
  | zero =>
    obtain ⟨a, rfl⟩ := hx.eq_singleton
    obtain ⟨b, rfl⟩ := hy.eq_singleton
    exact congrArg (fun x => [x]) h
  | succ k ih =>
    have hpair := hinj (List.mem_append_left _ List.mem_cons_self) (List.mem_append_right _ List.mem_cons_self) h
    obtain ⟨hleft, hright⟩ := Prod.ext_iff.mp hpair
    have hsub (zs : List α) : pairs node d k (halves k zs).1 ⊆ pairs node d (k + 1) zs ∧
        pairs node d k (halves k zs).2 ⊆ pairs node d (k + 1) zs :=
      ⟨fun _ hp => List.mem_cons_of_mem _ (List.mem_append_left _ hp),
        fun _ hp => List.mem_cons_of_mem _ (List.mem_append_right _ hp)⟩
    have hinjLeft := hinj.mono (append_subset_append (hsub xs).1 (hsub ys).1)
    have hinjRight := hinj.mono (append_subset_append (hsub xs).2 (hsub ys).2)
    rw [leaves, leaves, ih hx.halves.1 hy.halves.1 hinjLeft hleft, ih hx.halves.2 hy.halves.2 hinjRight hright]

/-- The root of a list: the tree is as low as the list allows. -/
def root (node : α → α → α) (d : α) (xs : List α) : α := tree node d (Nat.clog 2 xs.length) xs

/-- The pairs that are joined for the root. -/
def joined (node : α → α → α) (d : α) (xs : List α) : List (α × α) := pairs node d (Nat.clog 2 xs.length) xs

/-- The first list, filled up, is the row of nodes at its depth in the tree of the second. -/
def Overlays (node : α → α → α) (xs ys : List α) : Prop :=
  ∃ j, Nat.clog 2 ys.length = Nat.clog 2 xs.length + j ∧
    leaves (Nat.clog 2 xs.length) xs = leaves (Nat.clog 2 xs.length) (above node j ys)

theorem root_eq_iff_of_le {xs ys : List α} {j : Nat} (hx : xs ≠ []) (hy : ys ≠ [])
    (hj : Nat.clog 2 ys.length = Nat.clog 2 xs.length + j)
    (hinj : Distinct node (joined node d xs ++ joined node d ys)) :
    root node d xs = root node d ys ↔
      leaves (Nat.clog 2 xs.length) xs = leaves (Nat.clog 2 xs.length) (above node j ys) := by
  obtain ⟨hfits, htree, hpairs⟩ := Fits.above node d (hj ▸ fits_clog hy)
  unfold joined at hinj
  unfold root
  rw [hj] at hinj ⊢
  rw [← htree]
  exact ⟨leaves_eq_of_tree_eq (fits_clog hx) hfits (hinj.mono (append_subset_append (List.Subset.refl _) hpairs)),
    tree_eq_of_leaves_eq (fits_clog hx) hfits⟩

/-- Two lists share their root exactly when one of them, filled up, lies over the other. -/
theorem root_eq_iff {xs ys : List α} (hx : xs ≠ []) (hy : ys ≠ [])
    (hinj : Distinct node (joined node d xs ++ joined node d ys)) :
    root node d xs = root node d ys ↔ Overlays node xs ys ∨ Overlays node ys xs := by
  have hback : Distinct node (joined node d ys ++ joined node d xs) :=
    hinj.mono (List.append_subset.mpr ⟨List.subset_append_right _ _, List.subset_append_left _ _⟩)
  constructor
  · intro h
    rcases Nat.le_total (Nat.clog 2 xs.length) (Nat.clog 2 ys.length) with hle | hle
    · obtain ⟨j, hj⟩ := Nat.exists_eq_add_of_le hle
      exact Or.inl ⟨j, hj, (root_eq_iff_of_le hx hy hj hinj).mp h⟩
    · obtain ⟨j, hj⟩ := Nat.exists_eq_add_of_le hle
      exact Or.inr ⟨j, hj, (root_eq_iff_of_le hy hx hj hback).mp h.symm⟩
  · rintro (⟨j, hj, h⟩ | ⟨j, hj, h⟩)
    · exact (root_eq_iff_of_le hx hy hj hinj).mpr h
    · exact ((root_eq_iff_of_le hy hx hj hback).mpr h).symm

end

end MerkleTree

end NexusLedger
