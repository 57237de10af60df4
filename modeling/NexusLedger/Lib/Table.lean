import Mathlib.Data.List.Pairwise

/-! Tables of a relational database: rows in insertion order under a CHECK constraint on each row and
    UNIQUE constraints between rows. A value of `Table` meets its constraints by construction; a statement
    that would break one fails and leaves the table as it is. -/

/-- The constraints of a table: the CHECK on a row, and whether a UNIQUE constraint lets a second row stand
    beside a first one. -/
structure Schema (ρ : Type) where
  check : ρ → Bool
  clash : ρ → ρ → Bool

@[ext]
structure Table {ρ : Type} (S : Schema ρ) where
  rows : List ρ
  checked : ∀ r ∈ rows, S.check r = true
  distinct : rows.Pairwise fun a b => S.clash a b = false

namespace Table
variable {ρ : Type} {S : Schema ρ}

/-- The places of some rows with one more at the end. -/
theorem getElem?_concat_iff {l : List ρ} {r x : ρ} {i : Nat} :
    (l ++ [r])[i]? = some x ↔ l[i]? = some x ∨ (i = l.length ∧ x = r) := by
  rcases Nat.lt_trichotomy i l.length with hlt | rfl | hgt
  · rw [List.getElem?_append_left hlt]
    exact ⟨Or.inl, fun h => h.resolve_right fun heq => by omega⟩
  · rw [List.getElem?_concat_length, List.getElem?_eq_none (Nat.le_refl _), Option.some.injEq]
    exact ⟨fun h => Or.inr ⟨rfl, h.symm⟩, fun h => (h.resolve_left (fun hnone => nomatch hnone)).2.symm⟩
  · rw [List.getElem?_eq_none (by rw [List.length_append, List.length_singleton]; omega),
      List.getElem?_eq_none (by omega)]
    refine iff_of_false (fun hnone => nomatch hnone) ?_
    rintro (hnone | ⟨heq, -⟩)
    · cases hnone
    · omega

def empty : Table S := ⟨[], by simp, by simp⟩

/-- Whether `INSERT` of the row meets every constraint. -/
def fits (t : Table S) (r : ρ) : Bool :=
  S.check r && t.rows.all fun a => !S.clash a r

theorem fits_iff {t : Table S} {r : ρ} :
    t.fits r = true ↔ S.check r = true ∧ ∀ a ∈ t.rows, S.clash a r = false := by
  simp [fits]

/-- `INSERT`: the row becomes the last one, or the statement fails. -/
def insert (t : Table S) (r : ρ) : Option (Table S) :=
  if h : t.fits r = true then
    some
      { rows := t.rows ++ [r]
        checked := by
          intro x hx
          rcases List.mem_append.mp hx with hx | hx
          · exact t.checked x hx
          · rw [List.mem_singleton.mp hx]
            exact (fits_iff.mp h).1
        distinct := by
          rw [List.pairwise_append]
          refine ⟨t.distinct, List.pairwise_singleton _ _, fun a ha b hb => ?_⟩
          rw [List.mem_singleton.mp hb]
          exact (fits_iff.mp h).2 a ha }
  else none

/-- `INSERT OR IGNORE`: a row that would break a constraint is passed over. -/
def insertOrIgnore (t : Table S) (r : ρ) : Table S := (t.insert r).getD t

/-- `DELETE … WHERE p`. -/
def delete (t : Table S) (p : ρ → Bool) : Table S where
  rows := t.rows.filter fun r => !p r
  checked r hr := t.checked r (List.mem_filter.mp hr).1
  distinct := t.distinct.sublist List.filter_sublist

/-- `UPDATE` of columns that no constraint reads. -/
def update (t : Table S) (f : ρ → ρ) (hcheck : ∀ r, S.check (f r) = S.check r)
    (hclash : ∀ a b, S.clash (f a) (f b) = S.clash a b) : Table S where
  rows := t.rows.map f
  checked r hr := by
    obtain ⟨a, ha, rfl⟩ := List.mem_map.mp hr
    rw [hcheck]
    exact t.checked a ha
  distinct := by
    rw [List.pairwise_map]
    exact t.distinct.imp fun h => (hclash _ _).trans h

theorem insert_of_fits {t : Table S} {r : ρ} (h : t.fits r = true) :
    ∃ u, t.insert r = some u ∧ u.rows = t.rows ++ [r] := by
  unfold insert
  rw [dif_pos h]
  exact ⟨_, rfl, rfl⟩

theorem insert_eq_none {t : Table S} {r : ρ} : t.insert r = none ↔ t.fits r = false := by
  unfold insert
  split
  · rename_i h
    simp [h]
  · rename_i h
    simpa using h

theorem insert_eq_some {t u : Table S} {r : ρ} (h : t.insert r = some u) :
    t.fits r = true ∧ u.rows = t.rows ++ [r] := by
  unfold insert at h
  split at h
  · rename_i hf
    cases h
    exact ⟨hf, rfl⟩
  · cases h

theorem insertOrIgnore_of_fits {t : Table S} {r : ρ} (h : t.fits r = true) :
    (t.insertOrIgnore r).rows = t.rows ++ [r] := by
  obtain ⟨u, hu, hrows⟩ := insert_of_fits h
  rw [insertOrIgnore, hu]
  exact hrows

/-- A row that holds what the table has under a UNIQUE constraint already. -/
theorem insertOrIgnore_of_clash {t : Table S} {a r : ρ} (ha : a ∈ t.rows) (h : S.clash a r = true) :
    t.insertOrIgnore r = t := by
  have hfits : t.fits r = false := by
    rw [Bool.eq_false_iff]
    intro hfits
    have hdistinct := (fits_iff.mp hfits).2 a ha
    rw [h] at hdistinct
    cases hdistinct
  rw [insertOrIgnore, insert_eq_none.mpr hfits]
  rfl

@[simp] theorem delete_rows (t : Table S) (p : ρ → Bool) : (t.delete p).rows = t.rows.filter fun r => !p r := rfl

theorem eq_of_clash {t : Table S} (symm : ∀ a b, S.clash a b = S.clash b a) {a b : ρ} (ha : a ∈ t.rows)
    (hb : b ∈ t.rows) (h : S.clash a b = true) : a = b := by
  by_contra hne
  have : Std.Symm fun a b => S.clash a b = false := ⟨fun x y hxy => (symm y x).trans hxy⟩
  have := t.distinct.forall ha hb hne
  rw [h] at this
  cases this

end Table
