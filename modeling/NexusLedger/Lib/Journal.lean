import Mathlib.Data.List.TakeDrop

/-! A store that changes by single writes, and a list of writes that may be cut off after any of them. -/

namespace Journal
variable {σ ω : Type} (apply : σ → ω → σ) {s t : σ} {ws : List ω} {w : ω}

/-- What the store may hold when the writes are cut off. -/
def Cut (s : σ) (ws : List ω) (t : σ) : Prop := ∃ k, t = (ws.take k).foldl apply s

variable {apply}

theorem cut_nil : Cut apply s [] t ↔ t = s := by
  simp [Cut]

theorem cut_cons : Cut apply s (w :: ws) t ↔ t = s ∨ Cut apply (apply s w) ws t := by
  constructor
  · rintro ⟨k, rfl⟩
    cases k with
    | zero => exact Or.inl rfl
    | succ k => exact Or.inr ⟨k, rfl⟩
  · rintro (rfl | ⟨k, rfl⟩)
    · exact ⟨0, rfl⟩
    · exact ⟨k + 1, rfl⟩

theorem cut_self (s : σ) (ws : List ω) : Cut apply s ws (ws.foldl apply s) :=
  ⟨ws.length, by rw [List.take_length]⟩

/-- What every write of the list keeps, a cut keeps. -/
theorem Cut.keeps {I : σ → Prop} (h : Cut apply s ws t) (keep : ∀ w ∈ ws, ∀ s, I s → I (apply s w)) (hs : I s) :
    I t := by
  induction ws generalizing s with
  | nil => exact cut_nil.mp h ▸ hs
  | cons w ws ih =>
    rw [List.forall_mem_cons] at keep
    rcases cut_cons.mp h with rfl | h
    · exact hs
    · exact ih h keep.2 (keep.1 s hs)

theorem foldl_keeps {I : σ → Prop} (keep : ∀ w ∈ ws, ∀ s, I s → I (apply s w)) (hs : I s) :
    I (ws.foldl apply s) := (cut_self s ws).keeps keep hs

end Journal
