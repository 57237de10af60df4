import Mathlib.Data.List.Basic
import Mathlib.Order.RelClasses

/-! Finite runs of a total step function: the states a run passes, its steps, and the rules that carry a
    fact about one step over to every state of a run. -/

namespace Transition
variable {σ α : Type} (step : σ → α → σ)

/-- The states of the run of `as` from `s`, the first and the last included. -/
def states : σ → List α → List σ
  | s, [] => [s]
  | s, a :: as => s :: states (step s a) as

/-- The steps of the run of `as` from `s`: the state before each one, with its label. -/
def steps : σ → List α → List (σ × α)
  | _, [] => []
  | s, a :: as => (s, a) :: steps (step s a) as

@[simp] theorem states_nil (s : σ) : states step s [] = [s] := rfl

@[simp] theorem states_cons (s : σ) (a : α) (as : List α) :
    states step s (a :: as) = s :: states step (step s a) as := rfl

@[simp] theorem steps_nil (s : σ) : steps step s [] = [] := rfl

@[simp] theorem steps_cons (s : σ) (a : α) (as : List α) :
    steps step s (a :: as) = (s, a) :: steps step (step s a) as := rfl

theorem mem_states_self (s : σ) (as : List α) : s ∈ states step s as := by
  cases as <;> simp

theorem snd_mem_of_mem_steps : ∀ {s : σ} {as : List α}, ∀ x ∈ steps step s as, x.2 ∈ as
  | s, a :: as, x, hx => by
    rw [steps_cons, List.mem_cons] at hx
    rcases hx with rfl | hx
    · exact List.mem_cons_self
    · exact List.mem_cons_of_mem _ (snd_mem_of_mem_steps x hx)

theorem map_snd_steps : ∀ (s : σ) (as : List α), (steps step s as).map Prod.snd = as
  | _, [] => rfl
  | s, a :: as => by rw [steps_cons, List.map_cons, map_snd_steps (step s a) as]

theorem foldl_mem_states : ∀ (s : σ) (as : List α), as.foldl step s ∈ states step s as
  | s, [] => by simp
  | s, a :: as => by
    rw [List.foldl_cons, states_cons]
    exact List.mem_cons_of_mem _ (foldl_mem_states (step s a) as)

theorem foldl_mem_states_append : ∀ (s : σ) (as bs : List α), as.foldl step s ∈ states step s (as ++ bs)
  | s, [], bs => mem_states_self step s bs
  | s, a :: as, bs => by
    rw [List.foldl_cons, List.cons_append, states_cons]
    exact List.mem_cons_of_mem _ (foldl_mem_states_append (step s a) as bs)

theorem step_mem_states : ∀ {s : σ} {as : List α}, ∀ x ∈ steps step s as, step x.1 x.2 ∈ states step s as
  | s, a :: as, x, hx => by
    rw [steps_cons, List.mem_cons] at hx
    rcases hx with rfl | hx
    · exact List.mem_cons_of_mem _ (mem_states_self step _ _)
    · exact List.mem_cons_of_mem _ (step_mem_states x hx)

theorem fst_mem_states : ∀ {s : σ} {as : List α}, ∀ x ∈ steps step s as, x.1 ∈ states step s as
  | s, a :: as, x, hx => by
    rw [steps_cons, List.mem_cons] at hx
    rcases hx with rfl | hx
    · exact List.mem_cons_self
    · exact List.mem_cons_of_mem _ (fst_mem_states x hx)

theorem steps_append : ∀ (s : σ) (as bs : List α),
    steps step s (as ++ bs) = steps step s as ++ steps step (as.foldl step s) bs
  | _, [], _ => rfl
  | s, a :: as, bs => by
    rw [List.cons_append, steps_cons, steps_cons, List.foldl_cons, steps_append (step s a) as bs, List.cons_append]

/-- Every step comes after the run of some first labels. -/
theorem exists_prefix_of_mem_steps : ∀ {s : σ} {as : List α}, ∀ x ∈ steps step s as,
    ∃ before after, as = before ++ x.2 :: after ∧ x.1 = before.foldl step s
  | s, a :: as, x, hx => by
    rw [steps_cons, List.mem_cons] at hx
    rcases hx with rfl | hx
    · exact ⟨[], as, rfl, rfl⟩
    · obtain ⟨before, after, heq, hfold⟩ := exists_prefix_of_mem_steps x hx
      exact ⟨a :: before, after, by rw [heq, List.cons_append], hfold⟩

variable {step}

theorem invariant {I : σ → Prop} (keep : ∀ s a, I s → I (step s a)) :
    ∀ {s : σ} {as : List α}, I s → ∀ t ∈ states step s as, I t
  | s, [], hs, t, ht => by
    rw [states_nil, List.mem_singleton] at ht
    exact ht ▸ hs
  | s, a :: as, hs, t, ht => by
    rw [states_cons, List.mem_cons] at ht
    rcases ht with rfl | ht
    · exact hs
    · exact invariant keep (keep s a hs) t ht

theorem invariant_of_steps {I : σ → Prop} {C : σ → α → Prop} (keep : ∀ s a, C s a → I s → I (step s a)) :
    ∀ {s : σ} {as : List α}, I s → (∀ x ∈ steps step s as, C x.1 x.2) → ∀ t ∈ states step s as, I t
  | s, [], hs, _, t, ht => by
    rw [states_nil, List.mem_singleton] at ht
    exact ht ▸ hs
  | s, a :: as, hs, hc, t, ht => by
    rw [states_cons, List.mem_cons] at ht
    rcases ht with rfl | ht
    · exact hs
    · rw [steps_cons, List.forall_mem_cons] at hc
      exact invariant_of_steps keep (keep s a hc.1 hs) hc.2 t ht

theorem invariant_steps {I : σ → Prop} (keep : ∀ s a, I s → I (step s a)) :
    ∀ {s : σ} {as : List α}, I s → ∀ x ∈ steps step s as, I x.1
  | s, a :: as, hs, x, hx => by
    rw [steps_cons, List.mem_cons] at hx
    rcases hx with rfl | hx
    · exact hs
    · exact invariant_steps keep (keep s a hs) x hx

/-- What a step puts out only while it bears no mark, and what bears one from then on, is put out once. -/
theorem pairwise_once {κ : Type} {O : σ → α → κ → Prop} {M : σ → κ → Prop} {C : σ → α → Prop}
    (lasts : ∀ s a k, M s k → M (step s a) k)
    (marks : ∀ s a k, C s a → O s a k → ¬M s k ∧ M (step s a) k) :
    ∀ {s : σ} {as : List α}, (∀ x ∈ steps step s as, C x.1 x.2) →
      (steps step s as).Pairwise fun x y => ∀ k, O x.1 x.2 k → ¬O y.1 y.2 k
  | s, [], _ => List.Pairwise.nil
  | s, a :: as, hc => by
    rw [steps_cons, List.forall_mem_cons] at hc
    rw [steps_cons, List.pairwise_cons]
    refine ⟨fun y hy k hfirst hagain => ?_, pairwise_once lasts marks hc.2⟩
    have hmarked : M y.1 k := invariant_steps (fun t b => lasts t b k) (marks s a k hc.1 hfirst).2 y hy
    exact (marks y.1 y.2 k (hc.2 y hy) hagain).1 hmarked

/-- When a step keeps `P` exactly under the condition `C`, a run keeps `P` in all its states exactly when
    all its steps meet `C`. The invariant may speak of the steps that are to come. -/
theorem forall_states_iff {I : σ → List α → Prop} {P : σ → Prop} {C : σ → α → Prop}
    (keep : ∀ s a as, I s (a :: as) → I (step s a) as)
    (exact_step : ∀ s a as, I s (a :: as) → P s → (P (step s a) ↔ C s a)) :
    ∀ {s : σ} {as : List α}, I s as → P s → ((∀ t ∈ states step s as, P t) ↔ ∀ x ∈ steps step s as, C x.1 x.2)
  | s, [], _, hp => by simp [hp]
  | s, a :: as, hs, hp => by
    rw [states_cons, steps_cons, List.forall_mem_cons, List.forall_mem_cons]
    constructor
    · rintro ⟨-, h⟩
      have hp' : P (step s a) := h _ (mem_states_self step _ _)
      exact ⟨(exact_step s a as hs hp).mp hp', (forall_states_iff keep exact_step (keep s a as hs) hp').mp h⟩
    · rintro ⟨hc, h⟩
      have hp' : P (step s a) := (exact_step s a as hs hp).mpr hc
      exact ⟨hp, (forall_states_iff keep exact_step (keep s a as hs) hp').mpr h⟩

theorem isChain_states_iff {R : σ → σ → Prop} :
    ∀ {s : σ} {as : List α},
      (states step s as).IsChain R ↔ ∀ x ∈ steps step s as, R x.1 (step x.1 x.2)
  | s, [] => by simp
  | s, a :: as => by
    have ih : (states step (step s a) as).IsChain R ↔ ∀ x ∈ steps step (step s a) as, R x.1 (step x.1 x.2) :=
      isChain_states_iff
    have hcons : (s :: states step (step s a) as).IsChain R ↔
        R s (step s a) ∧ (states step (step s a) as).IsChain R := by
      cases as <;> simp
    rw [states_cons, hcons, ih, steps_cons, List.forall_mem_cons]

/-- A transitive relation holds between every state of a run and every later one exactly when each single
    step keeps it. -/
theorem pairwise_states_iff {R : σ → σ → Prop} (trans : ∀ s t u, R s t → R t u → R s u) {s : σ} {as : List α} :
    (states step s as).Pairwise R ↔ ∀ x ∈ steps step s as, R x.1 (step x.1 x.2) := by
  have : Trans R R R := ⟨fun {_ _ _} h₁ h₂ => trans _ _ _ h₁ h₂⟩
  rw [← List.isChain_iff_pairwise, isChain_states_iff]

/-- The state after some first steps, and the last one of a longer run. -/
theorem rel_of_pairwise_states {R : σ → σ → Prop} : ∀ {s : σ} {as bs : List α} {b : α},
    (states step s (as ++ b :: bs)).Pairwise R → R (as.foldl step s) ((as ++ b :: bs).foldl step s)
  | s, [], bs, b, h => by
    rw [List.nil_append, states_cons, List.pairwise_cons] at h
    exact h.1 _ (foldl_mem_states step (step s b) bs)
  | s, a :: as, bs, b, h => by
    rw [List.cons_append, states_cons, List.pairwise_cons] at h
    rw [List.cons_append, List.foldl_cons, List.foldl_cons]
    exact rel_of_pairwise_states h.2

/-! ### Runs on two levels -/

/-- When every step is matched by a run of another system between related states, with the same labels where a label
    shows, every run is. -/
theorem exists_simulation {τ β κ : Type} {step' : τ → β → τ} {R : σ → τ → Prop} {C : σ → α → Prop} {label : α → Option κ}
    {label' : β → Option κ}
    (sim : ∀ s a t, C s a → R s t → ∃ bs : List β, bs.filterMap label' = (label a).toList ∧
      R (step s a) (bs.foldl step' t)) :
    ∀ {s : σ} {as : List α} {t : τ}, R s t → (∀ x ∈ steps step s as, C x.1 x.2) →
      ∃ bs : List β, bs.filterMap label' = as.filterMap label ∧ R (as.foldl step s) (bs.foldl step' t)
  | s, [], t, h, _ => ⟨[], rfl, h⟩
  | s, a :: as, t, h, hc => by
    rw [steps_cons, List.forall_mem_cons] at hc
    obtain ⟨bs, hlabels, hstep⟩ := sim s a t hc.1 h
    obtain ⟨cs, hlabels', hrun⟩ := exists_simulation sim hstep hc.2
    refine ⟨bs ++ cs, ?_, by rw [List.foldl_append]; exact hrun⟩
    rw [List.filterMap_append, hlabels, hlabels', List.filterMap_cons]
    cases label a <;> rfl

end Transition
