import Mathlib.Data.List.Basic
import Mathlib.Data.List.Count

/-! Texts on a stream, each one closed by a delimiter that none of them holds. A reader takes the text up to the
    first delimiter; what it skips after that is lost, and a stream that has lost something never yields all of
    the texts again. -/

namespace Framing
variable {α : Type} {d : α} {s t u : List α} {texts out : List (List α)}

/-- The stream of some texts. -/
def stream (d : α) (texts : List (List α)) : List α := texts.flatMap (· ++ [d])

@[simp] theorem stream_nil (d : α) : stream d [] = [] := rfl

@[simp] theorem stream_cons (d : α) (t : List α) (texts : List (List α)) :
    stream d (t :: texts) = t ++ d :: stream d texts := by
  simp [stream]

/-- Texts that are taken off a stream one after the other, with some elements skipped after each. -/
inductive Reads (d : α) : List α → List (List α) → Prop
  | stop (s : List α) : Reads d s []
  | text {t s : List α} {out : List (List α)} (skipped : ℕ) (plain : d ∉ t) (rest : Reads d (s.drop skipped) out) :
    Reads d (t ++ d :: s) (t :: out)

/-- A stream that starts in front of a delimiter starts so in one way. -/
theorem text_unique (ht : d ∉ t) (hu : d ∉ u) {s' : List α} (h : t ++ d :: s = u ++ d :: s') : t = u ∧ s = s' := by
  induction t generalizing u with
  | nil =>
    cases u with
    | nil => exact ⟨rfl, (List.cons.inj h).2⟩
    | cons x u => exact absurd ((List.cons.inj h).1 ▸ List.mem_cons_self) hu
  | cons x t ih =>
    cases u with
    | nil => exact absurd ((List.cons.inj h).1 ▸ List.mem_cons_self) ht
    | cons y u =>
      obtain ⟨rfl, htail⟩ := List.cons.inj h
      obtain ⟨rfl, hs⟩ := ih (fun hm => ht (List.mem_cons_of_mem _ hm)) (fun hm => hu (List.mem_cons_of_mem _ hm)) htail
      exact ⟨rfl, hs⟩

theorem reads_cons (ht : d ∉ t) (h : Reads d (t ++ d :: s) (u :: out)) :
    t = u ∧ ∃ skipped, Reads d (s.drop skipped) out := by
  generalize hwhole : t ++ d :: s = whole at h
  cases h with
  | text skipped plain rest =>
    obtain ⟨rfl, rfl⟩ := text_unique ht plain hwhole
    exact ⟨rfl, skipped, rest⟩

/-- What is left of a stream is what is left of the first text and all that follows, or less. -/
theorem suffix_stream_cons (h : s <:+ stream d (t :: texts)) :
    s <:+ stream d texts ∨ ∃ u, u <:+ t ∧ s = u ++ d :: stream d texts := by
  obtain ⟨front, hfront⟩ := h
  rw [stream_cons, List.append_eq_append_iff] at hfront
  rcases hfront with ⟨u, rfl, rfl⟩ | ⟨c, -, hc⟩
  · exact Or.inr ⟨u, List.suffix_append _ _, rfl⟩
  · rcases List.cons_eq_append_iff.mp hc with ⟨-, hs⟩ | ⟨c', -, hs⟩
    · exact Or.inr ⟨[], List.nil_suffix, hs⟩
    · exact Or.inl ⟨c', hs.symm⟩

theorem stream_append (d : α) (texts later : List (List α)) :
    stream d (texts ++ later) = stream d texts ++ stream d later := List.flatMap_append

/-- The first line of what is left of a stream is what is left of one text, and the texts behind it are whole. -/
theorem exists_text_of_suffix (hplain : ∀ u ∈ texts, d ∉ u) (ht : d ∉ t) (h : t ++ d :: s <:+ stream d texts) :
    ∃ before u after, texts = before ++ u :: after ∧ t <:+ u ∧ s = stream d after := by
  induction texts with
  | nil => exact absurd (List.suffix_nil.mp h) (by simp)
  | cons x texts ih =>
    rw [List.forall_mem_cons] at hplain
    rcases suffix_stream_cons h with hlater | ⟨u, hu, heq⟩
    · obtain ⟨before, u, after, rfl, htu, hs⟩ := ih hplain.2 hlater
      exact ⟨x :: before, u, after, rfl, htu, hs⟩
    · obtain ⟨rfl, hs⟩ := text_unique ht (fun hm => hplain.1 (hu.subset hm)) heq
      exact ⟨[], x, texts, rfl, hu, hs⟩

/-! ### What can be read from the rest of a stream -/

variable [DecidableEq α]

theorem count_stream (h : ∀ t ∈ texts, d ∉ t) : (stream d texts).count d = texts.length := by
  induction texts with
  | nil => rfl
  | cons t texts ih =>
    rw [List.forall_mem_cons] at h
    rw [stream_cons, List.count_append, List.count_eq_zero.mpr h.1, List.count_cons_self, ih h.2, List.length_cons]
    omega

/-- Each text costs the stream a delimiter. -/
theorem Reads.length_le (h : Reads d s out) : out.length ≤ s.count d := by
  induction h with
  | stop s => exact Nat.zero_le _
  | @text t s out skipped plain rest ih =>
    have hdrop : (s.drop skipped).count d ≤ s.count d := (List.drop_sublist skipped s).count_le d
    rw [List.length_cons, List.count_append, List.count_cons_self]
    omega

variable {τ β γ : Type} {got : List (τ × List α)}

/-- The rest of a stream has no more values than the stream has texts. The texts are read with a label each,
    which their values may depend on. -/
theorem Reads.length_values_le (value : τ × List α → Option β) (hplain : ∀ t ∈ texts, d ∉ t)
    (hs : s <:+ stream d texts) (h : Reads d s (got.map Prod.snd)) : (got.filterMap value).length ≤ texts.length := by
  calc (got.filterMap value).length ≤ got.length := List.length_filterMap_le value got
    _ = (got.map Prod.snd).length := (List.length_map _).symm
    _ ≤ s.count d := h.length_le
    _ ≤ (stream d texts).count d := hs.count_le d
    _ = texts.length := count_stream hplain

/-- Where no part of a text has the value of the whole, a stream that has lost something yields other values. -/
theorem Reads.values_ne (value : τ × List α → Option β) {text : γ → List α} {result : γ → β} {sent : List γ}
    (hplain : ∀ x ∈ sent, d ∉ text x)
    (hpart : ∀ x ∈ sent, ∀ u, u <:+ text x → u ≠ text x → ∀ k, value (k, u) ≠ some (result x))
    (hs : s <:+ stream d (sent.map text)) (hlost : s ≠ stream d (sent.map text))
    (h : Reads d s (got.map Prod.snd)) : got.filterMap value ≠ sent.map result := by
  intro heq
  have hlength := congrArg List.length heq
  rw [List.length_map] at hlength
  cases sent with
  | nil => exact hlost (List.suffix_nil.mp hs)
  | cons x sent =>
    rw [List.forall_mem_cons] at hplain
    have hplain' : ∀ t ∈ sent.map text, d ∉ t := List.forall_mem_map.mpr hplain.2
    rw [List.length_cons] at hlength
    rcases suffix_stream_cons hs with hlater | ⟨u, hu, rfl⟩
    · -- The first text is gone as a whole.
      have hle := h.length_values_le value hplain' hlater
      rw [List.length_map] at hle
      omega
    · have hproper : u ≠ text x := by
        rintro rfl
        exact hlost (stream_cons d _ _).symm
      cases got with
      | nil => cases hlength
      | cons y got =>
        obtain ⟨k, t⟩ := y
        obtain ⟨rfl, skipped, hrest⟩ := reads_cons (fun hm => hplain.1 (hu.subset hm)) h
        cases hvalue : value (k, u) with
        | none =>
          -- What is left of it has no value.
          have hle := hrest.length_values_le value hplain' (List.drop_suffix skipped _)
          rw [List.filterMap_cons_none hvalue] at hlength
          rw [List.length_map] at hle
          omega
        | some v =>
          rw [List.filterMap_cons_some hvalue, List.map_cons, List.cons.injEq] at heq
          rw [heq.1] at hvalue
          exact hpart x List.mem_cons_self u hu hproper k hvalue

end Framing
