import Mathlib.Data.List.Pairwise

/-! Ordered sets under a strict order, as C++ `std::set` keeps them: the elements ascend, and an element goes in
    unless the place where it belongs is taken by one that it does not compare with. -/

/-- A comparison that puts elements in order. That elements which do not compare with each other compare alike with
    all others, as `std::set` demands, is not asked for. -/
structure StrictOrder (α : Type) where
  lt : α → α → Bool
  asymm : ∀ a b, lt a b = true → lt b a = false
  trans : ∀ a b c, lt a b = true → lt b c = true → lt a c = true

namespace StrictOrder
variable {α : Type} (O : StrictOrder α)

/-- Neither element comes before the other one. -/
def equiv (a b : α) : Bool := !O.lt a b && !O.lt b a

theorem irrefl (a : α) : O.lt a a = false := by
  by_contra h
  rw [Bool.not_eq_false] at h
  have := O.asymm a a h
  rw [h] at this
  cases this

/-- Where to put an element: before the first one it precedes, nowhere beside an equivalent one. -/
def insertInto (x : α) : List α → List α
  | [] => [x]
  | y :: l => if O.lt x y then x :: y :: l else if O.lt y x then y :: insertInto x l else y :: l

theorem mem_insertInto {x z : α} : ∀ {l : List α}, z ∈ O.insertInto x l → z = x ∨ z ∈ l
  | [], h => by simpa [insertInto] using h
  | y :: l, h => by
    unfold insertInto at h
    split at h
    · simpa using h
    · split at h
      · rcases List.mem_cons.mp h with rfl | h
        · simp
        · rcases mem_insertInto h with rfl | h
          · simp
          · simp [h]
      · exact Or.inr h

theorem insertInto_pairwise {x : α} :
    ∀ {l : List α}, (l.Pairwise fun a b => O.lt a b = true) → (O.insertInto x l).Pairwise fun a b => O.lt a b = true
  | [], _ => List.pairwise_singleton _ _
  | y :: l, h => by
    obtain ⟨hy, hl⟩ := List.pairwise_cons.mp h
    unfold insertInto
    split
    · rename_i hxy
      refine List.pairwise_cons.mpr ⟨fun z hz => ?_, h⟩
      rcases List.mem_cons.mp hz with rfl | hz
      · exact hxy
      · exact O.trans _ _ _ hxy (hy z hz)
    · split
      · rename_i hyx
        refine List.pairwise_cons.mpr ⟨fun z hz => ?_, insertInto_pairwise hl⟩
        rcases O.mem_insertInto hz with rfl | hz
        · exact hyx
        · exact hy z hz
      · exact h

/-- An element that compares equivalent to a stored one changes nothing. -/
theorem insertInto_of_equiv {x : α} :
    ∀ {l : List α}, (l.Pairwise fun a b => O.lt a b = true) → (∃ y ∈ l, O.equiv x y = true) → O.insertInto x l = l
  | [], _, h => by
    obtain ⟨y, hy, -⟩ := h
    cases hy
  | y :: l, hsorted, ⟨z, hz, hequiv⟩ => by
    obtain ⟨hy, hl⟩ := List.pairwise_cons.mp hsorted
    obtain ⟨hxz, hzx⟩ : O.lt x z = false ∧ O.lt z x = false := by simpa [equiv] using hequiv
    unfold insertInto
    split
    · rename_i hxy
      -- Then `x` precedes `z` too.
      rcases List.mem_cons.mp hz with rfl | hz
      · rw [hxy] at hxz
        cases hxz
      · rw [O.trans _ _ _ hxy (hy z hz)] at hxz
        cases hxz
    · split
      · rename_i hyx
        rcases List.mem_cons.mp hz with rfl | hz
        · rw [hyx] at hzx
          cases hzx
        · rw [insertInto_of_equiv hl ⟨z, hz, hequiv⟩]
      · rfl

theorem insertInto_perm {x : α} :
    ∀ {l : List α}, (∀ y ∈ l, O.equiv x y = false) → (O.insertInto x l).Perm (x :: l)
  | [], _ => List.Perm.refl _
  | y :: l, h => by
    obtain ⟨hxy, hl⟩ := List.forall_mem_cons.mp h
    unfold insertInto
    split
    · exact List.Perm.refl _
    · rename_i hlt
      split
      · exact ((insertInto_perm hl).cons y).trans (List.Perm.swap x y l)
      · rename_i hgt
        simp [equiv, hlt, hgt] at hxy

end StrictOrder

@[ext]
structure OrderedSet {α : Type} (O : StrictOrder α) where
  elems : List α
  sorted : elems.Pairwise fun a b => O.lt a b = true

namespace OrderedSet
variable {α : Type} {O : StrictOrder α}

def empty : OrderedSet O := ⟨[], List.Pairwise.nil⟩

def size (s : OrderedSet O) : Nat := s.elems.length

/-- `insert`: no effect when an equivalent element is stored. -/
def insert (s : OrderedSet O) (x : α) : OrderedSet O := ⟨O.insertInto x s.elems, O.insertInto_pairwise s.sorted⟩

/-- `erase` by value: removes the element equivalent to it. -/
def erase (s : OrderedSet O) (x : α) : OrderedSet O :=
  ⟨s.elems.filter fun y => !O.equiv x y, s.sorted.sublist List.filter_sublist⟩

/-- `--end()`. -/
def last? (s : OrderedSet O) : Option α := s.elems.getLast?

/-- `erase` of the iterator `--end()`. -/
def eraseLast (s : OrderedSet O) : OrderedSet O :=
  ⟨s.elems.dropLast, s.sorted.sublist (List.dropLast_sublist _)⟩

theorem insert_of_equiv {s : OrderedSet O} {x : α} (h : ∃ y ∈ s.elems, O.equiv x y = true) : s.insert x = s :=
  OrderedSet.ext (O.insertInto_of_equiv s.sorted h)

theorem insert_perm {s : OrderedSet O} {x : α} (h : ∀ y ∈ s.elems, O.equiv x y = false) :
    (s.insert x).elems.Perm (x :: s.elems) := O.insertInto_perm h

theorem nodup (s : OrderedSet O) : s.elems.Nodup := by
  refine s.sorted.imp fun {a b} hlt heq => ?_
  subst heq
  rw [O.irrefl] at hlt
  cases hlt

/-- Of stored elements none is equivalent to another one. -/
theorem equiv_iff {s : OrderedSet O} {x y : α} (hx : x ∈ s.elems) (hy : y ∈ s.elems) : O.equiv x y = true ↔ x = y := by
  constructor
  · intro hequiv
    by_contra hne
    have hsymm : Std.Symm fun a b => O.lt a b = true ∨ O.lt b a = true := ⟨fun _ _ h => h.symm⟩
    have hlt := (s.sorted.imp fun h => Or.inl h : s.elems.Pairwise fun a b => O.lt a b = true ∨ O.lt b a = true).forall
      hx hy hne
    rcases hlt with h | h <;> simp [StrictOrder.equiv, h] at hequiv
  · rintro rfl
    simp [StrictOrder.equiv, O.irrefl]

theorem mem_erase {s : OrderedSet O} {x y : α} (hx : x ∈ s.elems) : y ∈ (s.erase x).elems ↔ y ∈ s.elems ∧ y ≠ x := by
  simp only [erase, List.mem_filter, Bool.not_eq_true']
  refine and_congr_right fun hy => ?_
  rw [← Bool.not_eq_true, equiv_iff hx hy]
  exact ne_comm

theorem mem_eraseLast {s : OrderedSet O} {x y : α} (hx : s.last? = some x) :
    y ∈ s.eraseLast.elems ↔ y ∈ s.elems ∧ y ≠ x := by
  obtain ⟨front, hfront⟩ := List.getLast?_eq_some_iff.mp hx
  have hnodup := s.nodup
  rw [hfront, List.nodup_append] at hnodup
  have hnew : x ∉ front := fun h => hnodup.2.2 x h x (List.mem_singleton_self _) rfl
  simp only [eraseLast, hfront, List.dropLast_concat, List.mem_append, List.mem_singleton]
  constructor
  · exact fun hy => ⟨Or.inl hy, fun heq => hnew (heq ▸ hy)⟩
  · rintro ⟨hy | hy, hne⟩
    · exact hy
    · exact absurd hy hne

theorem size_eraseLast (s : OrderedSet O) : s.eraseLast.size = s.size - 1 := List.length_dropLast

theorem size_insert (s : OrderedSet O) (x : α) (h : ∀ y ∈ s.elems, O.equiv x y = false) :
    (s.insert x).size = s.size + 1 := (insert_perm h).length_eq

theorem mem_insert {s : OrderedSet O} {x y : α} (h : ∀ z ∈ s.elems, O.equiv x z = false) :
    y ∈ (s.insert x).elems ↔ y = x ∨ y ∈ s.elems := by
  rw [(insert_perm h).mem_iff, List.mem_cons]

theorem mem_of_last {s : OrderedSet O} {x : α} (hx : s.last? = some x) : x ∈ s.elems := List.mem_of_getLast? hx

/-- Every other element precedes the last one. -/
theorem lt_last {s : OrderedSet O} {x y : α} (hx : s.last? = some x) (hy : y ∈ s.elems) (hne : y ≠ x) :
    O.lt y x = true := by
  obtain ⟨front, hfront⟩ := List.getLast?_eq_some_iff.mp hx
  have hsorted := s.sorted
  rw [hfront] at hsorted hy
  rcases List.mem_append.mp hy with hy | hy
  · exact (List.pairwise_append.mp hsorted).2.2 y hy x (List.mem_singleton_self _)
  · exact absurd (List.mem_singleton.mp hy) hne

theorem exists_last {s : OrderedSet O} (h : 0 < s.size) : ∃ x, s.last? = some x := by
  cases hx : s.last? with
  | none =>
    rw [last?, List.getLast?_eq_none_iff] at hx
    simp [size, hx] at h
  | some x => exact ⟨x, rfl⟩

/-- A new element becomes the last one, or the last one stays. -/
theorem last?_insert {s : OrderedSet O} {x q : α} (hq : s.last? = some q) (h : ∀ y ∈ s.elems, O.equiv x y = false) :
    (s.insert x).last? = some (if O.lt x q then q else x) := by
  have hmem : ∀ y, y ∈ (s.insert x).elems ↔ y = x ∨ y ∈ s.elems := fun y => mem_insert h
  have hpos : 0 < (s.insert x).size := List.length_pos_of_mem ((hmem x).mpr (Or.inl rfl))
  obtain ⟨l, hl⟩ := exists_last hpos
  rw [hl, Option.some.injEq]
  by_cases hlt : O.lt x q = true
  · rw [if_pos hlt]
    by_contra hne
    have hql : O.lt q l = true := lt_last hl ((hmem q).mpr (Or.inr (mem_of_last hq))) (Ne.symm hne)
    rcases (hmem l).mp (mem_of_last hl) with rfl | hls
    · rw [O.asymm _ _ hlt] at hql
      cases hql
    · rw [O.asymm _ _ (lt_last hq hls hne)] at hql
      cases hql
  · rw [if_neg hlt]
    have hqx : O.lt q x = true := by
      have hfree := h q (mem_of_last hq)
      simp only [StrictOrder.equiv, hlt, Bool.not_false, Bool.true_and, Bool.not_eq_false'] at hfree
      exact hfree
    by_contra hne
    have hxl : O.lt x l = true := lt_last hl ((hmem x).mpr (Or.inl rfl)) (Ne.symm hne)
    have hls : l ∈ s.elems := ((hmem l).mp (mem_of_last hl)).resolve_left hne
    by_cases heq : l = q
    · exact hlt (heq ▸ hxl)
    · exact hlt (O.trans _ _ _ hxl (lt_last hq hls heq))

/-! ### The first elements that pass a test -/

/-- A walk over the set that takes what passes the test, `n` elements at most. -/
def pick (s : OrderedSet O) (p : α → Bool) (n : Nat) : List α := (s.elems.filter p).take n

section
variable {s : OrderedSet O} {p : α → Bool} {n : Nat} {x : α}

theorem pick_sublist : (s.pick p n).Sublist s.elems := (List.take_sublist _ _).trans List.filter_sublist

theorem length_pick_le : (s.pick p n).length ≤ n := List.length_take_le _ _

theorem mem_pick (h : x ∈ s.pick p n) : x ∈ s.elems ∧ p x = true := List.mem_filter.mp (List.mem_of_mem_take h)

/-- What passes and is left out comes after a full pick. -/
theorem pick_full (hx : x ∈ s.elems) (hp : p x = true) (hnot : x ∉ s.pick p n) :
    (s.pick p n).length = n ∧ ∀ y ∈ s.pick p n, O.lt y x = true := by
  have hsplit : (s.elems.filter p).take n ++ (s.elems.filter p).drop n = s.elems.filter p := List.take_append_drop _ _
  have hmem : x ∈ (s.elems.filter p).take n ++ (s.elems.filter p).drop n :=
    hsplit.symm ▸ List.mem_filter.mpr ⟨hx, hp⟩
  have hrest : x ∈ (s.elems.filter p).drop n := (List.mem_append.mp hmem).resolve_left hnot
  have hsorted : (s.elems.filter p).Pairwise fun a b => O.lt a b = true := s.sorted.sublist List.filter_sublist
  rw [← hsplit, List.pairwise_append] at hsorted
  refine ⟨?_, fun y hy => hsorted.2.2 y hy x hrest⟩
  have hlong : n < (s.elems.filter p).length := by
    have hpos := List.length_pos_of_mem hrest
    rw [List.length_drop] at hpos
    omega
  rw [pick, List.length_take, Nat.min_eq_left (Nat.le_of_lt hlong)]

theorem pick_eq_nil (hn : 0 < n) : s.pick p n = [] ↔ ∀ y ∈ s.elems, p y = false := by
  rw [pick, List.take_eq_nil_iff, List.filter_eq_nil_iff]
  simp only [Bool.not_eq_true]
  exact ⟨fun h => h.resolve_left (Nat.pos_iff_ne_zero.mp hn), Or.inr⟩

end

end OrderedSet
