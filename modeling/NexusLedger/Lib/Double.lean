import NexusLedger.Lib.Text
import Mathlib.Algebra.Order.Field.Rat
import Mathlib.Order.WithBot
import Mathlib.Algebra.Order.BigOperators.Group.List
import Mathlib.Tactic.Linarith

/-! Numbers of the C++ type `double`: the finite ones by their exact value, with a zero that is negative, the
    infinities, and NaN up to its sign. Comparing, printing and converting them is exact. What rounds is a parameter,
    with the arithmetic of IEEE 754 and one that never rounds as instances. -/

inductive Double
  | number (q : ℚ)
  | negZero
  | infinity (negative : Bool)
  | nan (negative : Bool)
  deriving DecidableEq

namespace Double

instance (n : Nat) : OfNat Double n := ⟨.number n⟩

/-- The exact value of a finite number. -/
def value : Double → ℚ
  | number q => q
  | _ => 0

def isFinite : Double → Bool
  | number _ | negZero => true
  | _ => false

def isNaN : Double → Bool
  | nan _ => true
  | _ => false

/-- The sign bit. -/
def negative : Double → Bool
  | number q => decide (q < 0)
  | negZero => true
  | infinity s | nan s => s

instance : Neg Double where
  neg
    | number q => if q = 0 then .negZero else .number (-q)
    | negZero => 0
    | infinity s => .infinity !s
    | nan s => .nan !s

@[simp] theorem value_number (q : ℚ) : (number q).value = q := rfl

@[simp] theorem isFinite_number (q : ℚ) : (number q).isFinite = true := rfl

theorem isNaN_of_isFinite {x : Double} (h : x.isFinite = true) : x.isNaN = false := by
  cases x <;> first | rfl | cases h

theorem value_neg (x : Double) : (-x).value = -x.value := by
  cases x with
  | number q =>
    show (if q = 0 then negZero else number (-q)).value = -q
    split
    · rename_i h
      rw [h]
      rfl
    · rfl
  | _ => rfl

theorem isFinite_neg (x : Double) : (-x).isFinite = x.isFinite := by
  cases x with
  | number q =>
    show (if q = 0 then negZero else number (-q)).isFinite = true
    split <;> rfl
  | _ => rfl

theorem ofNat_eq (n : Nat) [n.AtLeastTwo] : (OfNat.ofNat n : Double) = .number (OfNat.ofNat n : ℚ) := rfl

theorem zero_eq : (0 : Double) = .number 0 := rfl

/-! ### Comparison -/

/-- The place among all numbers, where it has one. -/
def place : Double → Option (WithBot (WithTop ℚ))
  | number q => some ((q : WithTop ℚ) : WithBot (WithTop ℚ))
  | negZero => some ((0 : WithTop ℚ) : WithBot (WithTop ℚ))
  | infinity false => some ⊤
  | infinity true => some ⊥
  | nan _ => none

/-- A comparison in which NaN takes no part. -/
def compare (p : WithBot (WithTop ℚ) → WithBot (WithTop ℚ) → Prop) (a b : Double) : Prop :=
  ∃ x ∈ a.place, ∃ y ∈ b.place, p x y

instance (p : WithBot (WithTop ℚ) → WithBot (WithTop ℚ) → Prop) [∀ x y, Decidable (p x y)] (a b : Double) :
    Decidable (compare p a b) :=
  inferInstanceAs (Decidable (∃ x ∈ a.place, ∃ y ∈ b.place, p x y))

instance : LT Double := ⟨compare (· < ·)⟩

instance : LE Double := ⟨compare (· ≤ ·)⟩

instance (a b : Double) : Decidable (a < b) := inferInstanceAs (Decidable (compare _ a b))

instance (a b : Double) : Decidable (a ≤ b) := inferInstanceAs (Decidable (compare _ a b))

/-- `a == b`: the zeros are equal, and NaN is not equal to itself. -/
def Equals (a b : Double) : Prop := compare (· = ·) a b

instance (a b : Double) : Decidable (a.Equals b) := inferInstanceAs (Decidable (compare _ a b))

/-- The same number: there is one zero, and one NaN. -/
def Same (a b : Double) : Prop := a.place = b.place

instance (a b : Double) : Decidable (a.Same b) := inferInstanceAs (Decidable (a.place = b.place))

theorem lt_iff {a b : Double} : a < b ↔ ∃ x, a.place = some x ∧ ∃ y, b.place = some y ∧ x < y := Iff.rfl

theorem le_iff {a b : Double} : a ≤ b ↔ ∃ x, a.place = some x ∧ ∃ y, b.place = some y ∧ x ≤ y := Iff.rfl

theorem lt_irrefl (a : Double) : ¬a < a := by
  rintro ⟨x, hx, y, hy, hlt⟩
  obtain rfl := Option.some_inj.mp (hx.symm.trans hy)
  exact hlt.ne rfl

theorem not_lt_of_le {a b : Double} (h : a ≤ b) : ¬b < a := by
  obtain ⟨x, hx, y, hy, hle⟩ := h
  rintro ⟨y', hy', x', hx', hlt⟩
  obtain rfl := Option.some_inj.mp (hx.symm.trans hx')
  obtain rfl := Option.some_inj.mp (hy.symm.trans hy')
  exact absurd hle (not_le_of_gt hlt)

theorem equals_iff {a b : Double} : a.Equals b ↔ ∃ x, a.place = some x ∧ b.place = some x := by
  constructor
  · rintro ⟨x, hx, y, hy, rfl⟩
    exact ⟨x, hx, hy⟩
  · rintro ⟨x, hx, hy⟩
    exact ⟨x, hx, x, hy, rfl⟩

theorem place_of_isFinite {a : Double} (h : a.isFinite = true) :
    a.place = some ((a.value : WithTop ℚ) : WithBot (WithTop ℚ)) := by
  cases a <;> first | rfl | cases h

theorem equals_number_iff {a : Double} {q : ℚ} : a.Equals (number q) ↔ a.isFinite = true ∧ a.value = q := by
  rw [equals_iff]
  constructor
  · rintro ⟨x, hx, hq⟩
    cases hq
    cases a with
    | number p => exact ⟨rfl, by simpa [place] using hx⟩
    | negZero => exact ⟨rfl, by simpa [place, value, eq_comm] using hx⟩
    | infinity s => cases s <;> simp [place] at hx
    | nan s => simp [place] at hx
  · rintro ⟨hfinite, rfl⟩
    exact ⟨_, place_of_isFinite hfinite, rfl⟩

theorem lt_of_isFinite {a b : Double} (ha : a.isFinite = true) (hb : b.isFinite = true) :
    a < b ↔ a.value < b.value := by
  simp [lt_iff, place_of_isFinite ha, place_of_isFinite hb]

theorem le_of_isFinite {a b : Double} (ha : a.isFinite = true) (hb : b.isFinite = true) :
    a ≤ b ↔ a.value ≤ b.value := by
  simp [le_iff, place_of_isFinite ha, place_of_isFinite hb]

theorem place_eq_none_iff {a : Double} : a.place = none ↔ a.isNaN = true := by
  cases a with
  | infinity s => cases s <;> simp [place, isNaN]
  | _ => simp [place, isNaN]

theorem isFinite_of_between {a : Double} {p q : ℚ} (hlow : number p ≤ a) (hhigh : a ≤ number q) :
    a.isFinite = true := by
  cases a with
  | infinity negative =>
    cases negative with
    | false => simp [le_iff, place] at hhigh
    | true => simp [le_iff, place] at hlow
  | nan s =>
    obtain ⟨x, hx, -⟩ := hhigh
    cases hx
  | _ => rfl

theorem exists_place {a : Double} (h : a.isNaN = false) : ∃ x, a.place = some x := by
  refine Option.ne_none_iff_exists'.mp fun hnone => ?_
  rw [place_eq_none_iff, h] at hnone
  cases hnone

theorem not_le_iff {a b : Double} (ha : a.isNaN = false) (hb : b.isNaN = false) : ¬a ≤ b ↔ b < a := by
  obtain ⟨x, hx⟩ := exists_place ha
  obtain ⟨y, hy⟩ := exists_place hb
  simp [le_iff, lt_iff, hx, hy]

theorem not_lt_iff {a b : Double} (ha : a.isNaN = false) (hb : b.isNaN = false) : ¬a < b ↔ b ≤ a := by
  obtain ⟨x, hx⟩ := exists_place ha
  obtain ⟨y, hy⟩ := exists_place hb
  simp [le_iff, lt_iff, hx, hy]

@[simp] theorem number_lt_number {p q : ℚ} : number p < number q ↔ p < q := by simp [lt_iff, place]

@[simp] theorem number_le_number {p q : ℚ} : number p ≤ number q ↔ p ≤ q := by simp [le_iff, place]

@[simp] theorem number_equals_number {p q : ℚ} : (number p).Equals (number q) ↔ p = q := by
  simp [equals_iff, place, eq_comm]

/-! ### Conversions -/

/-- Conversion to an integer. Where that is undefined, an integer outside every range that the conversion is asked
    for, as the processor gives it. -/
def toInteger : Double → ℤ
  | number q => truncate q
  | negZero => 0
  | infinity _ | nan _ => -2 ^ 63

/-! ### Rounding -/

/-- Two to an integer power. -/
def pow2 : ℤ → ℚ
  | .ofNat n => (2 ^ n : Nat)
  | .negSucc n => 1 / (2 ^ (n + 1) : Nat)

/-- The `e` with `2 ^ e ≤ q < 2 ^ (e + 1)`, for `0 < q`. -/
def binaryExponent (q : ℚ) : ℤ :=
  let e : ℤ := q.num.natAbs.log2 - q.den.log2
  if q < pow2 e then e - 1 else e

/-- The last bit that a `double` near a positive number has: 53 significant ones, down to the subnormal numbers. -/
def lastBit (q : ℚ) : ℤ := max (binaryExponent q - 52) (-1074)

/-- The nearest multiple of the last bit, the even one on a tie. -/
def roundMagnitude (q : ℚ) : ℚ := roundHalfEven (q / pow2 (lastBit q)) * pow2 (lastBit q)

/-- The `double` nearest to a number. What is too small for one is a zero with the sign of the number, what is too
    large is infinite. -/
def round (q : ℚ) : Double :=
  if q = 0 then 0
  else
    let r := roundMagnitude |q|
    let x := if pow2 1024 ≤ r then .infinity false else .number r
    if q < 0 then -x else x

/-- Conversion of an integer of 64 bits. -/
def ofInt (n : ℤ) : Double := if n.natAbs ≤ 2 ^ 53 then .number n else .number (n.sign * roundMagnitude n.natAbs)

@[simp] theorem isFinite_ofInt (n : ℤ) : (ofInt n).isFinite = true := by
  unfold ofInt
  split <;> rfl

theorem roundHalfEven_natCast (k : Nat) : roundHalfEven (k : ℚ) = k := by
  have hfloor : (k : ℚ).floor.toNat = k := by
    show ((k : ℤ) : ℚ).floor.toNat = k
    rw [Rat.floor_intCast]
    rfl
  have hrest : (k : ℚ) - (k : ℚ).floor.toNat < 1 / 2 := by rw [hfloor, sub_self]; norm_num
  unfold roundHalfEven
  rw [if_pos hrest, hfloor]

theorem pow2_le {m n : Nat} (h : m ≤ n) : ((2 ^ m : Nat) : ℚ) ≤ pow2 n :=
  Nat.cast_le.mpr (Nat.pow_le_pow_right (by decide) h)

/-- An integer of at most 53 bits has all its bits. -/
theorem roundMagnitude_natCast {n : Nat} (hpos : 0 < n) (h : n < 2 ^ 53) : roundMagnitude (n : ℚ) = n := by
  have hlow : 2 ^ n.log2 ≤ n := Nat.log2_self_le (by omega)
  have hlog : n.log2 < 53 := (Nat.pow_lt_pow_iff_right (by omega)).mp (lt_of_le_of_lt hlow h)
  have hexponent : binaryExponent (n : ℚ) = n.log2 := by
    have hnot : ¬(n : ℚ) < ((2 ^ n.log2 : Nat) : ℚ) := not_lt.mpr (by exact_mod_cast hlow)
    have hlast : ((n : ℚ).num.natAbs.log2 : ℤ) - (n : ℚ).den.log2 = n.log2 := by
      rw [Rat.num_natCast, Rat.den_natCast, Int.natAbs_natCast, show Nat.log2 1 = 0 by decide, Nat.cast_zero, sub_zero]
    unfold binaryExponent
    simp only [hlast]
    exact if_neg hnot
  obtain ⟨m, hbit⟩ : ∃ m : Nat, lastBit (n : ℚ) = -(m : ℤ) := by
    refine ⟨52 - n.log2, ?_⟩
    unfold lastBit
    rw [hexponent]
    omega
  have hunit : pow2 (lastBit (n : ℚ)) = 1 / ((2 ^ m : Nat) : ℚ) := by
    rw [hbit]
    cases m with
    | zero => norm_num [pow2]
    | succ m => rfl
  have hne : ((2 ^ m : Nat) : ℚ) ≠ 0 := by exact_mod_cast (Nat.two_pow_pos m).ne'
  have hscaled : (n : ℚ) / (1 / ((2 ^ m : Nat) : ℚ)) = ((n * 2 ^ m : Nat) : ℚ) := by
    rw [Nat.cast_mul, div_div_eq_mul_div, div_one]
  unfold roundMagnitude
  rw [hunit, hscaled, roundHalfEven_natCast, Nat.cast_mul, mul_one_div, mul_div_cancel_right₀ _ hne]

theorem round_intCast {n : ℤ} (h : n.natAbs < 2 ^ 53) :
    (round (n : ℚ)).isFinite = true ∧ (round (n : ℚ)).value = n := by
  unfold round
  by_cases hzero : (n : ℚ) = 0
  · rw [if_pos hzero, hzero]
    exact ⟨rfl, rfl⟩
  · have hn : n ≠ 0 := fun h0 => hzero (by rw [h0]; rfl)
    have habs : |(n : ℚ)| = (n.natAbs : ℚ) := by rw [Nat.cast_natAbs, Int.cast_abs]
    have hmagnitude : roundMagnitude |(n : ℚ)| = n.natAbs := by
      rw [habs]
      exact roundMagnitude_natCast (Int.natAbs_pos.mpr hn) h
    have hsmall : ¬pow2 1024 ≤ (n.natAbs : ℚ) := by
      exact not_le.mpr (lt_of_lt_of_le (Nat.cast_lt.mpr h) (pow2_le (show 53 ≤ 1024 by decide)))
    rw [if_neg hzero]
    simp only [hmagnitude, if_neg hsmall]
    by_cases hneg : (n : ℚ) < 0
    · rw [if_pos hneg, isFinite_neg, value_neg, value_number, ← habs, abs_of_neg hneg, neg_neg]
      exact ⟨rfl, rfl⟩
    · rw [if_neg hneg, value_number, ← habs, abs_of_nonneg (not_lt.mp hneg)]
      exact ⟨rfl, rfl⟩

/-- A finite number whose value is an integer. -/
def Integral (x : Double) : Prop := x.isFinite = true ∧ ∃ n : ℤ, x.value = n

end Double

/-- `ss << value` for a `double`. -/
def showDouble : Double → String
  | .number q => showNumber q
  | .negZero => "-0"
  | .infinity s => if s then "-inf" else "inf"
  | .nan s => if s then "-nan" else "nan"

/-! ### Columns -/

/-- What SQLite stores in a column of reals: no negative zero, and NULL for NaN, written as the NaN without a sign. -/
def Double.stored : Double → Double
  | .negZero => 0
  | .nan _ => .nan false
  | x => x

theorem Double.value_stored (x : Double) : x.stored.value = x.value := by
  cases x <;> rfl

theorem Double.isFinite_stored {x : Double} : x.stored.isFinite = true ↔ x.isFinite = true := by
  cases x <;> simp [stored, isFinite]

theorem Double.place_stored (x : Double) : x.stored.place = x.place := by
  cases x <;> rfl

@[simp] theorem Double.lt_stored {x y : Double} : y < x.stored ↔ y < x := by rw [lt_iff, lt_iff, place_stored]

@[simp] theorem Double.le_stored {x y : Double} : y ≤ x.stored ↔ y ≤ x := by rw [le_iff, le_iff, place_stored]

theorem Double.stored_eq_self_iff {x : Double} (h : x.isNaN = false) : x.stored = x ↔ x ≠ .negZero := by
  cases x with
  | negZero => simp [stored, zero_eq]
  | nan s => cases h
  | _ => simp [stored]

def SqlReal : Type := { x : Double // x.stored = x }

namespace SqlReal

instance : DecidableEq SqlReal := inferInstanceAs (DecidableEq { x : Double // x.stored = x })

/-- `sqlite3_bind_double`. -/
def bind (x : Double) : SqlReal := ⟨x.stored, by cases x <;> rfl⟩

def isNull (x : SqlReal) : Bool := x.val.isNaN

theorem ext {a b : SqlReal} (h : a.val = b.val) : a = b := Subtype.ext h

@[simp] theorem bind_val (x : Double) : (bind x).val = x.stored := rfl

@[simp] theorem bind_of_val (x : SqlReal) : bind x.val = x := ext x.property

@[simp] theorem isNull_bind (x : Double) : (bind x).isNull = x.isNaN := by cases x <;> rfl

end SqlReal

/-! ### Arithmetic -/

/-- The operations that round: the sum and the quotient of two numbers, and the sum over a column. -/
class Arithmetic where
  add : Double → Double → Double
  div : Double → Double → Double
  sum : List Double → Double

namespace Arithmetic
open Double

/-- The sum of two numbers in IEEE 754. -/
def ieeeAdd : Double → Double → Double
  | nan s, _ | _, nan s => nan s
  | infinity s, infinity t => if s = t then infinity s else nan true
  | infinity s, _ | _, infinity s => infinity s
  | negZero, negZero => negZero
  | a, b => Double.round (a.value + b.value)

/-- The quotient of two numbers in IEEE 754. -/
def ieeeDiv (a b : Double) : Double :=
  let signed (x : Double) : Double := if a.negative = b.negative then x else -x
  match a, b with
  | nan s, _ | _, nan s => nan s
  | infinity _, infinity _ => nan true
  | infinity _, _ => signed (infinity false)
  | _, infinity _ => signed 0
  | _, _ =>
    if b.value = 0 then (if a.value = 0 then nan true else signed (infinity false))
    else signed (Double.round |a.value / b.value|)

/-- Binary64, the sum over a column by adding up, as SQLite did before it compensated for the rounding. -/
abbrev binary64 : Arithmetic where
  add := ieeeAdd
  div := ieeeDiv
  sum l := l.foldl ieeeAdd 0

/-- Numbers that are never rounded. -/
abbrev unrounded : Arithmetic where
  add a b := number (a.value + b.value)
  div a b := number (a.value / b.value)
  sum l := number (l.map value).sum

/-- Adding finite numbers does not round. -/
structure Exact [Arithmetic] : Prop where
  add {a b : Double} (ha : a.isFinite = true) (hb : b.isFinite = true) :
    (Arithmetic.add a b).isFinite = true ∧ (Arithmetic.add a b).value = a.value + b.value
  sum {l : List Double} (h : ∀ x ∈ l, x.isFinite = true) :
    (Arithmetic.sum l).isFinite = true ∧ (Arithmetic.sum l).value = (l.map value).sum

theorem exact_unrounded : @Exact unrounded :=
  letI := unrounded
  { add := fun _ _ => ⟨rfl, rfl⟩
    sum := fun _ => ⟨rfl, rfl⟩ }

/-- Integers of at most 53 bits are added without rounding. -/
structure Counts [Arithmetic] : Prop where
  add {a b : Double} (ha : a.Integral) (hb : b.Integral) (h : |a.value| + |b.value| < 2 ^ 53) :
    (Arithmetic.add a b).isFinite = true ∧ (Arithmetic.add a b).value = a.value + b.value
  sum {l : List Double} (hl : ∀ x ∈ l, x.Integral) (h : (l.map fun x => |x.value|).sum < 2 ^ 53) :
    (Arithmetic.sum l).isFinite = true ∧ (Arithmetic.sum l).value = (l.map value).sum

theorem ieeeAdd_of_isFinite {a b : Double} (ha : a.isFinite = true) (hb : b.isFinite = true) :
    ieeeAdd a b = Double.round (a.value + b.value) ∨ a = .negZero ∧ b = .negZero ∧ ieeeAdd a b = .negZero := by
  cases a with
  | infinity s => cases ha
  | nan s => cases ha
  | number p =>
    cases b with
    | infinity s => cases hb
    | nan s => cases hb
    | _ => exact Or.inl rfl
  | negZero =>
    cases b with
    | infinity s => cases hb
    | nan s => cases hb
    | number q => exact Or.inl rfl
    | negZero => exact Or.inr ⟨rfl, rfl, rfl⟩

theorem ieeeAdd_integral {a b : Double} (ha : a.Integral) (hb : b.Integral) (h : |a.value| + |b.value| < 2 ^ 53) :
    (ieeeAdd a b).isFinite = true ∧ (ieeeAdd a b).value = a.value + b.value := by
  obtain ⟨hafinite, m, hm⟩ := ha
  obtain ⟨hbfinite, n, hn⟩ := hb
  have hsmall : (m + n).natAbs < 2 ^ 53 := by
    have hle := lt_of_le_of_lt (abs_add_le a.value b.value) h
    rw [hm, hn] at hle
    have hcast : |m + n| < 2 ^ 53 := by exact_mod_cast hle
    rw [Int.abs_eq_natAbs] at hcast
    exact_mod_cast hcast
  rcases ieeeAdd_of_isFinite hafinite hbfinite with heq | ⟨rfl, rfl, heq⟩
  · rw [heq, hm, hn, ← Int.cast_add]
    exact round_intCast hsmall
  · rw [heq]
    exact ⟨rfl, (add_zero 0).symm⟩

theorem foldl_ieeeAdd {l : List Double} {a : Double} (ha : a.Integral) (hl : ∀ x ∈ l, x.Integral)
    (h : |a.value| + (l.map fun x => |x.value|).sum < 2 ^ 53) :
    (l.foldl ieeeAdd a).isFinite = true ∧ (l.foldl ieeeAdd a).value = a.value + (l.map value).sum := by
  induction l generalizing a with
  | nil => exact ⟨ha.1, (add_zero _).symm⟩
  | cons x l ih =>
    obtain ⟨hx, hl⟩ := List.forall_mem_cons.mp hl
    rw [List.map_cons, List.sum_cons] at h
    have hrest : 0 ≤ (l.map fun x => |x.value|).sum := List.sum_nonneg fun y hy => by
      obtain ⟨z, -, rfl⟩ := List.mem_map.mp hy
      exact abs_nonneg _
    have hsum := ieeeAdd_integral ha hx (by linarith)
    have hvalue := hsum.2
    obtain ⟨-, m, hm⟩ := ha
    obtain ⟨-, n, hn⟩ := hx
    have hstep : (ieeeAdd a x).Integral := ⟨hsum.1, m + n, by rw [hvalue, hm, hn, Int.cast_add]⟩
    have habs := abs_add_le a.value x.value
    obtain ⟨hfinite, htotal⟩ := ih hstep hl (by rw [hvalue]; linarith)
    refine ⟨hfinite, ?_⟩
    rw [List.foldl_cons, htotal, hvalue, List.map_cons, List.sum_cons, add_assoc]

theorem counts_binary64 : @Counts binary64 :=
  letI := binary64
  { add := ieeeAdd_integral
    sum := fun hl h => by
      have hzero : (0 : Double).Integral := ⟨rfl, 0, rfl⟩
      obtain ⟨hfinite, hvalue⟩ := foldl_ieeeAdd hzero hl (by simpa [Double.zero_eq] using h)
      exact ⟨hfinite, hvalue.trans (zero_add _)⟩ }

end Arithmetic
