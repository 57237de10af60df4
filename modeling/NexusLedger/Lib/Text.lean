import Mathlib.Data.Rat.Floor
import Mathlib.Data.List.DropRight

/-! Text as C and C++ handle it: strings that end at their first NUL, and numbers written to a stream. -/

/-! ### C strings -/

/-- What a `const char*` reader sees of a string: the characters before the first NUL. -/
def cText (s : String) : String := String.ofList (s.toList.takeWhile fun c => c.toNat != 0)

@[simp] theorem cText_cText (s : String) : cText (cText s) = cText s := by
  simp only [cText, String.toList_ofList, List.takeWhile_takeWhile, and_self, Bool.decide_eq_true]

theorem mem_of_mem_cText {c : Char} {s : String} (h : c ∈ (cText s).toList) : c ∈ s.toList := by
  rw [cText, String.toList_ofList] at h
  exact (List.takeWhile_sublist _).subset h

/-- Text that holds no NUL. -/
def CString : Type := { s : String // cText s = s }

namespace CString

instance : DecidableEq CString := inferInstanceAs (DecidableEq { s : String // cText s = s })

/-- The string passed by pointer, its length left to the reader. -/
def bind (s : String) : CString := ⟨cText s, cText_cText s⟩

theorem ext {a b : CString} (h : a.val = b.val) : a = b := Subtype.ext h

@[simp] theorem bind_val (s : String) : (bind s).val = cText s := rfl

@[simp] theorem bind_of_val (t : CString) : bind t.val = t := ext t.property

theorem bind_eq_iff {s t : String} : bind s = bind t ↔ cText s = cText t :=
  ⟨fun h => congrArg Subtype.val h, fun h => ext h⟩

end CString

/-! ### Texts laid end to end -/

namespace Text
variable {a b c d : String}

theorem append_inj (hlen : a.length = c.length) (h : a ++ b = c ++ d) : a = c ∧ b = d := by
  have hlist : a.toList ++ b.toList = c.toList ++ d.toList := by
    rw [← String.toList_append, ← String.toList_append, h]
  obtain ⟨hleft, hright⟩ := List.append_inj hlist hlen
  exact ⟨String.toList_inj.mp hleft, String.toList_inj.mp hright⟩

/-- The first pair becomes the second when some characters move over the border to the left. -/
def Slides (a b c d : String) : Prop := ∃ moved, c = a ++ moved ∧ b = moved ++ d

/-- The two pairs differ at most in where their border stands. -/
def Blends (a b c d : String) : Prop := Slides a b c d ∨ Slides c d a b

theorem append_eq_append_iff : a ++ b = c ++ d ↔ Blends a b c d := by
  constructor
  · intro h
    have hlist : a.toList ++ b.toList = c.toList ++ d.toList := by
      rw [← String.toList_append, ← String.toList_append, h]
    rcases List.append_eq_append_iff.mp hlist with ⟨moved, hc, hb⟩ | ⟨moved, ha, hd⟩
    · refine Or.inl ⟨String.ofList moved, String.toList_inj.mp ?_, String.toList_inj.mp ?_⟩
      · rw [String.toList_append, String.toList_ofList, hc]
      · rw [String.toList_append, String.toList_ofList, hb]
    · refine Or.inr ⟨String.ofList moved, String.toList_inj.mp ?_, String.toList_inj.mp ?_⟩
      · rw [String.toList_append, String.toList_ofList, ha]
      · rw [String.toList_append, String.toList_ofList, hd]
  · rintro (⟨moved, rfl, rfl⟩ | ⟨moved, rfl, rfl⟩)
    · rw [String.append_assoc]
    · rw [String.append_assoc]

end Text

/-! ### Numbers on a stream -/

theorem digit_of_mem_toString {n : ℤ} {c : Char} (h : c ∈ (toString n).toList) : c = '-' ∨ c.isDigit = true := by
  cases n with
  | ofNat n =>
    refine Or.inr (Nat.isDigit_of_mem_toDigits (b := 10) (n := n) (by decide) (by decide) ?_)
    simpa [toString, Int.repr] using h
  | negSucc n =>
    simp [toString, Int.repr] at h
    exact h.imp_right fun h => Nat.isDigit_of_mem_toDigits (by decide) (by decide) h

/-- A word is not the text of an integer, whatever is cut off behind it. -/
theorem cText_toString_ne (n : ℤ) {s : String} {c : Char} (hc : c ∈ s.toList) (hminus : c ≠ '-')
    (hdigit : c.isDigit = false) : cText (toString n) ≠ s := by
  rintro rfl
  rcases digit_of_mem_toString (mem_of_mem_cText hc) with h | h
  · exact hminus h
  · rw [hdigit] at h
    cases h

/-- Conversion of a number to an integer: the fraction is dropped. -/
def truncate (q : ℚ) : ℤ := if 0 ≤ q then q.floor else q.ceil

/-- The integer nearest to a non-negative number, the even one on a tie. -/
def roundHalfEven (q : ℚ) : Nat :=
  let n := q.floor.toNat
  let rest := q - n
  if rest < 1 / 2 then n
  else if rest = 1 / 2 then (if n % 2 = 0 then n else n + 1)
  else n + 1

/-- The least `k ≤ fuel` with `1 ≤ q * 10 ^ k`. -/
def shiftsToUnit (q : ℚ) : Nat → Nat
  | 0 => 0
  | fuel + 1 => if 1 ≤ q then 0 else shiftsToUnit (q * 10) fuel + 1

/-- The `e` with `10 ^ e ≤ q < 10 ^ (e + 1)`, for `0 < q`. -/
def decimalExponent (q : ℚ) : ℤ :=
  if 1 ≤ q then ((Nat.toDigits 10 q.floor.toNat).length : ℤ) - 1
  else -(shiftsToUnit q (Nat.toDigits 10 q.den).length : ℤ)

/-- Ten to an integer power. -/
def pow10 : ℤ → ℚ
  | .ofNat n => (10 ^ n : Nat)
  | .negSucc n => 1 / (10 ^ (n + 1) : Nat)

def dropTrailingZeros (digits : List Char) : List Char := digits.rdropWhile fun c => c == '0'

/-- An integer part and a fraction without its trailing zeros, as `%g` prints them. -/
def withFraction (whole fraction : List Char) : List Char :=
  match dropTrailingZeros fraction with
  | [] => whole
  | ds => whole ++ '.' :: ds

/-- A positive number as `operator<<` prints a `double` by default: six significant digits in the shorter
    of the fixed and the scientific form (`%g`). -/
def showPositive (q : ℚ) : List Char :=
  let e₀ := decimalExponent q
  let n₀ := roundHalfEven (q * pow10 (5 - e₀))
  -- Rounding can carry into a seventh digit.
  let e := if n₀ = 1000000 then e₀ + 1 else e₀
  let digits := Nat.toDigits 10 (if n₀ = 1000000 then 100000 else n₀)
  if e < -4 ∨ 6 ≤ e then
    let exponent := Nat.toDigits 10 e.natAbs
    withFraction (digits.take 1) (digits.drop 1) ++ 'e' :: (if e < 0 then '-' else '+') ::
      (if exponent.length < 2 then '0' :: exponent else exponent)
  else if 0 ≤ e then withFraction (digits.take (e.toNat + 1)) (digits.drop (e.toNat + 1))
  else withFraction ['0'] (List.replicate (e.natAbs - 1) '0' ++ digits)

/-- A number as `operator<<` prints it, if it is neither infinite nor a negative zero. -/
def showNumber (q : ℚ) : String :=
  String.ofList (if q = 0 then ['0'] else if q < 0 then '-' :: showPositive (-q) else showPositive q)

example : showNumber (1234567 / 10) = "123457" := by decide +kernel
example : showNumber (1 / 100000) = "1e-05" := by decide +kernel
