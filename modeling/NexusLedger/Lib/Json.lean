import NexusLedger.Lib.Double

/-! JSON values and their typed reads, as nlohmann::json defines them: `j.value(key, default)` demands an
    object, takes the default where the key is missing, and fails where the member has another type. -/

inductive Json
  | null
  | bool (b : Bool)
  | int (n : ℤ)
  | float (q : ℚ)
  | negZero
  | str (s : String)
  | arr (elems : List Json)
  | obj (members : List (String × Json))

namespace Json

/-- `type_error` 302 (the value has another type) and 306 (`value()` on a value that is no object). -/
inductive TypeError
  | wrongType
  | noObject
  deriving DecidableEq

abbrev Read (α : Type) := Except TypeError α

theorem Read.bind_eq_ok {α β : Type} {x : Read α} {f : α → Read β} {b : β} :
    (x >>= f) = .ok b ↔ ∃ a, x = .ok a ∧ f a = .ok b := by
  constructor
  · intro h
    cases x with
    | error e => cases h
    | ok a => exact ⟨a, rfl, h⟩
  · rintro ⟨a, rfl, h⟩
    exact h

/-- The value of a `double`, as it is read back from the text that is dumped for it: `null` where it is not finite. -/
def ofDouble : Double → Json
  | .number q => float q
  | .negZero => negZero
  | .infinity _ | .nan _ => null

/-- `get<int>()`: any number or Boolean, narrowed to 32 bits. A `float` outside the 64 bits, whose conversion is
    undefined, is narrowed in the same way. -/
def getInt : Json → Read Int32
  | int n => .ok (Int32.ofInt n)
  | float q => .ok (Int32.ofInt (truncate q))
  | negZero => .ok 0
  | bool b => .ok (if b then 1 else 0)
  | _ => .error .wrongType

/-- `get<long>()`. -/
def getLong : Json → Read Int64
  | int n => .ok (Int64.ofInt n)
  | float q => .ok (Int64.ofInt (truncate q))
  | negZero => .ok 0
  | _ => .error .wrongType

/-- `get<unsigned long long>()`. -/
def getULongLong : Json → Read UInt64
  | int n => .ok (UInt64.ofInt n)
  | float q => .ok (UInt64.ofInt (truncate q))
  | negZero => .ok 0
  | bool b => .ok (if b then 1 else 0)
  | _ => .error .wrongType

/-- `get<double>()`. -/
def getDouble : Json → Read Double
  | int n => .ok (.ofInt n)
  | float q => .ok (.number q)
  | negZero => .ok .negZero
  | _ => .error .wrongType

/-- `get<std::string>()`. -/
def getString : Json → Read String
  | str s => .ok s
  | _ => .error .wrongType

/-- `j.value(key, default)` with the read of the default's type. -/
def value {α : Type} (get : Json → Read α) (j : Json) (key : String) (default : α) : Read α :=
  match j with
  | obj members =>
    match members.lookup key with
    | some v => get v
    | none => .ok default
  | _ => .error .noObject

/-- `j.contains(key)`, and the member it finds. -/
def member? : Json → String → Option Json
  | obj members, key => members.lookup key
  | _, _ => none

@[simp] theorem value_obj {α : Type} (get : Json → Read α) (members : List (String × Json)) (key : String)
    (default : α) :
    (obj members).value get key default =
      match members.lookup key with
      | some v => get v
      | none => .ok default := rfl

@[simp] theorem getInt_int (n : Int32) : getInt (int n.toInt) = .ok n := by simp [getInt]

@[simp] theorem getLong_int (n : Int64) : getLong (int n.toInt) = .ok n := by simp [getLong]

theorem ofDouble_of_not_finite {x : Double} (h : ¬x.isFinite = true) : ofDouble x = null := by
  cases x <;> first | rfl | exact absurd rfl h

theorem getDouble_ofDouble {x : Double} (h : x.isFinite = true) : getDouble (ofDouble x) = .ok x := by
  cases x <;> first | rfl | cases h

theorem isFinite_of_getDouble {j : Json} {x : Double} (h : getDouble j = .ok x) : x.isFinite = true := by
  cases j <;> cases h <;> first | rfl | exact Double.isFinite_ofInt _

theorem isFinite_of_value {j : Json} {key : String} {default x : Double} (hdefault : default.isFinite = true)
    (h : j.value getDouble key default = .ok x) : x.isFinite = true := by
  cases j with
  | obj members =>
    rw [value_obj] at h
    split at h
    · exact isFinite_of_getDouble h
    · cases h
      exact hdefault
  | _ => cases h

@[simp] theorem getString_str (s : String) : getString (str s) = .ok s := rfl

end Json
