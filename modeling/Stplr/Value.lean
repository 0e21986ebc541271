import Mathlib.Algebra.Ring.Int.Defs
import Mathlib.Algebra.Ring.Nat
import Mathlib.Tactic.Common

/-!
# JSON values

The opaque objects of the substrate are `serde_json::Value`s.  An object's fields are listed in
key order, as the default `BTreeMap` representation keeps them.  Integers are those of the `u64`
and `i64` ranges; a non-integer number is a double, given by its bits (negative zero is written
as zero, which it equals).
-/

namespace Stplr

/-- A `serde_json::Value`. -/
inductive Value where
  | null
  | bool (b : Bool)
  | int (n : ℤ)
  | float (bits : UInt64)
  | str (s : String)
  | arr (xs : List Value)
  | obj (fields : List (String × Value))

namespace Value

mutual
/-- Decidable equality, which the nested lists keep from being derived. -/
def decEq : (a b : Value) → Decidable (a = b)
  | .null, .null => isTrue rfl
  | .bool a, .bool b => decidable_of_iff (a = b) (by simp)
  | .int a, .int b => decidable_of_iff (a = b) (by simp)
  | .float a, .float b => decidable_of_iff (a = b) (by simp)
  | .str a, .str b => decidable_of_iff (a = b) (by simp)
  | .arr a, .arr b => @decidable_of_iff _ (a = b) (by simp) (decEqList a b)
  | .obj a, .obj b => @decidable_of_iff _ (a = b) (by simp) (decEqFields a b)
  | .null, .bool _ | .null, .int _ | .null, .float _ | .null, .str _ | .null, .arr _
  | .null, .obj _ => isFalse (by simp)
  | .bool _, .null | .bool _, .int _ | .bool _, .float _ | .bool _, .str _ | .bool _, .arr _
  | .bool _, .obj _ => isFalse (by simp)
  | .int _, .null | .int _, .bool _ | .int _, .float _ | .int _, .str _ | .int _, .arr _
  | .int _, .obj _ => isFalse (by simp)
  | .float _, .null | .float _, .bool _ | .float _, .int _ | .float _, .str _ | .float _, .arr _
  | .float _, .obj _ => isFalse (by simp)
  | .str _, .null | .str _, .bool _ | .str _, .int _ | .str _, .float _ | .str _, .arr _
  | .str _, .obj _ => isFalse (by simp)
  | .arr _, .null | .arr _, .bool _ | .arr _, .int _ | .arr _, .float _ | .arr _, .str _
  | .arr _, .obj _ => isFalse (by simp)
  | .obj _, .null | .obj _, .bool _ | .obj _, .int _ | .obj _, .float _ | .obj _, .str _
  | .obj _, .arr _ => isFalse (by simp)

/-- `decEq` on the elements of an array. -/
def decEqList : (a b : List Value) → Decidable (a = b)
  | [], [] => isTrue rfl
  | x :: xs, y :: ys =>
    @decidable_of_iff _ (x = y ∧ xs = ys) (by simp)
      (@instDecidableAnd _ _ (decEq x y) (decEqList xs ys))
  | [], _ :: _ | _ :: _, [] => isFalse (by simp)

/-- `decEq` on the fields of an object. -/
def decEqFields : (a b : List (String × Value)) → Decidable (a = b)
  | [], [] => isTrue rfl
  | (k, x) :: xs, (l, y) :: ys =>
    @decidable_of_iff _ (k = l ∧ x = y ∧ xs = ys) (by simp [and_assoc])
      (@instDecidableAnd _ _ _ (@instDecidableAnd _ _ (decEq x y) (decEqFields xs ys)))
  | [], _ :: _ | _ :: _, [] => isFalse (by simp)
end

instance : DecidableEq Value := decEq

/-- `Value::get(key)`: the field of an object; any other value has none. -/
def get? (key : String) : Value → Option Value
  | .obj fields => fields.lookup key
  | _ => none

/-- `Value::as_str`. -/
def asStr : Value → Option String
  | .str s => some s
  | _ => none

/-- `Value::as_i64`: an integer that fits in 64 signed bits. -/
def asI64 : Value → Option ℤ
  | .int n => if -(2 ^ 63) ≤ n ∧ n < 2 ^ 63 then some n else none
  | _ => none

/-- The `u64` reading that `serde` deserialisation of a `u64` field uses. -/
def asU64 : Value → Option ℕ
  | .int n => if 0 ≤ n ∧ n < 2 ^ 64 then some n.toNat else none
  | _ => none

/-- `serde_json::from_value::<Vec<String>>`: an array all of whose elements are strings. -/
def asStrings : Value → Option (List String)
  | .arr xs => xs.mapM asStr
  | _ => none

/-- `serde_json::to_value` of a `Vec<String>`. -/
def ofStrings (xs : List String) : Value := .arr (xs.map .str)

theorem asStrings_ofStrings (xs : List String) : asStrings (ofStrings xs) = some xs := by
  rw [ofStrings, asStrings]
  induction xs with
  | nil => rfl
  | cons x xs ih => rw [List.map_cons, List.mapM_cons, ih]; rfl

end Value

/-! ### Integers in strings -/

/-- The characters `str::trim` removes (Unicode `White_Space`). -/
def isWhiteSpace (c : Char) : Bool :=
  let n := c.toNat
  (9 ≤ n && n ≤ 13) || n == 32 || n == 0x85 || n == 0xA0 || n == 0x1680 ||
    (0x2000 ≤ n && n ≤ 0x200A) || n == 0x2028 || n == 0x2029 || n == 0x202F || n == 0x205F ||
    n == 0x3000

/-- `str::trim`, on the characters of the string. -/
def trim (cs : List Char) : List Char :=
  ((cs.dropWhile isWhiteSpace).reverse.dropWhile isWhiteSpace).reverse

/-- A non-empty run of ASCII digits, as a number. -/
def parseDigits (cs : List Char) : Option ℕ := if cs ≠ [] ∧ cs.all Char.isDigit then
    some (cs.foldl (fun n c => 10 * n + (c.toNat - '0'.toNat)) 0)
  else none

/-- `str::parse::<i64>`: an optional sign, then digits, within 64 signed bits. -/
def parseI64 (cs : List Char) : Option ℤ :=
  let signed : Option ℤ := match cs with
    | '-' :: ds => (parseDigits ds).map fun n => -(n : ℤ)
    | '+' :: ds => (parseDigits ds).map fun n => (n : ℤ)
    | ds => (parseDigits ds).map fun n => (n : ℤ)
  signed.filter fun n => -(2 ^ 63) ≤ n ∧ n < 2 ^ 63

end Stplr
