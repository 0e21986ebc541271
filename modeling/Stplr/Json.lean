import Stplr.Lib.SortedMap
import Stplr.Value
import Mathlib.Data.String.Basic

/-!
# JSON documents

A `Json` is a document as `serde_json` scans it, with the fields of an object in the order of the
text, repeated ones included.  It can be read as a `Value` (the last of equal fields counts) or as a
struct that derives `Deserialize` (equal fields are an error, unknown ones are skipped, and an array
lists the fields in order).
-/

namespace Stplr

open Lib

inductive Json where
  | null
  | bool (b : Bool)
  /-- An integer in the range of `i64` or `u64`. -/
  | int (n : ℤ)
  /-- Another number, rounded to a double; `none` if it is too large. -/
  | float (bits : Option UInt64)
  | str (s : String)
  | arr (xs : List Json)
  | obj (fields : List (String × Json))

namespace Json

mutual
/-- The document as a `Value`.  It may not hold a number that is too large, nor be nested more than
the recursion limit allows; `depth` is what is left of the limit. -/
def toValue (depth : ℕ) : Json → Option Value
  | .null => some .null
  | .bool b => some (.bool b)
  | .int n => some (.int n)
  | .float bits => bits.map .float
  | .str s => some (.str s)
  | .arr xs => if depth ≤ 1 then none else (toValues (depth - 1) xs).map .arr
  | .obj fields =>
    if depth ≤ 1 then none
    else (toFields (depth - 1) fields SortedMap.empty).map fun m => .obj m.entries

/-- The elements of an array. -/
def toValues (depth : ℕ) : List Json → Option (List Value)
  | [] => some []
  | x :: xs => do
    let v ← toValue depth x
    let vs ← toValues depth xs
    return v :: vs

/-- The fields of an object, on top of those read before. -/
def toFields (depth : ℕ) : List (String × Json) → SortedMap String Value →
    Option (SortedMap String Value)
  | [], m => some m
  | (k, x) :: fields, m => do
    let v ← toValue depth x
    toFields depth fields (m.put k v)
end

/-- The recursion limit of `serde_json`. -/
def recursionLimit : ℕ := 128

/-- `serde_json::from_slice::<Value>`. -/
def asValue (doc : Json) : Option Value := doc.toValue recursionLimit

end Json

/-! ### Values as bytes -/

/-- `serde_json::to_vec` and `serde_json::from_slice` on values. -/
structure JsonCodec where
  toVec : Value → List UInt8
  fromSlice : List UInt8 → Option Value

namespace JsonCodec

/-- The value is read back from its bytes.  Values that are nested too deep are not, nor are some
doubles, which are read with best-effort precision. -/
def Stable (codec : JsonCodec) (v : Value) : Prop := codec.fromSlice (codec.toVec v) = some v

/-- Bytes whose length does not fit in 32 bits are those of a string, an array or an object, and no
beginning of them is a value. -/
structure Lawful (codec : JsonCodec) : Prop where
  fromSlice_take {v : Value} {n : ℕ} : n < 2 ^ 32 → 2 ^ 32 ≤ (codec.toVec v).length →
    codec.fromSlice ((codec.toVec v).take n) = none

end JsonCodec

/-! ### Structs -/

/-- The types of the fields of the request bodies. -/
inductive FieldType where
  | string
  | strings
  | usizes
  | usize
  | u64
  | i64
  | value
  /-- `Vec<(String, Value)>`. -/
  | entries
deriving DecidableEq

namespace FieldType

def isString : Json → Bool
  | .str _ => true
  | _ => false

def isInt (low high : ℤ) : Json → Bool
  | .int n => low ≤ n ∧ n < high
  | _ => false

def isArray (p : Json → Bool) : Json → Bool
  | .arr xs => xs.all p
  | _ => false

/-- Whether the document can be read at this type; `depth` is what is left of the recursion limit. -/
def accepts (depth : ℕ) : FieldType → Json → Bool
  | .string => isString
  | .strings => isArray isString
  | .usizes => isArray (isInt 0 (2 ^ 64))
  | .usize | .u64 => isInt 0 (2 ^ 64)
  | .i64 => isInt (-2 ^ 63) (2 ^ 63)
  | .value => fun v => (v.toValue depth).isSome
  | .entries => isArray fun
    | .arr [k, v] => isString k && (v.toValue (depth - 2)).isSome
    | _ => false

end FieldType

/-- A field of a struct: `Option` fields may be null, and fields with a default may be left out. -/
structure Field where
  name : String
  type : FieldType
  nullable : Bool
  hasDefault : Bool

namespace Field

def required (name : String) (type : FieldType) : Field := ⟨name, type, false, false⟩

/-- `#[serde(default)]` on an `Option`. -/
def optional (name : String) (type : FieldType) : Field := ⟨name, type, true, true⟩

/-- `#[serde(default = ..)]`. -/
def defaulted (name : String) (type : FieldType) : Field := ⟨name, type, false, true⟩

def accepts (f : Field) (doc : Json) : Bool := match doc with
  | .null => f.nullable || f.type.accepts (Json.recursionLimit - 1) .null
  | v => f.type.accepts (Json.recursionLimit - 1) v

/-- The field, from what the document says about it: nothing, or its values. -/
def read (f : Field) : List Json → Option (String × Option Json)
  | [] => if f.hasDefault then some (f.name, none) else none
  | [v] => if f.accepts v then some (f.name, some v) else none
  | _ => none

end Field

/-- The fields of an array, in order. -/
def readSeq : List Field → List Json → Option (List (String × Option Json))
  | [], [] => some []
  | [], _ :: _ => none
  | f :: fs, xs => do
    let field ← f.read (xs.take 1)
    let fields ← readSeq fs (xs.drop 1)
    return field :: fields

/-- The struct with these fields. -/
def readStruct (fs : List Field) : Json → Option (List (String × Option Json))
  | .obj fields => fs.mapM fun f => f.read ((fields.filter fun e => e.1 = f.name).map Prod.snd)
  | .arr xs => readSeq fs xs
  | _ => none

/-- A string field of a struct that has been read. -/
def stringField (fields : List (String × Option Json)) (name : String) : Option String :=
  match (fields.lookup name).join with
  | some (.str s) => some s
  | _ => none

end Stplr
