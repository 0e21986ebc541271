import Stplr.Json

/-!
# A codec of a few values

`sampleJson` knows the JSON of `1`, `2` and `"hi"`, and takes every other text for no JSON.  It meets the
laws of a codec (`sampleJson_lawful`).
-/

namespace Stplr

/-- The texts `1`, `2` and `"hi"`. -/
def sampleTexts : List (List UInt8 × Value) :=
  [([49], .int 1), ([50], .int 2), ([34, 104, 105, 34], .str "hi")]

def sampleJson : JsonCodec where
  toVec v := ((sampleTexts.find? fun e => e.2 = v).map Prod.fst).getD []
  fromSlice b := sampleTexts.lookup b

theorem length_sampleJson (v : Value) : (sampleJson.toVec v).length ≤ 4 := by
  have hall : ∀ e ∈ sampleTexts, e.1.length ≤ 4 := by decide
  show (((sampleTexts.find? fun e => e.2 = v).map Prod.fst).getD []).length ≤ 4
  cases hfind : sampleTexts.find? fun e => e.2 = v with
  | none => exact Nat.zero_le 4
  | some e => exact hall e (List.mem_of_find?_eq_some hfind)

/-- Its texts are short. -/
theorem sampleJson_lawful : sampleJson.Lawful where
  fromSlice_take {v n} _ hlen := by
    have hle := length_sampleJson v
    omega

end Stplr
