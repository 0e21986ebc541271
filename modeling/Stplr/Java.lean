import Mathlib.Data.Int.Log
import Mathlib.Data.List.DropRight
import Mathlib.Data.List.MinMax
import Stplr.Lib.Rounding
import Stplr.Value

/-!
# The Java client

`Json` of the Java client reads and writes JSON by itself.  A `Text` is a Java string, a list of UTF-16
code units; exceptions are `none`.  Numbers are doubles, which the class library reads and prints: of
`Double.parseDouble` there is what it does with a decimal, and `Double.toString` prints the shortest
decimal that is read back, as it is documented since Java 19.

The parser works on what is left of the text.  Delimiters are skipped without a look at them, as in the
source.  The recursion is bounded by a number of calls: each code unit takes three of them at most.
-/

namespace Stplr.Java

open Lib

abbrev Text := List UInt16

/-- A code unit, from an ASCII character. -/
def unit (c : Char) : UInt16 := UInt16.ofNat c.toNat

def text (s : String) : Text := s.toList.map unit

/-- A JSON document.  `num` is what is written as the text it has: a number, or a `Raw`. -/
inductive Doc (N : Type) where
  | null
  | bool (b : Bool)
  | num (n : N)
  | str (s : Text)
  | list (xs : List (Doc N))
  | map (fields : List (Text × Doc N))

/-- The value, if it is not null. -/
def Doc.nonNull {N : Type} : Doc N → Option (Doc N)
  | .null => none
  | x => some x

variable {N : Type}

/-! ### Doubles -/

/-- A double that is a number: its sign, and its magnitude unless that is infinite. -/
structure Double where
  neg : Bool
  abs : Option ℚ

/-- The magnitude of the nearest double: it has 53 bits, the last one of at least `2 ^ -1074`. -/
def roundAbs (q : ℚ) : Option ℚ :=
  let e := max (Int.log 2 q - 52) (-1074)
  let x : ℚ := roundEven (q / 2 ^ e) * 2 ^ e
  if x < 2 ^ 1024 then some x else none

def isDigit (c : UInt16) : Bool := 48 ≤ c.toNat && c.toNat ≤ 57

/-- A non-empty run of digits, as a number. -/
def readDigits (t : Text) : Option ℕ :=
  if t ≠ [] ∧ t.all isDigit then some (t.foldl (fun n c => 10 * n + (c.toNat - 48)) 0) else none

/-- A sign, and what follows. -/
def splitSign : Text → Bool × Text
  | [] => (false, [])
  | c :: t => if c = unit '-' then (true, t) else if c = unit '+' then (false, t) else (false, c :: t)

def readInt (t : Text) : Option ℤ :=
  (readDigits (splitSign t).2).map fun n : ℕ => if (splitSign t).1 then -(n : ℤ) else n

/-- The exponent at the end of a decimal. -/
def readPower : Text → Option ℤ
  | [] => some 0
  | c :: t => if c = unit 'e' ∨ c = unit 'E' then readInt t else none

/-- A decimal without a sign, with a fraction and an exponent or without. -/
def readAbs (t : Text) : Option ℚ := do
  let rest := t.dropWhile isDigit
  let fraction := if rest.head? = some (unit '.') then rest.tail.takeWhile isDigit else []
  let n ← readDigits (t.takeWhile isDigit ++ fraction)
  let power ← readPower (if rest.head? = some (unit '.') then rest.tail.dropWhile isDigit else rest)
  return n * 10 ^ (power - (fraction.length : ℤ))

/-- `Double.parseDouble`. -/
def parseDouble (t : Text) : Option Double :=
  (readAbs (splitSign t).2).map fun q => ⟨(splitSign t).1, roundAbs q⟩

/-- The cast of an integral double to `long`, which saturates. -/
def toLong (m : ℤ) : ℤ := max (-2 ^ 63) (min m (2 ^ 63 - 1))

/-- `Number.longValue`. -/
def longValue (d : Double) : ℤ :=
  let m := d.abs.elim (2 ^ 63) fun x => ⌊x⌋
  toLong (if d.neg then -m else m)

/-- The multiple of `10 ^ q` that is rounded to `x` and is nearest to it, the even one of two. -/
def decimalAt (x : ℚ) (q : ℤ) : Option ℕ :=
  let f := ⌊x / 10 ^ q⌋₊
  let near := if f % 2 = 0 then [f, f + 1] else [f + 1, f]
  (near.filter fun c : ℕ => roundAbs (c * 10 ^ q) = some x).argmin fun c => |c * 10 ^ q - x|

/-- The first power of ten from `10 ^ q` on down with such a multiple. -/
def shortestFrom (x : ℚ) : ℕ → ℤ → ℕ × ℤ
  | 0, q => (0, q)
  | fuel + 1, q =>
    match decimalAt x q with
    | some c => (c, q)
    | none => shortestFrom x fuel (q - 1)

/-- The decimal that is printed: of those that are rounded to `x` the nearest one with the fewest digits,
but two digits are always taken.  No double has more than 767 digits. -/
def shortest (x : ℚ) : ℕ × ℤ := shortestFrom x 767 (Int.log 10 x - 1)

/-- Digits with a point after the first `point` ones, and at least one after that. -/
def pointed (ds : Text) (point : ℕ) : Text :=
  let ds := ds.rightpad (point + 1) (unit '0')
  ds.take point ++ unit '.' :: ds.drop point

def withSign (neg : Bool) (t : Text) : Text := if neg then unit '-' :: t else t

def digits (n : ℕ) : Text := (Nat.toDigits 10 n).map unit

/-- The text of an integer. -/
def intText (n : ℤ) : Text := withSign (n < 0) (digits n.natAbs)

/-- The text of a magnitude, whose digits have the point after the first `point` ones. -/
def absText (x : ℚ) : Text :=
  let (c, q) := shortest x
  let ds := (digits c).rdropWhile fun d => d = unit '0'
  let point := q + (digits c).length
  if -3 < point ∧ point ≤ 7 then
    pointed (List.replicate (1 - point).toNat (unit '0') ++ ds) (max point 1).toNat
  else pointed ds 1 ++ unit 'E' :: intText (point - 1)

/-- `Double.toString`. -/
def toText (d : Double) : Text := withSign d.neg (d.abs.elim (text "Infinity") absText)

/-- The number that a text denotes. -/
def denoted (t : Text) : Option ℚ :=
  (readAbs (splitSign t).2).map fun q => if (splitSign t).1 then -q else q

/-! ### The writer -/

/-- `String.format("%04x", ..)`. -/
def hex4 (c : UInt16) : Text := ((Nat.toDigits 16 c.toNat).leftpad 4 '0').map unit

/-- A code unit inside a string, given those that are escaped by a letter. -/
def escape (letters : List (UInt16 × UInt16)) (c : UInt16) : Text := match letters.lookup c with
  | some e => [unit '\\', e]
  | none => if c.toNat < 0x20 then unit '\\' :: unit 'u' :: hex4 c else [c]

/-- The letters of `wStr`. -/
def letters : List (UInt16 × UInt16) :=
  [(unit '"', unit '"'), (unit '\\', unit '\\'), (unit '\n', unit 'n'), (unit '\t', unit 't'),
    (unit '\r', unit 'r')]

def wStr (letters : List (UInt16 × UInt16)) (s : Text) : Text :=
  unit '"' :: (s.flatMap (escape letters) ++ [unit '"'])

/-- The comma before an element, unless it is the first one. -/
def comma (first : Bool) : Text := if first then [] else [unit ',']

mutual
/-- The writer, for the letters and the texts of numbers. -/
def w (letters : List (UInt16 × UInt16)) (num : N → Text) : Doc N → Text
  | .null => text "null"
  | .bool true => text "true"
  | .bool false => text "false"
  | .num n => num n
  | .str s => wStr letters s
  | .list xs => unit '[' :: (wItems letters num true xs ++ [unit ']'])
  | .map fields => unit '{' :: (wFields letters num true fields ++ [unit '}'])

def wItems (letters : List (UInt16 × UInt16)) (num : N → Text) (first : Bool) : List (Doc N) → Text
  | [] => []
  | x :: xs => comma first ++ (w letters num x ++ wItems letters num false xs)

def wFields (letters : List (UInt16 × UInt16)) (num : N → Text) (first : Bool) :
    List (Text × Doc N) → Text
  | [] => []
  | (k, x) :: fields => comma first ++ (wStr letters k ++ unit ':' ::
      (w letters num x ++ wFields letters num false fields))
end

/-! ### The parser -/

/-- `Character.isWhitespace`. -/
def isWhitespace (c : UInt16) : Bool :=
  let n := c.toNat
  (9 ≤ n && n ≤ 13) || (0x1C ≤ n && n ≤ 0x20) || n = 0x1680 || (0x2000 ≤ n && n ≤ 0x2006) ||
    (0x2008 ≤ n && n ≤ 0x200A) || n = 0x2028 || n = 0x2029 || n = 0x205F || n = 0x3000

def ws (t : Text) : Text := t.dropWhile isWhitespace

/-- The code units of a number. -/
def isNumeric (c : UInt16) : Bool := c ∈ text "-+.eE0123456789"

/-- `LinkedHashMap.put`. -/
def put (k : Text) (x : Doc Double) : List (Text × Doc Double) → List (Text × Doc Double)
  | [] => [(k, x)]
  | (k', x') :: fields => if k' = k then (k, x) :: fields else (k', x') :: put k x fields

/-- What a letter after a backslash stands for. -/
def unescape (e : UInt16) : UInt16 := if e = unit 'n' then unit '\n'
  else if e = unit 't' then unit '\t'
  else if e = unit 'r' then unit '\r'
  else if e = unit 'b' then 8
  else if e = unit 'f' then 12
  else e

/-- The string builder, with what the rest of the loop appends. -/
def append (c : UInt16) (r : Option (Text × Text)) : Option (Text × Text) :=
  r.map fun r => (c :: r.1, r.2)

/-- `Character.digit(.., 16)`, of the ASCII digits. -/
def hexDigit (c : UInt16) : Option ℕ :=
  let n := c.toNat
  if 48 ≤ n ∧ n ≤ 57 then some (n - 48)
  else if 65 ≤ n ∧ n ≤ 70 then some (n - 55)
  else if 97 ≤ n ∧ n ≤ 102 then some (n - 87)
  else none

/-- `(char) Integer.parseInt(.., 16)`. -/
def parseChar : Text → Option UInt16
  | [] => none
  | c :: t => do
    let signed := c = unit '-' ∨ c = unit '+'
    let ds := if signed then t else c :: t
    if ds = [] then none
    else
      let n ← ds.foldlM (fun n d => (hexDigit d).map (16 * n + ·)) 0
      return if c = unit '-' then -UInt16.ofNat n else UInt16.ofNat n

/-- The loop of `str`, after the opening quote. -/
def chars : Text → Option (Text × Text)
  | [] => none
  | c :: t =>
    if c = unit '"' then some ([], t)
    else if c = unit '\\' then
      match t with
      | [] => none
      | e :: t =>
        if e = unit 'u' then
          match t with
          | a :: b :: c :: d :: t => (parseChar [a, b, c, d]).bind fun x => append x (chars t)
          | _ => none
        else append (unescape e) (chars t)
    else append c (chars t)

def str (t : Text) : Option (Text × Text) := chars (t.drop 1)

def num (t : Text) : Option (Doc Double × Text) :=
  (parseDouble (t.takeWhile isNumeric)).map fun d => (.num d, t.dropWhile isNumeric)

mutual
def value : ℕ → Text → Option (Doc Double × Text)
  | 0, _ => none
  | fuel + 1, t =>
    match ws t with
    | [] => none
    | c :: r =>
      if c = unit '{' then obj fuel r
      else if c = unit '[' then arr fuel r
      else if c = unit '"' then (str (c :: r)).map fun p => (.str p.1, p.2)
      else if c = unit 't' then some (.bool true, r.drop 3)
      else if c = unit 'f' then some (.bool false, r.drop 4)
      else if c = unit 'n' then some (.null, r.drop 3)
      else num (c :: r)

/-- `obj`, after the brace. -/
def obj : ℕ → Text → Option (Doc Double × Text)
  | 0, _ => none
  | fuel + 1, t =>
    match ws t with
    | [] => none
    | c :: r => if c = unit '}' then some (.map [], r) else fields fuel [] (c :: r)

/-- The loop of `obj`. -/
def fields : ℕ → List (Text × Doc Double) → Text → Option (Doc Double × Text)
  | 0, _, _ => none
  | fuel + 1, m, t => do
    let k ← str (ws t)
    let x ← value fuel ((ws k.2).drop 1)
    match ws x.2 with
    | [] => none
    | c :: r => if c = unit '}' then some (.map (put k.1 x.1 m), r) else fields fuel (put k.1 x.1 m) r

/-- `arr`, after the bracket. -/
def arr : ℕ → Text → Option (Doc Double × Text)
  | 0, _ => none
  | fuel + 1, t =>
    match ws t with
    | [] => none
    | c :: r => if c = unit ']' then some (.list [], r) else items fuel [] (c :: r)

/-- The loop of `arr`. -/
def items : ℕ → List (Doc Double) → Text → Option (Doc Double × Text)
  | 0, _, _ => none
  | fuel + 1, a, t => do
    let x ← value fuel t
    match ws x.2 with
    | [] => none
    | c :: r => if c = unit ']' then some (.list (a ++ [x.1]), r) else items fuel (a ++ [x.1]) r
end

/-- `Json.write`. -/
def write (v : Doc Double) : Text := w letters toText v

/-- `Json.parse`, which does not look at what is left. -/
def parse (s : Text) : Option (Doc Double) := (value (3 * s.length) s).map Prod.fst

/-! ### The client -/

/-- The field of a reply, which is cast to a map. -/
def field (body : Text) (name : String) : Option (Option (Doc Double)) := do
  match ← parse body with
  | .map fields => some ((fields.lookup (text name)).bind Doc.nonNull)
  | _ => none

/-- `incr`, on the body of the reply. -/
def incr (body : Text) : Option ℤ := do
  match ← field body "value" with
  | some (.num d) => some (longValue d)
  | _ => none

def get (body : Text) : Option (Option Text) := (field body "object").map (·.map write)

def mget (body : Text) : Option (List (Option Text)) := do
  match ← field body "values" with
  | some (.list vals) => some (vals.map fun v => v.nonNull.map write)
  | _ => none

/-! ### What the server sends -/

/-- A number of a `serde_json::Value`. -/
inductive Number where
  | int (n : ℤ)
  | float (bits : UInt64)

/-- The letters of `serde_json`. -/
def serdeLetters : List (UInt16 × UInt16) := letters ++ [(8, unit 'b'), (12, unit 'f')]

/-- The text of a number; that of a double is a parameter. -/
def numberText (floatText : UInt64 → Text) : Number → Text
  | .int n => intText n
  | .float bits => floatText bits

/-- The body of a reply with one field. -/
def reply (floatText : UInt64 → Text) (name : String) (v : Doc Number) : Text :=
  w serdeLetters (numberText floatText) (.map [(text name, v)])

/-! ### Rounding -/

/-- The nearest integer with a significand of 53 bits, the even one of two. -/
def roundNat (n : ℕ) : ℕ := roundBits 53 n

def round53 (n : ℤ) : ℤ := n.sign * roundNat n.natAbs

end Stplr.Java
