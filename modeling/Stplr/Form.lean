import Mathlib.Data.List.Basic
import Stplr.Value

/-!
# Query strings

Strings are given by their bytes.  `percentDecode` is the decoder of the authorisation layer,
`formDecode` the one of the handlers' `Query` extractor (`form_urlencoded`).  Both replace bytes that
are not UTF-8 as `String::from_utf8_lossy` does.
-/

namespace Stplr

/-! ### UTF-8 -/

/-- A character whose first bytes have been read: their bits, the number of bytes that are missing,
and the range of the next one. -/
structure Utf8Pending where
  bits : ℕ
  missing : ℕ
  low : ℕ
  high : ℕ

/-- What stands for bytes that are not UTF-8. -/
def replacementChar : Char := Char.ofNat 0xFFFD

/-- The first byte of a character: what it yields, and what it leaves pending. -/
def utf8Start (b : ℕ) : List Char × Option Utf8Pending := if b < 0x80 then ([Char.ofNat b], none)
  else if 0xC2 ≤ b ∧ b ≤ 0xDF then ([], some ⟨b - 0xC0, 1, 0x80, 0xBF⟩)
  else if b = 0xE0 then ([], some ⟨0, 2, 0xA0, 0xBF⟩)
  else if b = 0xED then ([], some ⟨0xD, 2, 0x80, 0x9F⟩)
  else if 0xE1 ≤ b ∧ b ≤ 0xEF then ([], some ⟨b - 0xE0, 2, 0x80, 0xBF⟩)
  else if b = 0xF0 then ([], some ⟨0, 3, 0x90, 0xBF⟩)
  else if 0xF1 ≤ b ∧ b ≤ 0xF3 then ([], some ⟨b - 0xF0, 3, 0x80, 0xBF⟩)
  else if b = 0xF4 then ([], some ⟨4, 3, 0x80, 0x8F⟩)
  else ([replacementChar], none)

/-- The next byte. -/
def utf8Step (p : Option Utf8Pending) (b : ℕ) : List Char × Option Utf8Pending := match p with
  | none => utf8Start b
  | some p =>
    if p.low ≤ b ∧ b ≤ p.high then
      let bits := p.bits * 64 + (b - 0x80)
      if p.missing = 1 then ([Char.ofNat bits], none)
      else ([], some ⟨bits, p.missing - 1, 0x80, 0xBF⟩)
    else (replacementChar :: (utf8Start b).1, (utf8Start b).2)

def utf8Chars (p : Option Utf8Pending) : List UInt8 → List Char
  | [] => if p.isSome then [replacementChar] else []
  | b :: bs => (utf8Step p b.toNat).1 ++ utf8Chars (utf8Step p b.toNat).2 bs

/-- `String::from_utf8_lossy`. -/
def fromUtf8Lossy (bs : List UInt8) : String := String.ofList (utf8Chars none bs)

/-- The UTF-8 bytes of a string. -/
def utf8Bytes (s : String) : List UInt8 := s.toList.flatMap String.utf8EncodeChar

/-- `std::str::from_utf8(..).ok()`: the bytes are those of a string. -/
def fromUtf8 (b : List UInt8) : Option String :=
  if utf8Bytes (fromUtf8Lossy b) = b then some (fromUtf8Lossy b) else none

/-! ### Percent decoding -/

namespace Ascii

def percent : UInt8 := 37

def plus : UInt8 := 43

def space : UInt8 := 32

def ampersand : UInt8 := 38

def equals : UInt8 := 61

end Ascii

open Ascii

/-- The value of a hexadecimal digit. -/
def hexDigit (b : UInt8) : Option ℕ :=
  let n := b.toNat
  if 48 ≤ n ∧ n ≤ 57 then some (n - 48)
  else if 65 ≤ n ∧ n ≤ 70 then some (n - 55)
  else if 97 ≤ n ∧ n ≤ 102 then some (n - 87)
  else none

def hexPair (hi lo : UInt8) : Option UInt8 := do
  let h ← hexDigit hi
  let l ← hexDigit lo
  return UInt8.ofNat (16 * h + l)

/-- `u8::from_str_radix(.., 16).ok()` on two bytes, the first of which may be a plus sign. -/
def fromStrRadix16 (hi lo : UInt8) : Option UInt8 :=
  if hi = plus then (hexDigit lo).map UInt8.ofNat else hexPair hi lo

/-- A string cannot be cut before this byte. -/
def isContinuation (b : UInt8) : Bool := 0x80 ≤ b.toNat ∧ b.toNat ≤ 0xBF

/-- The loop of `percent_decode`.  It panics (`none`) where the two bytes after a percent sign end
inside a character. -/
def percentBytes : List UInt8 → Option (List UInt8)
  | b :: hi :: lo :: rest =>
    if b = percent then
      if rest.head?.any isContinuation then none
      else match fromStrRadix16 hi lo with
        | some v => (percentBytes rest).map (v :: ·)
        | none => (percentBytes (hi :: lo :: rest)).map (b :: ·)
    else (percentBytes (hi :: lo :: rest)).map ((if b = plus then space else b) :: ·)
  | b :: rest => (percentBytes rest).map ((if b = plus then space else b) :: ·)
  | [] => some []

def percentDecode (s : List UInt8) : Option String := (percentBytes s).map fromUtf8Lossy

/-! ### Forms -/

/-- `percent_encoding::percent_decode`. -/
def formBytes : List UInt8 → List UInt8
  | b :: hi :: lo :: rest =>
    if b = percent then
      match hexPair hi lo with
      | some v => v :: formBytes rest
      | none => b :: formBytes (hi :: lo :: rest)
    else b :: formBytes (hi :: lo :: rest)
  | b :: rest => b :: formBytes rest
  | [] => []

/-- A name or a value of a form. -/
def formDecode (s : List UInt8) : String :=
  fromUtf8Lossy (formBytes (s.map fun b => if b = plus then space else b))

/-- `form_urlencoded::parse`. -/
def parseForm (query : List UInt8) : List (String × String) :=
  ((query.splitOn ampersand).filter (· ≠ [])).map fun part =>
    (formDecode (part.takeWhile (· ≠ equals)), formDecode ((part.dropWhile (· ≠ equals)).drop 1))

/-- The upper-case hexadecimal digit of a number below 16. -/
def hexChar (n : ℕ) : UInt8 := UInt8.ofNat (if n < 10 then 48 + n else 55 + n)

/-- The bytes that stand for themselves in a form: `*`, `-`, `.`, `_`, digits and letters. -/
def isPlain (b : UInt8) : Bool :=
  let n := b.toNat
  n = 42 || n = 45 || n = 46 || n = 95 || (48 ≤ n && n ≤ 57) || (65 ≤ n && n ≤ 90) ||
    (97 ≤ n && n ≤ 122)

/-- `form_urlencoded::byte_serialize`, of one byte. -/
def formByte (b : UInt8) : List UInt8 := if b = space then [plus]
  else if isPlain b then [b]
  else [percent, hexChar (b.toNat / 16), hexChar (b.toNat % 16)]

def formEncode (s : String) : List UInt8 := (utf8Bytes s).flatMap formByte

/-- `form_urlencoded::Serializer`. -/
def encodeForm (form : List (String × String)) : List UInt8 :=
  [ampersand].intercalate (form.map fun e => formEncode e.1 ++ equals :: formEncode e.2)

/-- A field of a struct that is read from a form: an error (`none`) if it occurs twice. -/
def formField (form : List (String × String)) (name : String) : Option (Option String) :=
  match form.filter fun e => e.1 = name with
  | [] => some none
  | [e] => some (some e.2)
  | _ => none

/-- A field that has to be there. -/
def requiredField (form : List (String × String)) (name : String) : Option String :=
  (formField form name).join

/-- `str::parse::<usize>`. -/
def parseUsize (cs : List Char) : Option ℕ := (parseDigits (match cs with
    | '+' :: ds => ds
    | ds => ds)).filter (· < 2 ^ 64)

end Stplr
