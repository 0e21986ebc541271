import Stplr.Form
import Mathlib.Tactic.IntervalCases

/-!
# Strings and their bytes

`fromUtf8Lossy` undoes `utf8Bytes` (`fromUtf8Lossy_utf8Bytes`), so `fromUtf8` accepts exactly the bytes
of strings (`fromUtf8_eq_some`).  A form is read as it was written (`parseForm_encodeForm`): what stands
for itself is no separator, and everything else is written as hexadecimal digits.  The decoder of the
authorisation layer reads what the handlers' one does, except at certain percent signs
(`percentDecode_eq_some_formDecode_iff`).
-/

namespace Stplr

/-! ### UTF-8 -/

section Decoder

variable {bits n low high : ℕ} {b : UInt8} {bs : List UInt8}

theorem utf8Chars_start {p : Utf8Pending} (h : utf8Start b.toNat = ([], some p)) :
    utf8Chars none (b :: bs) = utf8Chars (some p) bs := by
  rw [utf8Chars, utf8Step, h, List.nil_append]

/-- A byte in the middle of a character. -/
theorem utf8Chars_more (h : low ≤ b.toNat ∧ b.toNat ≤ high) :
    utf8Chars (some ⟨bits, n + 2, low, high⟩) (b :: bs)
      = utf8Chars (some ⟨bits * 64 + (b.toNat - 0x80), n + 1, 0x80, 0xBF⟩) bs := by
  rw [utf8Chars, utf8Step, if_pos h]
  rfl

/-- The last byte of a character. -/
theorem utf8Chars_last (h : low ≤ b.toNat ∧ b.toNat ≤ high) :
    utf8Chars (some ⟨bits, 1, low, high⟩) (b :: bs)
      = Char.ofNat (bits * 64 + (b.toNat - 0x80)) :: utf8Chars none bs := by
  rw [utf8Chars, utf8Step, if_pos h]
  rfl

variable {k : ℕ}

theorem utf8Start_three (hk : k < 16) : utf8Start (k + 0xE0)
    = ([], some ⟨k, 2, if k = 0 then 0xA0 else 0x80, if k = 0xD then 0x9F else 0xBF⟩) := by
  interval_cases k <;> rfl

theorem utf8Start_four (hk : k < 5) : utf8Start (k + 0xF0)
    = ([], some ⟨k, 3, if k = 0 then 0x90 else 0x80, if k = 4 then 0x8F else 0xBF⟩) := by
  interval_cases k <;> rfl

end Decoder

/-- The bytes of a character are read as that character. -/
theorem utf8Chars_encodeChar (c : Char) (rest : List UInt8) :
    utf8Chars none (String.utf8EncodeChar c ++ rest) = c :: utf8Chars none rest := by
  have hrange : c.toNat < 0xD800 ∨ 0xDFFF < c.toNat ∧ c.toNat < 0x110000 := c.valid
  have hc : ∀ v, v = c.toNat → Char.ofNat v = c := by
    rintro v rfl
    exact Char.ofNat_toNat c
  have hbyte : ∀ {m : ℕ}, m < 256 → (UInt8.ofNat m).toNat = m := fun hm => by
    simp only [UInt8.toNat_ofNat']
    omega
  have hval : c.val.toNat = c.toNat := rfl
  simp only [String.utf8EncodeChar, hval]
  clear hval
  generalize c.toNat = v at hrange hc ⊢
  split_ifs with h1 h2 h3
  · -- one byte
    have hb := hbyte (m := v) (by omega)
    have hstart : utf8Start (UInt8.ofNat v).toNat = ([Char.ofNat v], none) := by
      rw [hb, utf8Start, if_pos (by omega)]
    rw [List.singleton_append, utf8Chars, utf8Step, hstart, hc v rfl, List.singleton_append]
  · have hb0 := hbyte (m := v / 64 % 32 + 192) (by omega)
    have hb1 := hbyte (m := v % 64 + 128) (by omega)
    have hstart : utf8Start (UInt8.ofNat (v / 64 % 32 + 192)).toNat
        = ([], some ⟨v / 64, 1, 0x80, 0xBF⟩) := by
      rw [hb0, utf8Start, if_neg (by omega), if_pos (by omega),
        show v / 64 % 32 + 192 - 0xC0 = v / 64 by omega]
    rw [List.cons_append, utf8Chars_start hstart, List.singleton_append,
      utf8Chars_last (by omega), hc _ (by omega)]
  · have hb0 := hbyte (m := v / 4096 % 16 + 224) (by omega)
    have hb1 := hbyte (m := v / 64 % 64 + 128) (by omega)
    have hb2 := hbyte (m := v % 64 + 128) (by omega)
    have hstart := utf8Start_three (k := v / 4096 % 16) (by omega)
    rw [← hb0] at hstart
    -- the second byte excludes shorter forms and surrogates
    have hsecond : (if v / 4096 % 16 = 0 then 0xA0 else 0x80) ≤ v / 64 % 64 + 128 ∧
        v / 64 % 64 + 128 ≤ if v / 4096 % 16 = 0xD then 0x9F else 0xBF := by
      split_ifs <;> omega
    rw [← hb1] at hsecond
    rw [List.cons_append, utf8Chars_start hstart, List.cons_append, utf8Chars_more hsecond,
      List.singleton_append, utf8Chars_last (by omega), hc _ (by omega)]
  · have hb0 := hbyte (m := v / 262144 % 8 + 240) (by omega)
    have hb1 := hbyte (m := v / 4096 % 64 + 128) (by omega)
    have hb2 := hbyte (m := v / 64 % 64 + 128) (by omega)
    have hb3 := hbyte (m := v % 64 + 128) (by omega)
    have hstart := utf8Start_four (k := v / 262144 % 8) (by omega)
    rw [← hb0] at hstart
    have hsecond : (if v / 262144 % 8 = 0 then 0x90 else 0x80) ≤ v / 4096 % 64 + 128 ∧
        v / 4096 % 64 + 128 ≤ if v / 262144 % 8 = 4 then 0x8F else 0xBF := by
      split_ifs <;> omega
    rw [← hb1] at hsecond
    rw [List.cons_append, utf8Chars_start hstart, List.cons_append, utf8Chars_more hsecond,
      List.cons_append, utf8Chars_more (by omega), List.singleton_append,
      utf8Chars_last (by omega), hc _ (by omega)]

theorem fromUtf8Lossy_utf8Bytes (s : String) : fromUtf8Lossy (utf8Bytes s) = s := by
  have hchars : ∀ cs : List Char, utf8Chars none (cs.flatMap String.utf8EncodeChar) = cs := by
    intro cs
    induction cs with
    | nil => rfl
    | cons c cs ih => rw [List.flatMap_cons, utf8Chars_encodeChar, ih]
  rw [fromUtf8Lossy, utf8Bytes, hchars, String.ofList_toList]

/-- `from_utf8` accepts the bytes of strings, and nothing else. -/
theorem fromUtf8_eq_some {b : List UInt8} {s : String} : fromUtf8 b = some s ↔ utf8Bytes s = b := by
  constructor
  · intro h
    rw [fromUtf8] at h
    split_ifs at h with hb
    obtain rfl := Option.some.inj h
    exact hb
  · rintro rfl
    rw [fromUtf8, fromUtf8Lossy_utf8Bytes, if_pos rfl]

/-! ### Forms -/

open Ascii List

/-- The step of the decoder that undoes `+`. -/
def unplus (b : UInt8) : UInt8 := if b = plus then space else b

variable {n : ℕ} {b c : UInt8} {bs : List UInt8} {p : Option Utf8Pending}

theorem hexDigit_hexChar (hn : n < 16) : hexDigit (hexChar n) = some n := by
  interval_cases n <;> rfl

theorem unplus_hexChar (hn : n < 16) : unplus (hexChar n) = hexChar n := by
  interval_cases n <;> rfl

theorem hexPair_hexChar (b : UInt8) :
    hexPair (hexChar (b.toNat / 16)) (hexChar (b.toNat % 16)) = some b := by
  have hb : b.toNat < 256 := b.toNat_lt
  have hsum : 16 * (b.toNat / 16) + b.toNat % 16 = b.toNat := Nat.div_add_mod ..
  rw [hexPair, hexDigit_hexChar (by omega), hexDigit_hexChar (by omega)]
  show some (UInt8.ofNat (16 * (b.toNat / 16) + b.toNat % 16)) = some b
  rw [hsum, UInt8.ofNat_toNat]

theorem formBytes_cons_ne (hb : b ≠ percent) (bs : List UInt8) :
    formBytes (b :: bs) = b :: formBytes bs := by
  rcases bs with _ | ⟨hi, _ | ⟨lo, rest⟩⟩
  · rfl
  · rfl
  · rw [formBytes, if_neg hb]

theorem isPlain_ne (hb : isPlain b = true) (hc : isPlain c = false) : b ≠ c := by
  rintro rfl
  rw [hb] at hc
  cases hc

/-- The bytes of a byte are read as that byte. -/
theorem formBytes_formByte (b : UInt8) (bs : List UInt8) :
    formBytes ((formByte b).map unplus ++ bs) = b :: formBytes bs := by
  have hhi : b.toNat / 16 < 16 := by
    have := b.toNat_lt
    omega
  unfold formByte
  split_ifs with hspace hplain
  · subst hspace
    exact formBytes_cons_ne (by decide) bs
  · have hne : b ≠ plus := isPlain_ne hplain (by decide)
    rw [map_singleton, unplus, if_neg hne, singleton_append,
      formBytes_cons_ne (isPlain_ne hplain (by decide))]
  · rw [map_cons, map_cons, map_singleton, unplus_hexChar hhi,
      unplus_hexChar (Nat.mod_lt _ (by decide))]
    show formBytes (percent :: hexChar (b.toNat / 16) :: hexChar (b.toNat % 16) :: bs) = _
    rw [formBytes, if_pos rfl, hexPair_hexChar]

theorem formDecode_formEncode (s : String) : formDecode (formEncode s) = s := by
  have hbytes : ∀ bs : List UInt8, formBytes ((bs.flatMap formByte).map unplus) = bs := by
    intro bs
    induction bs with
    | nil => rfl
    | cons b bs ih => rw [flatMap_cons, map_append, formBytes_formByte, ih]
  have hunplus : (fun b => if b = plus then space else b) = unplus := rfl
  rw [formDecode, formEncode, hunplus, hbytes, fromUtf8Lossy_utf8Bytes]

theorem percentBytes_cons_ne (hb : b ≠ percent) (bs : List UInt8) :
    percentBytes (b :: bs) = (percentBytes bs).map (unplus b :: ·) := by
  rcases bs with _ | ⟨hi, _ | ⟨lo, rest⟩⟩
  · rfl
  · rfl
  · rw [percentBytes, if_neg hb]
    rfl

/-- What is written for a byte starts with an ASCII character. -/
theorem exists_formByte_eq_cons (b : UInt8) :
    ∃ c cs, formByte b = c :: cs ∧ isContinuation c = false := by
  unfold formByte
  split_ifs with hspace hplain
  · exact ⟨plus, [], rfl, by decide⟩
  · refine ⟨b, [], rfl, ?_⟩
    simp only [isPlain, Bool.or_eq_true, Bool.and_eq_true, decide_eq_true_eq] at hplain
    simp only [isContinuation, decide_eq_false_iff_not]
    omega
  · exact ⟨percent, _, rfl, by decide⟩

theorem percentBytes_formByte (b : UInt8) (hbs : bs.head?.any isContinuation = false) :
    percentBytes (formByte b ++ bs) = (percentBytes bs).map (b :: ·) := by
  unfold formByte
  split_ifs with hspace hplain
  · subst hspace
    exact percentBytes_cons_ne (by decide) bs
  · have hne : b ≠ plus := isPlain_ne hplain (by decide)
    rw [singleton_append, percentBytes_cons_ne (isPlain_ne hplain (by decide)), unplus, if_neg hne]
  · have hhi : b.toNat / 16 < 16 := by
      have := b.toNat_lt
      omega
    have hplus : hexChar (b.toNat / 16) ≠ plus := by
      intro heq
      have hdigit := hexDigit_hexChar hhi
      rw [heq] at hdigit
      cases hdigit
    show percentBytes (percent :: hexChar (b.toNat / 16) :: hexChar (b.toNat % 16) :: bs) = _
    rw [percentBytes, if_pos rfl, if_neg (by simp [hbs]), fromStrRadix16, if_neg hplus,
      hexPair_hexChar]

/-- The decoder of the layer reads what a form writes, too. -/
theorem percentDecode_formEncode (s : String) : percentDecode (formEncode s) = some s := by
  have hbytes : ∀ bs : List UInt8, percentBytes (bs.flatMap formByte) = some bs := by
    intro bs
    induction bs with
    | nil => rfl
    | cons b bs ih =>
      have hhead : (bs.flatMap formByte).head?.any isContinuation = false := by
        cases bs with
        | nil => rfl
        | cons b' bs =>
          obtain ⟨c, cs, hcs, hc⟩ := exists_formByte_eq_cons b'
          rw [flatMap_cons, hcs]
          exact hc
      rw [flatMap_cons, percentBytes_formByte b hhead, ih]
      rfl
  rw [percentDecode, formEncode, hbytes]
  exact congrArg some (fromUtf8Lossy_utf8Bytes s)

/-! ### The decoder of the layer against that of the handlers -/

/-- The text starts with a percent sign that the two decoders read differently: two bytes follow it,
and they are a plus sign and a digit, or they end inside a character. -/
def misreadHead : List UInt8 → Bool
  | b :: hi :: lo :: rest =>
    b = percent && (hi = plus && (hexDigit lo).isSome || rest.head?.any isContinuation)
  | _ => false

def Misread (s : List UInt8) : Prop := ∃ t ∈ s.tails, misreadHead t = true

instance (s : List UInt8) : Decidable (Misread s) := inferInstanceAs (Decidable (∃ t ∈ _, _))

theorem not_misread_nil : ¬Misread [] := by decide

theorem misread_cons : Misread (b :: bs) ↔ misreadHead (b :: bs) = true ∨ Misread bs := by
  rw [Misread, tails, exists_mem_cons_iff, ← Misread]

theorem misread_cons_ne (hb : b ≠ percent) : Misread (b :: bs) ↔ Misread bs := by
  rw [misread_cons, or_iff_right]
  rcases bs with _ | ⟨hi, _ | ⟨lo, rest⟩⟩ <;> simp [misreadHead, hb]

theorem hexDigit_unplus (b : UInt8) : hexDigit (unplus b) = hexDigit b := by
  unfold unplus
  split_ifs with hb
  · subst hb
    rfl
  · rfl

theorem hexPair_unplus (hi lo : UInt8) : hexPair (unplus hi) (unplus lo) = hexPair hi lo := by
  rw [hexPair, hexPair, hexDigit_unplus, hexDigit_unplus]

/-- `from_str_radix` reads two digits, and a plus sign before a digit. -/
theorem fromStrRadix16_eq {hi lo : UInt8} (h : ¬(hi = plus ∧ (hexDigit lo).isSome)) :
    fromStrRadix16 hi lo = hexPair hi lo := by
  unfold fromStrRadix16
  split_ifs with hplus
  · subst hplus
    have hlo : hexDigit lo = none := by simpa using h
    rw [hlo]
    rfl
  · rfl

theorem ne_percent_of_hexDigit (h : hexDigit b = some n) : b ≠ percent := by
  rintro rfl
  cases h

/-- **One step of both decoders.**  Where the text does not start with a sign that they read
differently, they read the same byte, and go on with the same rest. -/
theorem step_of_misreadHead_eq_false (h : misreadHead (b :: bs) = false) :
    ∃ v rest, rest.length ≤ bs.length ∧ (Misread (b :: bs) ↔ Misread rest) ∧
      percentBytes (b :: bs) = (percentBytes rest).map (v :: ·) ∧
      formBytes ((b :: bs).map unplus) = v :: formBytes (rest.map unplus) := by
  have hmisread : Misread (b :: bs) ↔ Misread bs := by
    rw [misread_cons, or_iff_right (by simp [h])]
  by_cases hb : b = percent
  · subst hb
    rcases bs with _ | ⟨hi, _ | ⟨lo, rest⟩⟩
    · exact ⟨percent, [], le_rfl, hmisread, rfl, rfl⟩
    · refine ⟨percent, [hi], le_rfl, hmisread, rfl, ?_⟩
      rfl
    · obtain ⟨hradix, hcut⟩ : ¬(hi = plus ∧ (hexDigit lo).isSome) ∧
          rest.head?.any isContinuation = false := by
        simpa [misreadHead, not_and_or] using h
      have hunplus : unplus percent = percent := rfl
      -- what both of them come to
      have hpercent : percentBytes (percent :: hi :: lo :: rest)
          = (hexPair hi lo).elim ((percentBytes (hi :: lo :: rest)).map (percent :: ·))
            fun v => (percentBytes rest).map (v :: ·) := by
        rw [percentBytes, if_pos rfl, if_neg (by simp [hcut]), fromStrRadix16_eq hradix]
        cases hexPair hi lo <;> rfl
      have hform : formBytes ((percent :: hi :: lo :: rest).map unplus)
          = (hexPair hi lo).elim (percent :: formBytes ((hi :: lo :: rest).map unplus))
            fun v => v :: formBytes (rest.map unplus) := by
        rw [map_cons, map_cons, map_cons, hunplus, formBytes, if_pos rfl, hexPair_unplus]
        cases hexPair hi lo <;> rfl
      cases hpair : hexPair hi lo with
      | none =>
        rw [hpair] at hpercent hform
        exact ⟨percent, hi :: lo :: rest, le_rfl, hmisread, hpercent, hform⟩
      | some v =>
        rw [hpair] at hpercent hform
        -- the digits are no percent signs
        obtain ⟨h₁, hhi, h₂, hlo, -⟩ : ∃ h₁, hexDigit hi = some h₁ ∧ ∃ h₂, hexDigit lo = some h₂ ∧
            UInt8.ofNat (16 * h₁ + h₂) = v := by
          simpa [hexPair, Option.bind_eq_some_iff] using hpair
        refine ⟨v, rest, by simp only [length_cons]; omega, hmisread.trans ?_, hpercent, hform⟩
        rw [misread_cons_ne (ne_percent_of_hexDigit hhi), misread_cons_ne (ne_percent_of_hexDigit hlo)]
  · refine ⟨unplus b, bs, le_rfl, hmisread, percentBytes_cons_ne hb bs, ?_⟩
    refine formBytes_cons_ne ?_ _
    unfold unplus
    split_ifs
    · decide
    · exact hb

/-- The two texts differ for the first time in two ASCII characters. -/
def Diverge (s t : List UInt8) : Prop :=
  ∃ p x y s' t', s = p ++ x :: s' ∧ t = p ++ y :: t' ∧ x.toNat < 0x80 ∧ y.toNat < 0x80 ∧ x ≠ y

theorem Diverge.cons {s t : List UInt8} (h : Diverge s t) (v : UInt8) :
    Diverge (v :: s) (v :: t) := by
  obtain ⟨p, x, y, s', t', rfl, rfl, hxy⟩ := h
  exact ⟨v :: p, x, y, s', t', rfl, rfl, hxy⟩

theorem hexDigit_lt (h : hexDigit b = some n) : n < 16 := by
  unfold hexDigit at h
  dsimp only at h
  split_ifs at h <;> obtain rfl := Option.some.inj h <;> omega

/-- A sign that they read differently: the decoder of the layer panics, or reads it with the plus sign
and the digit as a control character. -/
theorem diverge_of_misreadHead {s out : List UInt8} (h : misreadHead s = true)
    (hout : percentBytes s = some out) : Diverge out (formBytes (s.map unplus)) := by
  rcases s with _ | ⟨b, _ | ⟨hi, _ | ⟨lo, rest⟩⟩⟩
  · cases h
  · cases h
  · cases h
  · simp only [misreadHead, Bool.and_eq_true, Bool.or_eq_true, decide_eq_true_eq] at h
    obtain ⟨rfl, h⟩ := h
    rw [percentBytes, if_pos rfl] at hout
    split_ifs at hout with hcut
    obtain ⟨rfl, hlo⟩ := h.resolve_right hcut
    obtain ⟨n, hn⟩ := Option.isSome_iff_exists.mp hlo
    have hlt := hexDigit_lt hn
    have hradix : fromStrRadix16 plus lo = some (UInt8.ofNat n) := by
      rw [fromStrRadix16, if_pos rfl, hn]
      rfl
    rw [hradix] at hout
    obtain ⟨s', -, rfl⟩ := Option.map_eq_some_iff.mp hout
    have htoNat : (UInt8.ofNat n).toNat = n := by
      rw [UInt8.toNat_ofNat']
      omega
    refine ⟨[], UInt8.ofNat n, percent, s', formBytes ((plus :: lo :: rest).map unplus), rfl, ?_,
      by omega, by decide, ?_⟩
    · have hnone : hexPair (unplus plus) (unplus lo) = none := rfl
      show formBytes (percent :: unplus plus :: unplus lo :: rest.map unplus) = _
      rw [formBytes, if_pos rfl, hnone]
      rfl
    · intro heq
      have hnat := congrArg UInt8.toNat heq
      rw [htoNat] at hnat
      change n = 37 at hnat
      omega

/-- **The two decoders.**  They read the same bytes, unless there is a sign that they read
differently.  Then that of the layer panics, or the bytes diverge. -/
theorem percentBytes_spec (s : List UInt8) :
    (¬Misread s → percentBytes s = some (formBytes (s.map unplus))) ∧
    (Misread s → ∀ out, percentBytes s = some out → Diverge out (formBytes (s.map unplus))) := by
  induction hlen : s.length using Nat.strong_induction_on generalizing s with
  | _ n ih =>
    cases s with
    | nil => exact ⟨fun _ => rfl, fun h => absurd h not_misread_nil⟩
    | cons b bs =>
      cases hhead : misreadHead (b :: bs) with
      | true =>
        exact ⟨fun h => absurd (misread_cons.mpr (.inl hhead)) h,
          fun _ out hout => diverge_of_misreadHead hhead hout⟩
      | false =>
        obtain ⟨v, rest, hle, hmisread, hpercent, hform⟩ := step_of_misreadHead_eq_false hhead
        obtain ⟨hsame, hdiff⟩ := ih rest.length (by rw [← hlen, length_cons]; omega) rest rfl
        rw [hmisread, hpercent, hform]
        refine ⟨fun h => by rw [hsame h, Option.map_some], fun h out hout => ?_⟩
        obtain ⟨out', hout', rfl⟩ := Option.map_eq_some_iff.mp hout
        exact (hdiff h out' hout').cons v

/-- Bytes that are pending wait for one that is not ASCII. -/
def WaitsHigh (p : Option Utf8Pending) : Prop := ∀ q ∈ p, 0x80 ≤ q.low

theorem waitsHigh_utf8Start (b : ℕ) : WaitsHigh (utf8Start b).2 := by
  intro q hq
  unfold utf8Start at hq
  split_ifs at hq <;> simp_all <;> subst hq <;> simp

theorem waitsHigh_utf8Step (b : ℕ) : WaitsHigh (utf8Step p b).2 := by
  cases p with
  | none => exact waitsHigh_utf8Start b
  | some p =>
    unfold utf8Step
    dsimp only
    split_ifs
    · exact fun q hq => absurd hq (Option.not_mem_none q)
    · rintro q hq
      obtain rfl := Option.some.inj hq
      exact le_rfl
    · exact waitsHigh_utf8Start b

theorem utf8Chars_append (s : List UInt8) (hp : WaitsHigh p) :
    ∃ cs p', WaitsHigh p' ∧ ∀ t, utf8Chars p (s ++ t) = cs ++ utf8Chars p' t := by
  induction s generalizing p with
  | nil => exact ⟨[], p, hp, fun t => rfl⟩
  | cons b s ih =>
    obtain ⟨cs, p', hp', h⟩ := ih (waitsHigh_utf8Step (p := p) b.toNat)
    refine ⟨(utf8Step p b.toNat).1 ++ cs, p', hp', fun t => ?_⟩
    rw [cons_append, utf8Chars, h t, append_assoc]

/-- An ASCII character stands for itself, after the replacement of what was pending. -/
theorem utf8Chars_ascii (hp : WaitsHigh p) (hb : b.toNat < 0x80) (bs : List UInt8) :
    utf8Chars p (b :: bs)
      = (if p.isSome then [replacementChar] else []) ++ Char.ofNat b.toNat :: utf8Chars none bs := by
  have hstart : utf8Start b.toNat = ([Char.ofNat b.toNat], none) := by
    rw [utf8Start, if_pos hb]
  cases p with
  | none =>
    rw [utf8Chars, utf8Step, hstart]
    rfl
  | some p =>
    have hlow := hp p rfl
    rw [utf8Chars, utf8Step, if_neg (by omega), hstart]
    rfl

theorem ofNat_toNat_inj {x y : UInt8} (h : Char.ofNat x.toNat = Char.ofNat y.toNat) : x = y := by
  have hval : ∀ b : UInt8, (Char.ofNat b.toNat).toNat = b.toNat := by
    intro b
    have hvalid : b.toNat.isValidChar := .inl (b.toNat_lt.trans (by decide))
    rw [Char.ofNat, dif_pos hvalid]
    rfl
  rw [← UInt8.toNat_inj, ← hval x, ← hval y, h]

theorem fromUtf8Lossy_ne {s t : List UInt8} (h : Diverge s t) :
    fromUtf8Lossy s ≠ fromUtf8Lossy t := by
  obtain ⟨p, x, y, s', t', rfl, rfl, hx, hy, hne⟩ := h
  obtain ⟨cs, q, hq, happ⟩ := utf8Chars_append p (p := none) fun q hq => absurd hq (by simp)
  intro heq
  have hchars := String.ofList_injective heq
  rw [happ, happ, utf8Chars_ascii hq hx, utf8Chars_ascii hq hy] at hchars
  have htail := append_cancel_left (append_cancel_left hchars)
  exact hne (ofNat_toNat_inj (cons.inj htail).1)

/-- **When the decoder of the layer is that of the handlers.** -/
theorem percentDecode_eq_some_formDecode_iff (s : List UInt8) :
    percentDecode s = some (formDecode s) ↔ ¬Misread s := by
  have hunplus : (fun b => if b = plus then space else b) = unplus := rfl
  obtain ⟨hsame, hdiff⟩ := percentBytes_spec s
  rw [percentDecode, formDecode, hunplus]
  constructor
  · intro heq hmisread
    obtain ⟨out, hout, hchars⟩ := Option.map_eq_some_iff.mp heq
    exact fromUtf8Lossy_ne (hdiff hmisread out hout) hchars
  · intro hmisread
    rw [hsame hmisread, Option.map_some]

/-! ### Whole forms -/

/-- What is written for a byte has no separator. -/
theorem not_mem_formByte (hc : c = ampersand ∨ c = equals) (b : UInt8) : c ∉ formByte b := by
  have hplain : isPlain c = false := by
    rcases hc with rfl | rfl <;> decide
  have hhex : ∀ n < 16, hexChar n ≠ c := by
    intro n hn
    have hdigit := hexDigit_hexChar hn
    rintro rfl
    rcases hc with hc | hc
    · rw [hc] at hdigit
      cases hdigit
    · rw [hc] at hdigit
      cases hdigit
  have hhi : b.toNat / 16 < 16 := by
    have := b.toNat_lt
    omega
  unfold formByte
  split_ifs with hspace hb
  · rcases hc with rfl | rfl <;> decide
  · rw [mem_singleton]
    exact (isPlain_ne hb hplain).symm
  · simp only [mem_cons, not_mem_nil, or_false, not_or]
    refine ⟨?_, (hhex _ hhi).symm, (hhex _ (Nat.mod_lt _ (by decide))).symm⟩
    rcases hc with rfl | rfl <;> decide

theorem not_mem_formEncode (hc : c = ampersand ∨ c = equals) (s : String) : c ∉ formEncode s := by
  intro hmem
  obtain ⟨b, -, hb⟩ := mem_flatMap.mp hmem
  exact not_mem_formByte hc b hb

theorem takeWhile_equals (name value : String) :
    (formEncode name ++ equals :: formEncode value).takeWhile (· ≠ equals) = formEncode name ∧
      ((formEncode name ++ equals :: formEncode value).dropWhile (· ≠ equals)).drop 1
        = formEncode value := by
  have hpos : ∀ b ∈ formEncode name, decide (b ≠ equals) = true := by
    intro b hb
    exact decide_eq_true fun he => not_mem_formEncode (.inr rfl) name (he ▸ hb)
  rw [takeWhile_append_of_pos hpos, dropWhile_append_of_pos hpos]
  simp

/-- A form is read as it was written. -/
theorem parseForm_encodeForm {form : List (String × String)} (h : form ≠ []) :
    parseForm (encodeForm form) = form := by
  have hsplit : (encodeForm form).splitOn ampersand
      = form.map fun e => formEncode e.1 ++ equals :: formEncode e.2 := by
    apply splitOn_intercalate
    · intro part hpart hmem
      obtain ⟨e, -, rfl⟩ := mem_map.mp hpart
      rcases mem_append.mp hmem with hmem | hmem
      · exact not_mem_formEncode (.inl rfl) e.1 hmem
      · rcases mem_cons.mp hmem with heq | hmem
        · exact absurd heq (by decide)
        · exact not_mem_formEncode (.inl rfl) e.2 hmem
    · simpa using h
  have hkeep : (form.map fun e => formEncode e.1 ++ equals :: formEncode e.2).filter (· ≠ [])
      = form.map fun e => formEncode e.1 ++ equals :: formEncode e.2 := by
    rw [filter_eq_self]
    intro part hpart
    obtain ⟨e, -, rfl⟩ := mem_map.mp hpart
    simp
  rw [parseForm, hsplit, hkeep, map_map]
  conv_rhs => rw [← map_id form]
  apply map_congr_left
  intro e _
  obtain ⟨htake, hdrop⟩ := takeWhile_equals e.1 e.2
  simp only [Function.comp_apply, htake, hdrop, formDecode_formEncode, id]

theorem toNat_of_isDigit {c : Char} (h : c.isDigit = true) : 48 ≤ c.toNat ∧ c.toNat ≤ 57 := by
  simp only [Char.isDigit, ge_iff_le, Bool.and_eq_true, decide_eq_true_eq,
    UInt32.le_iff_toNat_le] at h
  exact h

theorem utf8EncodeChar_digit {c : Char} (h : c.isDigit = true) :
    String.utf8EncodeChar c = [UInt8.ofNat c.toNat] ∧ 48 ≤ c.toNat ∧ c.toNat ≤ 57 := by
  obtain ⟨hlow, hhigh⟩ := toNat_of_isDigit h
  rw [String.utf8EncodeChar, if_pos (show c.val.toNat ≤ 127 from hhigh.trans (by decide))]
  exact ⟨rfl, hlow, hhigh⟩

theorem all_isDigit_toDigits (n : ℕ) : (Nat.toDigits 10 n).all Char.isDigit = true := by
  rw [all_eq_true]
  exact fun c hc => Nat.isDigit_of_mem_toDigits (by decide) (by decide) hc

theorem parseDigits_toDigits (n : ℕ) : parseDigits (Nat.toDigits 10 n) = some n := by
  have hvalue := Nat.ofDigitChars_toDigits (b := 10) (n := n) (by decide) (by decide)
  rw [Nat.ofDigitChars_eq_foldl] at hvalue
  rw [parseDigits, if_pos ⟨Nat.toDigits_ne_nil, all_isDigit_toDigits n⟩]
  exact congrArg some hvalue

/-- No digit is a plus sign. -/
theorem parseUsize_of_digits {cs : List Char} (h : cs.all Char.isDigit = true) :
    parseUsize cs = (parseDigits cs).filter (· < 2 ^ 64) := by
  unfold parseUsize
  split
  · exact absurd h (by simp [Char.isDigit])
  · rfl

/-- A number is read back from its digits. -/
theorem parseUsize_toString (hn : n < 2 ^ 64) : parseUsize (toString n).toList = some n := by
  have hdigits : (toString n).toList = Nat.toDigits 10 n := by
    rw [Nat.toString_eq_ofList_toDigits, String.toList_ofList]
  rw [hdigits, parseUsize_of_digits (all_isDigit_toDigits n), parseDigits_toDigits]
  simpa using hn

end Stplr
