import Mathlib.Data.Nat.Cast.Field
import Mathlib.Data.Rat.Floor
import Mathlib.Tactic.FieldSimp
import Mathlib.Tactic.Linarith

/-!
# Rounding to even

`roundEven` is the nearest integer, the even one of two.  With it `roundBits p` rounds a number to `p`
significant bits.  Rounding is monotone (`roundBits_mono`) and fixes what it returns
(`roundBits_roundBits`), so the numbers that are rounded to the same one are an interval, and they differ
from it by half a unit of its last bit at most (`two_mul_abs_sub_le`).
-/

namespace Stplr.Lib

/-- The nearest integer, the even one of two. -/
def roundEven (s : ℚ) : ℕ :=
  if 1 / 2 < s - ⌊s⌋₊ ∨ s - ⌊s⌋₊ = 1 / 2 ∧ ⌊s⌋₊ % 2 = 1 then ⌊s⌋₊ + 1 else ⌊s⌋₊

@[simp] theorem roundEven_natCast (n : ℕ) : roundEven n = n := by
  simp [roundEven]

variable {s t : ℚ}

theorem floor_le_roundEven (s : ℚ) : ⌊s⌋₊ ≤ roundEven s := by
  unfold roundEven
  split_ifs <;> omega

theorem roundEven_le_floor_add_one (s : ℚ) : roundEven s ≤ ⌊s⌋₊ + 1 := by
  unfold roundEven
  split_ifs <;> omega

theorem roundEven_mono (h : s ≤ t) : roundEven s ≤ roundEven t := by
  obtain hlt | heq := (Nat.floor_mono h).lt_or_eq
  · exact (roundEven_le_floor_add_one s).trans (hlt.trans_le (floor_le_roundEven t))
  · rw [roundEven, roundEven, heq]
    split_ifs with hs ht
    · exact le_rfl
    · -- what is rounded up stays so
      obtain hs | ⟨hs, hodd⟩ := hs
      · exact absurd (.inl (by linarith)) ht
      · obtain hlt | heq := h.lt_or_eq
        · exact absurd (.inl (by linarith)) ht
        · exact absurd (.inr ⟨by linarith, hodd⟩) ht
    · exact Nat.le_succ _
    · exact le_rfl

theorem abs_roundEven_sub_le (hs : 0 ≤ s) : |(roundEven s : ℚ) - s| ≤ 1 / 2 := by
  have hfloor := Nat.floor_le hs
  have hsucc := Nat.lt_floor_add_one s
  rw [roundEven, abs_le]
  split_ifs with h
  · obtain h | ⟨h, -⟩ := h <;> constructor <;> push_cast <;> linarith
  · rw [not_or, not_lt] at h
    constructor <;> linarith [h.1]

/-! ### Significant bits -/

/-- The exponent of the last one of `p` significant bits. -/
def lastBit (p n : ℕ) : ℕ := n.log2 + 1 - p

/-- The nearest number with `p` significant bits, the even one of two. -/
def roundBits (p n : ℕ) : ℕ := roundEven (n / 2 ^ lastBit p n) * 2 ^ lastBit p n

variable {p n m x c : ℕ}

theorem roundBits_of_dvd (h : 2 ^ lastBit p n ∣ n) : roundBits p n = n := by
  have hdiv : (n : ℚ) / 2 ^ lastBit p n = (n / 2 ^ lastBit p n : ℕ) := by
    rw [Nat.cast_div h (by positivity)]
    push_cast
    rfl
  rw [roundBits, hdiv, roundEven_natCast, Nat.div_mul_cancel h]

theorem le_roundBits (h : c * 2 ^ lastBit p n ≤ n) : c * 2 ^ lastBit p n ≤ roundBits p n := by
  refine Nat.mul_le_mul_right _ ?_
  rw [← roundEven_natCast c]
  refine roundEven_mono ?_
  rw [le_div_iff₀ (by positivity)]
  exact_mod_cast h

theorem roundBits_le (h : n ≤ c * 2 ^ lastBit p n) : roundBits p n ≤ c * 2 ^ lastBit p n := by
  refine Nat.mul_le_mul_right _ ?_
  rw [← roundEven_natCast c]
  refine roundEven_mono ?_
  rw [div_le_iff₀ (by positivity)]
  exact_mod_cast h

section

variable (hp : 0 < p)
include hp

theorem lastBit_le_log2 : lastBit p n ≤ n.log2 := by
  unfold lastBit
  omega

/-- Rounding stays between two powers of two. -/
theorem log2_roundBits (hn : n ≠ 0) :
    2 ^ n.log2 ≤ roundBits p n ∧ roundBits p n ≤ 2 ^ (n.log2 + 1) := by
  have hbit := lastBit_le_log2 hp (n := n)
  have hpow : ∀ k, n.log2 ≤ k → 2 ^ (k - lastBit p n) * 2 ^ lastBit p n = 2 ^ k := fun k hk => by
    rw [← pow_add, Nat.sub_add_cancel (hbit.trans hk)]
  rw [← hpow _ le_rfl, ← hpow _ (Nat.le_succ _)]
  constructor
  · exact le_roundBits ((hpow _ le_rfl).trans_le (Nat.log2_self_le hn))
  · exact roundBits_le ((hpow _ (Nat.le_succ _)).symm ▸ Nat.lt_log2_self.le)

theorem roundBits_mono (h : m ≤ n) : roundBits p m ≤ roundBits p n := by
  by_cases hm : m = 0
  · rw [hm, roundBits_of_dvd (dvd_zero _)]
    exact Nat.zero_le _
  have hn : n ≠ 0 := by omega
  have hlog : m.log2 ≤ n.log2 := (Nat.le_log2 hn).mpr ((Nat.log2_self_le hm).trans h)
  obtain hlt | heq := hlog.lt_or_eq
  · calc roundBits p m ≤ 2 ^ (m.log2 + 1) := (log2_roundBits hp hm).2
      _ ≤ 2 ^ n.log2 := Nat.pow_le_pow_right (by decide) hlt
      _ ≤ roundBits p n := (log2_roundBits hp hn).1
  · rw [roundBits, roundBits, lastBit, lastBit, heq]
    refine Nat.mul_le_mul_right _ (roundEven_mono ?_)
    gcongr

theorem dvd_roundBits (n : ℕ) : 2 ^ lastBit p (roundBits p n) ∣ roundBits p n := by
  by_cases hn : n = 0
  · rw [hn, roundBits_of_dvd (dvd_zero _)]
    exact dvd_zero _
  obtain ⟨hlow, hhigh⟩ := log2_roundBits hp hn
  obtain hlt | heq := hhigh.lt_or_eq
  · have hlog : (roundBits p n).log2 = n.log2 :=
      (Nat.log2_eq_iff (by have := Nat.two_pow_pos n.log2; omega)).mpr ⟨hlow, hlt⟩
    rw [lastBit, hlog]
    exact Dvd.intro_left _ rfl
  · rw [heq]
    exact pow_dvd_pow 2 ((lastBit_le_log2 hp).trans_eq (Nat.log2_two_pow))

/-- What is rounded already is fixed. -/
theorem roundBits_roundBits (n : ℕ) : roundBits p (roundBits p n) = roundBits p n :=
  roundBits_of_dvd (dvd_roundBits hp n)

/-- Rounding changes a number by half a unit of the last bit of the result at most. -/
theorem two_mul_abs_sub_le (h : roundBits p n = x) : 2 * |(n : ℤ) - x| ≤ 2 ^ lastBit p x := by
  by_cases hn : n = 0
  · rw [hn, roundBits_of_dvd (dvd_zero _)] at h
    simp [hn, ← h]
  have hbit : lastBit p n ≤ lastBit p x := by
    have hx : x ≠ 0 := by
      have := (log2_roundBits hp hn).1
      have := Nat.two_pow_pos n.log2
      omega
    exact Nat.sub_le_sub_right (Nat.succ_le_succ ((Nat.le_log2 hx).mpr (h ▸ (log2_roundBits hp hn).1))) p
  have hpos : (0 : ℚ) < 2 ^ lastBit p n := by positivity
  have herr := abs_roundEven_sub_le (s := (n : ℚ) / 2 ^ lastBit p n) (by positivity)
  have hscale : (n : ℚ) - x = -((roundEven (n / 2 ^ lastBit p n) : ℚ) - n / 2 ^ lastBit p n)
      * 2 ^ lastBit p n := by
    rw [← h, roundBits]
    push_cast
    field_simp
    ring
  have hle : 2 * |(n : ℚ) - x| ≤ 2 ^ lastBit p x := by
    rw [hscale, abs_mul, abs_neg, abs_of_pos hpos]
    calc _ ≤ 2 * (1 / 2 * 2 ^ lastBit p n) := by gcongr
      _ = (2 : ℚ) ^ lastBit p n := by ring
      _ ≤ 2 ^ lastBit p x := pow_le_pow_right₀ (by norm_num) hbit
  exact_mod_cast hle

theorem two_pow_mul_abs_sub_le (h : roundBits p n = x) : 2 ^ p * |(n : ℤ) - x| ≤ x := by
  have herr := two_mul_abs_sub_le hp h
  by_cases hbit : lastBit p x = 0
  · rw [hbit, pow_zero] at herr
    have habs := abs_nonneg ((n : ℤ) - x)
    rw [show |(n : ℤ) - x| = 0 by omega]
    simp
  · have hx : x ≠ 0 := by
      rintro rfl
      exact hbit (Nat.sub_eq_zero_of_le hp)
    have hpow : (2 : ℤ) ^ (p - 1) * 2 ^ lastBit p x = 2 ^ x.log2 := by
      rw [← pow_add]
      congr 1
      unfold lastBit at hbit ⊢
      omega
    calc 2 ^ p * |(n : ℤ) - x| = 2 ^ (p - 1) * (2 * |(n : ℤ) - x|) := by
          rw [← mul_assoc, ← pow_succ, Nat.sub_add_cancel hp]
      _ ≤ 2 ^ (p - 1) * 2 ^ lastBit p x := by gcongr
      _ = 2 ^ x.log2 := hpow
      _ ≤ x := by exact_mod_cast Nat.log2_self_le hx

end

end Stplr.Lib
