import Mathlib.Algebra.Order.Floor.Semifield
import Mathlib.Tactic.NormNum
import Mathlib.Tactic.Positivity
import Stplr.Equiv.Form
import Stplr.Java

/-!
# The doubles of the Java client

For integers the nearest double is the integer rounded to 53 bits (`roundAbs_natCast`), and the decimal
that is printed for it is an integer again (`exists_shown`).  This is the one with the most zeros at its
end among those that are rounded to the double, and nearest to it (`Shown`); there is one such integer
(`Shown.unique`).  So the text denotes an integer exactly if it is that one (`denoted_toText_iff`).
-/

namespace Stplr.Java

open List Lib

/-! ### Rounding -/

section

variable {m x a b : ℕ}

theorem roundNat_of_le (h : m ≤ 2 ^ 53) : roundNat m = m := by
  refine roundBits_of_dvd ?_
  obtain rfl | hlt := h.eq_or_lt
  · exact pow_dvd_pow 2 (lastBit_le_log2 (by decide) |>.trans_eq Nat.log2_two_pow)
  · have hbit : lastBit 53 m = 0 := by
      by_cases hm : m = 0
      · rw [hm]
        rfl
      · exact Nat.sub_eq_zero_of_le ((Nat.log2_lt hm).mpr hlt)
    rw [hbit]
    exact one_dvd m

theorem round53_of_le {n : ℤ} (h : n.natAbs ≤ 2 ^ 53) : round53 n = n := by
  rw [round53, roundNat_of_le h, Int.sign_mul_natAbs]

theorem roundNat_roundNat (m : ℕ) : roundNat (roundNat m) = roundNat m :=
  roundBits_roundBits (by decide) m

theorem roundNat_mono (h : a ≤ b) : roundNat a ≤ roundNat b := roundBits_mono (by decide) h

/-- What lies between a number and what it is rounded to is rounded to the same. -/
theorem roundNat_between (ha : roundNat a = x) (h : a ≤ b ∧ b ≤ x ∨ x ≤ b ∧ b ≤ a) :
    roundNat b = x := by
  have hx : roundNat x = x := ha ▸ roundNat_roundNat a
  obtain ⟨h₁, h₂⟩ | ⟨h₁, h₂⟩ := h
  · exact le_antisymm ((roundNat_mono h₂).trans_eq hx) (ha.symm.trans_le (roundNat_mono h₁))
  · exact le_antisymm ((roundNat_mono h₂).trans_eq ha) (hx.symm.trans_le (roundNat_mono h₁))

/-- The nearest double of an integer. -/
theorem roundAbs_natCast (m : ℕ) :
    roundAbs m = if (roundNat m : ℚ) < 2 ^ 1024 then some (roundNat m : ℚ) else none := by
  have hlog : Int.log 2 (m : ℚ) = m.log2 := by rw [Int.log_natCast, Nat.log2_eq_log_two]
  have hround : ((roundEven (m / 2 ^ max ((m.log2 : ℤ) - 52) (-1074)) : ℕ) : ℚ)
      * 2 ^ max ((m.log2 : ℤ) - 52) (-1074) = roundNat m := by
    by_cases hlow : m.log2 < 52
    · -- the integer is a double
      obtain ⟨j, hj⟩ : ∃ j : ℕ, max ((m.log2 : ℤ) - 52) (-1074) = -j := ⟨52 - m.log2, by omega⟩
      have hm : m ≤ 2 ^ 53 := Nat.lt_log2_self.le.trans (Nat.pow_le_pow_right (by decide) (by omega))
      have hint : (m : ℚ) / 2 ^ (-j : ℤ) = (m * 2 ^ j : ℕ) := by
        rw [zpow_neg, div_inv_eq_mul, zpow_natCast]
        push_cast
        rfl
      rw [hj, hint, roundEven_natCast, roundNat_of_le hm, zpow_neg, zpow_natCast]
      push_cast
      field_simp
    · have he : max ((m.log2 : ℤ) - 52) (-1074) = lastBit 53 m := by
        unfold lastBit
        omega
      rw [he, zpow_natCast, roundNat, roundBits]
      push_cast
      rfl
  rw [roundAbs, hlog, hround]

theorem roundAbs_eq_iff (hx : x < 2 ^ 1024) : roundAbs (m : ℚ) = some (x : ℚ) ↔ roundNat m = x := by
  have hlt : (x : ℚ) < 2 ^ 1024 := by exact_mod_cast hx
  rw [roundAbs_natCast]
  constructor
  · intro h
    split_ifs at h
    exact_mod_cast Option.some.inj h
  · rintro rfl
    rw [if_pos hlt]

/-! ### The shortest decimal -/

theorem le_succ_div_mul (x k : ℕ) : x ≤ (x / 10 ^ k + 1) * 10 ^ k := by
  rw [Nat.mul_comm]
  exact (Nat.lt_mul_div_succ x (by positivity)).le

theorem floor_div_pow (x k : ℕ) : ⌊(x : ℚ) / 10 ^ k⌋₊ = x / 10 ^ k := by
  exact_mod_cast Nat.floor_div_eq_div (K := ℚ) x (10 ^ k)

variable {k d e : ℕ}

/-- A multiple of the power that is rounded to `x` brings the neighbour of `x` on its side with it. -/
theorem exists_neighbour (he : roundNat (e * 10 ^ k) = x) : ∃ f,
    ((f = x / 10 ^ k ∨ f = x / 10 ^ k + 1) ∧ roundNat (f * 10 ^ k) = x) ∧
      |((f * 10 ^ k : ℕ) : ℤ) - x| ≤ |((e * 10 ^ k : ℕ) : ℤ) - x| := by
  have hlow := Nat.div_mul_le_self x (10 ^ k)
  have hhigh := le_succ_div_mul x k
  obtain hle | hlt := le_or_gt e (x / 10 ^ k)
  · have hmul := Nat.mul_le_mul_right (10 ^ k) hle
    refine ⟨_, ⟨.inl rfl, roundNat_between he (.inl ⟨hmul, hlow⟩)⟩, ?_⟩
    rw [abs_of_nonpos (by omega), abs_of_nonpos (by omega)]
    omega
  · have hmul : (x / 10 ^ k + 1) * 10 ^ k ≤ e * 10 ^ k := Nat.mul_le_mul_right _ hlt
    refine ⟨_, ⟨.inr rfl, roundNat_between he (.inr ⟨hhigh, hmul⟩)⟩, ?_⟩
    rw [abs_of_nonneg (by omega), abs_of_nonneg (by omega)]
    omega

variable (hx : ∀ m : ℕ, roundAbs m = some (x : ℚ) ↔ roundNat m = x)
include hx

/-- The neighbours of `x` that are rounded to it, in the order in which they are tried. -/
theorem decimalAt_natCast : ∃ near : List ℕ,
    (∀ d, d ∈ near ↔ (d = x / 10 ^ k ∨ d = x / 10 ^ k + 1) ∧ roundNat (d * 10 ^ k) = x) ∧
      decimalAt x k = near.argmin fun d : ℕ => |(d : ℚ) * 10 ^ k - x| := by
  have hround : ∀ d : ℕ, roundAbs ((d : ℚ) * 10 ^ k) = some (x : ℚ) ↔ roundNat (d * 10 ^ k) = x := by
    intro d
    rw [← hx]
    push_cast
    rfl
  rw [decimalAt]
  simp only [zpow_natCast, floor_div_pow, hround]
  refine ⟨_, fun d => ?_, rfl⟩
  rw [mem_filter, decide_eq_true_eq]
  refine and_congr_left fun _ => ?_
  split_ifs <;> simp [or_comm]

theorem decimalAt_ne_none (he : roundNat (e * 10 ^ k) = x) : decimalAt x k ≠ none := by
  obtain ⟨near, hnear, hdec⟩ := decimalAt_natCast hx (k := k)
  obtain ⟨f, hf, -⟩ := exists_neighbour he
  rw [hdec, Ne, argmin_eq_none]
  exact ne_nil_of_mem ((hnear f).mpr hf)

/-- The multiple that is found is rounded to `x`, and no other one is nearer. -/
theorem decimalAt_spec (h : decimalAt x k = some d) : roundNat (d * 10 ^ k) = x ∧
    ∀ e, roundNat (e * 10 ^ k) = x → |((d * 10 ^ k : ℕ) : ℤ) - x| ≤ |((e * 10 ^ k : ℕ) : ℤ) - x| := by
  obtain ⟨near, hnear, hdec⟩ := decimalAt_natCast hx (k := k)
  rw [hdec] at h
  refine ⟨((hnear d).mp (argmin_mem h)).2, fun e he => ?_⟩
  obtain ⟨f, hf, hle⟩ := exists_neighbour he
  have hmin : |((d * 10 ^ k : ℕ) : ℚ) - x| ≤ |((f * 10 ^ k : ℕ) : ℚ) - x| := by
    push_cast
    exact le_of_mem_argmin (f := fun d : ℕ => |(d : ℚ) * 10 ^ k - x|) ((hnear f).mpr hf) h
  exact le_trans (by exact_mod_cast hmin) hle

/-- The search stops at the units, if not before. -/
theorem shortestFrom_spec (hself : roundNat x = x) : ∀ k fuel : ℕ, k < fuel → ∃ d j : ℕ,
    shortestFrom x fuel k = (d, (j : ℤ)) ∧ j ≤ k ∧ decimalAt x j = some d ∧
      ∀ i : ℕ, j < i → i ≤ k → decimalAt x i = none := by
  intro k
  induction k with
  | zero =>
    intro fuel h
    obtain ⟨fuel, rfl⟩ := Nat.exists_eq_succ_of_ne_zero (by omega : fuel ≠ 0)
    obtain ⟨d, hd⟩ := Option.ne_none_iff_exists'.mp
      (decimalAt_ne_none hx (e := x) (k := 0) (by simpa using hself))
    exact ⟨d, 0, by rw [shortestFrom, hd], le_rfl, hd, fun i h h' => by omega⟩
  | succ k ih =>
    intro fuel h
    obtain ⟨fuel, rfl⟩ := Nat.exists_eq_succ_of_ne_zero (by omega : fuel ≠ 0)
    cases hd : decimalAt x (k + 1 : ℕ) with
    | some d => exact ⟨d, k + 1, by rw [shortestFrom, hd], le_rfl, hd, fun i h h' => by omega⟩
    | none =>
      obtain ⟨d, j, hfrom, hj, hdj, hfirst⟩ := ih fuel (by omega)
      refine ⟨d, j, ?_, by omega, hdj, fun i h h' => ?_⟩
      · rw [shortestFrom, hd]
        simpa using hfrom
      · obtain rfl | hlt := h'.eq_or_lt
        · exact hd
        · exact hfirst i h (by omega)

end

/-- Of the integers that are rounded to the same double as `n`, none has more zeros at the end, and none
with as many is nearer to the double. -/
def Shown (n : ℕ) : Prop := ∀ m, roundNat m = roundNat n → (∀ k, 10 ^ k ∣ m → 10 ^ k ∣ n) ∧
    ((∀ k, 10 ^ k ∣ n → 10 ^ k ∣ m) → |(n : ℤ) - roundNat n| ≤ |(m : ℤ) - roundNat n|)

/-- There is one such integer: two of them would lie around the double at the same distance, and the
double would have as many zeros as they have. -/
theorem Shown.unique {a b : ℕ} (ha : Shown a) (hb : Shown b) (h : roundNat a = roundNat b) : a = b := by
  obtain ⟨hba, hnear⟩ := ha b h.symm
  obtain ⟨hab, hnear'⟩ := hb a h
  have hdist := le_antisymm (hnear hab) (h ▸ hnear' hba)
  set x := roundNat a with hx
  obtain hsame | hmirror := abs_eq_abs.mp hdist
  · omega
  by_contra hne
  obtain ⟨-, hself⟩ := ha x (roundNat_roundNat a)
  obtain ⟨k, hka, hkx⟩ : ∃ k, 10 ^ k ∣ a ∧ ¬10 ^ k ∣ x := by
    by_contra! hall
    have hzero := hself hall
    rw [← hx, sub_self, abs_zero, abs_nonpos_iff] at hzero
    omega
  have hkb := hab k hka
  have herr := two_mul_abs_sub_le (p := 53) (by decide) hx.symm
  have hk : k ≤ lastBit 53 x := by
    have hdvd : (10 ^ k : ℤ) ∣ 2 * (a - x) := by
      rw [show 2 * ((a : ℤ) - x) = a - b by omega]
      exact dvd_sub (by exact_mod_cast hka) (by exact_mod_cast hkb)
    have hle : (10 ^ k : ℤ) ≤ 2 ^ lastBit 53 x :=
      (Int.le_of_dvd (abs_pos.mpr (by omega)) ((dvd_abs _ _).mpr hdvd)).trans
        (by rwa [abs_mul, abs_two])
    refine (Nat.pow_le_pow_iff_right (a := 2) (by decide)).mp ?_
    exact (Nat.pow_le_pow_left (show 2 ≤ 10 by decide) k).trans (by exact_mod_cast hle)
  have htwo : 2 ^ k ∣ x := (pow_dvd_pow 2 hk).trans (dvd_roundBits (by decide) a)
  have hfive : 5 ^ k ∣ x := by
    have hsum : 5 ^ k ∣ 2 * x := by
      rw [show 2 * x = a + b by omega]
      exact dvd_add ((pow_dvd_pow_of_dvd (by decide) k).trans hka)
        ((pow_dvd_pow_of_dvd (by decide) k).trans hkb)
    exact (Nat.Coprime.pow_left k (by decide)).dvd_of_dvd_mul_left hsum
  refine hkx ?_
  rw [show 10 = 2 * 5 by rfl, mul_pow]
  exact (Nat.Coprime.pow k k (by decide)).mul_dvd_of_dvd_of_dvd htwo hfive

/-- The decimal that is printed for an integral double is the integer that is shown. -/
theorem exists_shown {x : ℕ} (hx : ∀ m : ℕ, roundAbs m = some (x : ℚ) ↔ roundNat m = x)
    (hself : roundNat x = x) (hten : 10 ≤ x) (hfuel : Nat.log 10 x ≤ 767) : ∃ d j : ℕ,
    shortest x = (d, (j : ℤ)) ∧ roundNat (d * 10 ^ j) = x ∧ Shown (d * 10 ^ j) := by
  have hlog : 1 ≤ Nat.log 10 x := (Nat.le_log_iff_pow_le (by decide) (by omega)).mpr hten
  obtain ⟨k, hk⟩ : ∃ k, Nat.log 10 x = k + 1 := ⟨_, (Nat.sub_add_cancel hlog).symm⟩
  obtain ⟨d, j, hfrom, hj, hd, hfirst⟩ := shortestFrom_spec hx hself k 767 (by omega)
  have hshort : shortest x = (d, (j : ℤ)) := by
    rw [shortest, Int.log_natCast, hk, ← hfrom]
    push_cast
    rw [add_sub_cancel_right]
  obtain ⟨hround, hnear⟩ := decimalAt_spec hx hd
  refine ⟨d, j, hshort, hround, fun m hm => ?_⟩
  rw [hround] at hm ⊢
  -- a multiple of a higher power would have been found before
  have hfound : ∀ {i : ℕ}, 10 ^ i ∣ m → decimalAt x i ≠ none := by
    rintro i ⟨c, rfl⟩
    exact decimalAt_ne_none hx (e := c) (by rwa [Nat.mul_comm] at hm)
  constructor
  · intro i hi
    by_cases hij : i ≤ j
    · exact (pow_dvd_pow 10 hij).mul_left d
    · have hik : ¬i ≤ k := fun h => hfound hi (hfirst i (by omega) h)
      have hkm : 10 ^ k ∣ m := (pow_dvd_pow 10 (by omega)).trans hi
      obtain rfl : j = k := by
        by_contra hjk
        exact hfound hkm (hfirst k (by omega) le_rfl)
      -- two multiples of such a power are too far apart
      have hlt : x < 10 ^ j * 100 := by
        have := Nat.lt_pow_succ_log_self (b := 10) (by decide) x
        rw [hk, pow_succ, pow_succ] at this
        omega
      have h₁ := two_pow_mul_abs_sub_le (p := 53) (by decide) hround
      have h₂ := two_pow_mul_abs_sub_le (p := 53) (by decide) hm
      have hdiff : |((d * 10 ^ j : ℕ) : ℤ) - m| < (10 ^ j : ℕ) := by
        have := abs_sub_le ((d * 10 ^ j : ℕ) : ℤ) x m
        rw [abs_sub_comm (x : ℤ) m] at this
        omega
      have hdvd : ((10 ^ j : ℕ) : ℤ) ∣ ((d * 10 ^ j : ℕ) : ℤ) - m :=
        dvd_sub (by exact_mod_cast dvd_mul_left _ _) (by exact_mod_cast hkm)
      have heq := Int.eq_zero_of_abs_lt_dvd hdvd hdiff
      rwa [show d * 10 ^ j = m by omega]
  · intro h
    obtain ⟨c, rfl⟩ := h j (dvd_mul_left _ _)
    rw [Nat.mul_comm (10 ^ j) c]
    exact hnear c (by rwa [Nat.mul_comm] at hm)

/-! ### Texts of decimals -/

section

variable {ds tail t : Text} {v point : ℕ} {power : ℤ}

theorem readDigits_eq_some (h : readDigits ds = some v) : ds ≠ [] ∧ (∀ c ∈ ds, isDigit c = true) ∧
    ds.foldl (fun n c => 10 * n + (c.toNat - 48)) 0 = v := by
  unfold readDigits at h
  split_ifs at h with hds
  exact ⟨hds.1, all_eq_true.mp hds.2, Option.some.inj h⟩

theorem toNat_unit {c : Char} (h : c.isDigit = true) : (unit c).toNat = c.toNat := by
  have := (toNat_of_isDigit h).2
  exact Nat.mod_eq_of_lt (by omega)

theorem readDigits_digits (n : ℕ) : readDigits (digits n) = some n := by
  have hdigit : ∀ c ∈ Nat.toDigits 10 n, c.isDigit = true := fun c hc =>
    Nat.isDigit_of_mem_toDigits (by decide) (by decide) hc
  have hvalue := parseDigits_toDigits n
  rw [parseDigits, if_pos ⟨Nat.toDigits_ne_nil, all_eq_true.mpr hdigit⟩] at hvalue
  rw [readDigits, digits, if_pos, foldl_map, ← hvalue]
  · refine congrArg some (foldl_ext _ _ _ fun n c hc => ?_)
    rw [toNat_unit (hdigit c hc)]
    rfl
  · refine ⟨by simp [Nat.toDigits_ne_nil], ?_⟩
    rw [all_map, all_eq_true]
    intro c hc
    obtain ⟨hlow, hhigh⟩ := toNat_of_isDigit (hdigit c hc)
    simp [isDigit, toNat_unit (hdigit c hc), hlow, hhigh]

theorem readDigits_zeros (h : readDigits ds = some v) (k : ℕ) :
    readDigits (ds ++ replicate k (unit '0')) = some (v * 10 ^ k) := by
  induction k with
  | zero => simpa using h
  | succ k ih =>
    obtain ⟨-, hall, hval⟩ := readDigits_eq_some ih
    rw [replicate_succ', ← append_assoc, readDigits, if_pos, foldl_append, hval]
    · exact congrArg some (by simp [unit, pow_succ, Nat.mul_comm 10, Nat.mul_assoc])
    · refine ⟨by simp, all_eq_true.mpr fun c hc => ?_⟩
      obtain hc | hc := mem_append.mp hc
      · exact hall c hc
      · rw [mem_singleton.mp hc]
        rfl

theorem splitSign_withSign (neg : Bool) (h : ∃ c ∈ t.head?, isDigit c = true) :
    splitSign (withSign neg t) = (neg, t) := by
  obtain ⟨c, hc, hdigit⟩ := h
  obtain ⟨t, rfl⟩ := head?_eq_some_iff.mp hc
  cases neg with
  | true => rfl
  | false =>
    have hminus : c ≠ unit '-' := by
      rintro rfl
      exact absurd hdigit (by decide)
    have hplus : c ≠ unit '+' := by
      rintro rfl
      exact absurd hdigit (by decide)
    rw [withSign, if_neg (by decide), splitSign, if_neg hminus, if_neg hplus]

theorem head_of_readDigits (h : readDigits ds = some v) : ∃ c ∈ ds.head?, isDigit c = true := by
  obtain ⟨hne, hall, -⟩ := readDigits_eq_some h
  obtain ⟨c, ds, rfl⟩ := exists_cons_of_ne_nil hne
  exact ⟨c, rfl, hall c (mem_cons_self ..)⟩

theorem readInt_intText (n : ℤ) : readInt (intText n) = some n := by
  have hdigits := readDigits_digits n.natAbs
  rw [readInt, intText, splitSign_withSign _ (head_of_readDigits hdigits), hdigits, Option.map_some]
  refine congrArg some ?_
  by_cases hneg : n < 0
  · rw [if_pos (decide_eq_true hneg)]
    omega
  · rw [if_neg (by simpa using hneg)]
    omega

/-- What digits with a point and an exponent denote. -/
theorem readAbs_pointed (h : readDigits ds = some v) (htail : readPower tail = some power)
    (hstop : ∀ c ∈ tail.head?, isDigit c = false) :
    readAbs (pointed ds point ++ tail) = some ((v : ℚ) * 10 ^ (power + point - (ds.length : ℤ))) := by
  have hpad := readDigits_zeros h (point + 1 - ds.length)
  obtain ⟨-, hall, -⟩ := readDigits_eq_some hpad
  rw [pointed, rightpad]
  set padded := ds ++ replicate (point + 1 - ds.length) (unit '0') with hpadded
  have htake : ∀ c ∈ padded.take point, isDigit c = true := fun c hc => hall c (mem_of_mem_take hc)
  have hdrop : ∀ c ∈ padded.drop point, isDigit c = true := fun c hc => hall c (mem_of_mem_drop hc)
  have hrest : tail.takeWhile isDigit = [] ∧ tail.dropWhile isDigit = tail := by
    cases tail with
    | nil => exact ⟨rfl, rfl⟩
    | cons c tail =>
      have hc : ¬isDigit c = true := by simp [hstop c rfl]
      exact ⟨takeWhile_cons_of_neg hc, dropWhile_cons_of_neg hc⟩
  have hdot : ¬isDigit (unit '.') = true := by decide
  have hlen : padded.length = ds.length + (point + 1 - ds.length) := by
    rw [hpadded, length_append, length_replicate]
  simp only [readAbs, append_assoc, cons_append, takeWhile_append_of_pos htake,
    dropWhile_append_of_pos htake, takeWhile_cons_of_neg hdot, dropWhile_cons_of_neg hdot, append_nil,
    head?_cons, if_true, tail_cons, takeWhile_append_of_pos hdrop, dropWhile_append_of_pos hdrop,
    hrest.1, hrest.2, take_append_drop, hpad, htail, Option.bind_eq_bind, Option.bind_some,
    length_drop, hlen]
  refine congrArg some ?_
  rw [Nat.cast_mul, Nat.cast_pow, Nat.cast_ofNat, mul_assoc, ← zpow_natCast,
    ← zpow_add₀ (by norm_num)]
  congr 2
  omega

/-- Digits without the zeros at their end. -/
theorem readDigits_stripped (h : readDigits ds = some v) (hv : v ≠ 0) : ∃ u z,
    readDigits (ds.rdropWhile fun c => c = unit '0') = some u ∧ v = u * 10 ^ z ∧
      ds.length = (ds.rdropWhile fun c => c = unit '0').length + z := by
  obtain ⟨hne, hall, -⟩ := readDigits_eq_some h
  obtain ⟨z, hsplit⟩ : ∃ z, ds = ds.rdropWhile (fun c => c = unit '0') ++ replicate z (unit '0') := by
    refine ⟨(ds.rtakeWhile fun c => c = unit '0').length, ?_⟩
    rw [← eq_replicate_of_mem (a := unit '0') fun c hc => by simpa using mem_rtakeWhile_imp hc,
      rdropWhile_append_rtakeWhile]
  generalize ds.rdropWhile (fun c => c = unit '0') = es at hsplit ⊢
  rw [hsplit] at h hne hall
  have hes : es ≠ [] := by
    rintro rfl
    obtain ⟨z, rfl⟩ := Nat.exists_eq_succ_of_ne_zero (n := z) (by rintro rfl; exact hne rfl)
    rw [nil_append, replicate_succ, ← singleton_append, readDigits_zeros (v := 0) rfl, zero_mul] at h
    exact hv (Option.some.inj h).symm
  have hread : readDigits es = some (es.foldl (fun n c => 10 * n + (c.toNat - 48)) 0) :=
    if_pos ⟨hes, all_eq_true.mpr fun c hc => hall c (mem_append_left _ hc)⟩
  rw [readDigits_zeros hread] at h
  exact ⟨_, z, hread, (Option.some.inj h).symm, by rw [hsplit, length_append, length_replicate]⟩

theorem head_pointed (h : readDigits ds = some v) (hpoint : 0 < point) (tail : Text) :
    ∃ c ∈ (pointed ds point ++ tail).head?, isDigit c = true := by
  obtain ⟨c, hc, hdigit⟩ := head_of_readDigits h
  obtain ⟨point, rfl⟩ := Nat.exists_eq_succ_of_ne_zero hpoint.ne'
  obtain ⟨ds, rfl⟩ := head?_eq_some_iff.mp hc
  exact ⟨c, by simp [pointed, rightpad], hdigit⟩

end

/-- What is printed for a decimal denotes it. -/
theorem readAbs_absText {x : ℚ} {d j : ℕ} (h : shortest x = (d, (j : ℤ))) (hd : d ≠ 0) :
    readAbs (absText x) = some ((d * 10 ^ j : ℕ) : ℚ) ∧
      ∃ c ∈ (absText x).head?, isDigit c = true := by
  obtain ⟨v, z, hv, rfl, hlen⟩ := readDigits_stripped (readDigits_digits d) hd
  rw [absText, h]
  dsimp only
  generalize (digits (v * 10 ^ z)).length = len at hlen ⊢
  generalize (digits (v * 10 ^ z)).rdropWhile (fun c => c = unit '0') = ds at hv hlen ⊢
  have hpos : 0 < ds.length := length_pos_iff.mpr (readDigits_eq_some hv).1
  have hvalue : ∀ power : ℤ, ∀ point : ℕ, power + point = j + len →
      some ((v : ℚ) * 10 ^ (power + point - (ds.length : ℤ))) = some ((v * 10 ^ z * 10 ^ j : ℕ) : ℚ) := by
    intro power point hpoint
    rw [hpoint, hlen]
    push_cast
    rw [mul_assoc, ← pow_add, ← zpow_natCast]
    congr 3
    push_cast
    ring
  split_ifs with hrange
  · have hzero : (1 - ((j : ℤ) + len)).toNat = 0 := by omega
    have hpoint : (max ((j : ℤ) + len) 1).toNat = j + len := by omega
    rw [hzero, hpoint, replicate_zero, nil_append, ← append_nil (pointed ds (j + len)),
      readAbs_pointed hv (show readPower [] = some 0 from rfl) (by simp), hvalue 0 (j + len) (by push_cast; ring)]
    exact ⟨rfl, head_pointed hv (by omega) []⟩
  · rw [readAbs_pointed hv (show readPower _ = some (j + len - 1 : ℤ) by
      simp [readPower, readInt_intText]) (by simp [unit, isDigit]), hvalue _ _ (by push_cast; ring)]
    exact ⟨rfl, head_pointed hv Nat.one_pos _⟩

/-! ### Integers -/

theorem shown_of_lt {m : ℕ} (h : m < 2 ^ 53) : Shown m := by
  intro k hk
  rw [roundNat_of_le h.le] at hk
  obtain rfl : k = m := by
    by_cases hle : k ≤ 2 ^ 53
    · rwa [roundNat_of_le hle] at hk
    · have htop := roundNat_mono (Nat.le_of_not_le hle)
      rw [roundNat_of_le le_rfl] at htop
      omega
  exact ⟨fun _ h => h, fun _ => le_rfl⟩

theorem roundNat_le {m : ℕ} (hm : m ≤ 2 ^ 64) : roundNat m ≤ 2 ^ 64 :=
  (roundNat_mono hm).trans_eq (by decide +kernel)

/-- What is printed for the double of an integer is the integer that is shown. -/
theorem exists_printed {m : ℕ} (hm : m ≤ 2 ^ 64) : ∃ v : ℕ,
    readAbs (absText (roundNat m)) = some (v : ℚ) ∧
      (∃ c ∈ (absText (roundNat m)).head?, isDigit c = true) ∧ roundNat v = roundNat m ∧ Shown v := by
  by_cases hten : m < 10
  · have hall : ∀ m < 10, readAbs (absText (m : ℕ)) = some ((m : ℕ) : ℚ) ∧
        (absText (m : ℕ)).head?.map isDigit = some true := by decide +kernel
    obtain ⟨hread, hhead⟩ := hall m hten
    have hround : roundNat m = m := roundNat_of_le (by omega)
    rw [hround]
    exact ⟨m, hread, Option.map_eq_some_iff.mp hhead, hround, shown_of_lt (by omega)⟩
  · have hlow : 10 ≤ roundNat m :=
      (roundNat_of_le (m := 10) (by decide)).symm.trans_le (roundNat_mono (Nat.le_of_not_lt hten))
    have hhigh := roundNat_le hm
    obtain ⟨d, j, hshort, hround, hshown⟩ := exists_shown
      (fun k => roundAbs_eq_iff (m := k) (hhigh.trans_lt (by decide +kernel)))
      (roundNat_roundNat m) hlow ((Nat.log_mono_right hhigh).trans (by decide +kernel))
    obtain ⟨hread, hhead⟩ := readAbs_absText hshort (by
      rintro rfl
      rw [zero_mul, roundNat_of_le (by decide)] at hround
      omega)
    exact ⟨d * 10 ^ j, hread, hhead, hround, hshown⟩

/-- The double of an integer. -/
def ofInt (n : ℤ) : Double := ⟨n < 0, some (roundNat n.natAbs)⟩

variable {n : ℤ}

theorem parseDouble_intText (hn : n.natAbs ≤ 2 ^ 64) : parseDouble (intText n) = some (ofInt n) := by
  have hdigits := readDigits_digits n.natAbs
  obtain ⟨-, hall, -⟩ := readDigits_eq_some hdigits
  have habs : readAbs (digits n.natAbs) = some (n.natAbs : ℚ) := by
    simp only [readAbs, takeWhile_eq_self_iff.mpr hall, dropWhile_eq_nil_iff.mpr hall]
    simp [hdigits, readPower]
  have hround : roundAbs (n.natAbs : ℕ) = some (roundNat n.natAbs : ℚ) :=
    (roundAbs_eq_iff ((roundNat_le hn).trans_lt (by decide +kernel))).mpr rfl
  rw [parseDouble, intText, splitSign_withSign _ (head_of_readDigits hdigits), habs, Option.map_some,
    hround]
  rfl

theorem longValue_ofInt (n : ℤ) : longValue (ofInt n) = toLong (round53 n) := by
  refine congrArg toLong ?_
  simp only [ofInt, Option.elim_some, Int.floor_natCast, decide_eq_true_eq]
  obtain hneg | rfl | hpos := lt_trichotomy n 0
  · rw [if_pos hneg, round53, Int.sign_eq_neg_one_of_neg hneg, neg_one_mul]
  · decide +kernel
  · rw [if_neg hpos.not_gt, round53, Int.sign_eq_one_of_pos hpos, one_mul]

/-- **When the text of the double of an integer denotes the integer.** -/
theorem denoted_toText_iff (hn : n.natAbs ≤ 2 ^ 64) :
    denoted (toText (ofInt n)) = some (n : ℚ) ↔ Shown n.natAbs := by
  obtain ⟨v, hread, hhead, hround, hshown⟩ := exists_printed hn
  have hdenoted : denoted (toText (ofInt n)) = some ((if n < 0 then -(v : ℤ) else v : ℤ) : ℚ) := by
    rw [denoted, toText, ofInt, Option.elim_some, splitSign_withSign _ hhead, hread, Option.map_some]
    by_cases hneg : n < 0 <;> simp [hneg]
  have hv : v = n.natAbs ↔ Shown n.natAbs := ⟨fun h => h ▸ hshown, fun h => hshown.unique h hround⟩
  rw [hdenoted, ← hv, Option.some.injEq, Int.cast_inj]
  split_ifs <;> omega

theorem shown_of_le {m : ℕ} (h : m ≤ 2 ^ 53) : Shown m := by
  obtain rfl | hlt := h.eq_or_lt
  · have hiff := denoted_toText_iff (n := (2 ^ 53 : ℕ)) (by rw [Int.natAbs_natCast]; decide)
    rw [Int.natAbs_natCast] at hiff
    exact hiff.mp (by decide +kernel)
  · exact shown_of_lt hlt

end Stplr.Java
