import Mathlib.Data.List.Basic

/-!
# Collecting up to a limit

`collect` is a loop that takes what `f` accepts and stops after an element if it has `limit` of them.
Since the limit is checked after an element is taken, it takes one even if the limit is zero
(`collect_eq`).
-/

namespace Stplr.Lib

variable {α β : Type*}

/-- Pushes what `f` accepts to `out` until `limit` elements are there. -/
def collect (f : α → Option β) (limit : ℕ) : List α → List β → List β
  | [], out => out
  | a :: as, out =>
    match f a with
    | some b =>
      if limit ≤ (out ++ [b]).length then out ++ [b] else collect f limit as (out ++ [b])
    | none => collect f limit as out

variable (f : α → Option β) (limit : ℕ) (as : List α)

theorem collect_append :
    ∀ out : List β, out.length < max limit 1 →
      collect f limit as out = out ++ (as.filterMap f).take (max limit 1 - out.length) := by
  induction as with
  | nil => intro out _; simp [collect]
  | cons a as ih =>
    intro out hlen
    rw [collect, List.filterMap_cons]
    cases hf : f a with
    | none => exact ih out hlen
    | some b =>
      have hlen' : (out ++ [b]).length = out.length + 1 := by simp
      have hsucc : max limit 1 - out.length = (max limit 1 - (out.length + 1)) + 1 := by omega
      dsimp only
      rw [hsucc, List.take_succ_cons, hlen']
      split_ifs with hl
      · have h0 : max limit 1 - (out.length + 1) = 0 := by omega
        rw [h0, List.take_zero]
      · rw [ih _ (by omega), hlen', List.append_assoc]
        rfl

/-- The first `limit` elements that `f` accepts, and one when `limit` is `0`. -/
theorem collect_eq : collect f limit as [] = (as.filterMap f).take (max limit 1) := by
  rw [collect_append f limit as [] (by rw [List.length_nil]; omega)]
  simp

/-- Such a loop keeps to its limit, unless this is `0` and there is something to take. -/
theorem length_take_max_le_iff (l : List α) (limit : ℕ) :
    (l.take (max limit 1)).length ≤ limit ↔ (limit = 0 → l = []) := by
  rw [List.length_take]
  cases l with
  | nil => simp
  | cons a l =>
    rw [List.length_cons]
    constructor
    · intro hle hzero
      omega
    · intro hpos
      have hne : limit ≠ 0 := fun hzero => List.cons_ne_nil a l (hpos hzero)
      omega

end Stplr.Lib
