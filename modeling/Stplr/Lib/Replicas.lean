import Mathlib.Data.List.Basic
import Mathlib.Logic.Function.Basic

/-!
# A replicated register

`cell n` is what node `n` holds of one register and `R` are the nodes that own it.  A write visits
the owners one by one; `Partly cell R T old new` says that the owners in `T` have not been visited.
Between writes all owners `Hold` one value.

When writes overlap, `hist` lists them in the order in which one owner has taken them, each with the
value it writes, and `left i` are the owners that write `i` has still to visit.  `Caught n` says
that `n` has taken the writes of the history in that order, up to some point.
-/

namespace Stplr.Lib

open List

variable {ν β : Type*}

/-- Every owner holds `v`. -/
def Hold (cell : ν → β) (R : List ν) (v : β) : Prop := ∀ n ∈ R, cell n = v

/-- The owners in `T` hold `old`, the others hold `new`. -/
def Partly [DecidableEq ν] (cell : ν → β) (R T : List ν) (old new : β) : Prop :=
  ∀ n ∈ R, cell n = if n ∈ T then old else new

variable {R : List ν} {cell : ν → β} {old : β} {cell' : ν → β} {T : List ν} {new : β}

theorem Hold.congr {R' : List ν} {v : β} (h : Hold cell R v) (hc : ∀ n ∈ R, cell' n = cell n)
    (hR : ∀ n, n ∈ R' ↔ n ∈ R) : Hold cell' R' v :=
  fun n hn => (hc n ((hR n).mp hn)).trans (h n ((hR n).mp hn))

variable [DecidableEq ν]

theorem Partly.congr {R' : List ν} (h : Partly cell R T old new) (hc : ∀ n ∈ R, cell' n = cell n)
    (hR : ∀ n, n ∈ R' ↔ n ∈ R) : Partly cell' R' T old new :=
  fun n hn => (hc n ((hR n).mp hn)).trans (h n ((hR n).mp hn))

/-- Before the first visit every owner holds the old value. -/
theorem Hold.partly (h : Hold cell R old) (hT : ∀ n ∈ R, n ∈ T) (new : β) :
    Partly cell R T old new := by
  intro n hn
  rw [if_pos (hT n hn), h n hn]

/-- After the last visit every owner holds the new value. -/
theorem Partly.hold_new (h : Partly cell R [] old new) : Hold cell R new := by
  intro n hn
  rw [h n hn, if_neg not_mem_nil]

/-- A visit of the next owner. -/
theorem Partly.visit {n : ν} (h : Partly cell R (n :: T) old new) (hn : n ∉ T)
    (hnew : cell' n = new) (hc : ∀ m, m ≠ n → cell' m = cell m) : Partly cell' R T old new := by
  intro m hm
  by_cases hmn : m = n
  · subst hmn
    rw [hnew, if_neg hn]
  · rw [hc m hmn, h m hm]
    simp only [mem_cons, hmn, false_or]

/-! ### Overlapping writes -/

section Overlap

variable {ι : Type*}

omit [DecidableEq ν]

def Caught (cell : ν → β) (init : β) (hist : List (ι × β)) (left : ι → List ν) (n : ν) : Prop :=
  ∃ done pend, hist = done ++ pend ∧ cell n = (done.map Prod.snd).getLastD init ∧
    (∀ x ∈ done, n ∉ left x.1) ∧ ∀ x ∈ pend, n ∈ left x.1

variable {cell cell' : ν → β} {init : β} {hist : List (ι × β)} {left left' : ι → List ν} {n : ν}

theorem Caught.nil (h : cell n = init) : Caught cell init [] left n :=
  ⟨[], [], rfl, h, by simp, by simp⟩

theorem Caught.congr (h : Caught cell init hist left n) (hc : cell' n = cell n)
    (hl : ∀ x ∈ hist, n ∈ left' x.1 ↔ n ∈ left x.1) : Caught cell' init hist left' n := by
  obtain ⟨done, pend, rfl, hcell, hdone, hpend⟩ := h
  refine ⟨done, pend, rfl, hc.trans hcell, fun x hx => ?_, fun x hx => ?_⟩
  · rw [hl x (mem_append_left _ hx)]
    exact hdone x hx
  · rw [hl x (mem_append_right _ hx)]
    exact hpend x hx

variable {i : ι}

/-- A new write, which has still to visit `n`. -/
theorem Caught.issue (h : Caught cell init hist left n) (v : β) (hi : n ∈ left i) :
    Caught cell init (hist ++ [(i, v)]) left n := by
  obtain ⟨done, pend, rfl, hcell, hdone, hpend⟩ := h
  refine ⟨done, pend ++ [(i, v)], append_assoc .., hcell, hdone, fun x hx => ?_⟩
  rcases mem_append.mp hx with hx | hx
  · exact hpend x hx
  · rw [mem_singleton.mp hx]
    exact hi

variable {v : β}

/-- The owner takes a write that it is the first to take. -/
theorem Caught.lead (hleft : ∀ x ∈ hist, n ∉ left x.1) (hi : n ∉ left i) (hc : cell n = v) :
    Caught cell init (hist ++ [(i, v)]) left n := by
  refine ⟨hist ++ [(i, v)], [], (append_nil _).symm, ?_, fun x hx => ?_, by simp⟩
  · simp [hc]
  · rcases mem_append.mp hx with hx | hx
    · exact hleft x hx
    · rw [mem_singleton.mp hx]
      exact hi

/-- The owner takes the next write of the history. -/
theorem Caught.take {before after : List (ι × β)}
    (h : Caught cell init (before ++ (i, v) :: after) left n) (hi : n ∈ left i)
    (hbefore : ∀ x ∈ before, n ∉ left x.1) (hne : ∀ x ∈ before ++ after, x.1 ≠ i) (hc : cell' n = v)
    (hl : ∀ j ≠ i, n ∈ left' j ↔ n ∈ left j) (hi' : n ∉ left' i) :
    Caught cell' init (before ++ (i, v) :: after) left' n := by
  obtain ⟨done, pend, heq, hcell, hdone, hpend⟩ := h
  -- what is pending starts with `i`
  have hsplit : done = before ∧ pend = (i, v) :: after := by
    rcases append_eq_append_iff.mp heq.symm with ⟨as, h1, h2⟩ | ⟨bs, h1, h2⟩
    · cases as with
      | nil => exact ⟨by simpa using h1.symm, by simpa using h2⟩
      | cons a as =>
        have ha : a ∈ before := by rw [h1]; simp
        exact absurd (hpend a (by rw [h2]; simp)) (hbefore a ha)
    · cases bs with
      | nil => exact ⟨by simpa using h1, by simpa using h2.symm⟩
      | cons b bs =>
        obtain ⟨rfl, -⟩ := cons.inj h2
        exact absurd hi (hdone (i, v) (by rw [h1]; simp))
  obtain ⟨rfl, rfl⟩ := hsplit
  refine ⟨done ++ [(i, v)], after, by simp, by simp [hc], fun x hx => ?_, fun x hx => ?_⟩
  · rcases mem_append.mp hx with hx | hx
    · rw [hl _ (hne x (mem_append_left _ hx))]
      exact hdone x hx
    · rw [mem_singleton.mp hx]
      exact hi'
  · rw [hl _ (hne x (mem_append_right _ hx))]
    exact hpend x (mem_cons_of_mem _ hx)

/-- When no write is left, the owner holds the last value of the history. -/
theorem Caught.last (h : Caught cell init hist left n) (hl : ∀ x ∈ hist, left x.1 = []) :
    cell n = (hist.map Prod.snd).getLastD init := by
  obtain ⟨done, pend, rfl, hcell, -, hpend⟩ := h
  have hnil : pend = [] := by
    refine eq_nil_iff_forall_not_mem.mpr fun x hx => ?_
    have := hpend x hx
    rw [hl x (mem_append_right _ hx)] at this
    cases this
  rw [hcell, hnil, append_nil]

end Overlap

end Stplr.Lib
