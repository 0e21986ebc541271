import Mathlib.Data.List.Induction
import Mathlib.Data.Option.Basic
import Mathlib.Logic.Relation
import Mathlib.Tactic.Common

/-!
# Runs of a labelled machine

A machine is a partial step function `step : σ → ℓ → Option σ`: the label says which of the
possible steps is taken (which thread moves, what a call answers), and `none` means that the step
is not enabled.  `exec` runs a list of labels.  `exec_invariant` and `exec_induction` are the two
rules that every safety argument uses; `guarded` restricts a machine to the steps that meet a
condition.  `Inevitably` says that whatever moves are made, they lead to a goal, and
`inevitably_of_wf` is the rule for it.
-/

namespace Stplr.Lib

variable {σ ℓ : Type*}

/-- Runs the labels in order; `none` as soon as a step is not enabled. -/
def exec (step : σ → ℓ → Option σ) : σ → List ℓ → Option σ
  | s, [] => some s
  | s, l :: ls => (step s l).bind fun s' => exec step s' ls

variable {step : σ → ℓ → Option σ}

@[simp] theorem exec_nil (s : σ) : exec step s [] = some s := rfl

theorem exec_cons (s : σ) (l : ℓ) (ls : List ℓ) :
    exec step s (l :: ls) = (step s l).bind fun s' => exec step s' ls := rfl

theorem exec_append (s : σ) (ls ls' : List ℓ) :
    exec step s (ls ++ ls') = (exec step s ls).bind fun s' => exec step s' ls' := by
  induction ls generalizing s with
  | nil => rfl
  | cons l ls ih =>
    rw [List.cons_append, exec_cons, exec_cons]
    cases step s l with
    | none => rfl
    | some s' => exact ih s'

variable {ls : List ℓ} {l : ℓ}

theorem exec_concat_eq_some {s s' : σ} :
    exec step s (ls ++ [l]) = some s' ↔ ∃ t, exec step s ls = some t ∧ step t l = some s' := by
  rw [exec_append, Option.bind_eq_some_iff]
  refine exists_congr fun t => and_congr_right fun _ => ?_
  rw [exec_cons, Option.bind_eq_some_iff]
  simp

/-- **Induction over runs**: a property of the labels taken and the state reached that holds at
the start and is preserved by every step holds of every run. -/
theorem exec_induction {s₀ : σ} {P : List ℓ → σ → Prop} (h0 : P [] s₀)
    (hstep : ∀ ls s l s', exec step s₀ ls = some s → P ls s → step s l = some s' →
      P (ls ++ [l]) s') {s : σ} (h : exec step s₀ ls = some s) : P ls s := by
  induction ls using List.reverseRecOn generalizing s with
  | nil =>
    obtain rfl := Option.some.inj h
    exact h0
  | append_singleton ls l ih =>
    obtain ⟨t, ht, hl⟩ := exec_concat_eq_some.mp h
    exact hstep ls t l s ht (ih ht) hl

/-- **Invariant rule**: what holds at the start and is preserved by every step holds in every
state reached. -/
theorem exec_invariant {I : σ → Prop} (hstep : ∀ s l s', I s → step s l = some s' → I s') {s₀ s : σ}
    (h0 : I s₀) (h : exec step s₀ ls = some s) : I s :=
  exec_induction (P := fun _ => I) h0 (fun _ t l t' _ hI hl => hstep t l t' hI hl) h

/-- The machine restricted to the steps that meet `ok` in the state they start from. -/
def guarded (step : σ → ℓ → Option σ) (ok : σ → ℓ → Prop) [∀ s l, Decidable (ok s l)] :
    σ → ℓ → Option σ :=
  fun s l => if ok s l then step s l else none

theorem guarded_eq_some {ok : σ → ℓ → Prop} [∀ s l, Decidable (ok s l)] {s s' : σ} :
    guarded step ok s l = some s' ↔ ok s l ∧ step s l = some s' := by
  unfold guarded
  split_ifs with h
  · simp [h]
  · simp [h]

/-- The invariant rule for a restricted machine. -/
theorem exec_guarded_invariant {ok : σ → ℓ → Prop} [∀ s l, Decidable (ok s l)] {I : σ → Prop}
    (hstep : ∀ s l s', I s → ok s l → step s l = some s' → I s') {s₀ s : σ} (h0 : I s₀)
    (h : exec (guarded step ok) s₀ ls = some s) : I s :=
  exec_invariant (fun s l s' hI hs =>
    hstep s l s' hI (guarded_eq_some.mp hs).1 (guarded_eq_some.mp hs).2) h0 h

/-- The steps of a relation that one label simulates. -/
theorem exec_replicate_of_steps {α : Type*} {R : α → α → Prop} {f : α → σ}
    (hstep : ∀ a b, R a b → step (f a) l = some (f b)) {a b : α} (h : Relation.ReflTransGen R a b) :
    ∃ n, exec step (f a) (List.replicate n l) = some (f b) := by
  induction h using Relation.ReflTransGen.head_induction_on with
  | refl => exact ⟨0, rfl⟩
  | head hab _ ih =>
    obtain ⟨n, hn⟩ := ih
    refine ⟨n + 1, ?_⟩
    rw [List.replicate_succ, exec_cons, hstep _ _ hab]
    exact hn

/-- A run whose end has been looked at. -/
theorem exists_of_map {α : Type*} {o : Option σ} {f : σ → α} {a : α} {P : σ → Prop}
    (h : o.map f = some a) (hP : ∀ s, o = some s → f s = a → P s) : ∃ s, o = some s ∧ P s := by
  obtain ⟨s, hs, ha⟩ := Option.map_eq_some_iff.mp h
  exact ⟨s, hs, hP s hs ha⟩

/-- However the moves go on, they end in a state of `done`: outside of it there is a move to make. -/
inductive Inevitably (move : σ → σ → Prop) (done : σ → Prop) : σ → Prop where
  | intro {s : σ} (hmove : ¬done s → ∃ s', move s s')
    (hnext : ∀ s', move s s' → Inevitably move done s') : Inevitably move done s

/-- **Liveness rule**: the moves come to an end, and as long as the goal is not reached there is one. -/
theorem inevitably_of_wf {move : σ → σ → Prop} {done I : σ → Prop}
    (hwf : WellFounded fun s' s => move s s') (hstep : ∀ s s', I s → move s s' → I s')
    (hmove : ∀ s, I s → ¬done s → ∃ s', move s s') {s : σ} (h : I s) : Inevitably move done s := by
  induction s using hwf.induction with
  | h s ih => exact .intro (hmove s h) fun s' hs' => ih s' hs' (hstep s s' h hs')

/-- A table of threads after one of them has moved. -/
theorem getElem?_set_cases {α : Type*} {l : List α} {i j : ℕ} {a u : α}
    (h : (l.set i a)[j]? = some u) : (j = i ∧ u = a) ∨ (j ≠ i ∧ l[j]? = some u) := by
  rw [List.getElem?_set] at h
  split_ifs at h with hij hlt
  · exact .inl ⟨hij.symm, (Option.some.inj h).symm⟩
  · exact .inr ⟨fun hji => hij hji.symm, h⟩

end Stplr.Lib
