import Mathlib.Data.List.ReduceOption
import Mathlib.Tactic.Common

/-!
# Machines that answer

A machine is a step function `step : σ → ι → σ × ω`: a call changes the state and gets an answer.
`answers` are those to a list of calls.  Two machines whose states are related by a simulation give
the same answers (`answers_eq_of_sim`), and an invariant of the states carries over to what is true of
the answers (`forall_answers_of_inv`).  `Throughout` says of each call what holds when it is made.

A program (`Prog`) makes calls that depend on earlier answers.  A machine that may fail does not fail
where it is simulated by one that cannot (`Prog.run?_of_sim`, `answers?_of_sim`).
-/

namespace Stplr.Lib

variable {σ τ ι ω : Type*}

/-- The answers to the calls, one after the other. -/
def answers (step : σ → ι → σ × ω) : σ → List ι → List ω
  | _, [] => []
  | s, i :: is => (step s i).2 :: answers step (step s i).1 is

@[simp] theorem answers_nil (step : σ → ι → σ × ω) (s : σ) : answers step s [] = [] := rfl

theorem answers_cons (step : σ → ι → σ × ω) (s : σ) (i : ι) (is : List ι) :
    answers step s (i :: is) = (step s i).2 :: answers step (step s i).1 is := rfl

variable {R : σ → τ → Prop} {is : List ι} {t : τ} {s : σ} {step : σ → ι → σ × ω} {A : ι → Prop}

/-- **Simulation rule**: if related states answer every admissible call alike and are related
afterwards, then they answer every list of such calls alike. -/
theorem answers_eq_of_sim {step' : τ → ι → τ × ω}
    (hstep : ∀ s t i, R s t → A i → (step s i).2 = (step' t i).2 ∧ R (step s i).1 (step' t i).1)
    (h : R s t) (hok : ∀ i ∈ is, A i) : answers step s is = answers step' t is := by
  induction is generalizing s t with
  | nil => rfl
  | cons i is ih =>
    obtain ⟨hans, hrel⟩ := hstep s t i h (hok i (List.mem_cons_self ..))
    rw [answers_cons, answers_cons, hans, ih hrel fun j hj => hok j (List.mem_cons_of_mem _ hj)]

/-- Calls that do nothing and are not answered can be left out. -/
theorem reduceOption_answers_filter {step : σ → ι → σ × Option ω} {p : ι → Bool}
    (hstep : ∀ s i, p i = false → step s i = (s, none)) (s : σ) (is : List ι) :
    (answers step s (is.filter p)).reduceOption = (answers step s is).reduceOption := by
  induction is generalizing s with
  | nil => rfl
  | cons i is ih =>
    cases hi : p i with
    | false =>
      rw [List.filter_cons_of_neg (by simp [hi]), answers_cons, hstep s i hi,
        List.reduceOption_cons_of_none]
      exact ih s
    | true =>
      rw [List.filter_cons_of_pos hi, answers_cons, answers_cons]
      cases (step s i).2 with
      | none => exact ih _
      | some a => exact congrArg (a :: ·) (ih _)

/-- **Invariant rule**: what every answer in a state with the invariant satisfies, all answers do. -/
theorem forall_answers_of_inv {I : σ → Prop} {P : ω → Prop}
    (hstep : ∀ s i, I s → I (step s i).1 ∧ P (step s i).2) (h : I s) (is : List ι) :
    ∀ a ∈ answers step s is, P a := by
  induction is generalizing s with
  | nil => simp
  | cons i is ih =>
    obtain ⟨hinv, hans⟩ := hstep s i h
    rw [answers_cons, List.forall_mem_cons]
    exact ⟨hans, ih hinv⟩

/-- `P` holds of each of the calls in the state in which it is made. -/
def Throughout (step : σ → ι → σ × ω) (P : σ → ι → Prop) : σ → List ι → Prop
  | _, [] => True
  | s, i :: is => P s i ∧ Throughout step P (step s i).1 is

theorem throughout_congr {step : σ → ι → σ × ω} {P Q : σ → ι → Prop} (h : ∀ s i, P s i ↔ Q s i)
    (s : σ) (is : List ι) : Throughout step P s is ↔ Throughout step Q s is := by
  induction is generalizing s with
  | nil => exact Iff.rfl
  | cons i is ih => exact and_congr (h s i) (ih _)

/-! ### Machines that may fail -/

/-- The answers to the calls, unless one fails. -/
def answers? (step : σ → ι → Option (σ × ω)) : σ → List ι → Option (List ω)
  | _, [] => some []
  | s, i :: is => (step s i).bind fun r => (answers? step r.1 is).map (r.2 :: ·)

/-- **Simulation rule**, for a machine that fails on no admissible call in related states. -/
theorem answers?_of_sim {f : σ → ι → Option (σ × ω)} {g : τ → ι → τ × ω}
    (hstep : ∀ s t i, R s t → A i → ∃ s', f s i = some (s', (g t i).2) ∧ R s' (g t i).1) (h : R s t)
    (his : ∀ i ∈ is, A i) : answers? f s is = some (answers g t is) := by
  induction is generalizing s t with
  | nil => rfl
  | cons i is ih =>
    obtain ⟨s₁, hs₁, hrel⟩ := hstep s t i h (his i (List.mem_cons_self ..))
    rw [answers?, hs₁, Option.bind_some, ih hrel fun j hj => his j (List.mem_cons_of_mem _ hj)]
    rfl

/-! ### Programs -/

/-- A program makes calls and goes on with their answers. -/
inductive Prog (ι ω α : Type*) where
  | ret (a : α)
  | call (i : ι) (next : ω → Prog ι ω α)

namespace Prog

variable {α : Type*}

/-- The run on a machine. -/
def run (step : σ → ι → σ × ω) : Prog ι ω α → σ → σ × α
  | ret a, s => (s, a)
  | call i next, s => run step (next (step s i).2) (step s i).1

/-- The run on a machine that may fail. -/
def run? (step : σ → ι → Option (σ × ω)) : Prog ι ω α → σ → Option (σ × α)
  | ret a, s => some (s, a)
  | call i next, s => (step s i).bind fun r => run? step (next r.2) r.1

/-- The program that returns the image of the result. -/
def map {β : Type*} (f : α → β) : Prog ι ω α → Prog ι ω β
  | ret a => ret (f a)
  | call i next => call i fun a => map f (next a)

theorem run_map {β : Type*} (f : α → β) (step : σ → ι → σ × ω) (p : Prog ι ω α) (s : σ) :
    (p.map f).run step s = (p.run step s).map id f := by
  induction p generalizing s with
  | ret a => rfl
  | call i next ih => exact ih _ _

/-- Every call that the program can make satisfies `P`. -/
def All (P : ι → Prop) : Prog ι ω α → Prop
  | ret _ => True
  | call i next => P i ∧ ∀ a, All P (next a)

theorem all_map {β : Type*} (f : α → β) (P : ι → Prop) (p : Prog ι ω α) :
    (p.map f).All P ↔ p.All P := by
  induction p with
  | ret a => exact Iff.rfl
  | call i next ih => exact and_congr_right fun _ => forall_congr' ih

/-- **Simulation rule**: a program runs through on a machine that may fail, and returns the same, if
its states are related to those of another machine and no admissible call fails in related states. -/
theorem run?_of_sim {f : σ → ι → Option (σ × ω)} {g : τ → ι → τ × ω}
    (hstep : ∀ s t i, R s t → A i → ∃ s', f s i = some (s', (g t i).2) ∧ R s' (g t i).1)
    {p : Prog ι ω α} (hp : p.All A) (h : R s t) :
    ∃ s', p.run? f s = some (s', (p.run g t).2) ∧ R s' (p.run g t).1 := by
  induction p generalizing s t with
  | ret a => exact ⟨s, rfl, h⟩
  | call i next ih =>
    obtain ⟨s₁, hs₁, hrel₁⟩ := hstep s t i h hp.1
    obtain ⟨s₂, hs₂, hrel₂⟩ := ih _ (hp.2 _) hrel₁
    refine ⟨s₂, ?_, hrel₂⟩
    rw [run?, hs₁]
    exact hs₂

end Prog

end Stplr.Lib
