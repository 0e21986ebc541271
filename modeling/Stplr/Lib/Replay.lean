import Mathlib.Data.Finset.Basic
import Mathlib.Data.List.Induction
import Mathlib.Tactic.Common

/-!
# At-least-once delivery

A log of operations is applied to a state from a cursor on.  A crash between an application and the
next advance of the cursor makes the operations from the cursor on run again.  `Replays` are the runs
that can come of this.  When every run of operations is idempotent, they all end where a single pass
over the log ends (`Replays.eq_foldl`).

That the single operations are idempotent is not enough: two writes of different values to one
register are idempotent and commute with nothing.
-/

namespace Stplr.Lib

variable {σ ω : Type*} {act : σ → ω → σ}

/-- A second pass over any run of operations changes nothing. -/
def Restartable (act : σ → ω → σ) : Prop :=
  ∀ (l : List ω) (s : σ), l.foldl act (l.foldl act s) = l.foldl act s

/-- `Replays act l s s'`: starting from `s`, the log `l` is applied until all of it is committed,
which gives `s'`. -/
inductive Replays (act : σ → ω → σ) : List ω → σ → σ → Prop
  | done (s : σ) : Replays act [] s s
  /-- A run is applied and the cursor advances past it. -/
  | commit {pre rest : List ω} {s s' : σ} :
    Replays act rest (pre.foldl act s) s' → Replays act (pre ++ rest) s s'
  /-- A run is applied and the cursor stays. -/
  | restart {pre rest : List ω} {s s' : σ} :
    Replays act (pre ++ rest) (pre.foldl act s) s' → Replays act (pre ++ rest) s s'

variable {l : List ω}

/-- **Exactly once**: over restartable operations a replay ends where one pass over the log ends. -/
theorem Replays.eq_foldl (hact : Restartable act) {s s' : σ} (h : Replays act l s s') :
    s' = l.foldl act s := by
  induction h with
  | done s => rfl
  | commit _ ih => rw [ih, List.foldl_append]
  | @restart pre rest s s' _ ih => rw [ih, List.foldl_append, hact pre s, List.foldl_append]

/-! ### Runs over a cell -/

/-- A run that contains an operation whose outcome does not depend on the state gives the same
outcome from every state. -/
theorem foldl_eq_of_mem_const {o : ω} (ho : o ∈ l) (hconst : ∀ s s' : σ, act s o = act s' o)
    (s s' : σ) : l.foldl act s = l.foldl act s' := by
  induction l generalizing s s' with
  | nil => exact absurd ho List.not_mem_nil
  | cons a l ih =>
    rw [List.foldl_cons, List.foldl_cons]
    rcases List.mem_cons.mp ho with rfl | ho
    · rw [hconst s s']
    · exact ih ho _ _

/-- The members that insertions (`true`) and removals (`false`) leave of a set. -/
def editSet {α : Type*} [DecidableEq α] (l : List (Bool × α)) (M : Finset α) : Finset α :=
  l.foldl (fun M e => if e.1 then insert e.2 M else M.erase e.2) M

/-- An element is in or out as its last edit says; without one it stays as it was. -/
theorem mem_editSet {α : Type*} [DecidableEq α] (l : List (Bool × α)) (M : Finset α) (x : α) :
    x ∈ editSet l M ↔ match l.reverse.find? (fun e => e.2 = x) with
      | some e => e.1 = true
      | none => x ∈ M := by
  induction l using List.reverseRecOn with
  | nil => exact Iff.rfl
  | append_singleton l e ih =>
    have hlast : editSet (l ++ [e]) M
        = if e.1 then insert e.2 (editSet l M) else (editSet l M).erase e.2 := by
      rw [editSet, List.foldl_append]
      rfl
    rw [hlast, List.reverse_append, List.reverse_singleton, List.singleton_append, List.find?_cons]
    by_cases hx : e.2 = x
    · cases hb : e.1 <;> simp [hx, hb]
    · cases hb : e.1 <;> simp [hx, ih, Ne.symm hx]

/-- A second pass over the same edits changes nothing. -/
theorem editSet_editSet {α : Type*} [DecidableEq α] (l : List (Bool × α)) (M : Finset α) :
    editSet l (editSet l M) = editSet l M := by
  ext x
  have hfirst := mem_editSet l M x
  have hsecond := mem_editSet l (editSet l M) x
  cases hf : l.reverse.find? (fun e => e.2 = x) with
  | some e =>
    rw [hf] at hfirst hsecond
    exact hsecond.trans hfirst.symm
  | none =>
    rw [hf] at hsecond
    exact hsecond

end Stplr.Lib
