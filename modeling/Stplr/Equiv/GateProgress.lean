import Stplr.Equiv.Watch
import Mathlib.Algebra.BigOperators.Group.List.Basic
import Mathlib.Algebra.Ring.Nat
import Mathlib.Data.Prod.Lex

/-!
# The gate lets everybody through

When migrations run one at a time and none is dropped inside its chunk, every frozen bucket has a task
that is going to unfreeze it (`Owned`).  If no task could move, a parked `drain` would wait for a token
that nobody holds, and a parked `enter` for a migration that is not there (`exists_moved`).  A parked
task is woken by a `bump` only, and there are finitely many of these to come, so the moves end
(`wellFounded_moved`).  So all tasks get through, however they are scheduled (`gate_lets_through`).
-/

namespace Stplr

open Lib List Option

/-! ### The steps that are left -/

/-- The steps of a loop before it waits for the next version. -/
def Wait.left (version : ℕ) : Wait → ℕ
  | .start => 2
  | .subscribed seen => if seen = version then 1 else 5
  | .parked seen => if seen = version then 0 else 4
  | .woken => 3

theorem Wait.left_move {version : ℕ} {ready : Prop} [Decidable ready] {w w' : Wait}
    (h : w.move version ready = some (some w')) : w'.left version < w.left version := by
  cases w with
  | start | woken =>
    cases h
    simp [Wait.left]
  | subscribed seen =>
    by_cases hr : ready
    · simp [Wait.move, hr] at h
    · obtain rfl : w' = .parked seen := by simpa [Wait.move, hr] using h.symm
      simp only [Wait.left]
      split_ifs <;> omega
  | parked seen =>
    by_cases hv : seen = version
    · simp [Wait.move, hv] at h
    · obtain rfl : w' = .woken := by simpa [Wait.move, hv] using h.symm
      simp [Wait.left, hv]

/-- A loop stops at its wait only, with the latest version. -/
theorem Wait.eq_parked {version : ℕ} {ready : Prop} [Decidable ready] {w : Wait}
    (h : w.move version ready = none) : w = .parked version := by
  cases w with
  | start => cases h
  | subscribed seen => by_cases hr : ready <;> simp [Wait.move, hr] at h
  | parked seen => by_cases hv : seen = version <;> simp_all [Wait.move]
  | woken => cases h

def GateCall.isUnfreeze : GateCall → Bool
  | .unfreeze _ => true
  | _ => false

namespace Task

/-- The calls that are left. -/
def rest : Task → List GateCall
  | .calling rest _ | .draining _ _ rest | .bumping rest => rest
  | .entering _ _ | .holding _ _ => []

/-- The `bump`s that are left. -/
def bumps : Task → ℕ
  | .entering _ _ | .holding _ _ => 1
  | .bumping rest => rest.countP GateCall.isUnfreeze + 1
  | .calling rest _ | .draining _ _ rest => rest.countP GateCall.isUnfreeze

/-- The steps that are left before a `bump` or a wait for one. -/
def left (version : ℕ) : Task → ℕ
  | .entering _ w => w.left version + 4
  | .holding _ rx => if rx then 3 else 2
  | .calling rest rx => 10 * rest.length + if rx then 1 else 0
  | .draining _ w rest => 10 * rest.length + (w.left version + 2)
  | .bumping rest => 10 * rest.length + 1

end Task

namespace GateSys

variable {s s' : GateSys} {i : ℕ} {t t' : Task} {g : GateState} {v : ℕ}

/-- A task makes a `bump`, or gets nearer to one. -/
theorem left_moves (hm : t.Moves s g v t') : t'.bumps < t.bumps ∨
    v = s.version ∧ t'.bumps = t.bumps ∧ t'.left s.version < t.left s.version := by
  cases hm with
  | bump => exact .inl (Nat.lt_succ_self _)
  | wait h => exact .inr ⟨rfl, rfl, Nat.add_lt_add_right (Wait.left_move h) 4⟩
  | drainWait h =>
    have hlt := Nat.add_lt_add_right (Wait.left_move h) 2
    exact .inr ⟨rfl, rfl, Nat.add_lt_add_left hlt _⟩
  | _ =>
    refine .inr ⟨rfl, by simp [Task.bumps, countP_cons, GateCall.isUnfreeze], ?_⟩
    simp only [Task.left, Wait.left, length_cons, length_nil, if_true, Bool.false_eq_true, if_false]
    omega

theorem sum_map_set {tasks : List Task} (ht : tasks[i]? = some t) (t' : Task) (f : Task → ℕ) :
    ((tasks.set i t').map f).sum + f t = (tasks.map f).sum + f t' := by
  obtain ⟨hi, rfl⟩ := List.getElem?_eq_some_iff.mp ht
  have hnew := sum_set (tasks.map f) i (f t')
  have hold := sum_set (tasks.map f) i (f tasks[i])
  rw [← map_set, length_map, if_pos hi] at hnew hold
  rw [set_getElem_self] at hold
  omega

/-- A task moves. -/
def Moved (s s' : GateSys) : Prop := ∃ i, s.step (.move i) = some s'

/-- The moves come to an end: between two `bump`s all tasks get nearer to one. -/
theorem wellFounded_moved : WellFounded fun s' s : GateSys => s.Moved s' := by
  let size (s : GateSys) : ℕ × ℕ :=
    ((s.tasks.map Task.bumps).sum, (s.tasks.map (Task.left s.version)).sum)
  have hwf : WellFounded (Prod.Lex (· < ·) (· < ·) : ℕ × ℕ → ℕ × ℕ → Prop) :=
    WellFounded.prod_lex wellFounded_lt wellFounded_lt
  refine Subrelation.wf (fun {s' s} h => ?_) (InvImage.wf size hwf)
  obtain ⟨i, h⟩ := h
  obtain ⟨b, hl, -⟩ | ⟨cs, hl, -⟩ | ⟨i, t, t', g, v, -, ht, hm, rfl⟩ | ⟨i, t, hl, -⟩ := step_cases h
  · cases hl
  · cases hl
  · have hbumps := sum_map_set ht t' Task.bumps
    refine Prod.lex_def.mpr ?_
    obtain hlt | ⟨rfl, heq, hlt⟩ := left_moves hm
    · exact .inl (by dsimp only [size]; omega)
    · have hleft := sum_map_set ht t' (Task.left s.version)
      exact .inr ⟨by dsimp only [size]; omega, by dsimp only [size]; omega⟩
  · cases hl

/-! ### Somebody can move -/

/-- Every frozen bucket has a task that is going to unfreeze it. -/
def Owned (s : GateSys) : Prop :=
  ∀ b ∈ s.gate.frozen, ∃ t ∈ s.tasks, ∃ c, b ∈ c ∧ GateCall.unfreeze c ∈ t.rest

theorem rest_moves (hm : t.Moves s g v t') :
    t.rest = t'.rest ∨ ∃ c, t = .calling (c :: t'.rest) false := by
  cases hm with
  | freeze | drain | unfreeze => exact .inr ⟨_, rfl⟩
  | _ => exact .inl rfl

theorem Owned.moves (ho : s.Owned) (hfit : Fits s t) (ht : s.tasks[i]? = some t)
    (hm : t.Moves s g v t') : Owned ⟨g, v, s.tasks.set i t'⟩ := by
  have hself : t' ∈ s.tasks.set i t' := List.mem_set (List.getElem?_eq_some_iff.mp ht).1 _
  intro b hb
  -- a call that is made is not left, which matters for `unfreeze`
  have hold : b ∈ s.gate.frozen → (∀ c, t = .calling (.unfreeze c :: t'.rest) false → b ∉ c) →
      ∃ u ∈ s.tasks.set i t', ∃ c, b ∈ c ∧ GateCall.unfreeze c ∈ u.rest := by
    intro hb hun
    obtain ⟨u, hu, c, hbc, hc⟩ := ho b hb
    by_cases hut : u = t
    · subst hut
      refine ⟨t', hself, c, hbc, ?_⟩
      obtain heq | ⟨c', rfl⟩ := rest_moves hm
      · rwa [← heq]
      · obtain rfl | hc := mem_cons.mp hc
        · exact absurd hbc (hun c rfl)
        · exact hc
    · exact ⟨u, mem_set_of_ne ht hu hut t', c, hbc, hc⟩
  cases hm with
  | freeze =>
    cases hfit with
    | begin =>
      obtain hb | hb := Finset.mem_union.mp hb
      · exact hold hb fun c h => by cases h
      · exact ⟨_, hself, _, List.mem_toFinset.mp hb, by simp [Task.rest]⟩
  | unfreeze =>
    obtain ⟨hb, hnot⟩ := Finset.mem_sdiff.mp hb
    refine hold hb fun c h => ?_
    cases h
    exact fun hc => hnot (List.mem_toFinset.mpr hc)
  | leave h => exact hold (GateState.frozen_leave h ▸ hb) fun c h => by cases h
  | _ => exact hold hb fun c h => by simp at h

/-- A task that cannot move is through, or parked with the latest version. -/
theorem parked_of_move_eq_none (hc : s.Counted) (ht : s.tasks[i]? = some t) (h : t.move s = none) :
    t = .calling [] false ∨ t.wait = some (.parked s.version) := by
  cases t with
  | entering b w | draining bs w rest =>
    exact .inr (congrArg some (Wait.eq_parked (map_eq_none_iff.mp h)))
  | holding b rx =>
    cases rx with
    | true => cases h
    | false =>
      obtain ⟨g, hg, -⟩ := hc.leave (live_pos ht)
      simp [Task.move, hg] at h
  | calling rest rx =>
    cases rx with
    | true => cases h
    | false =>
      cases rest with
      | nil => exact .inl rfl
      | cons c rest => cases c <;> cases h
  | bumping rest => cases h

/-- The invariant of runs in which migrations run one at a time and to their end. -/
structure Tended (s : GateSys) : Prop extends Orderly s where
  owned : s.Owned
  awake : ∀ t ∈ s.tasks, s.Awake t

/-- **No deadlock.** -/
theorem Tended.exists_moved (h : s.Tended) (hne : ∃ t ∈ s.tasks, t ≠ .calling [] false) :
    ∃ s', s.Moved s' := by
  by_contra hno
  have hstuck : ∀ t ∈ s.tasks, t = .calling [] false ∨
      t.wait = some (.parked s.version) ∧ t.blocked s.gate := by
    have hnone : ∀ {i : ℕ} {t : Task}, s.tasks[i]? = some t → t.move s = none := fun {i t} hi =>
      eq_none_iff_forall_ne_some.mpr fun r hr =>
        hno ⟨_, i, by rw [step, hi, bind_some, hr]; rfl⟩
    intro t ht
    obtain ⟨i, hi⟩ := mem_iff_getElem?.mp ht
    refine (parked_of_move_eq_none h.counted hi (hnone hi)).imp_right fun hw => ⟨hw, ?_⟩
    obtain hb | hlt | ⟨rest, hr⟩ := ((h.awake t ht).parked _ hw).2
    · exact hb
    · exact absurd hlt (Nat.lt_irrefl _)
    · obtain ⟨j, hj⟩ := mem_iff_getElem?.mp hr
      cases hnone hj
  have hdrain : ∀ bs w rest, Task.draining bs w rest ∉ s.tasks := by
    intro bs w rest hmem
    obtain heq | ⟨-, hb⟩ := hstuck _ hmem
    · cases heq
    · -- a token of the chunk is live, and its holder can move
      have hlive : ∃ b ∈ bs, s.live b ≠ 0 := by
        simpa [Task.blocked, GateState.drained, h.counted _] using hb
      obtain ⟨b, -, hb⟩ := hlive
      obtain ⟨u, hu, hholds⟩ := countP_pos_iff.mp (Nat.pos_of_ne_zero hb)
      obtain rfl | ⟨hw, -⟩ := hstuck u hu
      · cases hholds
      · cases u with
        | holding b rx => cases hw
        | _ => cases hholds
  obtain ⟨t, ht, hne⟩ := hne
  obtain ⟨hw, hb⟩ := (hstuck t ht).resolve_left hne
  cases t with
  | entering b w =>
    -- the bucket is frozen by a migration, and that one can move
    obtain ⟨u, hu, c, -, hc⟩ := h.owned b hb
    obtain rfl | ⟨hw, -⟩ := hstuck u hu
    · cases hc
    · cases u with
      | draining bs w rest => exact hdrain bs w rest hu
      | entering b w => cases hc
      | _ => cases hw
  | draining bs w rest => exact hdrain bs w rest ht
  | _ => cases hw

/-! ### Runs -/

/-- Migrations run one at a time, and none is dropped while it waits. -/
def patient (s : GateSys) : GateLabel → Bool
  | .cancel i => !s.tasks[i]?.any Task.migrates
  | l => s.oneMigration l

theorem Owned.step (ho : s.Owned) (hord : s.Orderly) {l : GateLabel}
    (hok : s.patient l = true) (h : s.step l = some s') : s'.Owned := by
  have hmore : ∀ t, Owned { s with tasks := s.tasks ++ [t] } := by
    intro t b hb
    obtain ⟨u, hu, hc⟩ := ho b hb
    exact ⟨u, mem_append_left _ hu, hc⟩
  obtain ⟨b, -, rfl⟩ | ⟨cs, -, rfl⟩ | ⟨i, t, t', g, v, -, ht, hm, rfl⟩ | ⟨i, t, rfl, ht, hcan, rfl⟩ :=
    step_cases h
  · exact hmore _
  · exact hmore _
  · exact ho.moves (hord.fits ht) ht hm
  · intro b hb
    obtain ⟨u, hu, c, hbc, hc⟩ := ho b hb
    refine ⟨u, mem_set_of_ne ht hu ?_ _, c, hbc, hc⟩
    rintro rfl
    -- what is dropped has no calls left
    rw [patient, ht] at hok
    cases u with
    | draining bs w rest => cases hok
    | entering b w => cases hc
    | _ => cases hcan

theorem Tended.step (h : s.Tended) {l : GateLabel} (hok : s.patient l = true)
    (hs : s.step l = some s') : s'.Tended := by
  refine ⟨h.toOrderly.step ?_ hs, Owned.step h.owned h.toOrderly hok hs, awake_step h.awake hs⟩
  cases l with
  | cancel i => rfl
  | _ => exact hok

theorem tended_new : new.Tended :=
  ⟨orderly_new, fun b hb => absurd hb (Finset.notMem_empty b), nofun⟩

/-- **The gate lets everybody through.**  From every state of a run in which migrations run one at a
time and none is dropped while it waits, all tasks get through however they are scheduled: there is
always one that can move until all of them are through, and the moves come to an end. -/
theorem gate_lets_through {ls : List GateLabel} {s : GateSys}
    (h : exec (guarded step fun s l => s.patient l = true) new ls = some s) :
    Inevitably Moved (fun s => ∀ t ∈ s.tasks, t = .calling [] false) s := by
  have htended : s.Tended := exec_guarded_invariant (fun _ _ _ ht => ht.step) tended_new h
  refine inevitably_of_wf wellFounded_moved ?_ ?_ htended
  · rintro s s' ht ⟨i, hi⟩
    exact ht.step (l := .move i) rfl hi
  · intro s ht hnot
    push Not at hnot
    exact ht.exists_moved hnot

/-- In the run above an entrant waits for the migration, which is through its `drain`. -/
theorem gate_lets_through_drained :
    ∃ s, exec (guarded step fun s l => s.patient l = true) new drainedRun = some s ∧
      Task.entering 3 (.parked 0) ∈ s.tasks ∧
      Inevitably Moved (fun s => ∀ t ∈ s.tasks, t = .calling [] false) s := by
  obtain ⟨s, hs, ht⟩ : ∃ s, exec (guarded step fun s l => s.patient l = true) new drainedRun = some s ∧
      s.tasks = [.calling [] false, .calling [.unfreeze [3, 4]] true, .entering 3 (.parked 0)] :=
    map_eq_some_iff.mp (by decide)
  exact ⟨s, hs, by simp [ht], gate_lets_through hs⟩

end GateSys

end Stplr
