import Stplr.Watch

/-!
# Exclusion and wake-ups at the gate

`Task.Moves` lists what the step of a task can do, and every invariant below is derived from it.

* Tokens: the entry of a bucket in `in_flight` is the number of live tokens (`Counted`).
* Exclusion: when migrations run one at a time, a chunk is frozen from its `freeze` to its `unfreeze`,
  so nothing enters it; what was in it is out when `drain` returns (`Orderly`).
* Wake-ups: a change that may end a wait leaves its task before a `bump`, which is not dropped as long as
  anybody is parked, since a parked task has a receiver.  So a parked task is blocked, or has an unseen
  version, or some `bump` is still to come (`Awake`).

Last, the machine refines the gate of `Guard`, call by call (`gate_refines`).
-/

namespace Stplr

open Lib List Option Function

/-! ### What a step does -/

/-- The steps of a task in `s`, with the gate, the version and the task afterwards. -/
inductive Task.Moves (s : GateSys) : Task → GateState → ℕ → Task → Prop where
  | wait {b w w'} (h : w.move s.version (b ∉ s.gate.frozen) = some (some w')) :
    Moves s (.entering b w) s.gate s.version (.entering b w')
  | enter {b seen} (hb : b ∉ s.gate.frozen) :
    Moves s (.entering b (.subscribed seen)) (s.gate.enter b) s.version (.holding b true)
  | hold {b} : Moves s (.holding b true) s.gate s.version (.holding b false)
  | leave {b g} (h : s.gate.leave b = some g) :
    Moves s (.holding b false) g s.version (.bumping [])
  | drainWait {bs w w' rest} (h : w.move s.version (s.gate.drained bs) = some (some w')) :
    Moves s (.draining bs w rest) s.gate s.version (.draining bs w' rest)
  | drained {bs seen rest} (hbs : s.gate.drained bs) :
    Moves s (.draining bs (.subscribed seen) rest) s.gate s.version (.calling rest true)
  | settle {rest} : Moves s (.calling rest true) s.gate s.version (.calling rest false)
  | freeze {bs rest} : Moves s (.calling (.freeze bs :: rest) false) (s.gate.freeze bs) s.version
      (.calling rest false)
  | drain {bs rest} : Moves s (.calling (.drain bs :: rest) false) s.gate s.version
      (.draining bs .start rest)
  | unfreeze {bs rest} : Moves s (.calling (.unfreeze bs :: rest) false) (s.gate.unfreeze bs)
      s.version (.bumping rest)
  | bump {rest} : Moves s (.bumping rest) s.gate s.sent (.calling rest false)

variable {version : ℕ}

/-- A loop is left by its check only. -/
theorem Wait.move_eq_none_iff {ready : Prop} [Decidable ready] {w : Wait} :
    w.move version ready = some none ↔ ready ∧ ∃ seen, w = .subscribed seen := by
  cases w with
  | start => simp [Wait.move]
  | subscribed seen => by_cases h : ready <;> simp [Wait.move, h]
  | parked seen => by_cases h : seen = version <;> simp [Wait.move, h]
  | woken => simp [Wait.move]

theorem GateState.frozen_leave {g g' : GateState} {b : ℕ} (h : g.leave b = some g') :
    g'.frozen = g.frozen := by
  unfold GateState.leave at h
  split at h <;> cases h <;> rfl

theorem Task.moves_of_move {s : GateSys} {t t' : Task} {g : GateState} {v : ℕ}
    (h : t.move s = some (g, v, t')) : t.Moves s g v t' := by
  match t, h with
  | .entering b w, h =>
    obtain ⟨r, hr, heq⟩ := map_eq_some_iff.mp h
    match r, hr, heq with
    | some w', hr, rfl => exact .wait hr
    | none, hr, rfl =>
      obtain ⟨hb, seen, rfl⟩ := Wait.move_eq_none_iff.mp hr
      exact .enter hb
  | .holding b true, rfl => exact .hold
  | .holding b false, h =>
    obtain ⟨g', hg, heq⟩ := map_eq_some_iff.mp h
    cases heq
    exact .leave hg
  | .draining bs w rest, h =>
    obtain ⟨r, hr, heq⟩ := map_eq_some_iff.mp h
    match r, hr, heq with
    | some w', hr, rfl => exact .drainWait hr
    | none, hr, rfl =>
      obtain ⟨hbs, seen, rfl⟩ := Wait.move_eq_none_iff.mp hr
      exact .drained hbs
  | .calling rest true, rfl => exact .settle
  | .calling (.freeze bs :: rest) false, rfl => exact .freeze
  | .calling (.drain bs :: rest) false, rfl => exact .drain
  | .calling (.unfreeze bs :: rest) false, rfl => exact .unfreeze
  | .bumping rest, rfl => exact .bump

namespace GateSys

variable {s : GateSys} {l : GateLabel} {i : ℕ} {t t' : Task} {b : ℕ} {g : GateState} {v : ℕ}

variable {s' : GateSys}

/-- **What a step of the system does**: a task is added, a task moves, or a parked task is gone. -/
theorem step_cases (h : s.step l = some s') :
    (∃ b, l = .op b ∧ s' = { s with tasks := s.tasks ++ [.entering b .start] }) ∨
    (∃ cs, l = .calls cs ∧ s' = { s with tasks := s.tasks ++ [.calling cs false] }) ∨
    (∃ i t t' g v, l = .move i ∧ s.tasks[i]? = some t ∧ t.Moves s g v t' ∧
      s' = ⟨g, v, s.tasks.set i t'⟩) ∨
    ∃ i t, l = .cancel i ∧ s.tasks[i]? = some t ∧ t.cancel = some (.calling [] false) ∧
      s' = { s with tasks := s.tasks.set i (.calling [] false) } := by
  match l, h with
  | .op b, rfl => exact .inl ⟨b, rfl, rfl⟩
  | .calls cs, rfl => exact .inr (.inl ⟨cs, rfl, rfl⟩)
  | .move i, h =>
    obtain ⟨t, ht, h⟩ := bind_eq_some_iff.mp h
    obtain ⟨⟨g, v, t'⟩, hm, rfl⟩ := map_eq_some_iff.mp h
    exact .inr (.inr (.inl ⟨i, t, t', g, v, rfl, ht, Task.moves_of_move hm, rfl⟩))
  | .cancel i, h =>
    obtain ⟨t, ht, h⟩ := bind_eq_some_iff.mp h
    obtain ⟨t', hc, rfl⟩ := map_eq_some_iff.mp h
    have ht' : t' = .calling [] false := by
      unfold Task.cancel at hc
      split at hc <;> simp_all
    subst ht'
    exact .inr (.inr (.inr ⟨i, t, rfl, ht, hc, rfl⟩))

/-! ### Tokens -/

/-- The entry of a bucket with `n` live tokens. -/
def entry (n : ℕ) : Option ℕ := if n = 0 then none else some n

@[simp] theorem getD_entry (n : ℕ) : (entry n).getD 0 = n := by
  unfold entry
  split_ifs with h
  · exact h.symm
  · rfl

/-- `in_flight` counts the live tokens. -/
def Counted (s : GateSys) : Prop := ∀ b, s.gate.inFlight b = entry (s.live b)

/-- What the move of one task does to a count over all tasks. -/
theorem countP_set_add {tasks : List Task} (ht : tasks[i]? = some t) (t' : Task) (p : Task → Bool) :
    (tasks.set i t').countP p + (if p t then 1 else 0) = tasks.countP p + (if p t' then 1 else 0) := by
  induction tasks generalizing i with
  | nil => simp at ht
  | cons u tasks ih =>
    cases i with
    | zero =>
      obtain rfl : u = t := by simpa using ht
      simp only [set_cons_zero, countP_cons]
      omega
    | succ i =>
      have := ih (by simpa using ht)
      simp only [set_cons_succ, countP_cons]
      omega

theorem live_set (ht : s.tasks[i]? = some t) (t' : Task) (g : GateState) (v b : ℕ) :
    live ⟨g, v, s.tasks.set i t'⟩ b + (if t.holds b then 1 else 0)
      = s.live b + (if t'.holds b then 1 else 0) :=
  countP_set_add ht t' (Task.holds b)

/-- A task that takes no token and gives none back leaves the count alone. -/
theorem live_set_of_eq (ht : s.tasks[i]? = some t) (h : t'.holds b = t.holds b) (g : GateState)
    (v : ℕ) : live ⟨g, v, s.tasks.set i t'⟩ b = s.live b := by
  have := live_set ht t' g v b
  rw [h] at this
  omega

theorem live_append (h : t.holds b = false) :
    live { s with tasks := s.tasks ++ [t] } b = s.live b := by
  simp [live, h]

theorem holds_of_cancel (h : t.cancel = some t') (b : ℕ) : t.holds b = false := by
  unfold Task.cancel at h
  split at h
  · rfl
  · rfl
  · cases h

theorem live_cancel (ht : s.tasks[i]? = some t) (h : t.cancel = some (.calling [] false)) (b : ℕ) :
    live { s with tasks := s.tasks.set i (.calling [] false) } b = s.live b := by
  rw [live_set_of_eq ht]
  exact (holds_of_cancel h b).symm

/-- The token of a task is live. -/
theorem live_pos {rx : Bool} (ht : s.tasks[i]? = some (.holding b rx)) : 0 < s.live b :=
  countP_pos_iff.mpr ⟨_, mem_of_getElem? ht, by simp [Task.holds]⟩

/-- `leave` while the caller's own token is counted: the decrement does not underflow. -/
theorem Counted.leave (hc : s.Counted) (hb : 0 < s.live b) :
    ∃ g, s.gate.leave b = some g ∧
      ∀ b', g.inFlight b' = entry (s.live b' - if b = b' then 1 else 0) := by
  obtain ⟨n, hn⟩ : ∃ n, s.live b = n + 1 := ⟨s.live b - 1, by omega⟩
  have hentry : s.gate.inFlight b = some (n + 1) := by rw [hc b, hn]; rfl
  have hleave : s.gate.leave b
      = some { s.gate with inFlight := update s.gate.inFlight b (entry n) } := by
    rw [GateState.leave, hentry]
    rfl
  refine ⟨_, hleave, fun b' => ?_⟩
  show update s.gate.inFlight b (entry n) b' = _
  by_cases hbb : b' = b
  · rw [hbb, update_self, if_pos rfl, hn, Nat.add_sub_cancel]
  · rw [update_of_ne hbb, hc b', if_neg (Ne.symm hbb), Nat.sub_zero]

/-- `enter` when the tokens are counted. -/
theorem Counted.enter (hc : s.Counted) (b b' : ℕ) :
    (s.gate.enter b).inFlight b' = entry (s.live b' + if b = b' then 1 else 0) := by
  show update s.gate.inFlight b (some ((s.gate.inFlight b).getD 0 + 1)) b' = _
  by_cases hbb : b' = b
  · rw [hbb, update_self, hc b, getD_entry, if_pos rfl]
    rfl
  · rw [update_of_ne hbb, hc b', if_neg (Ne.symm hbb), Nat.add_zero]

theorem Counted.moves (hc : s.Counted) (ht : s.tasks[i]? = some t) (hm : t.Moves s g v t') :
    Counted ⟨g, v, s.tasks.set i t'⟩ := by
  intro b'
  cases hm with
  | @enter b _ hb =>
    have hlive := live_set ht (.holding b true) (s.gate.enter b) s.version b'
    simp only [Task.holds, decide_eq_true_eq, Bool.false_eq_true, if_false, Nat.add_zero] at hlive
    rw [hlive]
    exact hc.enter b b'
  | @leave b g h =>
    have hlive := live_set ht (.bumping []) g s.version b'
    simp only [Task.holds, decide_eq_true_eq, Bool.false_eq_true, if_false, Nat.add_zero] at hlive
    obtain ⟨g', hg, hin⟩ := hc.leave (live_pos ht)
    obtain rfl := some.inj (hg.symm.trans h)
    have hin := hin b'
    rw [← hlive, Nat.add_sub_cancel] at hin
    exact hin
  | _ =>
    rw [live_set_of_eq ht]
    · exact hc b'
    · rfl

theorem Counted.step (hc : s.Counted) (h : s.step l = some s') : s'.Counted := by
  obtain ⟨b, -, rfl⟩ | ⟨cs, -, rfl⟩ | ⟨i, t, t', g, v, -, ht, hm, rfl⟩ | ⟨i, t, -, ht, hcan, rfl⟩ :=
    step_cases h
  · exact fun b' => (hc b').trans (congrArg entry (live_append rfl).symm)
  · exact fun b' => (hc b').trans (congrArg entry (live_append rfl).symm)
  · exact hc.moves ht hm
  · exact fun b' => (hc b').trans (congrArg entry (live_cancel ht hcan b').symm)

theorem counted_new : new.Counted := fun _ => rfl

/-! ### Exclusion -/

/-- How far a task can be when migrations run one at a time, and what holds then. -/
inductive Fits (s : GateSys) : Task → Prop where
  | entering {b w} : Fits s (.entering b w)
  | holding {b rx} : Fits s (.holding b rx)
  | bumping : Fits s (.bumping [])
  | idle {rx} : Fits s (.calling [] rx)
  | begin {c} : Fits s (.calling (migration c) false)
  | frozen {c} (hf : ∀ b ∈ c, b ∈ s.gate.frozen) : Fits s (.calling [.drain c, .unfreeze c] false)
  | draining {c w} (hf : ∀ b ∈ c, b ∈ s.gate.frozen) : Fits s (.draining c w [.unfreeze c])
  | exclusive {c rx} (hf : ∀ b ∈ c, b ∈ s.gate.frozen) (hl : ∀ b ∈ c, s.live b = 0) :
    Fits s (.calling [.unfreeze c] rx)

/-- Nothing is unfrozen and nothing enters a frozen bucket. -/
def Shut (s s' : GateSys) : Prop :=
  ∀ b ∈ s.gate.frozen, b ∈ s'.gate.frozen ∧ (s.live b = 0 → s'.live b = 0)

theorem Fits.mono (hfit : Fits s t) (h : Shut s s') : Fits s' t := by
  cases hfit with
  | entering => exact .entering
  | holding => exact .holding
  | bumping => exact .bumping
  | idle => exact .idle
  | begin => exact .begin
  | frozen hf => exact .frozen fun b hb => (h b (hf b hb)).1
  | draining hf => exact .draining fun b hb => (h b (hf b hb)).1
  | exclusive hf hl =>
    exact .exclusive (fun b hb => (h b (hf b hb)).1) fun b hb => (h b (hf b hb)).2 (hl b hb)

/-- A task that has no calls to make fits anywhere. -/
theorem Fits.of_not_migrates (hfit : Fits s t) (h : t.migrates = false) (s' : GateSys) : Fits s' t := by
  cases hfit with
  | entering => exact .entering
  | holding => exact .holding
  | bumping => exact .bumping
  | idle => exact .idle
  | begin | frozen | draining | exclusive => simp [Task.migrates, migration] at h

/-- No task takes a token of a frozen bucket. -/
theorem live_moves {b' : ℕ} (ht : s.tasks[i]? = some t) (hm : t.Moves s g v t')
    (hb' : b' ∈ s.gate.frozen) (h0 : s.live b' = 0) : live ⟨g, v, s.tasks.set i t'⟩ b' = 0 := by
  cases hm with
  | @enter b _ hb =>
    have hne : b ≠ b' := fun h => hb (h ▸ hb')
    rw [live_set_of_eq ht (by simp [Task.holds, hne]), h0]
  | @leave b g h =>
    have hlive := live_set ht (.bumping []) g s.version b'
    simp only [Task.holds, Bool.false_eq_true, if_false] at hlive
    omega
  | _ =>
    rw [live_set_of_eq ht, h0]
    rfl

/-- Only `unfreeze` unfreezes. -/
theorem frozen_moves (hm : t.Moves s g v t')
    (hun : ∀ bs rest, t ≠ .calling (.unfreeze bs :: rest) false) : s.gate.frozen ⊆ g.frozen := by
  cases hm with
  | leave h => rw [GateState.frozen_leave h]
  | freeze => exact Finset.subset_union_left
  | unfreeze => exact absurd rfl (hun _ _)
  | _ => exact fun _ h => h

theorem live_step (hb : b ∈ s.gate.frozen) (h0 : s.live b = 0) (h : s.step l = some s') :
    s'.live b = 0 := by
  obtain ⟨b, -, rfl⟩ | ⟨cs, -, rfl⟩ | ⟨i, t, t', g, v, -, ht, hm, rfl⟩ | ⟨i, t, -, ht, hcan, rfl⟩ :=
    step_cases h
  · exact (live_append rfl).trans h0
  · exact (live_append rfl).trans h0
  · exact live_moves ht hm hb h0
  · exact (live_cancel ht hcan _).trans h0

/-- Where a task stands after a step, when it stood somewhere before. -/
theorem Fits.moves (hc : s.Counted) (hfit : Fits s t) (ht : s.tasks[i]? = some t)
    (hm : t.Moves s g v t') :
    Fits ⟨g, v, s.tasks.set i t'⟩ t' ∧ (t'.migrates = true → t.migrates = true) := by
  cases hm with
  | wait h => exact ⟨.entering, id⟩
  | enter hb | hold => exact ⟨.holding, id⟩
  | leave h => exact ⟨.bumping, id⟩
  | drainWait h =>
    cases hfit with
    | draining hf => exact ⟨.draining hf, id⟩
  | drained hbs =>
    cases hfit with
    | @draining c _ hf =>
      -- the check has seen that no token of the chunk is live
      refine ⟨.exclusive hf fun b hb => ?_, fun _ => rfl⟩
      have h0 := hbs b hb
      rw [hc b, getD_entry] at h0
      rw [live_set_of_eq ht, h0]
      rfl
  | settle =>
    cases hfit with
    | idle => exact ⟨.idle, id⟩
    | exclusive hf hl =>
      refine ⟨.exclusive hf fun b hb => ?_, id⟩
      rw [live_set_of_eq ht, hl b hb]
      rfl
  | freeze =>
    cases hfit with
    | begin => exact ⟨.frozen fun b hb => Finset.mem_union_right _ (mem_toFinset.mpr hb), id⟩
  | drain =>
    cases hfit with
    | frozen hf => exact ⟨.draining hf, fun _ => rfl⟩
  | unfreeze =>
    cases hfit with
    | exclusive hf hl => exact ⟨.bumping, fun h => by cases h⟩
  | bump =>
    cases hfit with
    | bumping => exact ⟨.idle, fun h => by cases h⟩

/-- The invariant of runs with one migration at a time. -/
structure Orderly (s : GateSys) : Prop where
  counted : s.Counted
  fits : ∀ {i : ℕ} {t}, s.tasks[i]? = some t → Fits s t
  single : ∀ {i j : ℕ} {t u}, s.tasks[i]? = some t → s.tasks[j]? = some u → t.migrates = true →
    u.migrates = true → i = j

theorem orderly_new : new.Orderly where
  counted := counted_new
  fits h := by cases h
  single h := by cases h

/-- A task moves to a place that it fits, and opens nothing unless it is the migration. -/
theorem Orderly.set (ho : s.Orderly) (ht : s.tasks[i]? = some t)
    (hc : Counted ⟨g, v, s.tasks.set i t'⟩) (hfit : Fits ⟨g, v, s.tasks.set i t'⟩ t')
    (hmig : t'.migrates = true → t.migrates = true)
    (hshut : t.migrates = false → Shut s ⟨g, v, s.tasks.set i t'⟩) :
    Orderly ⟨g, v, s.tasks.set i t'⟩ := by
  refine ⟨hc, fun {j u} hu => ?_, fun {j k u w} hu hw hmu hmw => ?_⟩
  · obtain ⟨-, rfl⟩ | ⟨hji, hu'⟩ := getElem?_set_cases hu
    · exact hfit
    · cases hmu : u.migrates with
      | false => exact (ho.fits hu').of_not_migrates hmu _
      | true =>
        refine (ho.fits hu').mono (hshut (Bool.eq_false_iff.mpr fun hmt => ?_))
        exact hji (ho.single hu' ht hmu hmt)
  · obtain ⟨hj, hut⟩ | ⟨-, hu'⟩ := getElem?_set_cases hu <;>
      obtain ⟨hk, hwt⟩ | ⟨-, hw'⟩ := getElem?_set_cases hw
    · rw [hj, hk]
    · exact hj ▸ ho.single ht hw' (hmig (hut ▸ hmu)) hmw
    · exact hk ▸ ho.single hu' ht hmu (hmig (hwt ▸ hmw))
    · exact ho.single hu' hw' hmu hmw

theorem Orderly.moves (ho : s.Orderly) (ht : s.tasks[i]? = some t) (hm : t.Moves s g v t') :
    Orderly ⟨g, v, s.tasks.set i t'⟩ := by
  obtain ⟨hfit, hmig⟩ := (ho.fits ht).moves ho.counted ht hm
  refine ho.set ht (ho.counted.moves ht hm) hfit hmig fun hmt b hb => ?_
  refine ⟨frozen_moves hm ?_ hb, live_moves ht hm hb⟩
  rintro bs rest rfl
  simp [Task.migrates] at hmt

/-- A task that is added does not change how far the others are. -/
theorem Orderly.append (ho : s.Orderly) (hold : ∀ b, t.holds b = false) (hfit : Fits s t)
    (hmig : t.migrates = true → ∀ u ∈ s.tasks, u.migrates = false) :
    Orderly { s with tasks := s.tasks ++ [t] } := by
  have hshut : Shut s { s with tasks := s.tasks ++ [t] } := fun b hb =>
    ⟨hb, fun h0 => (live_append (hold b)).trans h0⟩
  have hcases : ∀ {j : ℕ} {u}, (s.tasks ++ [t])[j]? = some u →
      s.tasks[j]? = some u ∨ (j = s.tasks.length ∧ u = t) := fun {j u} hu => by
    rw [getElem?_append] at hu
    split_ifs at hu with hj
    · exact .inl hu
    · obtain ⟨hlt, rfl⟩ := List.getElem?_eq_some_iff.mp hu
      simp only [List.length_singleton] at hlt
      exact .inr ⟨by omega, by simp⟩
  refine ⟨fun b => (ho.counted b).trans (congrArg entry (live_append (hold b)).symm),
    fun {j u} hu => ?_, fun {j k u w} hu hw hmu hmw => ?_⟩
  · obtain hu' | ⟨-, rfl⟩ := hcases hu
    · exact (ho.fits hu').mono hshut
    · exact hfit.mono hshut
  · obtain hu' | ⟨hj, hut⟩ := hcases hu <;> obtain hw' | ⟨hk, hwt⟩ := hcases hw
    · exact ho.single hu' hw' hmu hmw
    · rw [hmig (hwt ▸ hmw) u (mem_of_getElem? hu')] at hmu
      cases hmu
    · rw [hmig (hut ▸ hmu) w (mem_of_getElem? hw')] at hmw
      cases hmw
    · rw [hj, hk]

theorem Orderly.step (ho : s.Orderly) (hok : s.oneMigration l = true) (h : s.step l = some s') :
    s'.Orderly := by
  obtain ⟨b, -, rfl⟩ | ⟨cs, rfl, rfl⟩ | ⟨i, t, t', g, v, -, ht, hm, rfl⟩ | ⟨i, t, -, ht, hcan, rfl⟩ :=
    step_cases h
  · exact ho.append (fun _ => rfl) .entering fun h => by cases h
  · unfold oneMigration at hok
    split at hok
    next c c' c'' heq =>
      cases heq
      obtain ⟨rfl, rfl, hidle⟩ := of_decide_eq_true hok
      exact ho.append (fun _ => rfl) .begin fun _ => hidle
    next => cases hok
    next hne => exact absurd rfl (hne cs)
  · exact ho.moves ht hm
  · have hlive := live_cancel ht hcan
    exact ho.set ht (ho.counted.step h) .idle (fun h => by cases h) fun _ b hb =>
      ⟨hb, fun h0 => (hlive b).trans h0⟩

/-- **A migration has its chunk to itself.**  When migrations run one at a time, the entry of a bucket
in `in_flight` is the number of its live tokens, so no decrement underflows; and from the return of
`drain` to `unfreeze` no token of the chunk is live and none can be taken. -/
theorem gate_exclusive {ls : List GateLabel} {s : GateSys}
    (h : exec (guarded step fun s l => s.oneMigration l = true) new ls = some s) :
    (∀ b, s.gate.inFlight b = if s.live b = 0 then none else some (s.live b)) ∧
    (∀ (i b : ℕ), s.tasks[i]? = some (.holding b false) →
      (∃ n, s.gate.inFlight b = some (n + 1)) ∧ (s.gate.leave b).isSome) ∧
    ∀ (i : ℕ) (c : List ℕ) (rx : Bool), s.tasks[i]? = some (.calling [.unfreeze c] rx) → ∀ b ∈ c,
      s.live b = 0 ∧ ∀ l s', s.step l = some s' → s'.live b = 0 := by
  have ho : s.Orderly := exec_guarded_invariant (fun _ _ _ ho => ho.step) orderly_new h
  refine ⟨ho.counted, fun i b hi => ?_, fun i c rx hi b hb => ?_⟩
  · have hpos := live_pos hi
    obtain ⟨g, hg, -⟩ := ho.counted.leave hpos
    refine ⟨⟨s.live b - 1, ?_⟩, by rw [hg]; rfl⟩
    rw [ho.counted b, entry, if_neg (by omega), Nat.sub_add_cancel hpos]
  · cases ho.fits hi with
    | exclusive hf hl => exact ⟨hl b hb, fun l s' hs => live_step (hf b hb) (hl b hb) hs⟩

/-- An operation is in bucket 3 when a migration freezes it, and another one comes before it has left.
The migration is through its `drain` at the end. -/
def drainedRun : List GateLabel :=
  [.op 3, .move 0, .move 0, .move 0, .calls (migration [3, 4]), .move 1, .move 1, .move 1, .move 1,
    .op 3, .move 2, .move 2, .move 0, .move 0, .move 1, .move 1, .move 1, .move 1]

theorem gate_exclusive_drained :
    ∃ s, exec (guarded step fun s l => s.oneMigration l = true) new drainedRun = some s ∧
      s.tasks = [.calling [] false, .calling [.unfreeze [3, 4]] true, .entering 3 (.parked 0)] ∧
      s.live 3 = 0 := by
  obtain ⟨s, hs, ht⟩ : ∃ s, exec (guarded step fun s l => s.oneMigration l = true) new drainedRun
      = some s ∧ s.tasks
      = [.calling [] false, .calling [.unfreeze [3, 4]] true, .entering 3 (.parked 0)] :=
    map_eq_some_iff.mp (by decide)
  exact ⟨s, hs, ht, ((gate_exclusive hs).2.2 1 [3, 4] true (by rw [ht]; rfl) 3 (by decide)).1⟩

/-! ### Wake-ups -/

end GateSys

namespace Task

/-- The loop that the task is in. -/
def wait : Task → Option Wait
  | .entering _ w => some w
  | .draining _ w _ => some w
  | _ => none

/-- The loop of the task has to go on. -/
def blocked (g : GateState) : Task → Prop
  | .entering b _ => b ∈ g.frozen
  | .draining bs _ _ => ¬g.drained bs
  | _ => False

end Task

theorem Wait.move_eq_some {ready : Prop} [Decidable ready] {w w' : Wait}
    (h : w.move version ready = some (some w')) :
    (w = .start ∧ w' = .subscribed version) ∨
    (∃ seen, w = .subscribed seen ∧ ¬ready ∧ w' = .parked seen) ∨ w' = .woken ∨ w' = .start := by
  cases w with
  | start =>
    cases h
    exact .inl ⟨rfl, rfl⟩
  | subscribed seen =>
    by_cases hr : ready
    · simp [Wait.move, hr] at h
    · have hw' : .parked seen = w' := by simpa [Wait.move, hr] using h
      exact .inr (.inl ⟨seen, rfl, hr, hw'.symm⟩)
  | parked seen =>
    by_cases hv : seen = version
    · simp [Wait.move, hv] at h
    · have hw' : .woken = w' := by simpa [Wait.move, hv] using h
      exact .inr (.inr (.inl hw'.symm))
  | woken =>
    cases h
    exact .inr (.inr (.inr rfl))

namespace GateSys

/-- Some `leave` or `unfreeze` stands before its `bump`. -/
def Bumping (s : GateSys) : Prop := ∃ rest, Task.bumping rest ∈ s.tasks

/-- A task has seen no version from the future; if it is parked it is blocked, or it has a version to
see, or a `bump` is still to come. -/
structure Awake (s : GateSys) (t : Task) : Prop where
  subscribed : ∀ seen, t.wait = some (.subscribed seen) → seen ≤ s.version
  parked : ∀ seen, t.wait = some (.parked seen) →
    seen ≤ s.version ∧ (t.blocked s.gate ∨ seen < s.version ∨ s.Bumping)

variable {s : GateSys} {t : Task} {g : GateState} {v seen i : ℕ} {l : GateLabel}
  {ls : List GateLabel}

/-- A task that has not subscribed, or has been woken. -/
theorem Awake.of_wait (h : t.wait ∈ [none, some .start, some .woken]) : s.Awake t := by
  refine ⟨fun seen hs => ?_, fun seen hs => ?_⟩ <;> simp [hs] at h

variable {s' : GateSys} {t' : Task}

/-- The task that goes through its loop. -/
theorem Awake.loop {w w' : Wait} {ready : Prop} [Decidable ready] (ha : s.Awake t)
    (hv : s'.version = s.version) (ht : t.wait = some w) (ht' : t'.wait = some w')
    (h : w.move s.version ready = some (some w')) (hb : ¬ready → t'.blocked s'.gate) :
    s'.Awake t' := by
  obtain ⟨rfl, rfl⟩ | ⟨seen, rfl, hr, rfl⟩ | rfl | rfl := Wait.move_eq_some h
  · refine ⟨fun seen hs => ?_, fun seen hs => ?_⟩
    · cases ht'.symm.trans hs
      exact hv.ge
    · cases ht'.symm.trans hs
  · refine ⟨fun seen hs => ?_, fun seen' hs => ?_⟩
    · cases ht'.symm.trans hs
    · cases ht'.symm.trans hs
      exact ⟨hv ▸ ha.subscribed seen ht, .inl (hb hr)⟩
  · exact .of_wait (by simp [ht'])
  · exact .of_wait (by simp [ht'])

/-- What the step of a task means for the others that wait: nothing that blocks them goes away; or a
`bump` is to come; or this is the `bump`. -/
theorem moves_signal (hm : t.Moves s g v t') :
    (v = s.version ∧ (∀ u : Task, u.blocked s.gate → u.blocked g) ∧ ∀ rest, t ≠ .bumping rest) ∨
    (v = s.version ∧ ∃ rest, t' = .bumping rest) ∨ (v = s.sent ∧ g = s.gate) := by
  cases hm with
  | @enter b _ hb =>
    refine .inl ⟨rfl, fun u hu => ?_, fun rest h => by cases h⟩
    cases u with
    | draining bs w rest =>
      refine fun hd => hu fun b' hb' => ?_
      have h0 : (update s.gate.inFlight b _ b').getD 0 = 0 := hd b' hb'
      by_cases hbb : b' = b
      · rw [hbb, update_self] at h0
        cases h0
      · rwa [update_of_ne hbb] at h0
    | _ => exact hu
  | freeze =>
    refine .inl ⟨rfl, fun u hu => ?_, fun rest h => by cases h⟩
    cases u with
    | entering b w => exact Finset.mem_union_left _ hu
    | _ => exact hu
  | leave h | unfreeze => exact .inr (.inl ⟨rfl, _, rfl⟩)
  | bump => exact .inr (.inr ⟨rfl, rfl⟩)
  | _ => exact .inl ⟨rfl, fun u hu => hu, fun rest h => by cases h⟩

/-- A parked task has a receiver, so a `send` reaches it. -/
theorem sent_of_parked (ht : t ∈ s.tasks) (hw : t.wait = some (.parked seen)) :
    s.sent = s.version + 1 := by
  have hrx : t.receiver = true := by
    cases t with
    | entering b w | draining bs w rest =>
      cases hw
      rfl
    | _ => cases hw
  exact if_pos (any_eq_true.mpr ⟨t, ht, hrx⟩)

theorem version_le_sent (s : GateSys) : s.version ≤ s.sent := by
  unfold sent
  split_ifs <;> omega

/-- A task stays in the table while another one moves. -/
theorem mem_set_of_ne {tasks : List Task} {u : Task} (ht : tasks[i]? = some t) (hu : u ∈ tasks)
    (hne : u ≠ t) (t' : Task) : u ∈ tasks.set i t' := by
  obtain ⟨j, hj⟩ := mem_iff_getElem?.mp hu
  have hij : i ≠ j := by
    rintro rfl
    exact hne (some.inj (hj.symm.trans ht))
  exact mem_iff_getElem?.mpr ⟨j, by rw [getElem?_set_ne hij, hj]⟩

/-- The other tasks stay awake. -/
theorem Awake.moves {u : Task} (ha : s.Awake u) (hu : u ∈ s.tasks) (ht : s.tasks[i]? = some t)
    (hm : t.Moves s g v t') : Awake ⟨g, v, s.tasks.set i t'⟩ u := by
  obtain ⟨rfl, hbl, hnb⟩ | ⟨rfl, rest, rfl⟩ | ⟨rfl, rfl⟩ := moves_signal hm
  · refine ⟨ha.subscribed, fun seen hs => ⟨(ha.parked seen hs).1, ?_⟩⟩
    obtain hb | hv | ⟨rest, hr⟩ := (ha.parked seen hs).2
    · exact .inl (hbl u hb)
    · exact .inr (.inl hv)
    · exact .inr (.inr ⟨rest, mem_set_of_ne ht hr (fun h => hnb rest h.symm) t'⟩)
  · refine ⟨ha.subscribed, fun seen hs => ⟨(ha.parked seen hs).1, .inr (.inr ⟨rest, ?_⟩)⟩⟩
    exact List.mem_set (List.getElem?_eq_some_iff.mp ht).1 _
  · refine ⟨fun seen hs => (ha.subscribed seen hs).trans s.version_le_sent, fun seen hs => ?_⟩
    have hlt : seen < s.sent := by
      rw [sent_of_parked hu hs]
      exact Nat.lt_succ_of_le (ha.parked seen hs).1
    exact ⟨hlt.le, .inr (.inl hlt)⟩

/-- So does the one that moves. -/
theorem Awake.moved (ha : s.Awake t) (hm : t.Moves s g v t') :
    Awake ⟨g, v, s.tasks.set i t'⟩ t' := by
  cases hm with
  | wait h => exact ha.loop rfl rfl rfl h not_not.mp
  | drainWait h => exact ha.loop rfl rfl rfl h id
  | _ => exact .of_wait (by simp [Task.wait])

theorem awake_append (ha : ∀ u ∈ s.tasks, s.Awake u)
    (ht : t.wait ∈ [none, some .start, some .woken]) :
    ∀ u ∈ s.tasks ++ [t], Awake { s with tasks := s.tasks ++ [t] } u := by
  intro u hu
  obtain hu | hu := mem_append.mp hu
  · refine ⟨(ha u hu).subscribed, fun seen hs => ((ha u hu).parked seen hs).imp_right ?_⟩
    refine Or.imp_right (Or.imp_right ?_)
    rintro ⟨rest, hr⟩
    exact ⟨rest, mem_append_left _ hr⟩
  · rw [mem_singleton.mp hu]
    exact .of_wait ht

theorem awake_step (ha : ∀ t ∈ s.tasks, s.Awake t) (h : s.step l = some s') :
    ∀ t ∈ s'.tasks, s'.Awake t := by
  obtain ⟨b, -, rfl⟩ | ⟨cs, -, rfl⟩ | ⟨i, t, t', g, v, -, ht, hm, rfl⟩ | ⟨i, t, -, ht, hcan, rfl⟩ :=
    step_cases h
  · exact awake_append ha (by simp [Task.wait])
  · exact awake_append ha (by simp [Task.wait])
  · intro u hu
    obtain hu | rfl := mem_or_eq_of_mem_set hu
    · exact (ha u hu).moves hu ht hm
    · exact (ha t (mem_of_getElem? ht)).moved hm
  · intro u hu
    obtain hu | rfl := mem_or_eq_of_mem_set hu
    · refine ⟨(ha u hu).subscribed, fun seen hs => ((ha u hu).parked seen hs).imp_right ?_⟩
      refine Or.imp_right (Or.imp_right ?_)
      rintro ⟨rest, hr⟩
      exact ⟨rest, mem_set_of_ne ht hr (by rintro rfl; cases hcan) _⟩
    · exact .of_wait (by simp [Task.wait])

/-- When no `bump` is to come, a parked task is blocked or has a version to see. -/
theorem blocked_or_unseen (h : exec step new ls = some s)
    (hbump : ∀ rest, Task.bumping rest ∉ s.tasks) (ht : t ∈ s.tasks)
    (hw : t.wait = some (.parked seen)) : t.blocked s.gate ∨ seen ≠ s.version := by
  have hinit : ∀ u ∈ new.tasks, new.Awake u := fun u hu => by cases hu
  have ha := exec_invariant (I := fun s => ∀ t ∈ s.tasks, s.Awake t)
    (fun _ _ _ ha hs => awake_step ha hs) hinit h
  obtain hb | hlt | ⟨rest, hr⟩ := ((ha t ht).parked seen hw).2
  · exact .inl hb
  · exact .inr hlt.ne
  · exact absurd hr (hbump rest)

/-- **No wake-up is lost.**  When no `leave` or `unfreeze` stands before its `bump`, a task that is
parked in `enter` finds its bucket frozen or has an unseen version, and a task that is parked in
`drain` finds a bucket of the chunk in flight or has an unseen version. -/
theorem gate_no_lost_wakeup {ls : List GateLabel} {s : GateSys} (h : exec step new ls = some s)
    (hbump : ∀ rest, Task.bumping rest ∉ s.tasks) :
    (∀ b seen, Task.entering b (.parked seen) ∈ s.tasks → b ∈ s.gate.frozen ∨ seen ≠ s.version) ∧
    ∀ bs seen rest, Task.draining bs (.parked seen) rest ∈ s.tasks →
      (∃ b ∈ bs, (s.gate.inFlight b).getD 0 ≠ 0) ∨ seen ≠ s.version := by
  refine ⟨fun b seen ht => ?_, fun bs seen rest ht => ?_⟩
  · exact (blocked_or_unseen h hbump ht rfl)
  · refine (blocked_or_unseen h hbump ht rfl).imp_left fun hb => ?_
    simpa [Task.blocked, GateState.drained] using hb

/-- In the run above the entrant that came late waits for bucket 3, and no `bump` is to come. -/
theorem gate_no_lost_wakeup_drained :
    ∃ s, exec step new drainedRun = some s ∧ (∀ rest, Task.bumping rest ∉ s.tasks) ∧
      Task.entering 3 (.parked 0) ∈ s.tasks ∧ (3 ∈ s.gate.frozen ∨ 0 ≠ s.version) := by
  obtain ⟨s, hs, ht⟩ : ∃ s, exec step new drainedRun = some s ∧ s.tasks
      = [.calling [] false, .calling [.unfreeze [3, 4]] true, .entering 3 (.parked 0)] :=
    map_eq_some_iff.mp (by decide)
  have hbump : ∀ rest, Task.bumping rest ∉ s.tasks := by simp [ht]
  have hmem : Task.entering 3 (.parked 0) ∈ s.tasks := by simp [ht]
  exact ⟨s, hs, hbump, hmem, (gate_no_lost_wakeup hs hbump).1 3 0 hmem⟩

/-! ### The gate of the callers -/

end GateSys

/-- What callers see happen at the gate of `Guard`. -/
inductive GateAct where
  | enter (b : ℕ)
  | leave (b : ℕ)
  | freeze (bs : List ℕ)
  | drain (bs : List ℕ)
  | unfreeze (bs : List ℕ)
deriving DecidableEq

/-- The gate of `Guard` as a machine.  A bucket is entered when it is not frozen and left by somebody
who is in it; `drain` returns when nobody is in the chunk. -/
def Gates.act (g : Gates) : GateAct → Option Gates
  | .enter b => if g.canEnter b then some (g.enter b) else none
  | .leave b => if 0 < g.inFlight b then some (g.leave b) else none
  | .freeze bs => some (g.freeze bs)
  | .drain bs => if g.drained bs then some g else none
  | .unfreeze bs => some (g.unfreeze bs)

/-- What callers see of a move, by where it takes the task. -/
def Task.act : Task → Task → Option GateAct
  | .entering b _, .holding _ _ => some (.enter b)
  | .holding b false, _ => some (.leave b)
  | .calling (.freeze bs :: _) false, _ => some (.freeze bs)
  | .draining bs _ _, .calling _ _ => some (.drain bs)
  | .calling (.unfreeze bs :: _) false, _ => some (.unfreeze bs)
  | _, _ => none

namespace GateSys

def act (s s' : GateSys) : GateLabel → Option GateAct
  | .move i => s.tasks[i]?.bind fun t => s'.tasks[i]?.bind t.act
  | _ => none

/-- What callers see of a run. -/
def acts : GateSys → List GateLabel → List GateAct
  | _, [] => []
  | s, l :: ls => ((s.step l).map fun s' => (s.act s' l).toList ++ acts s' ls).getD []

variable {s s' : GateSys} {l : GateLabel} {i : ℕ} {t t' : Task} {b : ℕ} {g : GateState} {v : ℕ}

/-- Who leaves is in the bucket. -/
theorem toGates_leave {rx : Bool} (hc : s.Counted) (ht : s.tasks[i]? = some (.holding b rx))
    (h : s.gate.leave b = some g) :
    s.gate.toGates.act (.leave b) = some g.toGates := by
  obtain ⟨g', hg, hin⟩ := hc.leave (live_pos ht)
  obtain rfl := some.inj (hg.symm.trans h)
  have hcount : ∀ b', (s.gate.inFlight b').getD 0 = s.live b' := fun b' => by rw [hc, getD_entry]
  have hpos : 0 < s.gate.toGates.inFlight b := (live_pos ht).trans_eq (hcount b).symm
  rw [Gates.act, if_pos hpos]
  unfold GateState.toGates Gates.leave
  rw [GateState.frozen_leave h]
  congr 2
  funext b'
  by_cases hbb : b' = b
  · rw [hbb, update_self, hin, getD_entry, if_pos rfl]
    exact congrArg (· - 1) (hcount b)
  · rw [update_of_ne hbb, hin, getD_entry, if_neg (Ne.symm hbb)]
    exact hcount b'

theorem toGates_enter (g : GateState) (b : ℕ) : (g.enter b).toGates = g.toGates.enter b := by
  unfold GateState.toGates Gates.enter
  congr 1
  funext b'
  by_cases hbb : b' = b
  · subst hbb
    simp [GateState.enter]
  · simp [GateState.enter, hbb]

/-- What callers see of a move is a step of `Guard`, and otherwise they see none. -/
theorem act_moves (hc : s.Counted) (ht : s.tasks[i]? = some t) (hm : t.Moves s g v t') :
    exec Gates.act s.gate.toGates (t.act t').toList = some g.toGates := by
  cases hm with
  | @enter b _ hb =>
    have hcan : s.gate.toGates.canEnter b := hb
    simp [Task.act, exec_cons, Gates.act, hcan, toGates_enter]
  | leave hl => simp [Task.act, exec_cons, toGates_leave hc ht hl]
  | @drained bs _ _ hbs =>
    have hdrained : s.gate.toGates.drained bs := hbs
    simp [Task.act, exec_cons, Gates.act, hdrained]
  | settle => simp [Task.act]
  | _ => rfl

theorem act_step (hc : s.Counted) (h : s.step l = some s') :
    exec Gates.act s.gate.toGates (s.act s' l).toList = some s'.gate.toGates := by
  obtain ⟨b, rfl, rfl⟩ | ⟨cs, rfl, rfl⟩ | ⟨i, t, t', g, v, rfl, ht, hm, rfl⟩ |
    ⟨i, t, rfl, ht, hcan, rfl⟩ := step_cases h
  · rfl
  · rfl
  · have hafter : (s.tasks.set i t')[i]? = some t' :=
      getElem?_set_self (List.getElem?_eq_some_iff.mp ht).1
    simp only [act, ht, hafter, bind_some]
    exact act_moves hc ht hm
  · rfl

/-- **The tasks work on the gate of `Guard`**: however they interleave and are dropped, what callers
see of a run is a run of the gate, which ends where the tasks leave it.  So a bucket is entered only
while it is not frozen, and `drain` returns only when nobody is in the chunk. -/
theorem gate_refines {ls : List GateLabel} {s : GateSys} (h : exec step new ls = some s) :
    exec Gates.act Gates.new (acts new ls) = some s.gate.toGates := by
  suffices hrun : ∀ {s₀ : GateSys}, s₀.Counted → exec step s₀ ls = some s →
      exec Gates.act s₀.gate.toGates (s₀.acts ls) = some s.gate.toGates from hrun counted_new h
  clear h
  induction ls with
  | nil =>
    rintro s₀ - h
    obtain rfl := some.inj h
    rfl
  | cons l ls ih =>
    intro s₀ hc h
    obtain ⟨s₁, hstep, hrest⟩ := bind_eq_some_iff.mp h
    rw [acts, hstep, map_some, getD_some, exec_append, act_step hc hstep, bind_some]
    exact ih (hc.step hstep) hrest

/-- In the run above bucket 3 is entered once and left before the chunk is drained. -/
theorem gate_refines_drained : ∃ s, exec step new drainedRun = some s ∧
    acts new drainedRun = [.enter 3, .freeze [3, 4], .leave 3, .drain [3, 4]] ∧
    exec Gates.act Gates.new (acts new drainedRun) = some s.gate.toGates := by
  obtain ⟨s, hs⟩ : ∃ s, exec step new drainedRun = some s := isSome_iff_exists.mp (by decide)
  exact ⟨s, hs, by decide, gate_refines hs⟩

end GateSys

end Stplr
