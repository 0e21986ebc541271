import Stplr.Equiv.Migration

/-!
# The steps of a migration and the run in one go

`finish net w m` is what is left to do for a migration in any phase, computed in one go.  A step of
the migration does not change it (`finish_step`), and every migration that nothing else disturbs
runs to its end (`exists_finished`), so the steps of `run_migration` compute `runMigration`.
-/

namespace Stplr

open List MigPhase

variable {St : Type} [IndexStore St]

def CopyJob.run (net : MigCall → Outcome) (w : World St) : CopyJob → World St
  | .pair src dst bs => copyPair net w src dst bs
  | .transfer src dst bs i coll => copyColl net src dst bs w (coll, i)
  | .deliver src dst bs i coll es => importCall net w src dst bs i coll es

def DropJob.run (net : MigCall → Outcome) (w : World St) : DropJob → World St
  | .node n bs => dropNode net w n bs
  | .drop n bs i coll => (dropCall net w n bs i coll).1

namespace Migration

/-- The end of a chunk from its drops on. -/
def finishDrop (net : MigCall → Outcome) (m : Migration) (ch : List ℕ) (w : World St)
    (jobs : List DropJob) : World St × Finset ℕ :=
  let w := jobs.foldl (DropJob.run net) w
  let w := w.setCluster (w.cluster.unfreeze ch)
  let done := m.done ∪ ch.toFinset
  (w.setCluster (w.cluster.saveRecord m.old m.new done), done)

/-- The end of a chunk from its copies on. -/
def finishCopy (net : MigCall → Outcome) (m : Migration) (ch : List ℕ) (w : World St)
    (jobs : List CopyJob) : World St × Finset ℕ :=
  let w := jobs.foldl (CopyJob.run net) w
  m.finishDrop net ch (w.setCluster (w.cluster.cutover ch)) (dropJobs m.actions ch)

/-- How many chunks of `todo` a migration will still run. -/
def budget (m : Migration) (todo : List (List ℕ)) : ℕ := match m.stopAfter with
  | some max => max - m.index
  | none => todo.length

/-- The remaining chunks and, if the migration is not to stop before the last one, the commit. -/
def finishLoop (net : MigCall → Outcome) (m : Migration) (s : World St × Finset ℕ) : World St :=
  let s := (m.todo.take (m.budget m.todo)).foldl (runChunk net m.old m.new m.actions) s
  if m.budget m.todo < m.todo.length then s.1
  else s.1.setCluster ((s.1.cluster.commit m.new).removeOverlay)

/-- The rest of a migration in one go. -/
def finish (net : MigCall → Outcome) (w : World St) (m : Migration) : World St := match m.phase with
  | .locked =>
    match m.stopAfter with
    | some max => runMigrationPartial net w m.old m.new m.done (max - m.index)
    | none => runMigration net w m.old m.new m.done
  | .planned =>
    m.finishLoop net (w.setCluster (w.cluster.saveRecord m.old m.new m.done), m.done)
  | .looping => m.finishLoop net (w, m.done)
  | .draining ch => m.finishLoop net (m.finishCopy net ch w (copyJobs m.actions ch))
  | .copying ch jobs => m.finishLoop net (m.finishCopy net ch w jobs)
  | .dropping ch jobs => m.finishLoop net (m.finishDrop net ch w jobs)
  | .thawed ch =>
    m.finishLoop net (w.setCluster (w.cluster.saveRecord m.old m.new (m.done ∪ ch.toFinset)),
      m.done ∪ ch.toFinset)
  | .committing steps => w.setCluster (steps.foldl (fun c s => s.exec c m.new) w.cluster)
  | .finished => w

variable {net : MigCall → Outcome} {w : World St} {m : Migration}

/-- From the lock on, what is left is the whole run. -/
theorem finish_start (net : MigCall → Outcome) (w : World St) (old new : List NodeId)
    (done : Finset ℕ) :
    finish net w (start old new done none) = runMigration net w old new done := by
  rw [finish, start]

theorem finish_start_some (net : MigCall → Outcome) (w : World St) (old new : List NodeId)
    (done : Finset ℕ) (max : ℕ) :
    finish net w (start old new done (some max)) = runMigrationPartial net w old new done max := rfl

theorem budget_of_not_stopped {ch : List ℕ} {todo : List (List ℕ)} {m m' : Migration}
    (hstop : ¬m.stopAfter.any (· ≤ m.index) = true) (hs : m'.stopAfter = m.stopAfter)
    (hi : m'.index = m.index + 1) : m.budget (ch :: todo) = m'.budget todo + 1 := by
  rw [budget, budget, hs]
  cases hmax : m.stopAfter with
  | none => rfl
  | some max =>
    rw [hmax] at hstop
    simp only [Option.any_some, decide_eq_true_eq] at hstop
    dsimp only
    omega

theorem budget_of_stopped {todo : List (List ℕ)}
    (hstop : m.stopAfter.any (· ≤ m.index) = true) : m.budget todo = 0 := by
  rw [budget]
  cases hmax : m.stopAfter with
  | none => rw [hmax] at hstop; cases hstop
  | some max =>
    rw [hmax] at hstop
    simp only [Option.any_some, decide_eq_true_eq] at hstop
    dsimp only
    omega

theorem runChunk_eq (net : MigCall → Outcome) (m : Migration) (w : World St) (ch : List ℕ) :
    runChunk net m.old m.new m.actions (w, m.done) ch
      = m.finishCopy net ch (w.setCluster (w.cluster.freeze ch)) (copyJobs m.actions ch) := by
  rw [runChunk, finishCopy, finishDrop, copyJobs, dropJobs, foldl_map, foldl_map]
  rfl

/-- A job that is replaced by its parts, if its nodes have clients. -/
theorem foldl_expand {α β γ : Type*} (f : β → α → β) (g : γ → α) {p : Prop} [Decidable p]
    (parts : List γ) (jobs : List α) (s : β) :
    ((if p then parts.map g else []) ++ jobs).foldl f s
      = jobs.foldl f (if p then parts.foldl (fun s x => f s (g x)) s else s) := by
  rw [foldl_append]
  split_ifs
  · rw [foldl_map]
  · rfl

theorem foldl_deliveries (src dst : NodeId) (bs : List ℕ) (i : ℕ) (coll : String) (w : World St)
    (jobs : List CopyJob) :
    ((if exportCall net w src dst bs i coll = [] then []
        else [CopyJob.deliver src dst bs i coll (exportCall net w src dst bs i coll)])
      ++ jobs).foldl (CopyJob.run net) w
      = jobs.foldl (CopyJob.run net) (copyColl net src dst bs w (coll, i)) := by
  rw [foldl_append]
  congr 1
  unfold copyColl
  dsimp only
  split_ifs <;> rfl

/-- A step does not change what the migration will have done. -/
theorem finish_step {r : World St × Migration} (hs : m.Trans net w r) :
    finish net r.1 r.2 = finish net w m := by
  cases hs with
  | same hp hsame =>
    conv_rhs => rw [finish, hp]; dsimp only
    cases m.stopAfter with
    | none =>
      dsimp only
      rw [runMigration, if_pos hsame]
      rfl
    | some max =>
      dsimp only
      rw [runMigrationPartial, if_pos hsame]
      rfl
  | plan hp hdiff hplan hacts =>
    conv_rhs => rw [finish, hp]; dsimp only
    rw [finish, finishLoop, budget]
    cases m.stopAfter with
    | none =>
      dsimp only
      rw [runMigration, if_neg hdiff]
      dsimp only
      rw [hplan, hacts, take_length, if_neg (lt_irrefl _)]
      rfl
    | some max =>
      dsimp only
      rw [runMigrationPartial, if_neg hdiff]
      dsimp only
      rw [hplan, hacts]
      rfl
  | last hp htodo =>
    rw [finish, finish, hp]
    dsimp only
    rw [finishLoop, htodo, take_nil, if_neg (by simp), foldl_append]
    rfl
  | stop hp htodo hstop =>
    rw [finish, finish, hp]
    dsimp only
    rw [finishLoop, htodo, budget_of_stopped hstop, if_pos (by simp)]
    rfl
  | @freeze ch todo hp htodo hgo =>
    have hb := @budget_of_not_stopped ch todo m
      { m with todo, index := m.index + 1, phase := .draining ch } hgo rfl rfl
    conv_rhs => rw [finish, hp]; dsimp only; rw [finishLoop, htodo, hb, take_succ_cons]
    rw [foldl_cons, runChunk_eq, length_cons]
    simp only [Nat.add_lt_add_iff_right]
    rfl
  | pair hp =>
    conv_rhs => rw [finish, hp]; dsimp only; rw [finishCopy]
    rw [copyStep, finish]
    dsimp only
    rw [finishCopy, foldl_expand]
    rfl
  | transfer hp =>
    conv_rhs => rw [finish, hp]; dsimp only; rw [finishCopy]
    rw [copyStep, finish]
    dsimp only
    rw [finishCopy, foldl_deliveries]
    rfl
  | node hp =>
    conv_rhs => rw [finish, hp]; dsimp only; rw [finishDrop]
    rw [dropStep, finish]
    dsimp only
    rw [finishDrop, foldl_expand]
    rfl
  | _ hp =>
    rw [finish, finish, hp]
    rfl

end Migration

/-! ### Every migration ends -/

namespace MigPhase

/-- The phases of a chunk in their order, backwards. -/
def rank : MigPhase → ℕ
  | .locked | .planned => 7
  | .draining _ => 6
  | .copying _ _ => 5
  | .dropping _ _ => 4
  | .thawed _ => 3
  | .looping => 2
  | .committing _ => 1
  | .finished => 0

/-- The steps left in the phase when there are `n` collections. -/
def work (n : ℕ) : MigPhase → ℕ
  | .copying _ jobs => (jobs.map fun
    | .pair .. => 2 * n + 1
    | .transfer .. => 2
    | .deliver .. => 1).sum
  | .dropping _ jobs => (jobs.map fun
    | .node .. => n + 1
    | .drop .. => 1).sum
  | .committing steps => steps.length
  | _ => 0

end MigPhase

namespace Migration

variable {net : MigCall → Outcome} {w : World St} {m : Migration} {r : World St × Migration}

/-- What is left of a migration that has its plan. -/
def left (n : ℕ) (m : Migration) : ℕ ×ₗ ℕ ×ₗ ℕ :=
  toLex (m.todo.length, toLex (m.phase.rank, m.phase.work n))

variable {n : ℕ} {m' : Migration}

theorem left_lt_of_todo (h : m'.todo.length < m.todo.length) : left n m' < left n m :=
  Prod.Lex.toLex_lt_toLex.mpr (.inl h)

theorem left_lt_of_rank (ht : m'.todo = m.todo) (h : m'.phase.rank < m.phase.rank) :
    left n m' < left n m :=
  Prod.Lex.toLex_lt_toLex.mpr (.inr ⟨congrArg length ht, Prod.Lex.toLex_lt_toLex.mpr (.inl h)⟩)

theorem left_lt_of_work (ht : m'.todo = m.todo) (hr : m'.phase.rank = m.phase.rank)
    (h : m'.phase.work n < m.phase.work n) : left n m' < left n m :=
  Prod.Lex.toLex_lt_toLex.mpr
    (.inr ⟨congrArg length ht, Prod.Lex.toLex_lt_toLex.mpr (.inr ⟨hr, h⟩)⟩)

/-- Every step after the plan makes progress. -/
theorem Trans.left_lt (hs : m.Trans net w r) (hp : m.phase ≠ .locked) :
    left w.cluster.colls.length r.2 < left w.cluster.colls.length m := by
  cases hs with
  | same hp' | plan hp' => exact absurd hp' hp
  | last hp' htodo => exact left_lt_of_rank rfl (by rw [hp']; simp [rank])
  | freeze hp' htodo => exact left_lt_of_todo (by rw [htodo]; simp)
  | pair hp' =>
    refine left_lt_of_work rfl (by rw [hp']; rfl) ?_
    rw [hp', copyStep]
    dsimp only
    split_ifs
    · simp [work, Function.comp_def]
      omega
    · simp [work]
  | transfer hp' =>
    refine left_lt_of_work rfl (by rw [hp']; rfl) ?_
    rw [hp', copyStep]
    dsimp only
    split_ifs <;> simp [work]
  | node hp' =>
    refine left_lt_of_work rfl (by rw [hp']; rfl) ?_
    rw [hp', dropStep]
    dsimp only
    split_ifs
    · simp [work, Function.comp_def]
    · simp [work]
  | deliver hp' | drop hp' | commit hp' =>
    exact left_lt_of_work rfl (by rw [hp']; rfl) (by rw [hp']; simp [work])
  | _ hp' => exact left_lt_of_rank rfl (by rw [hp']; simp [rank])

theorem Trans.colls_eq (hs : m.Trans net w r) : r.1.cluster.colls = w.cluster.colls := by
  cases hs with
  | deliver | drop => simp
  | @commit s => cases s <;> rfl
  | _ => rfl

theorem Trans.now_eq (hs : m.Trans net w r) : r.1.now = w.now := by
  cases hs with
  | deliver =>
    rw [importCall]
    split_ifs <;> rfl
  | drop =>
    rw [dropCall]
    dsimp only
    split_ifs <;> rfl
  | _ => rfl

/-- A migration goes on until it has finished, as long as no call is in flight. -/
theorem exists_step (net : MigCall → Outcome) (w : World St) (m : Migration)
    (hfree : ∀ b, w.cluster.gates.inFlight b = 0) (hp : m.phase ≠ .finished) :
    ∃ r, m.step net w = some r := by
  rw [step]
  split
  case h_4 ch _ => exact ⟨_, if_pos fun b _ => hfree b⟩
  case h_10 hfin => exact absurd hfin hp
  all_goals exact ⟨_, rfl⟩

/-- The steps of a migration when nothing else runs. -/
abbrev Steps (net : MigCall → Outcome) : World St × Migration → World St × Migration → Prop :=
  Relation.ReflTransGen fun a b => a.2.step net a.1 = some b

theorem exists_finished_of_planned (net : MigCall → Outcome) (w : World St) (m : Migration)
    (hfree : ∀ b, w.cluster.gates.inFlight b = 0) (hp : m.phase ≠ .locked) :
    ∃ r, Steps net (w, m) r ∧ r.2.phase = .finished := by
  -- by induction on what is left
  generalize hl : left w.cluster.colls.length m = l
  induction l using WellFoundedLT.induction generalizing w m with
  | ind l ih =>
    by_cases hfin : m.phase = .finished
    · exact ⟨(w, m), .refl, hfin⟩
    · obtain ⟨r, hr⟩ := exists_step net w m hfree hfin
      have hs := trans_of_step hr
      have hlt := hs.left_lt hp
      rw [hl, ← hs.colls_eq] at hlt
      obtain ⟨r', hr', hfin'⟩ :=
        ih _ hlt r.1 r.2 (fun b => by rw [Move.inFlight_step hs, hfree]) hs.not_locked rfl
      exact ⟨r', .head hr hr', hfin'⟩

/-- **A migration that nothing disturbs runs to its end**, and what it has done then is
`finish`. -/
theorem exists_finished (net : MigCall → Outcome) (w : World St) (m : Migration)
    (hfree : ∀ b, w.cluster.gates.inFlight b = 0) :
    ∃ m', Steps net (w, m) (finish net w m, m') ∧ m'.phase = .finished := by
  have hrun : ∃ r, Steps net (w, m) r ∧ r.2.phase = .finished := by
    by_cases hp : m.phase = .locked
    · obtain ⟨r, hr⟩ := exists_step net w m hfree (by rw [hp]; simp)
      have hs := trans_of_step hr
      obtain ⟨r', hr', hfin⟩ := exists_finished_of_planned net r.1 r.2
        (fun b => by rw [Move.inFlight_step hs, hfree]) hs.not_locked
      exact ⟨r', .head hr hr', hfin⟩
    · exact exists_finished_of_planned net w m hfree hp
  obtain ⟨r, hr, hfin⟩ := hrun
  have hkeep : finish net r.1 r.2 = finish net w m := by
    clear hfin
    induction hr with
    | refl => rfl
    | tail _ hs ih => exact (finish_step (trans_of_step hs)).trans ih
  refine ⟨r.2, ?_, hfin⟩
  rw [← hkeep, finish, hfin]
  exact hr

end Migration

end Stplr
