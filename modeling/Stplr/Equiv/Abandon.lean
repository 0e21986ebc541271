import Stplr.Equiv.Finish
import Stplr.Equiv.Rebalance

/-!
# A migration that is interrupted

The future of a migration can be dropped at an `await`, and its driver can stop it between two
chunks.  `Usable` says that the cluster stays usable afterwards: whenever no migration runs, no
bucket is frozen and every owner of a key holds the last value, whatever clients do in between and
whether the migration is resumed or not.  `usable_iff_not_insideChunk` characterises the interruptions
after which this holds: those outside a chunk.
-/

namespace Stplr

open Lib Move Migration

variable {St : Type} [IndexStore St]

/-- Whenever no migration runs, nothing is frozen and the owners of a key with no pending write
hold its last value. -/
def Usable (val : String → String → Option Value) (s₀ : System St) : Prop :=
  ∀ ls s, exec (guarded (System.step fun _ => .ok) System.Permits) s₀ ls = some s → s.idle = true →
    s.world.cluster.gates.frozen = ∅ ∧
    ∀ c ∈ s.world.cluster.colls, ∀ k, Settled s.trace c k → s.world.cluster.owners k ≠ [] ∧
      ∀ n ∈ s.world.cluster.owners k, s.world.cell c k n = lastValue val s.trace c k

/-- The migration of `s` is interrupted: it is dropped at an `await`, or it has been stopped. -/
def Interrupted (s s₀ : System St) (m : Migration) : Prop :=
  s.migration = some m ∧ ((∃ late, s.step (fun _ => .ok) (.abandon late) = some s₀) ∨
    (m.phase = .finished ∧ s₀ = s))

/-- Dropping the future changes the shards at most. -/
theorem abandon_eq_some {s s₀ : System St} {m : Migration} {net : MigCall → Outcome} {late : Bool}
    (hm : s.migration = some m) (h : s.step net (.abandon late) = some s₀) :
    s₀.migration = none ∧ s₀.world.cluster = s.world.cluster ∧
      (m.phase.insideChunk = false → m.phase = .locked ∧ s₀ = { s with migration := none }) := by
  rw [System.step, hm] at h
  dsimp only at h
  split_ifs at h with haw hlate
  · obtain rfl := Option.some.inj h
    refine ⟨rfl, ?_, fun hin => absurd hlate.2 (by simp [hin])⟩
    change (((m.step net s.world).map Prod.fst).getD s.world).cluster = s.world.cluster
    unfold awaits at haw
    unfold step
    cases hp : m.phase with
    | draining ch =>
      rw [hp] at haw
      dsimp only at haw ⊢
      rw [if_neg (by simpa using haw)]
      rfl
    | copying ch jobs =>
      rw [hp] at haw
      rcases jobs with _ | ⟨_ | _ | _, jobs⟩
      · cases haw
      · cases haw
      · rfl
      · exact importCall_cluster ..
    | dropping ch jobs =>
      rw [hp] at haw
      rcases jobs with _ | ⟨_ | _, jobs⟩
      · cases haw
      · cases haw
      · exact dropCall_cluster ..
    | _ => rw [hp] at hlate; cases hlate.2
  · obtain rfl := Option.some.inj h
    refine ⟨rfl, rfl, fun hin => ⟨?_, rfl⟩⟩
    unfold awaits at haw
    cases hp : m.phase with
    | locked => rfl
    | draining ch | copying ch jobs | dropping ch jobs => rw [hp] at hin; cases hin
    | _ => rw [hp] at haw; cases haw

namespace SysInv

variable {mv : Move} {colls : List String} {val : String → String → Option Value}
  {j : Option MigrationRecord} {s : System St} {m : Migration}

/-- What the invariant says when no migration runs. -/
theorem of_idle (hv : mv.Valid) (h : SysInv mv colls val j s m) (hidle : s.idle = true) :
    s.world.cluster.gates.frozen = ∅ ∧
    ∀ c ∈ s.world.cluster.colls, ∀ k, Settled s.trace c k → s.world.cluster.owners k ≠ [] ∧
      ∀ n ∈ s.world.cluster.owners k, s.world.cell c k n = lastValue val s.trace c k := by
  constructor
  · have hph := h.phase
    unfold PhaseInv at hph
    rcases h.migration with hm | ⟨-, hp, -⟩
    · have hp : m.phase = .finished := by
        rw [System.idle, hm] at hidle
        cases hp : m.phase <;> simp_all [MigPhase.isFinished]
      rw [hp] at hph
      exact hph.elim (fun hu => hu.2.1) fun hc => hc.frozen
    · rw [hp] at hph
      exact hph.frozen
  · intro c hc k hset
    rw [Cluster.owners_eq]
    refine ⟨(h.phase.healthy hv h.fixed).nonempty _ (bucketOf_lt k), ?_⟩
    refine (h.cell c (h.fixed.colls ▸ hc) k).calm fun i t ht hp => ?_
    obtain ⟨r, hret⟩ := hset i t.call (h.log.invoked i t ht) hp.1
    exact h.log.not_returned ht hp.2 r hret

theorem frozen_of_insideChunk (h : SysInv mv colls val j s m) (hin : m.phase.insideChunk = true) :
    s.world.cluster.gates.frozen ≠ ∅ := by
  have hne : ∀ {ch : List ℕ}, s.world.cluster.gates.frozen = ch.toFinset → ch ≠ [] →
      s.world.cluster.gates.frozen ≠ ∅ := by
    intro ch hfr hch h0
    obtain ⟨b, hb⟩ := List.exists_mem_of_ne_nil ch hch
    rw [hfr] at h0
    exact absurd (List.mem_toFinset.mpr hb) (by simp [h0])
  have hph := h.phase
  unfold PhaseInv at hph
  cases hp : m.phase with
  | draining ch => rw [hp] at hph; exact hne hph.2.1 hph.2.2.2
  | copying ch jobs | dropping ch jobs => rw [hp] at hph; exact hne hph.2.1 hph.2.2.2.1
  | _ => rw [hp] at hin; cases hin

/-- A migration that is dropped inside a chunk leaves the chunk frozen. -/
theorem not_usable (h : SysInv mv colls val j s m) (hm : s.migration = some m) {s₀ : System St}
    {late : Bool} (hab : s.step (fun _ => .ok) (.abandon late) = some s₀)
    (hin : m.phase.insideChunk = true) : ¬Usable val s₀ := by
  intro hus
  obtain ⟨hnone, hcl, -⟩ := abandon_eq_some hm hab
  refine h.frozen_of_insideChunk hin ?_
  rw [← hcl]
  exact (hus [] s₀ rfl (by rw [System.idle, hnone]; rfl)).1

/-- The invariant makes a system usable. -/
theorem usable [LawfulStore St] (hv : mv.Valid) (h : SysInv mv colls val j s m) :
    Usable val s := by
  intro ls s' hrun hidle
  obtain ⟨m', hm'⟩ : ∃ m', SysInv mv colls val j s' m' := by
    refine exec_guarded_invariant (I := fun s => ∃ m, SysInv mv colls val j s m) ?_ ⟨m, h⟩ hrun
    rintro s l s' ⟨m, hm⟩ hok hs
    obtain ⟨m', hm', -⟩ := hm.step hv hok hs
    exact ⟨m', hm'⟩
  exact hm'.of_idle hv hidle

end SysInv

/-- **An interrupted migration leaves the cluster usable exactly when it is not inside a chunk.**
The run before the interruption may itself have stopped and resumed any number of times. -/
theorem usable_iff_not_insideChunk [LawfulStore St] {val : String → String → Option Value}
    {w : World St} {new : List NodeId} (h : Rebalanceable val w new)
    (hne : w.cluster.partitioner.nodes ≠ []) (hj : w.cluster.journal = none)
    {stopAfter : Option ℕ} {ls : List SysLabel} {s s₀ : System St} {m : Migration}
    (hrun : exec (guarded (System.step fun _ => .ok) System.Permits)
      (System.begin w w.cluster.memberIds new stopAfter) ls = some s)
    (hint : Interrupted s s₀ m) :
    Usable val s₀ ↔ m.phase.insideChunk = false := by
  obtain ⟨m', hinv, -⟩ := h.sysInv_run hne hrun
  obtain ⟨hm, hint⟩ := hint
  have hm' : m' = m := by
    rcases hinv.migration with hm' | ⟨hm', -⟩
    · exact Option.some.inj (hm'.symm.trans hm)
    · rw [hm'] at hm
      cases hm
  subst hm'
  constructor
  · intro hus
    rcases hint with ⟨late, hab⟩ | ⟨hfin, -⟩
    · by_contra hin
      exact hinv.not_usable hm hab (Bool.eq_true_of_not_eq_false hin) hus
    · rw [hfin]
      rfl
  · intro hout
    rcases hint with ⟨late, hab⟩ | ⟨-, rfl⟩
    · obtain ⟨hlocked, rfl⟩ := (abandon_eq_some hm hab).2.2 hout
      have hinv' : SysInv (w.moveTo new) w.cluster.colls val w.cluster.journal
          { s with migration := none } m' :=
        ⟨Or.inr ⟨rfl, hlocked, hj⟩, hinv.fixed, hinv.phase, hinv.complete, hinv.journal, hinv.noTtl,
          hinv.count, hinv.managed, hinv.call, hinv.single, hinv.cell, hinv.move, hinv.log,
          hinv.reads, hinv.answers⟩
      exact hinv'.usable (h.valid hne)
    · exact hinv.usable (h.valid hne)

/-- A migration that is dropped while it waits for the lock, and one that is stopped after its first
chunk. -/
theorem usable_of_outside_chunk : Usable (fun _ _ => none)
      { System.begin (blankWorld (clusterWith ["a"] "b")) ["a"] ["b"] none with migration := none } ∧
    ∃ n m, exec (guarded (System.step fun _ => .ok) System.Permits)
        (System.begin oneEntry ["a"] ["a", "b"] (some 1)) (List.replicate n .migrate)
      = some ⟨runMigrationPartial (fun _ => .ok) oneEntry ["a"] ["a", "b"] ∅ 1, [], some m, []⟩ ∧
      Usable oneEntryVal
        ⟨runMigrationPartial (fun _ => .ok) oneEntry ["a"] ["a", "b"] ∅ 1, [], some m, []⟩ := by
  have hrun : exec (guarded (System.step fun _ => .ok) System.Permits)
      (System.begin (blankWorld (clusterWith ["a"] "b")) ["a"] ["b"] none) [] = some _ := rfl
  refine ⟨(usable_iff_not_insideChunk rebalanceable_aToB (by decide) rfl hrun
    ⟨rfl, Or.inl ⟨false, rfl⟩⟩).mpr rfl, ?_⟩
  obtain ⟨m, hsteps, hfin⟩ := exists_finished (fun _ => .ok) oneEntry
    (start ["a"] ["a", "b"] ∅ (some 1)) fun b => rfl
  rw [finish_start_some] at hsteps
  generalize runMigrationPartial (fun _ => .ok) oneEntry ["a"] ["a", "b"] ∅ 1 = w at hsteps
  have hstep : ∀ a b : World MemoryStore × Migration, a.2.step (fun _ => .ok) a.1 = some b →
      guarded (System.step fun _ => .ok) System.Permits ⟨a.1, [], some a.2, []⟩ .migrate
        = some ⟨b.1, [], some b.2, []⟩ :=
    fun a b hab => guarded_eq_some.mpr ⟨trivial, System.step_migrate hab [] []⟩
  obtain ⟨n, hn⟩ := exec_replicate_of_steps (f := fun a : World MemoryStore × Migration =>
    (⟨a.1, [], some a.2, []⟩ : System MemoryStore)) hstep hsteps
  refine ⟨n, m, hn, (usable_iff_not_insideChunk rebalanceable_oneEntry (by decide) rfl hn
    ⟨rfl, Or.inr ⟨hfin, rfl⟩⟩).mpr ?_⟩
  rw [hfin]
  rfl

/-! ### A migration dropped inside a chunk -/

section Inside

variable [LawfulStore St] {mv : Move} {colls : List String}
  {val : String → String → Option Value} {j : Option MigrationRecord}

variable {m : Migration} {r : World St × Migration} {s : System St}

/-- The system after an enabled step of its migration. -/
theorem SysInv.advance (hv : mv.Valid) (h : SysInv mv colls val j s m) (hm : s.migration = some m)
    (hr : m.step (fun _ => .ok) s.world = some r) :
    guarded (System.step fun _ => .ok) System.Permits s .migrate
        = some { s with world := r.1, migration := some r.2 } ∧
      SysInv mv colls val j { s with world := r.1, migration := some r.2 } r.2 := by
  refine ⟨guarded_eq_some.mpr ⟨trivial, ?_⟩, h.migrate_step hv (trans_of_step hr)⟩
  exact (congrArg (fun o => System.step _ { s with migration := o } .migrate) hm).trans
    (System.step_migrate (a := (s.world, m)) hr s.calls s.trace)

/-- An undisturbed first migration, in the given phase. -/
structure Alone (mv : Move) (colls : List String) (val : String → String → Option Value)
    (j : Option MigrationRecord) (s : System St) (m : Migration) (ph : MigPhase) : Prop where
  inv : SysInv mv colls val j s m
  migration : s.migration = some m
  calls : s.calls = []
  done : m.done = ∅
  stopAfter : m.stopAfter = none
  phase : m.phase = ph

/-- The next state of an undisturbed migration. -/
theorem Alone.next (hv : mv.Valid) {ph : MigPhase} (h : Alone mv colls val j s m ph)
    (ph' : MigPhase) (hr : m.step (fun _ => .ok) s.world = some r) (hd : r.2.done = m.done)
    (hp : r.2.phase = ph') :
    ∃ s' m', guarded (System.step fun _ => .ok) System.Permits s .migrate = some s' ∧
      Alone mv colls val j s' m' ph' := by
  obtain ⟨hstep, hinv⟩ := h.inv.advance hv h.migration hr
  have hstop := (trans_of_step hr).stopAfter_eq
  exact ⟨_, r.2, hstep, hinv, rfl, h.calls, hd.trans h.done, hstop.trans h.stopAfter, hp⟩

section Next

variable {s : System St} {m : Migration} {ch : List ℕ}

theorem Alone.plan (hv : mv.Valid) (h : Alone mv colls val j s m .locked)
    (hdiff : ¬sameMembers mv.old mv.new) :
    ∃ s' m', guarded (System.step fun _ => .ok) System.Permits s .migrate = some s' ∧
      Alone mv colls val j s' m' .planned := by
  have hph := h.inv.phase
  unfold PhaseInv at hph
  rw [h.phase] at hph
  have hsame : ¬sameMembers m.old m.new := by rwa [hph.old_eq, hph.new_eq]
  refine h.next hv .planned (r := m.planStep s.world) (by rw [step, h.phase]) ?_ ?_ <;>
  · rw [planStep]
    dsimp only
    rw [if_neg hsame]

/-- A bucket that moves is in a chunk, so there is one to freeze. -/
theorem Alone.freeze (hv : mv.Valid) (h : Alone mv colls val j s m .looping) {b : ℕ}
    (hb : b < numBuckets) (hmoved : mv.Moved b) :
    ∃ s' m' ch, guarded (System.step fun _ => .ok) System.Permits s .migrate = some s' ∧
      Alone mv colls val j s' m' (.draining ch) := by
  have hph := h.inv.phase
  unfold PhaseInv at hph
  rw [h.phase] at hph
  have hin := hph.1.laid.cover b hb hmoved
  rw [h.done] at hin
  cases htodo : m.todo with
  | nil =>
    rw [htodo] at hin
    exact absurd hin (by simp)
  | cons ch todo =>
    obtain ⟨s', m', hs', h'⟩ := h.next hv (.draining ch) (r := m.loopStep s.world)
      (by rw [step, h.phase])
      (by rw [loopStep, htodo]; dsimp only; rw [h.stopAfter]; rfl)
      (by rw [loopStep, htodo]; dsimp only; rw [h.stopAfter]; rfl)
    exact ⟨s', m', ch, hs', h'⟩

/-- Without calls there is nothing to wait for. -/
theorem Alone.drain (hv : mv.Valid) (h : Alone mv colls val j s m (.draining ch)) :
    ∃ s' m', guarded (System.step fun _ => .ok) System.Permits s .migrate = some s' ∧
      Alone mv colls val j s' m' (.copying ch (copyJobs m.actions ch)) := by
  have hdrained : s.world.cluster.gates.drained ch := by
    intro b _
    rw [h.inv.count, h.calls]
    rfl
  exact h.next hv (.copying ch (copyJobs m.actions ch))
    (by rw [step, h.phase]; exact if_pos hdrained) rfl rfl

omit [LawfulStore St] in
/-- If every bucket gains an owner, a chunk has a pair to copy between. -/
theorem Alone.exists_pair (hv : mv.Valid) (h : Alone mv colls val j s m (.draining ch))
    (hgain : ∀ b < numBuckets, ∃ n ∈ mv.newOwners b, n ∉ mv.oldOwners b) :
    ∃ src dst bs rest, copyJobs m.actions ch = .pair src dst bs :: rest ∧ src ∈ mv.old ∧
      dst ∈ mv.new := by
  have hph := h.inv.phase
  unfold PhaseInv at hph
  rw [h.phase] at hph
  obtain ⟨d₀, hacts, hd₀⟩ := hph.1.laid.actions
  rw [h.done] at hd₀
  obtain ⟨b, hb⟩ := List.exists_mem_of_ne_nil ch hph.2.2.2
  have hpend := hph.1.laid.pending b (List.mem_append_left _ hb)
  obtain ⟨n, hn, hn'⟩ := hgain b hpend.2.1
  obtain ⟨src, bs, hjob, -⟩ := exists_copyJob hv hb hpend.2.1
    (fun hd => absurd (hd₀ hd) (Finset.notMem_empty b)) hn hn'
  rw [← hacts] at hjob
  cases hjobs : copyJobs m.actions ch with
  | nil =>
    rw [hjobs] at hjob
    cases hjob
  | cons job rest =>
    have hmem : job ∈ copyJobs m.actions ch := by
      rw [hjobs]
      exact List.mem_cons_self ..
    rw [hacts] at hmem
    obtain ⟨src, dst, bs, rfl, hbs⟩ := mem_copyJobs hmem
    obtain ⟨b, hb⟩ := List.exists_mem_of_ne_nil bs (ne_nil_of_mem_copyJobs hmem)
    obtain ⟨-, hhead, hnew, -⟩ := hbs b hb
    exact ⟨src, dst, bs, rest, rfl, hv.mem_old (List.mem_of_mem_head? hhead), hv.mem_new hnew⟩

end Next

/-- A migration that has something to copy comes to wait for an export. -/
theorem Alone.exists_transfer (hv : mv.Valid) (h : Alone mv colls val j s m .locked)
    (hdiff : ¬sameMembers mv.old mv.new) {b₀ : ℕ} (hb₀ : b₀ < numBuckets) (hmoved : mv.Moved b₀)
    (hgain : ∀ b < numBuckets, ∃ n ∈ mv.newOwners b, n ∉ mv.oldOwners b) (hcolls : colls ≠ []) :
    ∃ ls s' m' ch src dst bs i coll jobs,
      exec (guarded (System.step fun _ => .ok) System.Permits) s ls = some s' ∧
      Alone mv colls val j s' m' (.copying ch (.transfer src dst bs i coll :: jobs)) := by
  obtain ⟨s₁, m₁, hs₁, h₁⟩ := h.plan hv hdiff
  obtain ⟨s₂, m₂, hs₂, h₂⟩ : ∃ s' m', _ ∧ Alone mv colls val j s' m' .looping :=
    h₁.next hv .looping (by rw [step, h₁.phase]) rfl rfl
  obtain ⟨s₃, m₃, ch, hs₃, h₃⟩ := h₂.freeze hv hb₀ hmoved
  obtain ⟨s₄, m₄, hs₄, h₄⟩ := h₃.drain hv
  -- the first pair has clients, so its first collection is exported next
  obtain ⟨src, dst, bs, rest, hjobs, hsrc, hdst⟩ := h₃.exists_pair hv hgain
  rw [hjobs] at h₄
  have hph := h₄.inv.phase
  unfold PhaseInv at hph
  rw [h₄.phase] at hph
  have hclients : src ∈ s₄.world.cluster.clients ∧ dst ∈ s₄.world.cluster.clients :=
    ⟨hph.1.clients _ (.inl hsrc), hph.1.clients _ (.inr hdst)⟩
  obtain ⟨coll, colls', rfl⟩ := List.exists_cons_of_ne_nil hcolls
  obtain ⟨s₅, m₅, jobs, hs₅, h₅⟩ : ∃ s' m' jobs, _ ∧
      Alone mv (coll :: colls') val j s' m' (.copying ch (.transfer src dst bs 0 coll :: jobs)) := by
    obtain ⟨s', m', hs', h'⟩ := h₄.next hv (.copying ch (.transfer src dst bs 0 coll ::
      ((colls'.zipIdx 1).map fun ci => CopyJob.transfer src dst bs ci.2 ci.1) ++ rest))
      (by rw [step, h₄.phase]) rfl
      (by
        rw [copyStep]
        dsimp only
        rw [if_pos hclients, h₄.inv.fixed.colls]
        rfl)
    exact ⟨s', m', _, hs', h'⟩
  refine ⟨List.replicate 5 .migrate, s₅, m₅, ch, src, dst, bs, 0, coll, jobs, ?_, h₅⟩
  simp only [List.replicate, exec_cons, hs₁, hs₂, hs₃, hs₄, hs₅, Option.bind_some, exec_nil]

end Inside

/-- Dropping the future of a rebalance from `a` to `b` while an export is pending leaves a chunk
frozen. -/
theorem not_usable_of_pending_export : ∃ ls s s₀ m,
    exec (guarded (System.step fun _ => .ok) System.Permits)
      (System.begin (blankWorld (clusterWith ["a"] "b")) ["a"] ["b"] none) ls = some s ∧
    Interrupted s s₀ m ∧ ¬Usable (fun _ _ => none) s₀ := by
  have hv := rebalanceable_aToB.valid (by decide)
  have hown : ∀ b, ((blankWorld (clusterWith ["a"] "b")).moveTo ["b"]).newOwners b = ["b"] ∧
      ((blankWorld (clusterWith ["a"] "b")).moveTo ["b"]).oldOwners b = ["a"] :=
    fun b => ⟨rfl, rfl⟩
  have hgain : ∀ b, ∃ n ∈ ((blankWorld (clusterWith ["a"] "b")).moveTo ["b"]).newOwners b,
      n ∉ ((blankWorld (clusterWith ["a"] "b")).moveTo ["b"]).oldOwners b := by
    intro b
    rw [(hown b).1, (hown b).2]
    exact ⟨"b", by decide, by decide⟩
  have halone : Alone _ _ _ _ _ _ .locked := ⟨rebalanceable_aToB.sysInv none, rfl, rfl, rfl, rfl, rfl⟩
  obtain ⟨ls, s, m, ch, src, dst, bs, i, coll, jobs, hrun, h⟩ := halone.exists_transfer hv
    (by decide) (show 0 < numBuckets by decide) (Or.inl (hgain 0)) (fun b _ => hgain b) (by decide)
  have hab : s.step (fun _ => .ok) (.abandon false) = some { s with migration := none } := by
    rw [System.step, h.migration]
    dsimp only
    rw [if_pos (by rw [Migration.awaits, h.phase])]
    rfl
  exact ⟨ls, s, _, m, hrun, ⟨h.migration, Or.inl ⟨false, hab⟩⟩,
    h.inv.not_usable h.migration hab (by rw [h.phase]; rfl)⟩

end Stplr
