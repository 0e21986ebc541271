import Stplr.Equiv.System

/-!
# Online rebalance, seen by single-key clients

`Rebalanceable` is the situation in which a rebalance may start: the ring, the gates and the client
table are in order, and the replicas agree.
-/

namespace Stplr

open Lib Move List

variable {St : Type} [IndexStore St]

/-- The move that a rebalance of the current members plans. -/
def World.moveTo (w : World St) (new : List NodeId) : Move :=
  ⟨w.cluster.memberIds, new, w.cluster.replicationTarget, w.cluster.topology⟩

/-- A cluster at rest whose replicas agree: the owners of `k` hold `val c k`, other nodes hold
nothing. -/
structure AtRest (val : String → String → Option Value) (w : World St) : Prop where
  overlay : w.cluster.overlay = none
  gates : w.cluster.gates = Gates.new
  down : w.cluster.down = ∅
  replication : w.cluster.replication
    = clamp w.cluster.replicationTarget w.cluster.partitioner.nodes.length
  topology : w.cluster.partitioner.topology = w.cluster.topology
  nodes_nodup : w.cluster.partitioner.nodes.Nodup
  clients : ∀ n ∈ w.cluster.partitioner.nodes, n ∈ w.cluster.clients
  cells : ∀ c ∈ w.cluster.colls, ∀ k n,
    w.cell c k n = if n ∈ w.cluster.owners k then val c k else none
  noTtl : w.NoTtl w.cluster.colls

/-- A cluster at rest and a proper target for it. -/
structure Rebalanceable (val : String → String → Option Value) (w : World St)
    (new : List NodeId) : Prop extends AtRest val w where
  new_ne : new ≠ []
  new_nodup : new.Nodup
  new_clients : ∀ n ∈ new, n ∈ w.cluster.clients
  hashes : DistinctHashes (w.cluster.partitioner.nodes ++ new)

theorem Cluster.mem_memberIds {c : Cluster} {n : NodeId} :
    n ∈ c.memberIds ↔ n ∈ c.partitioner.nodes :=
  (perm_insertionSort _ _).mem_iff

theorem Cluster.owners_eq (c : Cluster) (k : String) : c.owners k = c.routes (bucketOf k) := by
  rw [owners, overlayOwners, routes, ringOwners, Partitioner.replicaSet_eq]
  cases c.overlay <;> rfl

namespace Rebalanceable

variable {val : String → String → Option Value} {w : World St} {new : List NodeId}

theorem valid (h : Rebalanceable val w new) (hne : w.cluster.partitioner.nodes ≠ []) :
    (w.moveTo new).Valid where
  old_ne := by
    obtain ⟨n, hn⟩ := exists_mem_of_ne_nil _ hne
    exact ne_nil_of_mem (Cluster.mem_memberIds.mpr hn)
  new_ne := h.new_ne
  old_nodup := (perm_insertionSort _ _).nodup_iff.mpr h.nodes_nodup
  new_nodup := h.new_nodup
  hashes := by
    have hmem : ∀ n, n ∈ (w.moveTo new).old ++ (w.moveTo new).new →
        n ∈ w.cluster.partitioner.nodes ++ new := by
      intro n hn
      rcases mem_append.mp hn with hn | hn
      · exact mem_append_left _ (Cluster.mem_memberIds.mp hn)
      · exact mem_append_right _ hn
    exact fun a ha b hb => h.hashes a (hmem a ha) b (hmem b hb)

/-- The invariant holds when the migration takes the lock. -/
theorem sysInv (h : Rebalanceable val w new) (stopAfter : Option ℕ) :
    SysInv (w.moveTo new) w.cluster.colls val w.cluster.journal
      (System.begin w w.cluster.memberIds new stopAfter)
      (Migration.start w.cluster.memberIds new ∅ stopAfter) := by
  have hlen : w.cluster.memberIds.length = w.cluster.partitioner.nodes.length :=
    length_insertionSort ..
  have hnone : ∀ {i : ℕ} {t : CallState}, ([] : List CallState)[i]? ≠ some t := by
    intro i t ht
    cases ht
  constructor
  · exact .inl rfl
  · exact ⟨rfl, rfl, h.topology, rfl, h.down⟩
  · refine ⟨rfl, rfl, ⟨(perm_insertionSort _ _).symm, ?_⟩, ?_, ?_, .inl ⟨h.overlay, rfl⟩, rfl⟩
    · change w.cluster.replication = clamp w.cluster.replicationTarget w.cluster.memberIds.length
      rw [hlen]
      exact h.replication
    · rintro n (hn | hn)
      · exact h.clients n (Cluster.mem_memberIds.mp hn)
      · exact h.new_clients n hn
    · change w.cluster.gates.frozen = ∅
      rw [h.gates]
      rfl
  · exact fun _ hfin => by cases hfin
  · exact fun _ _ => rfl
  · exact h.noTtl
  · intro b
    change w.cluster.gates.inFlight b = 0
    rw [h.gates]
    rfl
  · exact fun i t ht => absurd ht hnone
  · exact fun i t ht => absurd ht hnone
  · exact fun _ _ i j t u ht => absurd ht hnone
  · intro c hc k
    refine ⟨fun i t ht => absurd ht hnone, fun _ n hn => ?_⟩
    change w.cell c k n = val c k
    rw [h.cells c hc, Cluster.owners_eq]
    exact if_pos hn
  · refine ⟨trivial, fun c hc k n hn => ?_⟩
    change w.cell c k n = none
    rw [h.cells c hc, Cluster.owners_eq]
    exact if_neg hn
  · exact ⟨fun i t ht => absurd ht hnone, fun _ _ hm => (by cases hm), fun _ _ _ hm => (by cases hm)⟩
  · exact fun i t _ ht => absurd ht hnone
  · exact Answers.nil

variable [LawfulStore St]

/-- Every permitted run keeps the invariant. -/
theorem sysInv_run (h : Rebalanceable val w new) (hne : w.cluster.partitioner.nodes ≠ [])
    {stopAfter : Option ℕ} {ls : List SysLabel} {s : System St}
    (hrun : exec (guarded (System.step fun _ => .ok) System.Permits)
      (System.begin w w.cluster.memberIds new stopAfter) ls = some s) :
    ∃ m, SysInv (w.moveTo new) w.cluster.colls val w.cluster.journal s m ∧
      (stopAfter = none → m.stopAfter = none) := by
  refine exec_guarded_invariant (I := fun s => ∃ m,
    SysInv (w.moveTo new) w.cluster.colls val w.cluster.journal s m ∧
      (stopAfter = none → m.stopAfter = none)) ?_ ⟨_, h.sysInv stopAfter, fun hs => hs⟩ hrun
  rintro s l s' ⟨m, hm, hstop⟩ hok hs
  obtain ⟨m', hm', hstop'⟩ := hm.step (h.valid hne) hok hs
  exact ⟨m', hm', fun h0 => hstop' (hstop h0)⟩

end Rebalanceable

variable {val : String → String → Option Value} {s : System St} {colls : List String}
  {m : Migration} {j : Option MigrationRecord} {mv : Move}

/-- When a run that is not told to stop has finished, it has committed. -/
theorem SysInv.committing (h : SysInv mv colls val j s m) (hstop : m.stopAfter = none)
    (hfin : m.phase = .finished) : Committing mv s.world.cluster m [] := by
  have hph := h.phase
  unfold PhaseInv at hph
  rw [hfin] at hph
  rcases hph with ⟨hu, -⟩ | hc
  · have ho := h.complete hstop hfin
    rw [hu.overlay] at ho
    cases ho
  · exact hc

/-- What a finished rebalance leaves under `(c, k)`: nothing outside the new owners, and on each of
them the last value, or the result of a write that is still under way. -/
def HandedOver (val : String → String → Option Value) (s : System St) (newOwners : List NodeId)
    (c k : String) : Prop :=
  (∀ n, n ∈ s.world.cluster.owners k ↔ n ∈ newOwners) ∧
  (∀ n ∉ newOwners, s.world.cell c k n = none) ∧
  ∀ n ∈ newOwners, s.world.cell c k n = lastValue val s.trace c k ∨
    ∃ i call, .inv i call ∈ s.trace ∧ call.WritesTo c k ∧ (∀ r, .ret i call r ∉ s.trace) ∧
      s.world.cell c k n = call.op.result (lastValue val s.trace c k)

theorem SysInv.handedOver (hv : mv.Valid) (h : SysInv mv colls val j s m)
    (hstop : m.stopAfter = none) (hfin : m.phase = .finished) {c : String} (hc : c ∈ colls)
    (k : String) : HandedOver val s (mv.newOwners (bucketOf k)) c k := by
  have hroutes : ∀ n, n ∈ s.world.cluster.routes (bucketOf k) ↔ n ∈ mv.newOwners (bucketOf k) :=
    (h.committing hstop hfin).mem_routes hv h.fixed (bucketOf_lt k)
  refine ⟨fun n => ?_, fun n hn => ?_, fun n hn => ?_⟩
  · rw [Cluster.owners_eq]
    exact hroutes n
  · have hx := h.move.stray c hc k n fun hn' => hn ((hroutes n).mp hn')
    rwa [hfin] at hx
  · refine ((h.cell c hc k).value ((hroutes n).mpr hn)).imp_right ?_
    rintro ⟨i, t, ht, hp, hval⟩
    exact ⟨i, t.call, h.log.invoked i t ht, hp.1, h.log.not_returned ht hp.2, hval⟩

/-- **Online rebalance is invisible to single-key clients.**  In every interleaving of the steps of
one `run_migration` with single-key calls whose writes of a cell do not overlap, a read that
overlaps no write of its cell returns the last value; and when the migration has finished, every
cell has been handed over to its new owners. -/
theorem rebalance_invisible [LawfulStore St] {val : String → String → Option Value} {w : World St}
    {new : List NodeId} (h : Rebalanceable val w new) (hne : w.cluster.partitioner.nodes ≠ [])
    {ls : List SysLabel} {s : System St}
    (hrun : exec (guarded (System.step fun _ => .ok) System.Permits)
      (System.begin w w.cluster.memberIds new none) ls = some s) :
    Answers val s.trace ∧
    ((∃ m, s.migration = some m ∧ m.phase = .finished) → ∀ c ∈ w.cluster.colls, ∀ k,
      HandedOver val s
        (planNewOwners new w.cluster.replicationTarget w.cluster.topology (bucketOf k)) c k) := by
  obtain ⟨m, hinv, hstop⟩ := h.sysInv_run hne hrun
  refine ⟨hinv.answers, ?_⟩
  rintro ⟨m', hm', hfin⟩ c hc k
  rcases hinv.migration with hm | ⟨hm, -⟩
  · obtain rfl := Option.some.inj (hm.symm.trans hm')
    exact hinv.handedOver (h.valid hne) (hstop rfl) hfin hc k
  · rw [hm] at hm'
    cases hm'

/-! ### Small clusters -/

/-- Empty in-memory shards behind a coordinator. -/
def blankWorld (cluster : Cluster) : World MemoryStore :=
  ⟨cluster, fun n => ⟨n, MemoryStore.new⟩, 0⟩

/-- A coordinator over `ids` with a client for one more node. -/
def clusterWith (ids : List NodeId) (extra : NodeId) : Cluster :=
  (Cluster.new ids 1 ["kv"]).addNode extra

theorem rebalanceable_blank {ids : List NodeId} {extra : NodeId} (hnd : ids.Nodup)
    (hh : DistinctHashes (ids ++ [extra])) :
    Rebalanceable (fun _ _ => none) (blankWorld (clusterWith ids extra)) [extra] where
  overlay := rfl
  gates := rfl
  down := rfl
  replication := rfl
  topology := rfl
  nodes_nodup := hnd
  clients := fun n hn => Finset.mem_insert_of_mem (mem_toFinset.mpr hn)
  new_ne := by simp
  new_nodup := by simp
  new_clients := by
    intro n hn
    rw [mem_singleton.mp hn]
    exact Finset.mem_insert_self ..
  hashes := hh
  cells := by
    intro c _ k n
    split_ifs <;> rfl
  noTtl := fun _ _ _ _ => rfl

theorem rebalanceable_aToB :
    Rebalanceable (fun _ _ => none) (blankWorld (clusterWith ["a"] "b")) ["b"] :=
  rebalanceable_blank (by decide) (by decide +kernel)

/-- The node `a` holds `1` under `(kv, x)`; there is a client for `b`. -/
def oneEntry : World MemoryStore := (blankWorld (clusterWith ["a"] "b")).setShard "a"
    (Shard.writeObject ⟨"a", MemoryStore.new⟩ "kv" "x" (.int 1))

theorem cell_oneEntry (c k : String) (n : NodeId) : oneEntry.cell c k n
    = if n = "a" ∧ c = "kv" ∧ k = "x" then some (.int 1) else none := by
  rw [oneEntry, World.cell_setShard]
  by_cases hn : n = "a"
  · rw [if_pos hn, Shard.object_writeObject]
    simp only [hn, true_and]
    rfl
  · simp only [hn, if_false, false_and]
    rfl

/-- What `oneEntry` holds. -/
def oneEntryVal (c k : String) : Option Value := if c = "kv" ∧ k = "x" then some (.int 1) else none

theorem rebalanceable_oneEntry : Rebalanceable oneEntryVal oneEntry ["a", "b"] where
  overlay := rfl
  gates := rfl
  down := rfl
  replication := rfl
  topology := rfl
  nodes_nodup := by decide
  clients := by decide
  cells := by
    intro c _ k n
    have howner : oneEntry.cluster.owners k = ["a"] := rfl
    rw [howner, cell_oneEntry, oneEntryVal]
    by_cases hn : n = "a" <;> simp [hn]
  noTtl := by
    exact World.NoTtl.setShard (w := blankWorld (clusterWith ["a"] "b")) (fun _ _ _ _ => rfl) _
      fun c _ k => Shard.expiryAt_writeObject _ _ rfl
  new_ne := by decide
  new_nodup := by decide
  new_clients := by decide
  hashes := by decide +kernel

/-- Two empty nodes that own every key. -/
def twoOwners : World MemoryStore := blankWorld (Cluster.new ["a", "b"] 2 ["kv"])

/-- A put of `k`, which the migration overtakes while it is at its owner, and a get of `k`. -/
def overtakenPut : List SysLabel :=
  .invoke ⟨"kv", "k", .put (.int 1)⟩ :: .migrate :: (replicate 3 (.call 0 .ok) ++
    .migrate :: replicate 3 (.call 0 .ok) ++
    .invoke ⟨"kv", "k", .get⟩ :: replicate 5 (.call 1 .ok))

theorem rebalance_invisible_overtakenPut : ∃ s,
    exec (guarded (System.step fun _ => .ok) System.Permits)
      (System.begin (blankWorld (clusterWith ["a"] "b")) ["a"] ["b"] none) overtakenPut = some s ∧
    s.trace = [.inv 0 ⟨"kv", "k", .put (.int 1)⟩, .ret 0 ⟨"kv", "k", .put (.int 1)⟩ .done,
      .inv 1 ⟨"kv", "k", .get⟩, .ret 1 ⟨"kv", "k", .get⟩ (.value (some (.int 1)))] ∧
    Answers (fun _ _ => none) s.trace := by
  refine exists_of_map (f := System.trace) ?_ fun s hs htr =>
    ⟨htr, (rebalance_invisible rebalanceable_aToB (by decide) hs).1⟩
  decide +kernel

/-- A put of `k` and then a get of `k`, before the migration has done anything. -/
def putThenGet : List SysLabel :=
  .invoke ⟨"kv", "k", .put (.int 1)⟩ :: (replicate 5 (.call 0 .ok) ++
    .invoke ⟨"kv", "k", .get⟩ :: replicate 5 (.call 1 .ok))

/-- A cluster without members loses what is put before the migration cuts over: a bucket has no
owner to hold it. -/
theorem not_answers_of_no_members : ∃ s,
    Rebalanceable (fun _ _ => none) (blankWorld (clusterWith [] "a")) ["a"] ∧
    exec (guarded (System.step fun _ => .ok) System.Permits)
      (System.begin (blankWorld (clusterWith [] "a")) [] ["a"] none) putThenGet = some s ∧
    ¬Answers (fun _ _ => none) s.trace := by
  have hrun : (exec (guarded (System.step fun _ => .ok) System.Permits)
      (System.begin (blankWorld (clusterWith [] "a")) [] ["a"] none) putThenGet).map System.trace
        = some [.inv 0 ⟨"kv", "k", .put (.int 1)⟩, .ret 0 ⟨"kv", "k", .put (.int 1)⟩ .done,
          .inv 1 ⟨"kv", "k", .get⟩, .ret 1 ⟨"kv", "k", .get⟩ (.value none)] := by
    decide +kernel
  obtain ⟨s, hs, htr⟩ := Option.map_eq_some_iff.mp hrun
  refine ⟨s, rebalanceable_blank (by simp) (by decide +kernel), hs, ?_⟩
  rw [htr]
  intro hans
  have hval := hans [.inv 0 ⟨"kv", "k", .put (.int 1)⟩, .ret 0 ⟨"kv", "k", .put (.int 1)⟩ .done] []
    [] 1 ⟨"kv", "k", .get⟩ (.value none) rfl rfl ?_ (by simp [Untouched])
  · revert hval
    decide +kernel
  · intro i call hm _
    obtain ⟨rfl, rfl⟩ : i = 0 ∧ call = ⟨"kv", "k", .put (.int 1)⟩ := by simpa using hm
    exact ⟨.done, by simp⟩

end Stplr
