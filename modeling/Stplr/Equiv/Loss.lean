import Stplr.Equiv.Failures
import Mathlib.Data.Finset.Card

/-!
# Reads after the loss of nodes

`Agreeing` says that the owners of every key hold one value and that no entry expires.  Calls that
run one after the other on healthy shards keep it (`Agreeing.perform`): each of them leaves the
owners of its key with its result.  A bucket of a ring of `n` nodes has `min R n` different owners, so
one of them outlives the loss of fewer nodes, and it is read.
-/

namespace Stplr

open Lib World List

variable {St : Type} [IndexStore St]

/-! ### What a healthy call leaves behind -/

/-- The shard operation that a call broadcasts. -/
def Call.shardOp (call : Call) : Option ShardOp := match call.op with
  | .put obj => some (.writeObject call.coll call.key obj)
  | .delete => some (.deleteObject call.coll call.key)
  | .setAdd m => some (.setAdd call.coll call.key m)
  | .setRemove m => some (.setRemove call.coll call.key m)
  | _ => none

variable {call : Call} {op : ShardOp}

theorem World.visitOwners_broadcast (h : call.shardOp = some op) (net : ℕ → Outcome) (w : World St)
    (owners : List NodeId) :
    w.visitOwners net call owners = (broadcastLoop op net w owners, .done) := by
  obtain ⟨coll, key, cop⟩ := call
  cases cop <;> cases h <;> rfl

variable [LawfulCells St]

theorem object_exec_shardOp (h : call.shardOp = some op) (now : ℕ) (sh : Shard St) (c k : String) :
    (op.exec now sh).object now c k = if c = call.coll ∧ k = call.key then
          call.op.result (sh.object now call.coll call.key) else sh.object now c k := by
  obtain ⟨coll, key, cop⟩ := call
  cases cop <;> cases h
  · exact Shard.object_writeObject now sh coll key _ c k
  · exact Shard.object_deleteObject now sh coll key c k
  · exact LawfulCells.getObject_setAdd now sh.store coll key _ c k
  · exact LawfulCells.getObject_setRemove now sh.store coll key _ c k

theorem expiryAt_exec_shardOp (h : call.shardOp = some op) (now : ℕ) {sh : Shard St} {c k : String}
    (hexp : sh.expiryAt c k = none) : (op.exec now sh).expiryAt c k = none := by
  obtain ⟨coll, key, cop⟩ := call
  cases cop <;> cases h
  · exact Shard.expiryAt_writeObject sh _ hexp
  · exact Shard.expiryAt_deleteObject sh hexp
  · exact (LawfulCells.touches_update now sh.store coll key _).expiryOf_none hexp
  · exact (LawfulCells.touches_update now sh.store coll key _).expiryOf_none hexp

namespace World

variable {call : Call} {op : ShardOp} {ns : List NodeId}

/-- A broadcast operation on different nodes. -/
theorem cell_execOn (h : call.shardOp = some op) (w : World St) (hnd : ns.Nodup) (c k : String)
    (n : NodeId) :
    (w.execOn op ns).cell c k n = if n ∈ ns ∧ c = call.coll ∧ k = call.key then
      call.op.result (w.cell call.coll call.key n) else w.cell c k n := by
  unfold cell
  rw [execOn_now, shards_execOn op hnd]
  by_cases hn : n ∈ ns
  · rw [if_pos hn, object_exec_shardOp h]
    simp [hn]
  · simp [hn]

theorem expiryAt_execOn (h : call.shardOp = some op) {w : World St} (hnd : ns.Nodup) {c k : String}
    {n : NodeId} (hexp : (w.shards n).expiryAt c k = none) :
    ((w.execOn op ns).shards n).expiryAt c k = none := by
  rw [shards_execOn op hnd]
  split_ifs
  · exact expiryAt_exec_shardOp h w.now hexp
  · exact hexp

end World

omit [IndexStore St] [LawfulCells St] in
/-- When every owner is reached and answers, all of them are takers. -/
theorem takers_ok {c : Cluster} {owners : List NodeId} (h : ∀ n ∈ owners, ¬c.skips n) :
    takers c (fun _ => .ok) owners = owners := by
  induction owners with
  | nil => rfl
  | cons n owners ih =>
    rw [takers, if_pos ⟨h n (mem_cons_self ..), rfl⟩]
    exact congrArg _ (ih fun m hm => h m (mem_cons_of_mem _ hm))

/-! ### Calls one after the other -/

/-- The owners of every key are up, have clients and differ. -/
structure AllUp (c : Cluster) : Prop where
  up : ∀ key, ∀ n ∈ c.owners key, ¬c.skips n
  nodup : ∀ key, (c.owners key).Nodup

/-- The owners of every key hold one value, and no entry expires. -/
structure Agreeing (w : World St) : Prop where
  hold : ∀ c k, ∃ v, Hold (w.cell c k) (w.cluster.owners k) v
  noTtl : ∀ n c k, (w.shards n).expiryAt c k = none

namespace Agreeing

variable {w : World St}

/-- Time passes. -/
theorem tick (h : Agreeing w) (ms : ℕ) : Agreeing { w with now := w.now + ms } where
  hold := by
    intro c k
    obtain ⟨v, hv⟩ := h.hold c k
    refine ⟨v, fun n hn => ?_⟩
    exact (Shard.object_congr_now (h.noTtl n c k) _ _).trans (hv n hn)
  noTtl := h.noTtl

variable {call : Call}

/-- A broadcast on all owners. -/
theorem broadcast (h : Agreeing w) (hup : AllUp w.cluster) {call : Call} {op : ShardOp}
    (hop : call.shardOp = some op) : Agreeing (w.execOn op (w.cluster.owners call.key)) where
  hold := by
    intro c k
    obtain ⟨v, hv⟩ := h.hold c k
    rw [execOn_cluster]
    by_cases hck : c = call.coll ∧ k = call.key
    · obtain ⟨rfl, rfl⟩ := hck
      refine ⟨call.op.result v, fun n hn => ?_⟩
      rw [cell_execOn hop w (hup.nodup _), if_pos ⟨hn, rfl, rfl⟩, hv n hn]
    · refine ⟨v, fun n hn => ?_⟩
      rw [cell_execOn hop w (hup.nodup _), if_neg fun hh => hck hh.2, hv n hn]
  noTtl := fun n c k => expiryAt_execOn hop (hup.nodup _) (h.noTtl n c k)

omit [LawfulCells St] in
theorem noTtl_decided (h : Agreeing w) {p : NodeId} {sh : Shard St} (hsh : w.Decided call p sh)
    (n : NodeId) (c k : String) : ((w.setShard p sh).shards n).expiryAt c k = none := by
  by_cases hn : n = p
  · subst hn
    rw [show (w.setShard n sh).shards n = sh from Function.update_self ..]
    exact hsh.expiryAt c k (h.noTtl n c k)
  · rw [show (w.setShard p sh).shards n = w.shards n from Function.update_of_ne hn ..]
    exact h.noTtl n c k

/-- An operation with a primary. -/
theorem primary (h : Agreeing w) (hup : AllUp w.cluster) (hop : call.op.primary = true) :
    Agreeing (w.perform (fun _ => .ok) call).1 := by
  have hlive : w.live (w.cluster.owners call.key) = w.cluster.owners call.key :=
    filter_eq_self.mpr fun n hn => by
      simpa using fun hd => hup.up call.key n hn (.inl hd)
  cases ho : w.cluster.owners call.key with
  | nil =>
    obtain ⟨r, -, heq⟩ := visitOwners_unreached (fun _ => .ok) w hop
      (by rw [hlive, ho]; simp : ∀ p ∈ (w.live (w.cluster.owners call.key)).head?, _)
    rw [show w.perform (fun _ => .ok) call = (w, r) from heq]
    exact h
  | cons p replicas =>
    have hp : p ∈ w.cluster.clients := by
      have := hup.up call.key p (by rw [ho]; exact mem_cons_self ..)
      exact not_not.mp fun hc => this (.inr hc)
    have hnd : (p :: replicas).Nodup := ho ▸ hup.nodup call.key
    obtain ⟨sh, hsh, hcase⟩ := visitOwners_primary (fun _ => .ok) w hop (hlive.trans ho) hp
    rcases hcase with ⟨v, r, hd, -, -, heq⟩ | ⟨hd, r, -, heq⟩
    · have htake : takers (w.setShard p sh).cluster (fun _ => .ok) replicas = replicas :=
        takers_ok fun n hn => hup.up call.key n (by rw [ho]; exact mem_cons_of_mem _ hn)
      have hw : (w.perform (fun _ => .ok) call).1
          = (w.setShard p sh).execOn (.writeObject call.coll call.key v) replicas := by
        change (w.visitOwners _ _ _).1 = _
        rw [heq, broadcastLoop_eq]
        exact congrArg _ htake
      have hput : Call.shardOp ⟨call.coll, call.key, .put v⟩
          = some (.writeObject call.coll call.key v) := rfl
      have hres : call.op.result (w.cell call.coll call.key p) = some v := by
        rw [CallOp.result_of_primary hop, hd, Option.some_or]
      rw [hw]
      refine ⟨fun c k => ?_, fun n c k => ?_⟩
      · rw [execOn_cluster]
        simp only [Hold, cell_execOn hput _ (nodup_cons.mp hnd).2, hsh.cell, hres]
        by_cases hck : c = call.coll ∧ k = call.key
        · -- the primary has the value, the replicas get it
          obtain ⟨rfl, rfl⟩ := hck
          refine ⟨some v, fun n hn => ?_⟩
          have hn : n ∈ p :: replicas := ho ▸ hn
          rcases mem_cons.mp hn with rfl | hn
          · simp [CallOp.result]
          · simp [hn, CallOp.result]
        · obtain ⟨u, hu⟩ := h.hold c k
          refine ⟨u, fun n hn => ?_⟩
          rw [if_neg fun hh => hck hh.2, if_neg fun hh => hck hh.2, hu n hn]
      · exact expiryAt_execOn hput (nodup_cons.mp hnd).2 (h.noTtl_decided hsh n c k)
    · have hw : (w.perform (fun _ => .ok) call).1 = w.setShard p sh :=
        congrArg Prod.fst (heq : w.perform (fun _ => .ok) call = _)
      have hres : call.op.result (w.cell call.coll call.key p) = w.cell call.coll call.key p := by
        rw [CallOp.result_of_primary hop, hd.resolve_right (fun hne => hne rfl), Option.none_or]
      rw [hw]
      refine ⟨fun c k => ?_, h.noTtl_decided hsh⟩
      obtain ⟨u, hu⟩ := h.hold c k
      refine ⟨u, fun n hn => ?_⟩
      rw [hsh.cell, hres]
      split_ifs with hck
      · obtain ⟨rfl, rfl, rfl⟩ := hck
        exact hu n hn
      · exact hu n hn

/-- A call on healthy shards. -/
theorem perform (h : Agreeing w) (hup : AllUp w.cluster) (call : Call) :
    Agreeing (w.perform (fun _ => .ok) call).1 := by
  cases hop : call.shardOp with
  | some op =>
    have hw : (w.perform (fun _ => .ok) call).1 = w.execOn op (w.cluster.owners call.key) := by
      rw [World.perform, World.visitOwners_broadcast hop, World.broadcastLoop_eq,
        takers_ok (hup.up call.key)]
    rw [hw]
    exact h.broadcast hup hop
  | none =>
    by_cases hp : call.op.primary = true
    · exact h.primary hup hp
    · obtain ⟨coll, key, op⟩ := call
      cases op with
      | get => exact h
      | cas expect new | incr delta => exact absurd rfl hp
      | _ => cases hop

end Agreeing

theorem World.perform_cluster (net : ℕ → Outcome) (w : World St) (call : Call) :
    (w.perform net call).1.cluster = w.cluster := by
  cases hop : call.shardOp with
  | some op =>
    rw [perform, visitOwners_broadcast hop, broadcastLoop_eq, execOn_cluster]
  | none =>
    by_cases hp : call.op.primary = true
    · by_cases hc : ∀ p ∈ (w.live (w.cluster.owners call.key)).head?, p ∉ w.cluster.clients
      · obtain ⟨r, -, heq⟩ := visitOwners_unreached net w hp hc
        rw [perform, heq]
      · push Not at hc
        obtain ⟨p, hhead, hc⟩ := hc
        obtain ⟨replicas, hl⟩ := head?_eq_some_iff.mp hhead
        obtain ⟨sh, -, ⟨v, r, -, -, -, heq⟩ | ⟨-, r, -, heq⟩⟩ := visitOwners_primary net w hp hl hc
        · rw [perform, heq, broadcastLoop_eq, execOn_cluster]
          rfl
        · rw [perform, heq]
          split_ifs <;> rfl
    · obtain ⟨coll, key, op⟩ := call
      cases op with
      | get => rfl
      | cas expect new | incr delta => exact absurd rfl hp
      | _ => cases hop

theorem Agreeing.runCalls (calls : List (ℕ × Call)) : ∀ {w : World St}, Agreeing w →
    AllUp w.cluster →
    Agreeing (w.runCalls calls) ∧ (w.runCalls calls).cluster = w.cluster := by
  induction calls with
  | nil => exact fun h _ => ⟨h, rfl⟩
  | cons c calls ih =>
    intro w h hup
    have hcl := perform_cluster (fun _ => .ok) { w with now := w.now + c.1 } c.2
    obtain ⟨h1, h2⟩ := ih ((h.tick c.1).perform hup c.2) (by rw [hcl]; exact hup)
    exact ⟨h1, h2.trans hcl⟩

/-! ### A new cluster -/

section New

variable {ids : List NodeId} (R : ℕ) (colls : List String) (topology : Topology)

omit [IndexStore St] [LawfulCells St] in
/-- The owners of a key in a new cluster: `min R n` different members. -/
theorem owners_new (hids : ids.Nodup) (key : String) :
    let c := (Cluster.new ids R colls).setTopology topology
    (c.owners key).Nodup ∧ (∀ n ∈ c.owners key, n ∈ ids) ∧
      (c.owners key).length = min (max R 1) ids.length := by
  have hown : ((Cluster.new ids R colls).setTopology topology).owners key
      = ((Partitioner.new ids).setTopology topology).ownersOfBucket (bucketOf key)
        (clamp (max R 1) ids.length) := rfl
  dsimp only
  rw [hown]
  refine ⟨Partitioner.nodup_ownersOfBucket _ _ _ hids,
    fun n => Partitioner.ownersOfBucket_subset _ _ _ hids, ?_⟩
  rw [Partitioner.length_ownersOfBucket _ _ _ hids]
  change min (clamp (max R 1) ids.length) ids.length = _
  unfold clamp
  omega

omit [IndexStore St] [LawfulCells St] in
theorem allUp_new (hids : ids.Nodup) :
    AllUp ((Cluster.new ids R colls).setTopology topology) where
  nodup := fun key => (owners_new R colls topology hids key).1
  up := by
    rintro key n hn (hd | hc)
    · exact absurd hd (Finset.notMem_empty n)
    · exact hc (mem_toFinset.mpr ((owners_new R colls topology hids key).2.1 n hn))

end New

/-- **Reads survive the loss of fewer nodes than there are replicas.**  A new cluster over empty
shards has run any calls one after the other.  If then fewer than `min R n` nodes are lost, while the
others are up and answer, every key reads as before. -/
theorem get_eq_of_losses {ids : List NodeId} (hids : ids.Nodup) (R : ℕ)
    (colls : List String) (topology : Topology) {shards : NodeId → Shard St}
    (hempty : ∀ n c k, (∀ t, (shards n).object t c k = none) ∧ (shards n).expiryAt c k = none)
    (now : ℕ) (calls : List (ℕ × Call)) {w : World St}
    (hw : w = World.runCalls ⟨(Cluster.new ids R colls).setTopology topology, shards, now⟩ calls)
    {lost down : Finset NodeId} (hlost : lost.card < min (max R 1) ids.length) (ms : ℕ)
    {net : ℕ → Outcome} {coll key : String}
    (hrest : ∀ n i, (w.cluster.owners key)[i]? = some n → n ∉ lost → n ∉ down ∧ net i = .ok) :
    (w.later ms down).get net coll key = w.get (fun _ => .ok) coll key := by
  have hstart : Agreeing (⟨(Cluster.new ids R colls).setTopology topology, shards, now⟩ : World St) :=
    ⟨fun c k => ⟨none, fun n _ => (hempty n c k).1 now⟩, fun n c k => (hempty n c k).2⟩
  have hup := allUp_new R colls topology hids
  obtain ⟨hagree, hcl⟩ := hstart.runCalls calls hup
  rw [← hw] at hagree hcl
  have hcl : w.cluster = (Cluster.new ids R colls).setTopology topology := hcl
  have hnew := owners_new R colls topology hids key
  rw [← hcl] at hup hnew
  obtain ⟨hnd, -, hlen⟩ := hnew
  -- the owners outnumber the lost nodes
  obtain ⟨n, hn, hnl⟩ : ∃ n ∈ w.cluster.owners key, n ∉ lost := by
    by_contra hall
    push Not at hall
    have hle := Finset.card_le_card fun n hn => hall n (mem_toFinset.mp hn)
    rw [toFinset_card_of_nodup hnd] at hle
    omega
  obtain ⟨i, hi⟩ := mem_iff_getElem?.mp hn
  obtain ⟨v, hv⟩ := hagree.hold coll key
  have hnow : w.get (fun _ => .ok) coll key = v :=
    World.getLoop_of_hold hv ⟨n, i, hi, hup.up key n hn, rfl⟩
  have hlater : (w.later ms down).getLoop coll key net (w.cluster.owners key) = v := by
    refine World.getLoop_of_hold (fun m hm => ?_) ⟨n, i, hi, ?_, (hrest n i hi hnl).2⟩
    · exact (Shard.object_congr_now (hagree.noTtl m coll key) _ _).trans (hv m hm)
    · rintro (hd | hc)
      · exact (hrest n i hi hnl).1 hd
      · exact hup.up key n hn (Or.inr hc)
  exact hlater.trans hnow.symm

/-- Two nodes that hold both copies of `x`, after a put and an increment. -/
def afterIncr : World MemoryStore :=
  World.runCalls ⟨(Cluster.new ["a", "b"] 2 ["kv"]).setTopology ∅, fun n => ⟨n, MemoryStore.new⟩, 0⟩
    [(0, ⟨"kv", "x", .put (.int 1)⟩), (5, ⟨"kv", "x", .incr 2⟩)]

/-- The first owner of `x` does not answer any more. -/
theorem get_afterIncr_of_loss :
    (afterIncr.later 10 ∅).get (fun i => if i = 0 then .failedBefore else .ok) "kv" "x"
      = afterIncr.get (fun _ => .ok) "kv" "x" ∧
    afterIncr.get (fun _ => .ok) "kv" "x" = some (.int 3) := by
  have hlost : ({"b"} : Finset NodeId).card < min (max 2 1) ["a", "b"].length := by decide
  refine ⟨get_eq_of_losses (by decide) 2 ["kv"] ∅ (fun _ _ _ => ⟨fun _ => rfl, rfl⟩) 0 _ rfl hlost 10
    fun n i hi hn => ⟨Finset.notMem_empty n, ?_⟩, by decide +kernel⟩
  have hown : afterIncr.cluster.owners "x" = ["b", "a"] := by decide +kernel
  have hi : (afterIncr.cluster.owners "x")[i]? = some n := hi
  rw [hown] at hi
  cases i with
  | zero =>
    obtain rfl : "b" = n := Option.some.inj hi
    exact absurd (Finset.mem_singleton_self _) hn
  | succ i => rfl

end Stplr
