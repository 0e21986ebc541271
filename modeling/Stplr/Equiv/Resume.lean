import Stplr.Equiv.Loss
import Stplr.Equiv.Partial

/-!
# Resuming a migration that has stopped

The managed contents of a cluster whose replicas agree are one table `σ`: an owner of a key has the
entry that `σ` gives, other nodes have nothing (`Placed`).  Calls that run one after the other act on
the table alone, under an overlay as well as on the ring (`Placed.performAll`), and a migration
changes the owners and not the table.  So a migration that stops after some chunks, lets calls through
and is resumed ends like one that runs through before these calls (`resume_eq_rebalance`).
-/

namespace Stplr

open Lib List World Cluster

/-! ### Slots without expiry -/

namespace Slot

/-- An entry that does not expire, or none. -/
def holding (x : Option Value) : Slot := empty.imported x

variable (x : Option Value) (t : ℕ)

@[simp] theorem object_holding : (holding x).object t = x := by
  cases x <;> rfl

theorem dropped_holding : (holding x).dropped t = holding none := by
  cases x <;> rfl

theorem eq_holding {s : Slot} {x : Option Value} (hexp : s.expiry = none)
    (hobj : ∀ t, s.object t = x) : s = holding x := by
  refine Slot.ext (funext fun t => ?_) ?_
  · rw [hobj, object_holding]
  · rw [hexp]
    cases x <;> rfl

end Slot

/-- A hand-over moves an entry from the old owners to the new ones. -/
theorem Move.handOver_holding {mv : Move} {b : ℕ} (hne : mv.oldOwners b ≠ []) {x : Option Value}
    {s : NodeId → Slot} (hs : ∀ n, s n = .holding (if n ∈ mv.oldOwners b then x else none))
    (t : ℕ) (n : NodeId) :
    mv.handOver ∅ t b s n = .holding (if n ∈ mv.newOwners b then x else none) := by
  obtain ⟨src, hsrc⟩ : ∃ src, (mv.oldOwners b).head? = some src := ⟨_, head?_eq_some_head hne⟩
  rw [handOver]
  split_ifs with h1 h2 h2
  · rw [hs, if_pos h1]
  · rw [hs, if_pos h1, Slot.dropped_holding]
  · -- a gained owner takes the object of the first old owner
    rw [hsrc]
    dsimp only
    rw [if_neg (Finset.notMem_empty src), hs n, hs src, if_neg h1,
      if_pos (mem_of_mem_head? hsrc), Slot.object_holding]
    rfl
  · rw [hs, if_neg h1]

/-! ### Calls on the table of entries -/

/-- What a call makes of the table. -/
def Call.update (call : Call) (σ : String → String → Option Value) :
    String → String → Option Value :=
  fun c k => if c = call.coll ∧ k = call.key then call.op.result (σ c k) else σ c k

/-- What a call without a primary answers. -/
def Call.answer (call : Call) (σ : String → String → Option Value) : Reply :=
  if call.op = .get then .value (σ call.coll call.key) else .done

/-- The table after some calls, and their answers. -/
def tableCalls (σ : String → String → Option Value) :
    List (ℕ × Call) → (String → String → Option Value) × List Reply
  | [] => (σ, [])
  | c :: calls =>
    let rest := tableCalls (c.2.update σ) calls
    (rest.1, c.2.answer σ :: rest.2)

variable {St : Type} [IndexStore St]

/-- The owners of a key, which can all be reached, have the entry that the table gives, and no other
node has one; `rest` are the collections that are not managed. -/
structure Placed (σ : String → String → Option Value) (rest : String → String → NodeId → Slot)
    (w : World St) : Prop where
  up : AllUp w.cluster
  owned : ∀ k, w.cluster.owners k ≠ []
  slot : ∀ c k n, w.slot c k n = if c ∈ w.cluster.colls then
    .holding (if n ∈ w.cluster.owners k then σ c k else none) else rest c k n

section Calls

variable [LawfulCells St] {call : Call} {op : ShardOp}

omit [LawfulCells St] in
theorem touches_shardOp (h : call.shardOp = some op) (now : ℕ) (sh : Shard St) :
    LawfulCells.Touches sh.store (op.exec now sh).store call.coll call.key := by
  obtain ⟨coll, key, cop⟩ := call
  cases cop <;> cases h
  · exact .inr (.inl ⟨_, rfl⟩)
  · exact .inr (.inr rfl)
  · exact LawfulCells.touches_update ..
  · exact LawfulCells.touches_update ..

theorem slot_exec_shardOp (h : call.shardOp = some op) (now : ℕ) {sh : Shard St} {x : Option Value}
    (hx : sh.slot call.coll call.key = .holding x) (c k : String) :
    (op.exec now sh).slot c k = if c = call.coll ∧ k = call.key then
      .holding (call.op.result x) else sh.slot c k := by
  have htouch := touches_shardOp h now sh
  split_ifs with hck
  · obtain ⟨rfl, rfl⟩ := hck
    have hexp : sh.expiryAt call.coll call.key = none := by
      change (sh.slot _ _).expiry = none
      rw [hx]
      cases x <;> rfl
    have hexp' := expiryAt_exec_shardOp h now hexp
    have hobj : sh.object now call.coll call.key = x := by
      change (sh.slot _ _).object now = x
      rw [hx, Slot.object_holding]
    refine Slot.eq_holding hexp' fun t => ?_
    change (op.exec now sh).object t call.coll call.key = _
    rw [Shard.object_congr_now hexp' t now, object_exec_shardOp h, if_pos ⟨rfl, rfl⟩, hobj]
  · refine Slot.ext (funext fun t => ?_) ?_
    · exact htouch.getObject_ne t hck
    · exact htouch.expiryOf_ne hck

theorem World.performAll_cluster (calls : List (ℕ × Call)) : ∀ w : World St,
    (w.performAll calls).1.cluster = w.cluster := by
  induction calls with
  | nil => exact fun _ => rfl
  | cons c calls ih => exact fun w => (ih _).trans (perform_cluster ..)

namespace Placed

variable {σ : String → String → Option Value} {rest : String → String → NodeId → Slot} {w : World St}

/-- One call on healthy shards. -/
theorem perform (h : Placed σ rest w) (hcoll : call.coll ∈ w.cluster.colls)
    (hp : call.op.primary = false) :
    Placed (call.update σ) rest (w.perform (fun _ => .ok) call).1 ∧
      (w.perform (fun _ => .ok) call).2 = call.answer σ := by
  cases hop : call.shardOp with
  | none =>
    have hget : call.op = .get := by
      obtain ⟨coll, key, cop⟩ := call
      cases cop with
      | get => rfl
      | cas expect new => cases hp
      | incr delta => cases hp
      | _ => cases hop
    have hsame : call.update σ = σ := by
      funext c k
      rw [Call.update, hget]
      split_ifs <;> rfl
    have hread : w.get (fun _ => .ok) call.coll call.key = σ call.coll call.key := by
      obtain ⟨n, hn⟩ := exists_mem_of_ne_nil _ (h.owned call.key)
      obtain ⟨i, hi⟩ := mem_iff_getElem?.mp hn
      refine getLoop_of_hold (fun m hm => ?_) ⟨n, i, hi, h.up.up _ n hn, rfl⟩
      change (w.slot call.coll call.key m).object w.now = _
      rw [h.slot, if_pos hcoll, Slot.object_holding, if_pos hm]
    rw [World.perform, World.visitOwners, hget, hsame, Call.answer, if_pos hget, ← hread]
    exact ⟨h, rfl⟩
  | some op =>
    have hw : w.perform (fun _ => .ok) call = (w.execOn op (w.cluster.owners call.key), .done) := by
      rw [World.perform, World.visitOwners_broadcast hop, World.broadcastLoop_eq,
        takers_ok (h.up.up call.key)]
    have hget : call.op ≠ .get := by
      intro hg
      rw [Call.shardOp, hg] at hop
      cases hop
    rw [hw, Call.answer, if_neg hget]
    refine ⟨⟨?_, ?_, fun c k n => ?_⟩, rfl⟩
    · rw [execOn_cluster]
      exact h.up
    · rw [execOn_cluster]
      exact h.owned
    · rw [execOn_cluster]
      change ((w.execOn op _).shards n).slot c k = _
      rw [shards_execOn op (h.up.nodup _)]
      by_cases hn : n ∈ w.cluster.owners call.key
      · have hx : (w.shards n).slot call.coll call.key = .holding (σ call.coll call.key) := by
          rw [← if_pos hn (t := σ call.coll call.key) (e := none)]
          exact (h.slot call.coll call.key n).trans (if_pos hcoll)
        rw [if_pos hn, slot_exec_shardOp hop w.now hx]
        by_cases hck : c = call.coll ∧ k = call.key
        · obtain ⟨rfl, rfl⟩ := hck
          simp [Call.update, hn, hcoll]
        · rw [if_neg hck, Call.update, if_neg hck]
          exact h.slot c k n
      · rw [if_neg hn]
        refine (h.slot c k n).trans ?_
        by_cases hck : c = call.coll ∧ k = call.key
        · obtain ⟨rfl, rfl⟩ := hck
          simp [hn]
        · rw [Call.update, if_neg hck]

/-- Calls that run one after the other act on the table, and answer from it. -/
theorem performAll {calls : List (ℕ × Call)} (h : Placed σ rest w)
    (hops : ∀ c ∈ calls, c.2.coll ∈ w.cluster.colls ∧ c.2.op.primary = false) :
    Placed (tableCalls σ calls).1 rest (w.performAll calls).1 ∧
      (w.performAll calls).2 = (tableCalls σ calls).2 := by
  induction calls generalizing σ w with
  | nil => exact ⟨h, rfl⟩
  | cons c calls ih =>
    have htick : Placed σ rest { w with now := w.now + c.1 } := ⟨h.up, h.owned, h.slot⟩
    obtain ⟨hcoll, hp⟩ := hops c (mem_cons_self ..)
    obtain ⟨hplaced, hreply⟩ := htick.perform hcoll hp
    have hcl := perform_cluster (fun _ => .ok) { w with now := w.now + c.1 } c.2
    obtain ⟨h1, h2⟩ := ih hplaced fun d hd => by
      rw [hcl]
      exact hops d (mem_cons_of_mem _ hd)
    refine ⟨h1, ?_⟩
    change _ :: _ = _ :: _
    rw [hreply, h2]

end Placed

end Calls

/-! ### The owners before, during and after -/

section Owners

variable {σ : String → String → Option Value} {w : World St} {new : List NodeId}

theorem AtRest.sound (h : AtRest σ w) : w.cluster.Sound :=
  ⟨⟨h.down, h.topology, h.nodes_nodup, h.clients⟩, h.overlay, h.replication⟩

/-- The planner and the ring agree on the owners. -/
theorem Rebalanceable.oldOwners_eq (h : Rebalanceable σ w new) (k : String) :
    (w.moveTo new).oldOwners (bucketOf k) = w.cluster.owners k := by
  have hperm : w.cluster.memberIds.Perm w.cluster.partitioner.nodes := perm_insertionSort _ _
  have hhash : DistinctHashes w.cluster.memberIds := fun a ha b hb =>
    h.hashes a (mem_append_left _ (hperm.mem_iff.mp ha)) b (mem_append_left _ (hperm.mem_iff.mp hb))
  rw [h.sound.owners_eq, Move.oldOwners_eq, planNewOwners]
  change (ringOf w.cluster.memberIds _).ownersOfBucket _ (clamp _ w.cluster.memberIds.length) = _
  have hring : (ringOf w.cluster.memberIds w.cluster.topology).nodes.Perm
      (ringOf w.cluster.partitioner.nodes w.cluster.topology).nodes := by
    simpa using hperm
  rw [hperm.length_eq]
  exact Partitioner.ownersOfBucket_perm hring (by simp) (by simpa using hhash) _ _

theorem Cluster.Sound.allUp {cl : Cluster} (h : cl.Sound) : AllUp cl :=
  ⟨fun _ _ hn => h.not_skips hn, h.nodup_owners⟩

variable [LawfulCells St]

theorem Rebalanceable.placed (h : Rebalanceable σ w new) (hne : w.cluster.partitioner.nodes ≠ []) :
    Placed σ w.slot w where
  up := h.sound.allUp
  owned := fun k => by
    rw [← h.oldOwners_eq]
    exact (h.valid hne).oldOwners_ne_nil _
  slot := fun c k n => by
    by_cases hc : c ∈ w.cluster.colls
    · have hexp := h.noTtl n c hc k
      rw [if_pos hc]
      refine Slot.eq_holding hexp fun t => ?_
      exact (Shard.object_congr_now hexp t w.now).trans (h.cells c hc k n)
    · rw [if_neg hc]

/-- A migration that has stopped leaves the entries with the owners that its overlay names. -/
theorem Rebalanceable.placed_migrated (h : Rebalanceable σ w new)
    (hne : w.cluster.partitioner.nodes ≠ []) {L : List (List ℕ)}
    (hL : L <+: w.cluster.migrationChunks w.cluster.memberIds new ∅) :
    Placed σ w.slot (w.migrated (fun _ => .ok) w.cluster.memberIds new ∅ L) := by
  have hvalid := h.valid hne
  have howners := owners_migrated (fun _ => .ok) w w.cluster.memberIds new ∅ L
  simp only [Finset.empty_union, mem_toFinset] at howners
  have hmig := migrates_migrated (fun _ => .ok) w w.cluster.memberIds new ∅ "" "" L
  have hreach := reaches_rebalance h.sound.toStaffed h.new_nodup h.new_clients
  have hslot := fun c k n => slot_migrated_of_silent (c := c) (k := k) (n := n) onlySilent_ok
    (Finset.notMem_empty n) hL (hreach (bucketOf k))
  generalize w.migrated _ _ _ _ _ = w₁ at *
  have hfield : ∀ {α : Type} (f : Cluster → α), f w₁.cluster.base = f w.cluster.base :=
    fun f => congrArg f hmig.base
  have hclients : w₁.cluster.clients = w.cluster.clients := hfield clients
  have hdown : w₁.cluster.down = ∅ := (hfield down).trans h.down
  have hcolls : w₁.cluster.colls = w.cluster.colls := hfield colls
  refine ⟨⟨fun k n hn => ?_, fun k => ?_⟩, fun k => ?_, fun c k n => ?_⟩
  · rintro (hd | hc)
    · rw [hdown] at hd
      exact absurd hd (Finset.notMem_empty n)
    · rw [hclients] at hc
      rw [howners] at hn
      refine hc (hreach (bucketOf k) n ?_)
      split_ifs at hn
      · exact .inr hn
      · exact .inl hn
  · rw [howners]
    split_ifs
    · exact hvalid.nodup_newOwners _
    · exact hvalid.nodup_oldOwners _
  · rw [howners]
    split_ifs
    · exact hvalid.newOwners_ne_nil _
    · exact hvalid.oldOwners_ne_nil _
  · have hplaced := (h.placed hne).slot c k
    rw [← h.oldOwners_eq] at hplaced
    rw [hslot, hcolls, howners]
    by_cases hc : c ∈ w.cluster.colls
    · simp only [hc, true_and, if_true] at hplaced ⊢
      by_cases hb : bucketOf k ∈ L.flatten
      · rw [if_pos hb, if_pos hb]
        exact Move.handOver_holding (hvalid.oldOwners_ne_nil _) hplaced w.now n
      · rw [if_neg hb, if_neg hb]
        exact hplaced n
    · rw [if_neg fun h => hc h.1, if_neg hc]

end Owners

/-! ### From the record to the end -/

section Resume

variable [LawfulCells St] {σ : String → String → Option Value}
  {rest : String → String → NodeId → Slot} {w : World St} {old new : List NodeId} {done : Finset ℕ}

/-- A bucket that is done is not touched again. -/
theorem slot_runMigration_of_done {k : String} (hd : bucketOf k ∈ done) (hdiff : ¬sameMembers old new)
    (hreach : Reaches w.cluster (w.cluster.move old new) (bucketOf k)) (c : String) (n : NodeId) :
    (runMigration (fun _ => .ok) w old new done).slot c k n = w.slot c k n := by
  obtain ⟨w', hw', hrun⟩ := runMigration_eq (fun _ => .ok) w done hdiff
  rw [hrun, slot_setCluster, hw', slot_migrated_of_silent onlySilent_ok
    (Finset.notMem_empty n) (prefix_refl _) hreach]
  refine if_neg fun hm => ?_
  rw [migrationChunks, flatten_chunks w.cluster.chunk_pos] at hm
  exact Move.notMem_of_mem_actionKeys hm.2 hd

/-- If the entries of the buckets done are with their new owners and all others with their old ones,
the migration brings all of them to their new owners. -/
theorem slot_runMigration_holding (hdiff : ¬sameMembers old new)
    (hreach : ∀ b, Reaches w.cluster (w.cluster.move old new) b)
    (hne : ∀ b, (w.cluster.move old new).oldOwners b ≠ [])
    (hslot : ∀ c k n, w.slot c k n = if c ∈ w.cluster.colls then
      .holding (if n ∈ (if bucketOf k ∈ done then (w.cluster.move old new).newOwners (bucketOf k)
        else (w.cluster.move old new).oldOwners (bucketOf k)) then σ c k else none)
      else rest c k n) (c k : String) (n : NodeId) :
    (runMigration (fun _ => .ok) w old new done).slot c k n = if c ∈ w.cluster.colls then
      .holding (if n ∈ (w.cluster.move old new).newOwners (bucketOf k) then σ c k else none)
      else rest c k n := by
  by_cases hd : bucketOf k ∈ done
  · rw [slot_runMigration_of_done hd hdiff (hreach _), hslot, if_pos hd]
  · rw [slot_runMigration onlySilent_ok (Finset.notMem_empty n) hd hdiff (hreach _)]
    by_cases hc : c ∈ w.cluster.colls
    · rw [if_pos hc, if_pos hc]
      refine Move.handOver_holding (hne _) (fun m => ?_) w.now n
      rw [hslot, if_pos hc, if_neg hd]
    · rw [if_neg hc, if_neg hc, hslot, if_neg hc]

variable (net : MigCall → Outcome)

omit [LawfulCells St] in
theorem journal_runMigration (w : World St) (old new : List NodeId) (done : Finset ℕ) :
    (runMigration net w old new done).cluster.journal = none := by
  by_cases hsame : sameMembers old new
  · rw [runMigration, if_pos hsame]
    rfl
  · obtain ⟨w', -, hrun⟩ := runMigration_eq net w done hsame
    rw [hrun]
    rfl

theorem colls_runMigration (w : World St) (old new : List NodeId) (done : Finset ℕ) :
    (runMigration net w old new done).cluster.colls = w.cluster.colls := by
  obtain ⟨hbase, -, -⟩ := base_runMigration net w old new done
  have hfield : ∀ {α : Type} (f : Cluster → α),
      f (runMigration net w old new done).cluster.base = f (w.cluster.commit new).base :=
    fun f => congrArg f hbase
  exact hfield colls

/-- A rebalance on healthy shards brings the entries to the owners on the new ring. -/
theorem Rebalanceable.placed_rebalance (h : Rebalanceable σ w new)
    (hne : w.cluster.partitioner.nodes ≠ []) (hdiff : ¬sameMembers w.cluster.memberIds new) :
    Placed σ w.slot (rebalance (fun _ => .ok) w new) := by
  have hvalid := h.valid hne
  have hreach := reaches_rebalance h.sound.toStaffed h.new_nodup h.new_clients
  obtain ⟨hsound, howners⟩ := sound_rebalance (fun _ => .ok) h.sound h.new_nodup h.new_clients
  have hcolls := colls_runMigration (fun _ => .ok) w w.cluster.memberIds new ∅
  rw [← rebalance] at hcolls
  refine ⟨hsound.allUp, fun k => ?_, fun c k n => ?_⟩
  · rw [howners]
    exact hvalid.newOwners_ne_nil _
  · rw [hcolls, howners]
    refine slot_runMigration_holding hdiff hreach hvalid.oldOwners_ne_nil (fun c k n => ?_) c k n
    rw [if_neg (Finset.notMem_empty _)]
    change _ = if _ then Slot.holding (if n ∈ (w.moveTo new).oldOwners _ then _ else _) else _
    rw [h.oldOwners_eq]
    exact (h.placed hne).slot c k n

omit [LawfulCells St] in
/-- With chunks enough, the partial call is the full one. -/
theorem rebalancePartial_eq_rebalance {max : ℕ} (h : sameMembers w.cluster.memberIds new ∨
      (w.cluster.migrationChunks w.cluster.memberIds new ∅).length ≤ max) :
    rebalancePartial net w new max = rebalance net w new := by
  rw [rebalancePartial, rebalance]
  by_cases hsame : sameMembers w.cluster.memberIds new
  · rw [runMigrationPartial, if_pos hsame, runMigration, if_pos hsame]
  · have hlen := h.resolve_left hsame
    obtain ⟨w₁, hw₁, hpart⟩ := runMigrationPartial_eq net w ∅ max hsame
    obtain ⟨w₂, hw₂, hfull⟩ := runMigration_eq net w ∅ hsame
    rw [take_of_length_le hlen] at hw₁
    rw [hpart, if_neg (Nat.not_lt.mpr hlen), hfull, hw₁, hw₂]

omit [IndexStore St] [LawfulCells St] in
/-- A plan with chunks has members to move from. -/
theorem Cluster.nodes_ne_nil_of_chunks {cl : Cluster}
    (h : cl.migrationChunks cl.memberIds new ∅ ≠ []) : cl.partitioner.nodes ≠ [] := by
  intro hnil
  have hids : cl.memberIds = [] := by
    rw [memberIds, hnil]
    rfl
  have hold : ∀ b, (cl.move cl.memberIds new).oldOwners b = [] := fun b => by
    rw [hids]
    rfl
  refine h ?_
  rw [migrationChunks]
  have hkeys : (actionsOf (cl.move cl.memberIds new).plan ∅).entries.map Prod.fst = [] := by
    refine eq_nil_iff_forall_not_mem.mpr fun b hb => ?_
    obtain ⟨⟨src, dst⟩ | n, ha⟩ := Move.mem_actionKeys_iff.mp hb
    · obtain ⟨-, hhead, -⟩ := Move.mem_planCopies.mp (Move.mem_actionList_inl.mp ha).2
      rw [hold] at hhead
      cases hhead
    · obtain ⟨-, hn, -⟩ := Move.mem_planDrops.mp (Move.mem_actionList_inr.mp ha).2
      rw [hold] at hn
      exact absurd hn not_mem_nil
  rw [hkeys]
  rfl

omit [IndexStore St] [LawfulCells St] in
theorem Cluster.setTarget_self (cl : Cluster) : cl.setTarget cl.replicationTarget = cl := by
  have hmax : Nat.max cl.replicationTarget 1 = cl.replicationTarget := max_eq_left cl.target_pos
  obtain ⟨⟩ := cl
  simpa [setTarget] using hmax

/-- What a resume from the record of a migration that has stopped leaves, whatever the table is by
then. -/
theorem Rebalanceable.resume (h : Rebalanceable σ w new) (hne : w.cluster.partitioner.nodes ≠ [])
    (hdiff : ¬sameMembers w.cluster.memberIds new) (L : List (List ℕ)) {w₂ : World St}
    (hcl : w₂.cluster = (w.migrated (fun _ => .ok) w.cluster.memberIds new ∅ L).cluster)
    {τ : String → String → Option Value} (hplaced : Placed τ w.slot w₂) :
    (∀ c k n, (resumeMigration (fun _ => .ok) w₂).slot c k n = if c ∈ w.cluster.colls then
      .holding (if n ∈ (w.moveTo new).newOwners (bucketOf k) then τ c k else none)
      else w.slot c k n) ∧
    (resumeMigration (fun _ => .ok) w₂).cluster.base = (w.cluster.commit new).base ∧
    (resumeMigration (fun _ => .ok) w₂).cluster.journal = none := by
  have hvalid := h.valid hne
  have hbase := (migrates_migrated (fun _ => .ok) w w.cluster.memberIds new ∅ "" "" L).base
  have hjournal := journal_migrated (fun _ => .ok) w w.cluster.memberIds new ∅ L
  have howners := owners_migrated (fun _ => .ok) w w.cluster.memberIds new ∅ L
  have hreach := reaches_rebalance h.sound.toStaffed h.new_nodup h.new_clients
  rw [← hcl] at hbase hjournal
  simp only [← hcl] at howners
  have hfield : ∀ {α : Type} (f : Cluster → α), f w₂.cluster.base = f w.cluster.base :=
    fun f => congrArg f hbase
  have htarget : w₂.cluster.replicationTarget = w.cluster.replicationTarget :=
    hfield replicationTarget
  have hclients : w₂.cluster.clients = w.cluster.clients := hfield clients
  have hcolls : w₂.cluster.colls = w.cluster.colls := hfield colls
  have hmove : w₂.cluster.move w.cluster.memberIds new = w.cluster.move w.cluster.memberIds new :=
    hfield fun cl => cl.move w.cluster.memberIds new
  have hcommit : (w₂.cluster.commit new).base = (w.cluster.commit new).base :=
    hfield fun cl => (cl.commit new).base
  -- the record has the target of the cluster, so restoring it changes nothing
  have hresume : resumeMigration (fun _ => .ok) w₂ = runMigration (fun _ => .ok) w₂
      w.cluster.memberIds new (∅ ∪ L.flatten.toFinset) := by
    have hset : w₂.setCluster (w₂.cluster.setTarget w.cluster.replicationTarget) = w₂ := by
      rw [← htarget, setTarget_self]
      rfl
    rw [resumeMigration, hjournal]
    dsimp only
    rw [hset]
  rw [hresume]
  refine ⟨fun c k n => ?_, (base_runMigration ..).1.trans hcommit, journal_runMigration ..⟩
  have hslot := fun c k n => hplaced.slot c k n
  simp only [howners, ← hmove] at hslot
  have hend := slot_runMigration_holding hdiff
    (fun b m hm => by rw [hmove] at hm; rw [hclients]; exact hreach b m hm)
    (by rw [hmove]; exact hvalid.oldOwners_ne_nil) hslot c k n
  rw [hcolls, hmove] at hend
  exact hend

/-- **Resuming is going on.**  A rebalance that stops after `max` chunks, lets calls through and is
resumed from its record ends like a rebalance that runs through before these calls, and the calls
answer the same. -/
theorem resume_eq_rebalance (h : Rebalanceable σ w new) (max : ℕ) {calls : List (ℕ × Call)}
    (hops : ∀ c ∈ calls, c.2.coll ∈ w.cluster.colls ∧ c.2.op.primary = false) :
    let stopped := (rebalancePartial (fun _ => .ok) w new max).performAll calls
    let whole := (rebalance (fun _ => .ok) w new).performAll calls
    let resumed := resumeMigration (fun _ => .ok) stopped.1
    stopped.2 = whole.2 ∧ (∀ c k n, resumed.slot c k n = whole.1.slot c k n) ∧
      resumed.cluster.memberIds = whole.1.cluster.memberIds ∧
      resumed.cluster.replication = whole.1.cluster.replication ∧
      resumed.cluster.journal = none ∧ whole.1.cluster.journal = none := by
  intro stopped whole resumed
  have hjournal : whole.1.cluster.journal = none := by
    rw [World.performAll_cluster]
    exact journal_runMigration ..
  by_cases hend : sameMembers w.cluster.memberIds new ∨
      (w.cluster.migrationChunks w.cluster.memberIds new ∅).length ≤ max
  · -- the partial call was the whole rebalance, and there is nothing to resume
    have hsame : stopped = whole := by
      rw [show stopped = (rebalancePartial (fun _ => .ok) w new max).performAll calls from rfl,
        rebalancePartial_eq_rebalance _ hend]
    have hnone : resumed = whole.1 := by
      change resumeMigration _ stopped.1 = _
      rw [hsame, resumeMigration, hjournal]
    rw [hsame, hnone]
    exact ⟨rfl, fun _ _ _ => rfl, rfl, rfl, hjournal, hjournal⟩
  · rw [not_or, not_le] at hend
    obtain ⟨hdiff, hlt⟩ := hend
    have hne : w.cluster.partitioner.nodes ≠ [] :=
      Cluster.nodes_ne_nil_of_chunks (ne_nil_of_length_pos (Nat.zero_lt_of_lt hlt))
    obtain ⟨w₁, hw₁, hpart⟩ := runMigrationPartial_eq (fun _ => .ok) w ∅ max hdiff
    rw [if_pos hlt] at hpart
    have hstopped : stopped = w₁.performAll calls := congrArg (fun w => w.performAll calls) hpart
    -- the stopped side
    have hplaced₁ : Placed σ w.slot w₁ := by
      rw [hw₁]
      exact h.placed_migrated hne ( take_prefix ..)
    have hops₁ : ∀ c ∈ calls, c.2.coll ∈ w₁.cluster.colls ∧ c.2.op.primary = false := by
      have hbase := (migrates_migrated (fun _ => .ok) w w.cluster.memberIds new ∅ "" ""
        ((w.cluster.migrationChunks w.cluster.memberIds new ∅).take max)).base
      rw [← hw₁] at hbase
      have hcolls : w₁.cluster.base.colls = w.cluster.base.colls := by rw [hbase]
      exact hcolls ▸ hops
    obtain ⟨hend₁, hreplies₁⟩ := hplaced₁.performAll hops₁
    obtain ⟨hslot, hbase, hnone⟩ := h.resume hne hdiff _
      ((World.performAll_cluster calls w₁).trans (congrArg World.cluster hw₁)) hend₁
    -- the other side
    have hops₂ : ∀ c ∈ calls, c.2.coll ∈ (rebalance (fun _ => .ok) w new).cluster.colls ∧
        c.2.op.primary = false := by
      rw [rebalance, colls_runMigration]
      exact hops
    obtain ⟨hend₂, hreplies₂⟩ := (h.placed_rebalance hne hdiff).performAll hops₂
    have hcl : whole.1.cluster = (rebalance (fun _ => .ok) w new).cluster :=
      World.performAll_cluster ..
    have hbase₂ : whole.1.cluster.base = (w.cluster.commit new).base := by
      rw [hcl]
      exact (base_runMigration ..).1
    rw [← hstopped] at hslot hbase hnone hreplies₁
    have hbases : resumed.cluster.base = whole.1.cluster.base := hbase.trans hbase₂.symm
    refine ⟨hreplies₁.trans hreplies₂.symm, fun c k n => ?_, ?_, ?_, hnone, hjournal⟩
    · refine (hslot c k n).trans (Eq.trans ?_ (hend₂.slot c k n).symm)
      obtain ⟨-, howners⟩ := sound_rebalance (fun _ => .ok) h.sound h.new_nodup h.new_clients
      rw [World.performAll_cluster, howners, rebalance, colls_runMigration]
      rfl
    · exact congrArg (fun cl => cl.memberIds) hbases
    · exact congrArg (fun cl => cl.replication) hbases

end Resume

/-- Empty shards, a stop after one chunk, and calls on two keys in between. -/
theorem resume_blankWorld :
    let w := blankWorld (clusterWith ["a"] "b")
    let calls : List (ℕ × Call) :=
      [(0, ⟨"kv", "fhc", .put (.int 1)⟩), (5, ⟨"kv", "x", .setAdd "m"⟩), (1, ⟨"kv", "fhc", .get⟩)]
    let stopped := (rebalancePartial (fun _ => .ok) w ["b"] 1).performAll calls
    let whole := (rebalance (fun _ => .ok) w ["b"]).performAll calls
    let resumed := resumeMigration (fun _ => .ok) stopped.1
    stopped.2 = whole.2 ∧ (∀ c k n, resumed.slot c k n = whole.1.slot c k n) ∧
      resumed.cluster.memberIds = whole.1.cluster.memberIds ∧
      resumed.cluster.replication = whole.1.cluster.replication ∧
      resumed.cluster.journal = none ∧ whole.1.cluster.journal = none :=
  resume_eq_rebalance rebalanceable_aToB 1 (by decide)

end Stplr
