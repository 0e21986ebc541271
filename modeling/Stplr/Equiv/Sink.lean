import Stplr.Equiv.Ingest
import Stplr.Equiv.Loss
import Stplr.Sink

/-!
# What a drain into the cluster commits

The sink never fails, so the cursor moves past every operation that is read (`drainTo_queue`), whether
or not a shard has executed it.  `executors` are the owners that do.  The shards are followed from one
operation to the next (`drainedTo`): `executed_iff` says when every operation that the cursor passes
has left one of its owners with the shard that the operation makes of the one before.
-/

namespace Stplr

open Lib IngestQueue World List

variable {St : Type} [IndexStore St]

/-- The owners that execute the operation with number `seq`. -/
def executors (faults : ℕ → Faults) (w : World St) (seq : ℕ) (op : IngestOp) : List NodeId :=
  takers { w.cluster with down := (faults seq).down } (faults seq).net
    (w.cluster.owners op.call.key)

/-- What the executors of an operation are asked to do. -/
def IngestOp.shardOp : IngestOp → ShardOp
  | .put coll key value => .writeObject coll key value
  | .setAdd coll key member => .setAdd coll key member
  | .setRemove coll key member => .setRemove coll key member
  | .delete coll key => .deleteObject coll key

theorem IngestOp.call_shardOp (op : IngestOp) : op.call.shardOp = some op.shardOp := by
  cases op <;> rfl

variable (faults : ℕ → Faults) (ops : List (ℕ × IngestOp)) (w : World St)

theorem World.apply_eq (seq : ℕ) (op : IngestOp) :
    (w.apply (faults seq) op).1
      = (w.later 0 (faults seq).down).execOn op.shardOp (executors faults w seq op) := by
  unfold apply perform
  rw [visitOwners_broadcast op.call_shardOp, broadcastLoop_eq]
  rfl

/-- The loop applies the whole batch. -/
theorem World.applyOps_snd :
    ∀ (w : World St) (lastOk : ℕ), (w.applyOps faults ops lastOk).2
      = (applyLoop (fun _ => true) ops lastOk []).1 := by
  induction ops with
  | nil => exact fun _ _ => rfl
  | cons o ops ih =>
    intro w lastOk
    rw [applyLoop, if_pos rfl, applyLoop_acc]
    exact ih _ _

/-- The queue after a drain into the cluster is that of a drain whose sink succeeds. -/
theorem World.drainTo_queue (codec : Codec) (faults : ℕ → Faults) (limit : ℕ) (w : World St)
    (q : IngestQueue) :
    (w.drainTo codec faults limit q).2 = (q.drain codec (fun _ => true) limit).1 := by
  unfold drainTo IngestQueue.drain
  dsimp only
  rw [applyOps_snd]
  split_ifs <;> rfl

theorem pairwise_read (codec : Codec) (q : IngestQueue) (limit : ℕ) :
    (readUncommitted codec q.disk q.committed limit).Pairwise fun a b => a.1 < b.1 := by
  rw [readUncommitted_eq]
  exact (pairwise_candidates codec q.disk.queue.sorted q.committed).sublist (take_sublist ..)

/-- The cursor passes exactly the operations that are read. -/
theorem mem_read_iff_passed {codec : Codec} {q : IngestQueue} {seq : ℕ} {op : IngestOp} (limit : ℕ)
    (hread : codec.fromText (codec.toText op) = some op)
    (hst : (seq, codec.toText op) ∈ q.disk.queue.entries) :
    (seq, op) ∈ readUncommitted codec q.disk q.committed limit ↔
      q.committed < seq ∧ seq ≤ (q.drain codec (fun _ => true) limit).1.committed := by
  have hops := readUncommitted_eq codec q.disk q.committed limit
  constructor
  · intro hmem
    have hlt : q.committed < seq := (mem_candidates.mp (mem_of_mem_take (hops ▸ hmem))).1
    refine ⟨hlt, ?_⟩
    -- the cursor ends at the last operation read
    have hsorted := pairwise_read codec q limit
    rw [drain, applyLoop_true]
    generalize readUncommitted codec q.disk q.committed limit = ops at hmem hsorted
    obtain ⟨init, o, rfl⟩ := eq_nil_or_concat' ops |>.resolve_left (ne_nil_of_mem hmem)
    have hle : seq ≤ o.1 := by
      rcases mem_append.mp hmem with hm | hm
      · exact ((pairwise_append.mp hsorted).2.2 _ hm o (mem_singleton.mpr rfl)).le
      · rw [← mem_singleton.mp hm]
    simp only [getLast?_append, getLast?_singleton, Option.some_or, Option.map_some,
      Option.getD_some]
    rw [if_pos (lt_of_lt_of_le hlt hle), compact_committed]
    exact hle
  · rintro ⟨hlt, hle⟩
    rcases drain_progress (e := (seq, op)) limit hread hst hlt with hin | ⟨-, -, hgt⟩
    · rw [drain, applyLoop_true] at hin
      split_ifs at hin <;> simpa using hin
    · omega

/-- The operation is stored in the queue under the number, and its text reads as the operation. -/
def Queued (codec : Codec) (q : IngestQueue) (seq : ℕ) (op : IngestOp) : Prop :=
  (seq, codec.toText op) ∈ q.disk.queue.entries ∧ codec.fromText (codec.toText op) = some op

/-! ### The shards from one operation to the next -/

theorem World.applyOps_fst :
    ∀ (w : World St) (lastOk : ℕ), (w.applyOps faults ops lastOk).1
      = ops.foldl (fun w o => (w.apply (faults o.1) o.2).1) w := by
  induction ops with
  | nil => exact fun _ _ => rfl
  | cons o ops ih => exact fun _ _ => ih _ _

/-- The cluster when a drain has applied the first `i` operations that it reads. -/
def World.drainedTo (codec : Codec) (faults : ℕ → Faults) (limit : ℕ) (w : World St)
    (q : IngestQueue) (i : ℕ) : World St :=
  (w.applyOps faults ((readUncommitted codec q.disk q.committed limit).take i) q.committed).1

variable {codec : Codec} {limit : ℕ} {q : IngestQueue} {w} {faults} {i : ℕ}

theorem World.drainedTo_succ {seq : ℕ} {op : IngestOp}
    (hi : (readUncommitted codec q.disk q.committed limit)[i]? = some (seq, op)) :
    w.drainedTo codec faults limit q (i + 1)
      = ((w.drainedTo codec faults limit q i).apply (faults seq) op).1 := by
  simp [drainedTo, applyOps_fst, take_add_one, hi]

/-- A drain changes neither the routes nor the clients. -/
theorem World.drainedTo_cluster (codec : Codec) (faults : ℕ → Faults) (limit : ℕ) (w : World St)
    (q : IngestQueue) (i : ℕ) :
    (∃ down, (w.drainedTo codec faults limit q i).cluster = { w.cluster with down }) ∧
      (w.drainedTo codec faults limit q i).now = w.now := by
  rw [drainedTo, applyOps_fst]
  generalize (readUncommitted codec q.disk q.committed limit).take i = ops
  induction ops using reverseRecOn with
  | nil => exact ⟨⟨w.cluster.down, rfl⟩, rfl⟩
  | append_singleton ops o ih =>
    obtain ⟨⟨down, hc⟩, hnow⟩ := ih
    rw [foldl_append, foldl_cons, foldl_nil, apply_eq, execOn_cluster, execOn_now]
    exact ⟨⟨(faults o.1).down, by rw [later, setCluster, hc]⟩, hnow⟩

/-- What the operation leaves on a node. -/
theorem World.shards_drainedTo_succ {seq : ℕ} {op : IngestOp}
    (hnd : (w.cluster.owners op.call.key).Nodup)
    (hi : (readUncommitted codec q.disk q.committed limit)[i]? = some (seq, op)) (n : NodeId) :
    (w.drainedTo codec faults limit q (i + 1)).shards n = if n ∈ executors faults w seq op
          then op.shardOp.exec w.now ((w.drainedTo codec faults limit q i).shards n)
          else (w.drainedTo codec faults limit q i).shards n := by
  obtain ⟨⟨down, hc⟩, hnow⟩ := drainedTo_cluster codec faults limit w q i
  rw [drainedTo_succ hi, apply_eq]
  have hexec : executors faults (w.drainedTo codec faults limit q i) seq op
      = executors faults w seq op := by
    rw [executors, hc]
    rfl
  have hndup : (executors faults w seq op).Nodup := hnd.sublist (takers_sublist ..)
  rw [hexec, shards_execOn _ hndup]
  have hlater : ((w.drainedTo codec faults limit q i).later 0 (faults seq).down).now = w.now := hnow
  rw [hlater]
  rfl

omit [IndexStore St] in
theorem mem_executors {seq : ℕ} {op : IngestOp} {n : NodeId} :
    n ∈ executors faults w seq op ↔
      ∃ j, (w.cluster.owners op.call.key)[j]? = some n ∧ n ∉ (faults seq).down ∧
        n ∈ w.cluster.clients ∧ ((faults seq).net j).effective = true := by
  refine mem_takers.trans (exists_congr fun j => ?_)
  simp [Cluster.skips, and_assoc]

/-- **When everything that a drain commits has reached a shard.**  Every operation that the cursor
passes leaves one of its owners with the shard after the operation iff each operation that is read has
an owner that is up, has a client and takes the call, or one on which it changes nothing. -/
theorem executed_iff (codec : Codec) (faults : ℕ → Faults) (limit : ℕ) (w : World St)
    (q : IngestQueue) (hnd : ∀ key, (w.cluster.owners key).Nodup) :
    (∀ seq op, Queued codec q seq op → q.committed < seq →
      seq ≤ (w.drainTo codec faults limit q).2.committed →
      ∃ i, (readUncommitted codec q.disk q.committed limit)[i]? = some (seq, op) ∧
        ∃ n ∈ w.cluster.owners op.call.key, (w.drainedTo codec faults limit q (i + 1)).shards n
            = op.shardOp.exec w.now ((w.drainedTo codec faults limit q i).shards n)) ↔
    ∀ i seq op, Queued codec q seq op →
      (readUncommitted codec q.disk q.committed limit)[i]? = some (seq, op) →
      ∃ j n, (w.cluster.owners op.call.key)[j]? = some n ∧
        (n ∉ (faults seq).down ∧ n ∈ w.cluster.clients ∧ ((faults seq).net j).effective = true ∨
          op.shardOp.exec w.now ((w.drainedTo codec faults limit q i).shards n)
            = (w.drainedTo codec faults limit q i).shards n) := by
  rw [drainTo_queue]
  -- one operation: a taker runs it, and on any other owner it has to change nothing
  have hone : ∀ {i seq op}, (readUncommitted codec q.disk q.committed limit)[i]? = some (seq, op) →
      ((∃ n ∈ w.cluster.owners op.call.key, (w.drainedTo codec faults limit q (i + 1)).shards n
            = op.shardOp.exec w.now ((w.drainedTo codec faults limit q i).shards n)) ↔
        ∃ j n, (w.cluster.owners op.call.key)[j]? = some n ∧
          (n ∉ (faults seq).down ∧ n ∈ w.cluster.clients ∧ ((faults seq).net j).effective = true ∨
            op.shardOp.exec w.now ((w.drainedTo codec faults limit q i).shards n)
              = (w.drainedTo codec faults limit q i).shards n)) := by
    intro i seq op hi
    constructor
    · rintro ⟨n, hn, heq⟩
      rw [shards_drainedTo_succ (hnd _) hi] at heq
      split_ifs at heq with hex
      · obtain ⟨j, hj, htakes⟩ := mem_executors.mp hex
        exact ⟨j, n, hj, .inl htakes⟩
      · obtain ⟨j, hj⟩ := List.mem_iff_getElem?.mp hn
        exact ⟨j, n, hj, .inr heq.symm⟩
    · rintro ⟨j, n, hj, hn⟩
      refine ⟨n, List.mem_of_getElem? hj, ?_⟩
      rw [shards_drainedTo_succ (hnd _) hi]
      split_ifs with hex
      · rfl
      · rcases hn with htakes | heq
        · exact absurd (mem_executors.mpr ⟨j, hj, htakes⟩) hex
        · exact heq.symm
  constructor
  · intro h i seq op hq hi
    obtain ⟨hlt, hle⟩ := (mem_read_iff_passed limit hq.2 hq.1).mp (List.mem_of_getElem? hi)
    obtain ⟨i', hi', hex⟩ := h seq op hq hlt hle
    -- an operation is read once
    have hii : i' = i := (List.getElem?_inj (List.getElem?_eq_some_iff.mp hi').1
      ((pairwise_read codec q limit).imp fun hlt heq => hlt.ne (congrArg Prod.fst heq))).mp
      (hi'.trans hi.symm)
    exact hii ▸ (hone hi').mp hex
  · intro h seq op hq hlt hle
    have hmem := (mem_read_iff_passed limit hq.2 hq.1).mpr ⟨hlt, hle⟩
    obtain ⟨i, hi⟩ := List.mem_iff_getElem?.mp hmem
    exact ⟨i, hi, (hone hi).mpr (h i seq op hq hi)⟩

/-! ### One put, two nodes -/

open IngestState in
/-- A queue that has accepted one put. -/
def onePut : IngestQueue :=
  ((openQueue ⟨SortedMap.empty, none⟩).enqueue sampleCodec (samplePut "a")).1

/-- A cluster of two nodes that keeps every entry on both. -/
def twoNodes : World MemoryStore := blankWorld (Cluster.new ["n1", "n2"] 2 ["kv"])

/-- The nodes that are marked down throughout; every call is answered. -/
def downNodes (down : Finset NodeId) : ℕ → Faults := fun _ => ⟨down, fun _ => .ok⟩

theorem read_onePut :
    readUncommitted IngestState.sampleCodec onePut.disk onePut.committed 1024
      = [(1, IngestState.samplePut "a")] := by
  decide +kernel

theorem queued_onePut : Queued IngestState.sampleCodec onePut 1 (IngestState.samplePut "a") := by
  constructor <;> decide +kernel

/-- With one node down the put reaches the other one. -/
theorem executed_iff_oneDown :
    ∃ i, (readUncommitted IngestState.sampleCodec onePut.disk onePut.committed 1024)[i]?
        = some (1, IngestState.samplePut "a") ∧
      ∃ n ∈ twoNodes.cluster.owners "a",
        (twoNodes.drainedTo IngestState.sampleCodec (downNodes {"n1"}) 1024 onePut (i + 1)).shards n
          = (IngestState.samplePut "a").shardOp.exec 0
            ((twoNodes.drainedTo IngestState.sampleCodec (downNodes {"n1"}) 1024 onePut i).shards
              n) := by
  have hnd : ∀ key, (twoNodes.cluster.owners key).Nodup := (allUp_new 2 ["kv"] _ (by decide)).nodup
  refine (executed_iff IngestState.sampleCodec (downNodes {"n1"}) 1024 twoNodes onePut hnd).mpr ?_
    1 (IngestState.samplePut "a") queued_onePut (by decide +kernel) (by decide +kernel)
  intro i seq op _ hi
  rw [read_onePut, getElem?_singleton] at hi
  split_ifs at hi with h0
  obtain ⟨rfl, rfl⟩ := Prod.mk.inj (Option.some.inj hi)
  obtain ⟨j, hj⟩ : ∃ j, (twoNodes.cluster.owners "a")[j]? = some "n2" :=
    mem_iff_getElem?.mp (by decide +kernel)
  exact ⟨j, "n2", hj, .inl ⟨by decide, by decide, rfl⟩⟩

/-- With both nodes down the put is committed and trimmed, and neither of them is left with the shard
that the put would make. -/
theorem committed_of_allDown :
    let down := downNodes {"n1", "n2"}
    let r := twoNodes.drainTo IngestState.sampleCodec down 1024 onePut
    Queued IngestState.sampleCodec onePut 1 (IngestState.samplePut "a") ∧
    onePut.committed = 0 ∧ r.2.committed = 1 ∧ r.2.disk.queue.entries = [] ∧
    ¬∃ i, (readUncommitted IngestState.sampleCodec onePut.disk onePut.committed 1024)[i]?
        = some (1, IngestState.samplePut "a") ∧
      ∃ n ∈ twoNodes.cluster.owners "a",
        (twoNodes.drainedTo IngestState.sampleCodec down 1024 onePut (i + 1)).shards n
          = (IngestState.samplePut "a").shardOp.exec 0
            ((twoNodes.drainedTo IngestState.sampleCodec down 1024 onePut i).shards n) := by
  refine ⟨queued_onePut, by decide +kernel, by decide +kernel, by decide +kernel, ?_⟩
  rintro ⟨i, hi, n, hn, heq⟩
  rw [read_onePut, getElem?_singleton] at hi
  split_ifs at hi with h0
  subst h0
  have hcells : ∀ n ∈ twoNodes.cluster.owners "a",
      ((twoNodes.drainedTo IngestState.sampleCodec (downNodes {"n1", "n2"}) 1024 onePut
          1).shards n).object 0 "kv" "a"
        ≠ ((IngestState.samplePut "a").shardOp.exec 0
          ((twoNodes.drainedTo IngestState.sampleCodec (downNodes {"n1", "n2"}) 1024 onePut
            0).shards n)).object 0 "kv" "a" := by
    decide +kernel
  exact hcells n hn (congrArg (fun s => s.object 0 "kv" "a") heq)

end Stplr
