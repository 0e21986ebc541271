import Stplr.Equiv.ChangeFeed
import Stplr.Equiv.Ingest
import Stplr.Equiv.LmdbScan

/-!
# Page limits

`scan_range`, on either store and over a cluster, and the log in memory look at the limit before they
take an item.  `scan_buckets`, the durable log and the ingest queue look at it after they have taken
one; they keep to every positive limit, and with the limit `0` they take one item if there is one
(`LimitedCall.taken_le_iff`).
-/

namespace Stplr

open Lib

/-- A call that takes a limit, with what it runs on.  The stores of type `St` have the scans of the
trait. -/
inductive LimitedCall (St T : Type) where
  | scanRange (now : ℕ) (s : St) (coll : String) (after start stop : Option String)
  | scanRangeLmdb (s : LmdbStore T) (coll : String) (after start stop : Option String)
  | scanBuckets (now : ℕ) (s : St) (coll : String) (buckets : List ℕ) (after : Option String)
  | scanBucketsLmdb (s : LmdbStore T) (coll : String) (buckets : List ℕ) (after : Option String)
  | scanCluster (w : World St) (remote failed : Finset NodeId) (coll : String)
    (after start stop : Option String)
  | readMemory (log : MemoryChangeLog) (since : ℕ)
  | readLmdb (log : LmdbChangeLog) (since : ℕ)
  | drain (codec : Codec) (sink : ℕ × IngestOp → Bool) (q : IngestQueue)

namespace LimitedCall

variable {St T : Type} [IndexStore St]

/-- The number of items that the call returns, or of operations that it applies. -/
def taken (limit : ℕ) : LimitedCall St T → ℕ
  | .scanRange now s coll after start stop =>
    (IndexStore.scanRange now s coll after start stop limit).length
  | .scanRangeLmdb s coll after start stop => (s.scanRange coll after start stop limit).2.length
  | .scanBuckets now s coll buckets after =>
    (IndexStore.scanBuckets now s coll buckets after limit).length
  | .scanBucketsLmdb s coll buckets after => (s.scanBuckets coll buckets after limit).2.length
  | .scanCluster w remote failed coll after start stop =>
    (w.scanRange remote failed coll after start stop limit).1.length
  | .readMemory log since => (log.read since limit).length
  | .readLmdb log since => (log.read since limit).length
  | .drain codec sink q => (q.drain codec sink limit).2.length

/-- The call finds something to take before it looks at the limit: a key of the buckets after the
cursor, which in the durable store may have expired, an event after the offset, an operation above the
cursor that the sink does not refuse. -/
def TakesFirst : LimitedCall St T → Prop
  | .scanBuckets now s coll buckets after => ∃ k, (IndexStore.getObject now s coll k).isSome ∧
    bucketOf k ∈ buckets ∧ ∀ a ∈ after, a < k
  | .scanBucketsLmdb s coll buckets after => s.Opens ∅ (LmdbStore.objDb coll) ∧
    ∃ k, (s.disk.get (LmdbStore.objDb coll) k).isSome ∧ bucketOf k ∈ buckets ∧ ∀ a ∈ after, a < k
  | .readLmdb log since => ∃ e ∈ log.disk.db.entries, since < e.2.seq
  | .drain codec sink q =>
    ∃ o ∈ (IngestQueue.candidates codec q.disk.queue.entries q.committed).head?, sink o = true
  | _ => False

omit [IndexStore St] in
/-- A page that is cut after one item at least keeps to the limit unless it is cut at `0`. -/
theorem length_page_le_iff (l : List String) (after : Option String) (limit : ℕ) :
    (page (max limit 1) l after).length ≤ limit ↔ (limit = 0 → ¬∃ k ∈ l, ∀ a ∈ after, a < k) := by
  have hnil : above after l = [] ↔ ¬∃ k ∈ l, ∀ a ∈ after, a < k := by
    rw [List.eq_nil_iff_forall_not_mem, not_exists]
    exact forall_congr' fun k => not_congr mem_above
  rw [page, length_take_max_le_iff, hnil]

/-- **Which calls keep to their limit**: all of them, unless the limit is `0` and the call takes an item
first. -/
theorem taken_le_iff [LawfulCells St] (c : LimitedCall St T) (limit : ℕ) :
    c.taken limit ≤ limit ↔ (limit = 0 → ¬c.TakesFirst) := by
  have hfirst : ∀ {n : ℕ}, n ≤ limit → (n ≤ limit ↔ (limit = 0 → ¬False)) := fun hle =>
    iff_of_true hle fun _ => not_false
  cases c with
  | scanRange now s coll after start stop | scanCluster w remote failed coll after start stop
  | readMemory log since =>
    exact hfirst (List.length_take_le ..)
  | scanRangeLmdb s coll after start stop =>
    refine hfirst ?_
    rw [taken, (LmdbStore.scanRange_spec (Or.inl rfl) after start stop limit).2]
    exact List.length_take_le ..
  | scanBuckets now s coll buckets after =>
    rw [taken, IndexStore.scanBuckets_eq, length_page_le_iff]
    simp only [IndexStore.mem_keysOf, and_assoc]
    rfl
  | scanBucketsLmdb s coll buckets after =>
    rw [taken, (LmdbStore.scanBuckets_spec ..).2, length_page_le_iff]
    simp only [List.mem_filter, LmdbStore.mem_listed, LmdbStore.mem_diskKeys, decide_eq_true_eq,
      and_assoc, exists_and_left]
    rfl
  | readLmdb log since =>
    rw [taken, LmdbChangeLog.read_eq, length_take_max_le_iff, List.filterMap_eq_nil_iff]
    simp [TakesFirst]
  | drain codec sink q =>
    rw [taken, IngestQueue.drain_snd, TakesFirst]
    set ops := IngestQueue.candidates codec q.disk.queue.entries q.committed
    by_cases hzero : limit = 0
    · subst hzero
      cases ops with
      | nil => simp
      | cons o ops => cases ho : sink o <;> simp [ho]
    · have hread : ((ops.take (max limit 1)).takeWhile sink).length ≤ max limit 1 :=
        (List.takeWhile_prefix sink).length_le.trans (List.length_take_le ..)
      exact iff_of_true (by omega) fun h => absurd h hzero

/-- One key in memory, scanned by its own bucket. -/
def oneKey : LimitedCall MemoryStore Value :=
  .scanBuckets 0 (MemoryStore.new.putObject "kv" "x" (.int 1)) "kv" [bucketOf "x"] none

/-- A durable log with one event. -/
def oneEvent : LimitedCall MemoryStore Value :=
  .readLmdb ((LmdbChangeLog.openLog ⟨SortedMap.empty, fun _ => none⟩).append "add" "v" "s" "d").1 0

/-- A queue with one operation, drained into a sink that takes it. -/
def oneOp : LimitedCall MemoryStore Value := .drain IngestState.sampleCodec (fun _ => true)
    ((IngestQueue.openQueue ⟨SortedMap.empty, none⟩).enqueue IngestState.sampleCodec
      (IngestState.samplePut "a")).1

theorem taken_le_iff_one : oneKey.taken 1 ≤ 1 ∧ oneEvent.taken 1 ≤ 1 ∧ oneOp.taken 1 ≤ 1 :=
  ⟨(taken_le_iff oneKey 1).mpr fun h => absurd h Nat.one_ne_zero,
    (taken_le_iff oneEvent 1).mpr fun h => absurd h Nat.one_ne_zero,
    (taken_le_iff oneOp 1).mpr fun h => absurd h Nat.one_ne_zero⟩

/-- With the limit `0` each of the three takes its item. -/
theorem taken_zero : oneKey.taken 0 = 1 ∧ oneEvent.taken 0 = 1 ∧ oneOp.taken 0 = 1 := by
  refine ⟨?_, by decide, by decide⟩
  decide +kernel

end LimitedCall

end Stplr
