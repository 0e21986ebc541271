import Stplr.Ingest
import Stplr.Perform

/-!
# The cluster as the sink of the ingest queue

`impl WriteSink for Cluster` runs the routed write of a queued operation and reports success, whatever
the shards answer.  `World.drainTo` is `drain` with this sink: `faults seq` says which nodes are marked
down while the operation with number `seq` is applied, and how its shard calls end.

A write comes in as a `WriteBody`, on one of two routes: it is executed (`World.write`), or accepted as
a queued operation (`WriteBody.op`), which has no room for a time to live.

The last part is a drain that the process may not survive.  The operations that it has applied are
applied again after the restart unless the cursor has reached the disk.
-/

namespace Stplr

/-- The write that applies a queued operation. -/
def IngestOp.call : IngestOp → Call
  | .put coll key value => ⟨coll, key, .put value⟩
  | .setAdd coll key member => ⟨coll, key, .setAdd member⟩
  | .setRemove coll key member => ⟨coll, key, .setRemove member⟩
  | .delete coll key => ⟨coll, key, .delete⟩

/-- The state of the shards while one operation is applied. -/
structure Faults where
  down : Finset NodeId
  net : ℕ → Outcome

namespace World

variable {St : Type} [IndexStore St]

/-- `WriteSink::apply` of the cluster. -/
def apply (f : Faults) (w : World St) (op : IngestOp) : World St × Bool :=
  (((w.later 0 f.down).perform f.net op.call).1, true)

/-- The loop of `drain`: applies operations until the sink fails; returns the last sequence number
that succeeded. -/
def applyOps (faults : ℕ → Faults) : World St → List (ℕ × IngestOp) → ℕ → World St × ℕ
  | w, [], lastOk => (w, lastOk)
  | w, (seq, op) :: ops, lastOk =>
    let r := w.apply (faults seq) op
    if r.2 then applyOps faults r.1 ops seq else (r.1, lastOk)

/-- `drain` into the cluster. -/
def drainTo (codec : Codec) (faults : ℕ → Faults) (limit : ℕ) (w : World St) (q : IngestQueue) :
    World St × IngestQueue :=
  let start := q.committed
  let r := w.applyOps faults (IngestQueue.readUncommitted codec q.disk start limit) start
  (r.1, if start < r.2 then (q.persistCommitted r.2).compact.1 else q)

end World

/-! ### The routes of a write -/

structure WriteBody where
  coll : String
  key : String
  obj : Value
  ttlMs : Option ℕ

/-- What `POST /enqueue` accepts. -/
def WriteBody.op (b : WriteBody) : IngestOp := .put b.coll b.key b.obj

/-- `POST /write`. -/
def World.write {St : Type} [IndexStore St] (net : ℕ → Outcome) (w : World St) (b : WriteBody) :
    World St :=
  match b.ttlMs with
  | some ttl =>
    if 0 < ttl then w.putTtl net b.coll b.key b.obj ttl
    else (w.perform net ⟨b.coll, b.key, .put b.obj⟩).1
  | none => (w.perform net ⟨b.coll, b.key, .put b.obj⟩).1

/-! ### Drains that the process does not survive -/

/-- How a call of `drain` ends. -/
inductive DrainEnd where
  | returned
  /-- The process stops when `done` operations are applied and the calls of the next one have ended
  as `net` says; the cursor is not persisted. -/
  | stopped (done : ℕ) (net : ℕ → Outcome)
  /-- The process stops when the cursor is on disk, before or after the log is trimmed. -/
  | persisted (trimmed : Bool)

/-- A call of `drain`: the `i`-th operation is applied `ticks i` after the one before it. -/
structure DrainRun where
  limit : ℕ
  ticks : ℕ → ℕ
  ending : DrainEnd

namespace World

variable {St : Type} [IndexStore St]

/-- Applies the operations once and in order, while every shard answers. -/
def applyAll (w : World St) (ticks : ℕ → ℕ) (ops : List (ℕ × IngestOp)) : World St :=
  w.runCalls (ops.mapIdx fun i o => (ticks i, o.2.call))

/-- The application of the operation during which the process stops. -/
def applyLast (w : World St) (ms : ℕ) (net : ℕ → Outcome) : Option (ℕ × IngestOp) → World St
  | some o => ({ w with now := w.now + ms }.perform net o.2.call).1
  | none => w

/-- One call of `drain`, and the reopening of the queue if the process has stopped. -/
def drainRun (codec : Codec) (r : DrainRun) (w : World St) (q : IngestQueue) :
    World St × IngestQueue :=
  let ops := IngestQueue.readUncommitted codec q.disk q.committed r.limit
  let drained := (q.drain codec (fun _ => true) r.limit).1
  match r.ending with
  | .returned => (w.applyAll r.ticks ops, drained)
  | .stopped done net =>
    ((w.applyAll r.ticks (ops.take done)).applyLast (r.ticks done) net ops[done]?,
      IngestQueue.openQueue q.disk)
  | .persisted trimmed =>
    (w.applyAll r.ticks ops, IngestQueue.openQueue
      (if trimmed then drained.disk else { q.disk with committed := drained.disk.committed }))

/-- Calls of `drain`, one after another. -/
def drainRuns (codec : Codec) (w : World St) (q : IngestQueue) (rs : List DrainRun) :
    World St × IngestQueue :=
  rs.foldl (fun wq r => wq.1.drainRun codec r wq.2) (w, q)

end World

end Stplr
