import Stplr.Lib.Machine
import Stplr.Lib.SortedMap
import Stplr.Value

/-!
# The durable ingest queue

An accepted write is appended to a durable log (`enqueue`) and applied to a sink later (`drain`),
which then advances a durable committed cursor and trims the log behind it (`compact`).  On
opening, the next sequence number is recovered from the last stored key and the cursor from its
own record (`openQueue`).  The database keys are zero-padded sequence numbers, whose byte order is the
numeric one; they are kept as numbers.  The JSON codec of the operations is a parameter (`Codec`).

After the calls as the source computes them, `IngestState.step` cuts every call at its database
transactions, sink applications and accesses to the shared counters, and lets any number of calls
overlap and a crash fall between any two of these steps.
-/

namespace Stplr

open Lib

/-- One queued write. -/
inductive IngestOp where
  | put (coll key : String) (value : Value)
  | setAdd (coll key member : String)
  | setRemove (coll key member : String)
  | delete (coll key : String)
deriving DecidableEq

/-- The JSON text of an operation, and its reading. -/
structure Codec where
  toText : IngestOp → String
  fromText : String → Option IngestOp

/-- What is on disk: the `queue` database and the cursor record of `meta`. -/
structure IngestDisk where
  queue : SortedMap ℕ String
  committed : Option ℕ

/-- The cursor that a reader of the disk finds (`0` when none was ever written). -/
def IngestDisk.cursor (d : IngestDisk) : ℕ := d.committed.getD 0

/-- An open queue: the disk and the two counters in memory. -/
structure IngestQueue where
  disk : IngestDisk
  next : ℕ
  committed : ℕ

namespace IngestQueue

/-- `IngestQueue::open`: `next` from the last stored key, the cursor from its record. -/
def openQueue (d : IngestDisk) : IngestQueue := ⟨d, d.queue.lastKey.getD 0 + 1, d.cursor⟩

/-- The transaction of `enqueue`: the operation is stored under `next`. -/
def enqueuePut (codec : Codec) (q : IngestQueue) (op : IngestOp) : IngestQueue :=
  { q with disk := { q.disk with queue := q.disk.queue.put q.next (codec.toText op) } }

/-- The end of `enqueue`: `next` advances. -/
def enqueueReturn (q : IngestQueue) : IngestQueue := { q with next := q.next + 1 }

/-- `enqueue`: durably appends an operation and returns its sequence number. -/
def enqueue (codec : Codec) (q : IngestQueue) (op : IngestOp) : IngestQueue × ℕ :=
  ((q.enqueuePut codec op).enqueueReturn, q.next)

/-- The loop of `read_uncommitted`: collects the readable operations above `start`, stopping once
`limit` of them are collected. -/
def readLoop (codec : Codec) (start limit : ℕ) :
    List (ℕ × String) → List (ℕ × IngestOp) → List (ℕ × IngestOp)
  | [], out => out
  | (seq, text) :: rest, out =>
    if start < seq then
      match codec.fromText text with
      | some op =>
        if limit ≤ (out ++ [(seq, op)]).length then out ++ [(seq, op)]
        else readLoop codec start limit rest (out ++ [(seq, op)])
      | none => readLoop codec start limit rest out
    else readLoop codec start limit rest out

/-- `read_uncommitted`. -/
def readUncommitted (codec : Codec) (d : IngestDisk) (start limit : ℕ) : List (ℕ × IngestOp) :=
  readLoop codec start limit d.queue.entries []

/-- The transaction of `persist_committed`. -/
def persist (q : IngestQueue) (seq : ℕ) : IngestQueue :=
  { q with disk := { q.disk with committed := some seq } }

/-- `persist_committed`: the cursor on disk, then the one in memory. -/
def persistCommitted (q : IngestQueue) (seq : ℕ) : IngestQueue :=
  { q.persist seq with committed := seq }

/-- The keys `compact` collects: from the first one, as long as they are not past the cursor. -/
def appliedKeys (d : IngestDisk) (cursor : ℕ) : List ℕ :=
  (d.queue.entries.takeWhile fun e => e.1 ≤ cursor).map Prod.fst

/-- The transaction of `compact`. -/
def deleteKeys (q : IngestQueue) (keys : List ℕ) : IngestQueue :=
  { q with disk := { q.disk with queue := q.disk.queue.eraseAll keys } }

/-- `compact`: trims the log behind the cursor and counts what it removed. -/
def compact (q : IngestQueue) : IngestQueue × ℕ := if q.committed = 0 then (q, 0)
  else
    let keys := appliedKeys q.disk q.committed
    if keys = [] then (q, 0) else (q.deleteKeys keys, keys.length)

/-- The loop of `drain`: applies operations until the sink fails; returns those applied and the
last sequence number that succeeded. -/
def applyLoop (sink : ℕ × IngestOp → Bool) :
    List (ℕ × IngestOp) → ℕ → List (ℕ × IngestOp) → ℕ × List (ℕ × IngestOp)
  | [], lastOk, applied => (lastOk, applied)
  | o :: ops, lastOk, applied =>
    if sink o then applyLoop sink ops o.1 (applied ++ [o]) else (lastOk, applied)

/-- `drain`: applies up to `limit` unapplied operations in order, advances the cursor to the last
success and compacts.  Returns the operations applied. -/
def drain (codec : Codec) (sink : ℕ × IngestOp → Bool) (limit : ℕ) (q : IngestQueue) :
    IngestQueue × List (ℕ × IngestOp) :=
  let start := q.committed
  let r := applyLoop sink (readUncommitted codec q.disk start limit) start []
  if start < r.1 then ((q.persistCommitted r.1).compact.1, r.2) else (q, r.2)

end IngestQueue

/-! ### Overlapping calls and crashes -/

/-- A `drain` or `compact` call between two of its steps. -/
inductive IngestTask where
  /-- The cursor is read; the read transaction follows. -/
  | reading (start limit : ℕ)
  /-- Between two sink applications. -/
  | applying (start : ℕ) (ops : List (ℕ × IngestOp)) (lastOk : ℕ)
  /-- The cursor is on disk and not yet in memory. -/
  | persisted (seq : ℕ)
  /-- At the start of `compact`. -/
  | compacting
  /-- `compact` has read the cursor; its read transaction follows. -/
  | scanning (cursor : ℕ)
  /-- `compact` has collected the keys; the deleting transaction follows. -/
  | deleting (keys : List ℕ)

/-- The queue, the `enqueue` call that holds the counter and has committed its put, the calls in
progress, and the record of what was accepted and what was applied. -/
structure IngestState where
  q : IngestQueue
  enqueuing : Option (ℕ × IngestOp)
  tasks : List IngestTask
  accepted : List (ℕ × IngestOp)
  applied : List (ℕ × IngestOp)

/-- The steps of a run.  `task i ok` moves the `i`-th call in progress; `ok` is the answer of the
sink when the step is an application. -/
inductive IngestLabel where
  | enqueuePut (op : IngestOp)
  | enqueueReturn
  | drain (limit : ℕ)
  | compact
  | task (i : ℕ) (ok : Bool)
  | crash

namespace IngestState

/-- A queue just opened on an empty disk. -/
def init : IngestState := ⟨IngestQueue.openQueue ⟨SortedMap.empty, none⟩, none, [], [], []⟩

/-- Replaces the `i`-th call in progress. -/
def setTask (s : IngestState) (i : ℕ) (t : IngestTask) : IngestState :=
  { s with tasks := s.tasks.set i t }

/-- The `i`-th call returns. -/
def endTask (s : IngestState) (i : ℕ) : IngestState := { s with tasks := s.tasks.eraseIdx i }

/-- The next step of the `i`-th call in progress. -/
def taskStep (codec : Codec) (s : IngestState) (i : ℕ) (ok : Bool) : IngestTask → IngestState
  | .reading start limit =>
    s.setTask i (.applying start (IngestQueue.readUncommitted codec s.q.disk start limit) start)
  | .applying start (o :: ops) lastOk =>
    if ok then { s with applied := s.applied ++ [o] }.setTask i (.applying start ops o.1)
    else s.setTask i (.applying start [] lastOk)
  | .applying start [] lastOk =>
    if start < lastOk then { s with q := s.q.persist lastOk }.setTask i (.persisted lastOk)
    else s.endTask i
  | .persisted seq => { s with q := { s.q with committed := seq } }.setTask i .compacting
  | .compacting => if s.q.committed = 0 then s.endTask i else s.setTask i (.scanning s.q.committed)
  | .scanning cursor =>
    let keys := IngestQueue.appliedKeys s.q.disk cursor
    if keys = [] then s.endTask i else s.setTask i (.deleting keys)
  | .deleting keys => { s with q := s.q.deleteKeys keys }.endTask i

/-- One step of the system.  An `enqueue` holds the counter's lock from its transaction to its
return, so a second one waits.  A crash loses the memory, and the queue is opened again. -/
def step (codec : Codec) (s : IngestState) : IngestLabel → Option IngestState
  | .enqueuePut op =>
    if s.enqueuing = none then
      some { s with q := s.q.enqueuePut codec op, enqueuing := some (s.q.next, op) }
    else none
  | .enqueueReturn => s.enqueuing.map fun e =>
    { s with q := s.q.enqueueReturn, enqueuing := none, accepted := s.accepted ++ [e] }
  | .drain limit => some { s with tasks := s.tasks ++ [.reading s.q.committed limit] }
  | .compact => some { s with tasks := s.tasks ++ [.compacting] }
  | .task i ok => s.tasks[i]?.map (s.taskStep codec i ok)
  | .crash => some { s with q := IngestQueue.openQueue s.q.disk, enqueuing := none, tasks := [] }

end IngestState

end Stplr
