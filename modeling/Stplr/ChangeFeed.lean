import Stplr.Lib.Collect
import Stplr.Lib.SortedMap
import Stplr.Lmdb

/-!
# The change feed

Every value that joins or leaves a set is appended to a log under the next sequence number; consumers
read from an offset, and a consumer group has its own offset, which it commits.  On opening, the next
number is recovered from the last stored key (`openLog`), while `compact` and `retain_latest` remove
events from the front, all of them if told so.

The keys of the log are zero-padded sequence numbers, whose byte order is the numeric one, and are
kept as numbers.  Events are stored as JSON and offsets as decimal numbers; both are read back as they
were written.  `MemoryChangeLog` is the log for tests, and `LogCall` are the calls that both have.

`Feed` is a durable log with a record of what has happened to it.
-/

namespace Stplr

open Lib

structure ChangeEvent where
  seq : ℕ
  op : String
  value : String
  set : String
  docId : String
deriving DecidableEq

/-- What is on disk: the databases `changefeed` and `offsets`. -/
structure ChangeDisk where
  db : SortedMap ℕ ChangeEvent
  offsets : String → Option ℕ

/-- An open log: the disk and the counter in memory. -/
structure LmdbChangeLog where
  disk : ChangeDisk
  next : ℕ

namespace LmdbChangeLog

/-- `LmdbChangeLog::open`. -/
def openLog (d : ChangeDisk) : LmdbChangeLog := ⟨d, d.db.lastKey.getD 0 + 1⟩

/-- Stores the event under `next` and returns its number. -/
def append (log : LmdbChangeLog) (op value set docId : String) : LmdbChangeLog × ℕ :=
  let seq := log.next
  let ev : ChangeEvent := ⟨seq, op, value, set, docId⟩
  (⟨{ log.disk with db := log.disk.db.put seq ev }, seq + 1⟩, seq)

/-- The events after `since`, up to `limit` of them; the limit is checked after an event is taken. -/
def read (log : LmdbChangeLog) (since limit : ℕ) : List ChangeEvent :=
  collect (fun e : ℕ × ChangeEvent => if since < e.2.seq then some e.2 else none) limit
    log.disk.db.entries []

def latestSeq (log : LmdbChangeLog) : ℕ := log.next - 1

/-- The keys that `compact` collects: from the first one, as long as they are below `before`. -/
def keysBelow (log : LmdbChangeLog) (before : ℕ) : List ℕ :=
  (log.disk.db.entries.takeWhile fun e => e.1 < before).map Prod.fst

/-- The keys that `compact(before)` deletes. -/
def compacted (log : LmdbChangeLog) (before : ℕ) : List ℕ :=
  if before ≤ 1 then [] else log.keysBelow before

/-- Removes the events below `before` and returns how many there were. -/
def compact (log : LmdbChangeLog) (before : ℕ) : LmdbChangeLog × ℕ :=
  let keys := log.compacted before
  if keys = [] then (log, 0)
  else ({ log with disk := { log.disk with db := log.disk.db.eraseAll keys } }, keys.length)

/-- The `before` that `retain_latest(max)` compacts with, if it compacts. -/
def retainBefore (log : LmdbChangeLog) (max : ℕ) : Option ℕ :=
  if max < log.latestSeq then some (log.latestSeq - max + 1) else none

/-- Keeps the last `max` events. -/
def retainLatest (log : LmdbChangeLog) (max : ℕ) : LmdbChangeLog × ℕ :=
  match log.retainBefore max with
  | some before => log.compact before
  | none => (log, 0)

def committedOffset (log : LmdbChangeLog) (group : String) : ℕ := (log.disk.offsets group).getD 0

/-- An offset is lost silently when LMDB does not take the group as a key. -/
def commitOffset (log : LmdbChangeLog) (group : String) (seq : ℕ) : LmdbChangeLog :=
  if LmdbStore.ValidKey group then
    { log with disk :=
      { log.disk with offsets := Function.update log.disk.offsets group (some seq) } }
  else log

def readGroup (log : LmdbChangeLog) (group : String) (limit : ℕ) : List ChangeEvent :=
  log.read (log.committedOffset group) limit

end LmdbChangeLog

/-! ### The log in memory -/

/-- `MemoryChangeLog`: a vector of events, a counter of its own, and the offsets. -/
structure MemoryChangeLog where
  inner : List ChangeEvent
  next : ℕ
  offsets : String → Option ℕ

namespace MemoryChangeLog

def new : MemoryChangeLog := ⟨[], 0, fun _ => none⟩

def append (log : MemoryChangeLog) (op value set docId : String) : MemoryChangeLog × ℕ :=
  let seq := log.next + 1
  ({ log with inner := log.inner ++ [⟨seq, op, value, set, docId⟩], next := seq }, seq)

def read (log : MemoryChangeLog) (since limit : ℕ) : List ChangeEvent :=
  (log.inner.filter fun e => since < e.seq).take limit

def latestSeq (log : MemoryChangeLog) : ℕ := log.next

def compact (log : MemoryChangeLog) (before : ℕ) : MemoryChangeLog × ℕ :=
  let kept := log.inner.filter fun e => before ≤ e.seq
  ({ log with inner := kept }, log.inner.length - kept.length)

def retainLatest (log : MemoryChangeLog) (max : ℕ) : MemoryChangeLog × ℕ :=
  if max < log.latestSeq then log.compact (log.latestSeq - max + 1) else (log, 0)

def committedOffset (log : MemoryChangeLog) (group : String) : ℕ := (log.offsets group).getD 0

def commitOffset (log : MemoryChangeLog) (group : String) (seq : ℕ) : MemoryChangeLog :=
  { log with offsets := Function.update log.offsets group (some seq) }

def readGroup (log : MemoryChangeLog) (group : String) (limit : ℕ) : List ChangeEvent :=
  log.read (log.committedOffset group) limit

end MemoryChangeLog

/-! ### Calls -/

/-- A call of a `ChangeLog`. -/
inductive LogCall where
  | append (op value set docId : String)
  | read (since limit : ℕ)
  | compact (before : ℕ)
  | retainLatest (max : ℕ)
  | latestSeq
  | commitOffset (group : String) (seq : ℕ)
  | committedOffset (group : String)
  | readGroup (group : String) (limit : ℕ)

/-- What a call returns. -/
inductive LogAnswer where
  | done
  | number (n : ℕ)
  | events (es : List ChangeEvent)
deriving DecidableEq

/-- The call on the log in memory. -/
def MemoryChangeLog.call (log : MemoryChangeLog) : LogCall → MemoryChangeLog × LogAnswer
  | .append op value set docId => (log.append op value set docId).map id .number
  | .read since limit => (log, .events (log.read since limit))
  | .compact before => (log.compact before).map id .number
  | .retainLatest max => (log.retainLatest max).map id .number
  | .latestSeq => (log, .number log.latestSeq)
  | .commitOffset group seq => (log.commitOffset group seq, .done)
  | .committedOffset group => (log, .number (log.committedOffset group))
  | .readGroup group limit => (log, .events (log.readGroup group limit))

/-- The call on the durable log. -/
def LmdbChangeLog.call (log : LmdbChangeLog) : LogCall → LmdbChangeLog × LogAnswer
  | .append op value set docId => (log.append op value set docId).map id .number
  | .read since limit => (log, .events (log.read since limit))
  | .compact before => (log.compact before).map id .number
  | .retainLatest max => (log.retainLatest max).map id .number
  | .latestSeq => (log, .number log.latestSeq)
  | .commitOffset group seq => (log.commitOffset group seq, .done)
  | .committedOffset group => (log, .number (log.committedOffset group))
  | .readGroup group limit => (log, .events (log.readGroup group limit))

/-! ### Runs -/

/-- A log and its history: the numbers that `append` has returned, oldest first; the numbers of the
events that each group has read; and for each group the events that were appended after its last
commit and that no compaction has removed. -/
structure Feed where
  log : LmdbChangeLog
  returned : List ℕ
  read : List (String × ℕ)
  pending : String → List ChangeEvent

inductive FeedLabel where
  | append (op value set docId : String)
  | compact (before : ℕ)
  | retainLatest (max : ℕ)
  | readGroup (group : String) (limit : ℕ)
  /-- A group commits the number of an event that it has read. -/
  | commit (group : String) (seq : ℕ)
  /-- The log is closed and opened again. -/
  | reopen

namespace Feed

/-- A log that was opened for the first time. -/
def new : Feed := ⟨LmdbChangeLog.openLog ⟨SortedMap.empty, fun _ => none⟩, [], [], fun _ => []⟩

/-- `compact(before)`, and the events that it removes. -/
def compact (s : Feed) (before : ℕ) : Feed := { s with
    log := (s.log.compact before).1
    pending := fun g => (s.pending g).filter fun ev => ev.seq ∉ s.log.compacted before }

def step (s : Feed) : FeedLabel → Option Feed
  | .append op value set docId =>
    let r := s.log.append op value set docId
    some { s with
      log := r.1
      returned := s.returned ++ [r.2]
      pending := fun g => s.pending g ++ [⟨r.2, op, value, set, docId⟩] }
  | .compact before => some (s.compact before)
  | .retainLatest max =>
    match s.log.retainBefore max with
    | some before => some (s.compact before)
    | none => some s
  | .readGroup group limit =>
    some { s with
      read := s.read ++ (s.log.readGroup group limit).map fun ev => (group, ev.seq) }
  | .commit group seq =>
    if (group, seq) ∈ s.read then
      some { s with
        log := s.log.commitOffset group seq
        pending := Function.update s.pending group [] }
    else none
  | .reopen => some { s with log := LmdbChangeLog.openLog s.log.disk }

/-- The log is reopened only while the newest event is in it, or before the first one. -/
def keepsNewest (s : Feed) : FeedLabel → Bool
  | .reopen => s.log.latestSeq = 0 ∨ ∃ e ∈ s.log.disk.db.entries, e.1 = s.log.latestSeq
  | _ => true

end Feed

end Stplr
