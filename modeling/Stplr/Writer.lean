import Stplr.Proto

/-!
# The writer task of the binary protocol

All connections send their `SET`s through one channel to a writer task.  `writer_loop` takes what is
queued there as a batch, commits it in one transaction, and then answers every request of the batch
through its oneshot.  A connection waits for its oneshot, whatever becomes of it, and sends `ST_OK`.

The machine keeps all requests in the order of the channel: the first `committed` of them are in the
store, those up to `received` are the batch, and the others are still queued.  When `put_batch` panics
the task ends, which drops the oneshots of the batch and of the queue; handles that the call had opened
by then are left out.

`DurableShard` is what one connection finds behind it: here a `SET` runs through the task at once, and
the other operations take the lock of the shard, which is poisoned once a write has panicked.
-/

namespace Stplr

structure WriteReq where
  coll : String
  key : String
  val : Value
deriving DecidableEq

namespace WriteReq

/-- The request of a `SET`. -/
def ofBytes (codec : JsonCodec) (coll key val : List UInt8) : WriteReq :=
  ⟨fromUtf8Lossy coll, fromUtf8Lossy key, Proto.valueOf codec val⟩

def item (r : WriteReq) : String × String × Value := (r.coll, r.key, r.val)

end WriteReq

/-- The oneshot of a request. -/
inductive Oneshot where
  | waiting
  | sent
  /-- The sender is gone, so that waiting for it fails. -/
  | dropped
deriving DecidableEq

def Oneshot.drop : Oneshot → Oneshot
  | .waiting => .dropped
  | r => r

inductive WriterPc where
  | collecting
  /-- The batch is committed; `next` is the next request to answer. -/
  | replying (next : ℕ)
  /-- The task has panicked. -/
  | gone
deriving DecidableEq

/-- What a connection is at; it serves one request at a time. -/
inductive ConnPc where
  | ready
  | waiting (req : ℕ)
  | closed
deriving DecidableEq

/-- The store, the channel with the writer task at its end, and the connections. -/
structure Writer (T : Type) where
  store : LmdbStore T
  log : List WriteReq
  received : ℕ
  committed : ℕ
  replies : List Oneshot
  pc : WriterPc
  conns : List ConnPc
  /-- The requests for which a connection has sent `ST_OK`. -/
  acked : List ℕ

inductive WriterLabel where
  | connect
  | hangUp (conn : ℕ)
  /-- The connection reads a `SET`, and sends it to the channel. -/
  | send (conn : ℕ) (coll key val : List UInt8)
  | receive
  | commit
  | reply
  /-- The connection goes on after its oneshot. -/
  | ack (conn : ℕ)

namespace Writer

def batchMax : ℕ := 512

def chanCap : ℕ := 2048

variable {T : Type}

def new (store : LmdbStore T) : Writer T := ⟨store, [], 0, 0, [], .collecting, [], []⟩

/-- The requests that have been received and are not committed. -/
def batch (s : Writer T) : List WriteReq := (s.log.take s.received).drop s.committed

/-- The writes that were acknowledged, in the order of the channel. -/
def ackedWrites (s : Writer T) : List WriteReq :=
  (s.log.zipIdx.filter fun e => e.2 ∈ s.acked).map Prod.fst

variable [Text T]

def step (codec : JsonCodec) (s : Writer T) : WriterLabel → Option (Writer T)
  | .connect => some { s with conns := s.conns ++ [.ready] }
  | .hangUp c =>
    if c < s.conns.length then some { s with conns := s.conns.set c .closed } else none
  | .send c coll key val =>
    if s.conns[c]? = some .ready then
      -- `send` fails once the receiver is gone, and waits while the channel is full
      if s.pc = .gone then some { s with conns := s.conns.set c .closed }
      else if s.log.length - s.received < chanCap then
        some { s with
          log := s.log ++ [WriteReq.ofBytes codec coll key val]
          replies := s.replies ++ [.waiting]
          conns := s.conns.set c (.waiting s.log.length) }
      else none
    else none
  | .receive =>
    if s.pc = .collecting ∧ s.received < s.log.length ∧ s.received - s.committed < batchMax then
      some { s with received := s.received + 1 }
    else none
  | .commit =>
    if s.pc = .collecting ∧ s.committed < s.received then
      match s.store.putBatch (s.batch.map WriteReq.item) with
      | some store =>
        some { s with store, committed := s.received, pc := .replying s.committed }
      | none => some { s with replies := s.replies.map Oneshot.drop, pc := .gone }
    else none
  | .reply =>
    match s.pc with
    | .replying i =>
      if i < s.committed then
        some { s with replies := s.replies.set i .sent, pc := .replying (i + 1) }
      else some { s with pc := .collecting }
    | _ => none
  | .ack c =>
    match s.conns[c]? with
    | some (.waiting i) =>
      -- the outcome of the oneshot is not looked at
      match s.replies[i]? with
      | some .sent | some .dropped =>
        some { s with conns := s.conns.set c .ready, acked := s.acked ++ [i] }
      | _ => none
    | _ => none

end Writer

/-! ### One connection -/

structure DurableShard (T : Type) where
  store : LmdbStore T
  /-- A write has panicked while it held the lock. -/
  poisoned : Bool
  writerGone : Bool

namespace DurableShard

variable {T : Type} [Text T]

/-- A call under the lock, unless it panics. -/
def call (now : ℕ) (d : DurableShard T) (c : ShardCall) : Option (DurableShard T × ShardAnswer) :=
  (c.onLmdb now d.store).map fun r => ({ d with store := r.1 }, r.2)

/-- A `SET` through the writer task. -/
def set (now : ℕ) (d : DurableShard T) (c : ShardCall) : DurableShard T × Option (List UInt8) :=
  -- `send` fails once the receiver is gone
  if d.writerGone then (d, none)
  -- the task panics on a poisoned lock, and the outcome of the oneshot is not looked at
  else if d.poisoned then ({ d with writerGone := true }, some [Proto.stOk])
  else
    match d.call now c with
    | some r => (r.1, some [Proto.stOk])
    | none => ({ d with poisoned := true, writerGone := true }, some [Proto.stOk])

/-- A frame on a connection to the shard. -/
def service (codec : JsonCodec) : Proto.Service (DurableShard T) := fun now d f =>
  match f.call codec with
  | none => (d, some [Proto.stOk])
  | some c =>
    if f.op = Proto.opSet then d.set now c
    else if d.poisoned then (d, none)
    else
      match d.call now c with
      | some r => (r.1, some (f.reply codec r.2))
      | none => ({ d with poisoned := true }, none)

end DurableShard

end Stplr
