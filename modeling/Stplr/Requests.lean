import Stplr.Proto
import Stplr.Resp
import Stplr.Transport

/-!
# What the requests ask of a shard

An HTTP request makes at most one call (`Server.callOf`), and so does one of the binary protocol
(`Proto.Frame.call`).  A RESP command is a program that makes calls (`Resp.program`).  So all of them run
on any store, in particular on the durable one, whose calls may panic while the shard's lock is held.

`Inbound` is what happens to a shard: these requests, the ticks of the background sweeper, and restarts.
-/

namespace Stplr

open Lib

/-! ### A durable shard -/

/-- What happens to a shard. -/
inductive Inbound where
  | http (req : Request)
  /-- A request of the binary protocol, by its opcode and what follows. -/
  | binary (op : UInt8) (input : List UInt8)
  /-- A RESP command on an open connection. -/
  | resp (name : List UInt8) (args : List (List UInt8))
  /-- A tick of the background sweeper. -/
  | sweep
  /-- The process is stopped and started again. -/
  | restart

/-- The reply to a request: bytes, or over HTTP what the shard has answered, of which the response is made,
unless the request is rejected. -/
inductive Inbound.Reply where
  | bytes (reply : List UInt8)
  | http (answer : Option ShardAnswer)

namespace Inbound

def isRestart : Inbound → Bool
  | .restart => true
  | _ => false

/-- The calls that a request makes, and its reply unless the connection is dropped. -/
def calls (codec : JsonCodec) : Inbound → ShardProg (Option Reply)
  | .http req =>
    match Server.callOf req with
    | none => .ret (some (.http none))
    | some c => .call c fun a => .ret (some (.http (some a)))
  | .binary op input =>
    match Proto.readFrame op input with
    | none => .ret none
    | some (f, _) =>
      match f.call codec with
      | none => .ret (some (.bytes [Proto.stOk]))
      | some c => .call c fun a => .ret (some (.bytes (f.reply codec a)))
  | .resp name args =>
    (Resp.program codec (Resp.request (Resp.upper name) args)).map fun b => some (.bytes b)
  | .sweep | .restart => .ret none

/-- A shard over the durable store, unless a call panics. -/
def onLmdb {T : Type} [Text T] (codec : JsonCodec) (now : ℕ) (s : LmdbStore T) :
    Inbound → Option (LmdbStore T × Option Reply)
  | .sweep => some ((s.sweepExpired now).1, none)
  | .restart => some (s.reopen, none)
  | m => (m.calls codec).run? (fun s c => c.onLmdb now s) s

end Inbound

/-- One after the other, at the given times.  After a panic the lock is poisoned, and nothing more is
served. -/
def LmdbStore.handleAll {T : Type} [Text T] (codec : JsonCodec) (s : LmdbStore T)
    (ms : List (ℕ × Inbound)) : Option (LmdbStore T) :=
  ms.foldlM (fun s m => (m.2.onLmdb codec m.1 s).map Prod.fst) s

end Stplr
