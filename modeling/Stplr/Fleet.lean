import Stplr.Membership
import Stplr.Lib.Machine

/-!
# Several coordinators over one set of shards

A `Fleet` is a list of coordinators, each with its own `Cluster` and its own membership changes, and
the shards and the clock that they share.  Every coordinator can be asked for the leader lease:
`lease_acquire` reads the routes of the lease key like any other operation, takes the first owner,
and sends it the request; the shard decides when it processes the request.
-/

namespace Stplr

open Lib

/-- Where a `lease_acquire` call stands. -/
inductive LeasePc where
  /-- The overlay is read next. -/
  | asked
  /-- There was no overlay; the ring is read next. -/
  | routing
  /-- The owner is known, if there is one. -/
  | routed (owner : Option NodeId)
  /-- The request is on its way to the node. -/
  | sent (node : NodeId)
  | answered (outcome : Option LeaseOutcome)
deriving DecidableEq

/-- A `try_acquire_leadership` call on a coordinator. -/
structure LeaseCall where
  coord : ℕ
  holder : String
  ttlMs : ℕ
  pc : LeasePc
deriving DecidableEq

/-- A coordinator process. -/
structure Process where
  cluster : Cluster
  callers : List Caller

/-- A lease decision of a shard. -/
structure LeaseDecision where
  node : NodeId
  time : ℕ
  holder : String
  ttlMs : ℕ
  outcome : LeaseOutcome
deriving DecidableEq

structure Fleet (St : Type) where
  coords : List Process
  shards : NodeId → Shard St
  now : ℕ
  calls : List LeaseCall
  /-- The lease decisions so far. -/
  decisions : List LeaseDecision

inductive FleetLabel where
  /-- A coordinator is asked for a membership change. -/
  | change (coord : ℕ) (request : MemberRequest)
  /-- A membership change of the coordinator moves. -/
  | move (coord : ℕ) (caller : ℕ)
  /-- A coordinator tries to become the leader. -/
  | acquire (coord : ℕ) (holder : String) (ttlMs : ℕ)
  /-- A lease call moves. -/
  | lease (call : ℕ)
  | tick (ms : ℕ)

namespace Fleet

variable {St : Type} [IndexStore St]

/-- The coordinator as it sees the shards. -/
def view (s : Fleet St) (p : Process) : Coordinator St := ⟨⟨p.cluster, s.shards, s.now⟩, p.callers⟩

/-- The first owner of the leader key, if it can be called. -/
def lookup (c : Cluster) (owner : Option NodeId) : LeasePc := match owner with
  | none => .answered none
  | some n => if n ∈ c.down ∨ n ∉ c.clients then .answered none else .sent n

/-- The next step of a lease call. -/
def leaseStep (s : Fleet St) (i : ℕ) : Option (Fleet St) := do
  let q ← s.calls[i]?
  let p ← s.coords[q.coord]?
  let next (pc : LeasePc) : Fleet St := { s with calls := s.calls.set i { q with pc } }
  match q.pc with
  | .asked =>
    match p.cluster.overlayOwners leaderKey with
    | some owners => some (next (.routed owners.head?))
    | none => some (next .routing)
  | .routing => some (next (.routed (p.cluster.ringOwners leaderKey).head?))
  | .routed owner => some (next (lookup p.cluster owner))
  | .sent n =>
    let r := (s.shards n).leaseAcquire s.now leaderKey q.holder q.ttlMs
    some { next (.answered (some r.2)) with
      shards := Function.update s.shards n r.1
      decisions := s.decisions ++ [⟨n, s.now, q.holder, q.ttlMs, r.2⟩] }
  | .answered _ => none

def step (s : Fleet St) : FleetLabel → Option (Fleet St)
  | .change i request => do
    let p ← s.coords[i]?
    some { s with coords := s.coords.set i { p with callers := p.callers ++ [⟨request, .idle⟩] } }
  | .move i j => do
    let p ← s.coords[i]?
    let c ← (s.view p).step (fun _ => .ok) j
    some { s with
      coords := s.coords.set i ⟨c.world.cluster, c.callers⟩
      shards := c.world.shards }
  | .acquire coord holder ttlMs =>
    some { s with calls := s.calls ++ [⟨coord, holder, ttlMs, .asked⟩] }
  | .lease i => s.leaseStep i
  | .tick ms => some { s with now := s.now + ms }

end Fleet

end Stplr
