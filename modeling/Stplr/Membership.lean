import Stplr.Migration

/-!
# Concurrent membership changes on one coordinator

`rebalance`, `drain` and `apply_membership` calls as threads on one `Cluster`.  Each call puts its
target together, reads the member list, waits for the `migrating` lock, and then migrates from the
list that it has read; the lock is held until the migration has finished.  A label is the number of
the call that moves.
-/

namespace Stplr

/-- A membership change that a coordinator is asked for.  `applyMembership` lists the keys of its
table in the order in which they are iterated. -/
inductive MemberRequest where
  | rebalance (new : List NodeId)
  | drain (node : NodeId)
  | applyMembership (target : List NodeId)
deriving DecidableEq

/-- Where a membership change stands. -/
inductive CallerPc where
  | idle
  /-- The target is known; the member list is read next. -/
  | targeted (new : List NodeId)
  /-- In `run_migration`, at the lock. -/
  | waiting (old new : List NodeId)
  | running (m : Migration)
  | returned

structure Caller where
  request : MemberRequest
  pc : CallerPc

structure Coordinator (St : Type) where
  world : World St
  callers : List Caller

def CallerPc.isRunning : CallerPc → Bool
  | .running _ => true
  | _ => false

namespace Coordinator

variable {St : Type} [IndexStore St]

/-- Somebody holds the `migrating` lock. -/
def locked (s : Coordinator St) : Bool := s.callers.any fun c => c.pc.isRunning

/-- The state once call `i` has moved. -/
def put (s : Coordinator St) (i : ℕ) (request : MemberRequest) (w : World St) (pc : CallerPc) :
    Coordinator St :=
  ⟨w, s.callers.set i ⟨request, pc⟩⟩

/-- The first step of a request: clients for new nodes, and the target. -/
def target (w : World St) : MemberRequest → World St × List NodeId
  | .rebalance new => (w, new)
  | .drain node => (w, w.cluster.memberIds.filter (· ≠ node))
  | .applyMembership target =>
    (w.setCluster { w.cluster with clients := w.cluster.clients ∪ target.toFinset }, target)

/-- The next step of the `i`-th call. -/
def step (net : MigCall → Outcome) (s : Coordinator St) (i : ℕ) : Option (Coordinator St) := do
  let c ← s.callers[i]?
  match c.pc with
  | .idle =>
    let r := target s.world c.request
    some (s.put i c.request r.1 (.targeted r.2))
  | .targeted new => some (s.put i c.request s.world (.waiting s.world.cluster.memberIds new))
  | .waiting old new =>
    if s.locked then none
    else some (s.put i c.request s.world (.running (Migration.start old new ∅ none)))
  | .running m =>
    match m.phase with
    | .finished => some (s.put i c.request s.world .returned)
    | _ => (m.step net s.world).map fun r => s.put i c.request r.1 (.running r.2)
  | .returned => none

end Coordinator

/-- A request that nothing else overlaps. -/
def MemberRequest.run {St : Type} [IndexStore St] (net : MigCall → Outcome) (w : World St) :
    MemberRequest → World St
  | .rebalance new => Stplr.rebalance net w new
  | .drain node => drainNode net w node
  | .applyMembership target => Stplr.applyMembership net w target

end Stplr
