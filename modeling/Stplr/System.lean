import Stplr.Calls
import Stplr.Lib.Machine
import Stplr.Migration

/-!
# Client calls against a migration

A `System` is a cluster with its shards, the client calls made so far (each a thread of its own),
the migration that holds the `migrating` lock, and the trace of invocations and returns.  A label
says which of them moves; every order of labels is a run.

A migration's future can be dropped while it waits for the lock, for the gates or for a shard
(`abandon`); a request that is on its way then may take effect or not.  `resume` starts
`run_migration` again from the journal.
-/

namespace Stplr

/-- An invocation or a return of the call with the given number. -/
inductive Event where
  | inv (id : ℕ) (call : Call)
  | ret (id : ℕ) (call : Call) (reply : Reply)
deriving DecidableEq

/-- The return event of a call that has just returned. -/
def CallState.retEvents (id : ℕ) (t : CallState) : List Event := match t.pc with
  | .returned reply => [.ret id t.call reply]
  | _ => []

structure System (St : Type) where
  world : World St
  calls : List CallState
  migration : Option Migration
  trace : List Event

inductive SysLabel where
  | invoke (call : Call)
  | call (id : ℕ) (o : Outcome)
  | migrate
  | tick (ms : ℕ)
  | abandon (late : Bool)
  | resume

/-- A migration that is inside a chunk: its buckets are frozen. -/
def MigPhase.insideChunk : MigPhase → Bool
  | .draining _ | .copying _ _ | .dropping _ _ => true
  | _ => false

/-- The migration is suspended at an `await`. -/
def Migration.awaits (c : Cluster) (m : Migration) : Bool := match m.phase with
  -- not past the lock yet: nothing has happened
  | .locked => true
  | .draining chunk => ¬c.gates.drained chunk
  | .copying _ (.transfer _ _ _ _ _ :: _) | .copying _ (.deliver _ _ _ _ _ _ :: _) => true
  | .dropping _ (.drop _ _ _ _ :: _) => true
  | _ => false

def MigPhase.isFinished : MigPhase → Bool
  | .finished => true
  | _ => false

namespace System

variable {St : Type} [IndexStore St]

/-- The migration of a call that has just taken the lock. -/
def begin (w : World St) (old new : List NodeId) (stopAfter : Option ℕ) : System St :=
  ⟨w, [], some (Migration.start old new ∅ stopAfter), []⟩

/-- No migration runs: the lock is free. -/
def idle (s : System St) : Bool := s.migration.all fun m => m.phase.isFinished

/-- The next step of the `id`-th call; its return is recorded. -/
def callStep (s : System St) (id : ℕ) (o : Outcome) : Option (System St) := do
  let t ← s.calls[id]?
  let r ← t.step o s.world
  some { s with
    world := r.1, calls := s.calls.set id r.2, trace := s.trace ++ r.2.retEvents id }

/-- The next step of the migration. -/
def migrateStep (net : MigCall → Outcome) (s : System St) : Option (System St) := do
  let m ← s.migration
  let r ← m.step net s.world
  some { s with world := r.1, migration := some r.2 }

def step (net : MigCall → Outcome) (s : System St) : SysLabel → Option (System St)
  | .invoke call =>
    some { s with
      calls := s.calls ++ [⟨call, .waiting⟩]
      trace := s.trace ++ [.inv s.calls.length call] }
  | .call id o => s.callStep id o
  | .migrate => s.migrateStep net
  | .tick ms => some { s with world := { s.world with now := s.world.now + ms } }
  | .abandon late =>
    match s.migration with
    | some m =>
      if m.awaits s.world.cluster then
        let w := if late ∧ m.phase.insideChunk then ((m.step net s.world).map Prod.fst).getD s.world
          else s.world
        some { s with world := w, migration := none }
      else none
    | none => none
  | .resume =>
    if s.idle then
      s.world.cluster.journal.map fun rec =>
        { s with
          world := s.world.setCluster (s.world.cluster.setTarget rec.replication)
          migration := some (Migration.start rec.oldNodes rec.newNodes rec.done none) }
    else none

end System

end Stplr
