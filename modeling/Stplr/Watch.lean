import Stplr.Guard
import Stplr.Lib.Machine

/-!
# The tasks at the gate

`Guard` has the gate as seen by its callers: a wait there is a step that is enabled once its condition
holds.  Here the waits are the loops of the source.  A loop subscribes to the watch channel, checks
its condition under the lock, and parks until the channel has a version that it has not seen.  The
changes that may end a wait, `leave` and `unfreeze`, are made under the lock and announced by a `bump`
afterwards.

The channel is its version.  A `send` without a receiver is dropped, so the receivers matter; they
are read off the tasks that have subscribed.
-/

namespace Stplr

/-! ### The state behind the lock -/

/-- `in_flight` is a map; a bucket that nobody is in has no entry. -/
structure GateState where
  frozen : Finset ℕ
  inFlight : ℕ → Option ℕ

namespace GateState

def new : GateState := ⟨∅, fun _ => none⟩

/-- The locked part of `enter`, on a bucket that is not frozen. -/
def enter (g : GateState) (b : ℕ) : GateState :=
  { g with inFlight := Function.update g.inFlight b (some ((g.inFlight b).getD 0 + 1)) }

/-- The locked part of `leave`; `none` when the decrement underflows. -/
def leave (g : GateState) (b : ℕ) : Option GateState := match g.inFlight b with
  | none => some g
  | some 0 => none
  | some (n + 1) =>
    some { g with inFlight := Function.update g.inFlight b (if n = 0 then none else some n) }

def freeze (g : GateState) (buckets : List ℕ) : GateState :=
  { g with frozen := g.frozen ∪ buckets.toFinset }

/-- The check of `drain`. -/
def drained (g : GateState) (buckets : List ℕ) : Prop := ∀ b ∈ buckets, (g.inFlight b).getD 0 = 0

instance (g : GateState) (buckets : List ℕ) : Decidable (g.drained buckets) :=
  inferInstanceAs (Decidable (∀ b ∈ buckets, (g.inFlight b).getD 0 = 0))

/-- The locked part of `unfreeze`. -/
def unfreeze (g : GateState) (buckets : List ℕ) : GateState :=
  { g with frozen := g.frozen \ buckets.toFinset }

/-- What the callers see of the gate. -/
def toGates (g : GateState) : Gates := ⟨g.frozen, fun b => (g.inFlight b).getD 0⟩

end GateState

/-! ### Wait loops -/

/-- Where the loop of `enter` or `drain` stands. -/
inductive Wait where
  /-- `subscribe` is next. -/
  | start
  /-- There is a receiver that has seen version `seen`; the check is next. -/
  | subscribed (seen : ℕ)
  /-- The check failed; in `changed().await`. -/
  | parked (seen : ℕ)
  /-- `changed` is through; the receiver is about to be dropped. -/
  | woken
deriving DecidableEq

namespace Wait

/-- The next step of a loop that waits until `ready`; `some none` when the loop is left. -/
def move (version : ℕ) (ready : Prop) [Decidable ready] : Wait → Option (Option Wait)
  | .start => some (some (.subscribed version))
  | .subscribed seen => if ready then some none else some (some (.parked seen))
  | .parked seen => if seen ≠ version then some (some .woken) else none
  | .woken => some (some .start)

/-- Whether the loop has a receiver. -/
def receiver : Wait → Bool
  | .start => false
  | _ => true

end Wait

/-! ### Tasks -/

/-- The calls of a migration. -/
inductive GateCall where
  | freeze (buckets : List ℕ)
  | drain (buckets : List ℕ)
  | unfreeze (buckets : List ℕ)
deriving DecidableEq

/-- A task enters a bucket and keeps the token for a while, or it makes some of the other calls one
after the other.  `rx` says that the call has its result but the receiver is not dropped yet. -/
inductive Task where
  | entering (b : ℕ) (wait : Wait)
  /-- The task has the token of `b`. -/
  | holding (b : ℕ) (rx : Bool)
  /-- The first of `rest` is next. -/
  | calling (rest : List GateCall) (rx : Bool)
  | draining (buckets : List ℕ) (wait : Wait) (rest : List GateCall)
  /-- In `leave` or `unfreeze`, after the change and before the `bump`. -/
  | bumping (rest : List GateCall)
deriving DecidableEq

namespace Task

/-- Whether a receiver of the task exists. -/
def receiver : Task → Bool
  | .entering _ w => w.receiver
  | .draining _ w _ => w.receiver
  | .holding _ rx => rx
  | .calling _ rx => rx
  | .bumping _ => false

/-- Whether the task has a live token of `b`. -/
def holds (b : ℕ) : Task → Bool
  | .holding b' _ => b' = b
  | _ => false

end Task

/-- The gate, the channel and the tasks. -/
structure GateSys where
  gate : GateState
  version : ℕ
  tasks : List Task

inductive GateLabel where
  /-- A task calls `enter b`. -/
  | op (b : ℕ)
  /-- A task starts that makes these calls. -/
  | calls (cs : List GateCall)
  | move (i : ℕ)
  /-- The future of a task that is parked is dropped. -/
  | cancel (i : ℕ)

namespace GateSys

def new : GateSys := ⟨GateState.new, 0, []⟩

/-- The version after a `send`. -/
def sent (s : GateSys) : ℕ := if s.tasks.any Task.receiver then s.version + 1 else s.version

/-- The number of live tokens of `b`. -/
def live (s : GateSys) (b : ℕ) : ℕ := s.tasks.countP (Task.holds b)

end GateSys

/-- What a task does next: the state behind the lock, the version and the task afterwards. -/
def Task.move (s : GateSys) : Task → Option (GateState × ℕ × Task)
  | .entering b w =>
    (w.move s.version (b ∉ s.gate.frozen)).map fun
      | some w' => (s.gate, s.version, .entering b w')
      | none => (s.gate.enter b, s.version, .holding b true)
  | .holding b true => some (s.gate, s.version, .holding b false)
  | .holding b false => (s.gate.leave b).map fun g => (g, s.version, .bumping [])
  | .draining bs w rest =>
    (w.move s.version (s.gate.drained bs)).map fun
      | some w' => (s.gate, s.version, .draining bs w' rest)
      | none => (s.gate, s.version, .calling rest true)
  | .calling rest true => some (s.gate, s.version, .calling rest false)
  | .calling [] false => none
  | .calling (.freeze bs :: rest) false => some (s.gate.freeze bs, s.version, .calling rest false)
  | .calling (.drain bs :: rest) false => some (s.gate, s.version, .draining bs .start rest)
  | .calling (.unfreeze bs :: rest) false => some (s.gate.unfreeze bs, s.version, .bumping rest)
  | .bumping rest => some (s.gate, s.sent, .calling rest false)

/-- What is left of a parked task whose future is dropped. -/
def Task.cancel : Task → Option Task
  | .entering _ (.parked _) => some (.calling [] false)
  | .draining _ (.parked _) _ => some (.calling [] false)
  | _ => none

def GateSys.step (s : GateSys) : GateLabel → Option GateSys
  | .op b => some { s with tasks := s.tasks ++ [.entering b .start] }
  | .calls cs => some { s with tasks := s.tasks ++ [.calling cs false] }
  | .move i =>
    s.tasks[i]?.bind fun t => (t.move s).map fun r => ⟨r.1, r.2.1, s.tasks.set i r.2.2⟩
  | .cancel i =>
    s.tasks[i]?.bind fun t => t.cancel.map fun t' => { s with tasks := s.tasks.set i t' }

/-! ### One migration at a time -/

/-- The calls that a migration of `chunk` makes. -/
def migration (chunk : List ℕ) : List GateCall := [.freeze chunk, .drain chunk, .unfreeze chunk]

/-- Whether the task has calls to make. -/
def Task.migrates : Task → Bool
  | .calling rest _ => rest ≠ []
  | .draining _ _ _ => true
  | _ => false

/-- Only migrations make calls, and a migration starts only when no other is at work. -/
def GateSys.oneMigration (s : GateSys) : GateLabel → Bool
  | .calls [.freeze c, .drain c', .unfreeze c''] =>
    c = c' ∧ c = c'' ∧ ∀ t ∈ s.tasks, t.migrates = false
  | .calls _ => false
  | _ => true

end Stplr
