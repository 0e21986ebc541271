import Stplr.Lib.Machine
import Stplr.Shard

/-!
# Coordinators that elect a leader

`spawn_elector` runs a loop on every coordinator: it asks the lease shard for the leader lease,
stores the answer for the handlers, sleeps and starts over.  Requests and replies may be delayed
and overtake each other.  A call may fail (the shard cannot be reached, or the client times out);
its request may then still be on its way, and a reply that comes too late is dropped.  The loop
sleeps for any time between two attempts, and the lease is judged by the clock of the shard.
-/

namespace Stplr

/-- What a coordinator knows about the leadership. -/
structure Leadership where
  holder : String
  isLeader : Bool
  token : ℕ
  currentLeader : String
deriving DecidableEq

namespace Leadership

def new (holder : String) : Leadership := ⟨holder, false, 0, ""⟩

/-- What the loop stores of an attempt.  Without an answer it steps down. -/
def store (l : Leadership) : Option LeaseOutcome → Leadership
  | some o => { l with
      isLeader := o.granted
      token := o.lease.token
      currentLeader := o.lease.holder }
  | none => { l with isLeader := false }

end Leadership

/-- The answer of `/admin/rebalance` and `/admin/drain` (status and body) on a coordinator that is
not the leader. -/
def notLeader (l : Leadership) : Option (ℕ × Value) := if l.isLeader then none
  else some (409, .obj [("error", .str "not leader"), ("leader", .str l.currentLeader),
    ("ok", .bool false)])

structure Elector where
  leadership : Leadership
  /-- The number of attempts so far. -/
  attempts : ℕ
  /-- The answer to the last attempt is awaited. -/
  waiting : Bool
deriving DecidableEq

def Elector.new (holder : String) : Elector := ⟨Leadership.new holder, 0, false⟩

/-- A lease request on its way to the shard. -/
structure LeaseRequest where
  elector : ℕ
  attempt : ℕ
deriving DecidableEq

/-- An answer on its way to the elector. -/
structure LeaseReply where
  elector : ℕ
  attempt : ℕ
  outcome : LeaseOutcome
deriving DecidableEq

/-- The electors, the lease shard and its clock, and the messages between them. -/
structure Election (St : Type) where
  electors : List Elector
  ttlMs : ℕ
  shard : Shard St
  now : ℕ
  requests : List LeaseRequest
  replies : List LeaseReply

inductive ElectionLabel where
  /-- The elector starts an attempt. -/
  | send (elector : ℕ)
  /-- The shard processes a request. -/
  | process (request : ℕ)
  /-- A reply arrives. -/
  | deliver (reply : ℕ)
  /-- The call of the elector fails. -/
  | fail (elector : ℕ)
  | tick (ms : ℕ)

namespace Election

variable {St : Type} [IndexStore St]

def start (holders : List String) (ttlMs : ℕ) (shard : Shard St) (now : ℕ) : Election St :=
  ⟨holders.map Elector.new, ttlMs, shard, now, [], []⟩

def step (s : Election St) : ElectionLabel → Option (Election St)
  | .send i => do
    let e ← s.electors[i]?
    if e.waiting then none
    else some { s with
      electors := s.electors.set i { e with attempts := e.attempts + 1, waiting := true }
      requests := s.requests ++ [⟨i, e.attempts + 1⟩] }
  | .process k => do
    let q ← s.requests[k]?
    let e ← s.electors[q.elector]?
    let r := s.shard.leaseAcquire s.now leaderKey e.leadership.holder s.ttlMs
    some { s with
      shard := r.1
      requests := s.requests.eraseIdx k
      replies := s.replies ++ [⟨q.elector, q.attempt, r.2⟩] }
  | .deliver k => do
    let r ← s.replies[k]?
    let e ← s.electors[r.elector]?
    if e.waiting ∧ e.attempts = r.attempt then
      some { s with
        electors := s.electors.set r.elector
          { e with leadership := e.leadership.store (some r.outcome), waiting := false }
        replies := s.replies.eraseIdx k }
    else some { s with replies := s.replies.eraseIdx k }
  | .fail i => do
    let e ← s.electors[i]?
    if e.waiting then
      some { s with
        electors := s.electors.set i
          { e with leadership := e.leadership.store none, waiting := false } }
    else none
  | .tick ms => some { s with now := s.now + ms }

end Election

end Stplr
