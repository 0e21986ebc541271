import Stplr.Value

/-!
# The leader lease

A lease record (holder, expiry, fencing token) at a well-known key elects the coordinator that
drives migrations.  `evaluate` is the pure transition; the owning shard runs it under its write
lock (`Shard.leaseAcquire`).  Times and tokens are `u64`s, whose sums wrap.
-/

namespace Stplr

/-- The collection of lease records. -/
def leaseColl : String := "__lease"

/-- The key of the coordinator lease. -/
def leaderKey : String := "coordinator"

/-- Who holds the lease, until when (epoch ms), and in which term. -/
structure Lease where
  holder : String
  expiresMs : ℕ
  token : ℕ
deriving DecidableEq

/-- The result of an acquire attempt: the caller's lease if granted, else the incumbent's. -/
structure LeaseOutcome where
  granted : Bool
  lease : Lease
deriving DecidableEq

/-- The lease transition: a renewal keeps the token, a grant over a lapsed lease bumps it, and a
lease that is still valid denies every other holder. -/
def evaluate (current : Option Lease) (holder : String) (ttlMs nowMs : ℕ) : LeaseOutcome :=
  match current with
  | some l =>
    if l.holder = holder ∧ nowMs < l.expiresMs then
      ⟨true, ⟨holder, (nowMs + ttlMs) % 2 ^ 64, l.token⟩⟩
    else if nowMs < l.expiresMs then ⟨false, l⟩
    else ⟨true, ⟨holder, (nowMs + ttlMs) % 2 ^ 64, (l.token + 1) % 2 ^ 64⟩⟩
  | none => ⟨true, ⟨holder, (nowMs + ttlMs) % 2 ^ 64, 1⟩⟩

/-- `serde_json::to_value` of a lease. -/
def Lease.toValue (l : Lease) : Value :=
  .obj [("expires_ms", .int l.expiresMs), ("holder", .str l.holder), ("token", .int l.token)]

/-- `serde_json::from_value::<Lease>`: the three fields by name, or an array of them in order. -/
def Lease.fromValue (v : Value) : Option Lease :=
  let build (h e t : Value) : Option Lease := do
    return ⟨← h.asStr, ← e.asU64, ← t.asU64⟩
  match v with
  | .obj _ => do build (← v.get? "holder") (← v.get? "expires_ms") (← v.get? "token")
  | .arr [h, e, t] => build h e t
  | _ => none

end Stplr
