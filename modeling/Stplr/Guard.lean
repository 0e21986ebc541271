import Mathlib.Data.Finset.Basic
import Mathlib.Logic.Function.Basic

/-!
# The per-bucket freeze/drain gate

An operation enters the gate of its key's bucket and counts as in flight until it leaves; a
migration freezes buckets, so that new entrants wait, and waits until nothing is in flight.  The
waits of the source re-check after every wakeup and no wakeup is lost, so here a wait is a step
that is enabled exactly when its condition holds (`canEnter`, `drained`).  A bucket without an
`in_flight` entry has the count `0`.
-/

namespace Stplr

/-- The state behind the gate's lock. -/
structure Gates where
  frozen : Finset ℕ
  inFlight : ℕ → ℕ

namespace Gates

def new : Gates := ⟨∅, fun _ => 0⟩

/-- Whether `enter` goes through now. -/
def canEnter (g : Gates) (b : ℕ) : Prop := b ∉ g.frozen

instance (g : Gates) (b : ℕ) : Decidable (g.canEnter b) :=
  inferInstanceAs (Decidable (b ∉ g.frozen))

/-- `enter`, once the bucket is not frozen. -/
def enter (g : Gates) (b : ℕ) : Gates :=
  { g with inFlight := Function.update g.inFlight b (g.inFlight b + 1) }

/-- `leave`, when the token is dropped. -/
def leave (g : Gates) (b : ℕ) : Gates :=
  { g with inFlight := Function.update g.inFlight b (g.inFlight b - 1) }

def freeze (g : Gates) (buckets : List ℕ) : Gates :=
  { g with frozen := g.frozen ∪ buckets.toFinset }

/-- Whether `drain` returns now. -/
def drained (g : Gates) (buckets : List ℕ) : Prop := ∀ b ∈ buckets, g.inFlight b = 0

instance (g : Gates) (buckets : List ℕ) : Decidable (g.drained buckets) :=
  inferInstanceAs (Decidable (∀ b ∈ buckets, g.inFlight b = 0))

def unfreeze (g : Gates) (buckets : List ℕ) : Gates :=
  { g with frozen := g.frozen \ buckets.toFinset }

end Gates

end Stplr
