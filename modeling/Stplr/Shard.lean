import Stplr.Lease
import Stplr.Partitioner
import Stplr.Store

/-!
# One cluster node's local data

A shard wraps a store and adds the reshard primitives (`exportEntries`, `importEntries`,
`dropBuckets`) and the lease acquisition.  Each operation runs under the shard's lock, so it is
one atomic step.
-/

namespace Stplr

/-- A node's id and its store. -/
structure Shard (St : Type) where
  id : String
  store : St

/-- Decides on the stored lease, and stores the outcome when it is a grant. -/
def Change.lease (now : ℕ) (holder : String) (ttlMs : ℕ) (cur : Option Value) :
    Change × LeaseOutcome :=
  let outcome := evaluate (cur.bind Lease.fromValue) holder ttlMs now
  (if outcome.granted then .put outcome.lease.toValue else .keep, outcome)

namespace Shard

variable {St : Type} [IndexStore St]

def object (now : ℕ) (sh : Shard St) (coll key : String) : Option Value :=
  IndexStore.getObject now sh.store coll key

def mget (now : ℕ) (sh : Shard St) (coll : String) (keys : List String) : List (Option Value) :=
  IndexStore.mget now sh.store coll keys

def setAdd (now : ℕ) (sh : Shard St) (coll key member : String) : Shard St × Bool :=
  let r := IndexStore.setAdd now sh.store coll key member
  ({ sh with store := r.1 }, r.2)

def setRemove (now : ℕ) (sh : Shard St) (coll key member : String) : Shard St × Bool :=
  let r := IndexStore.setRemove now sh.store coll key member
  ({ sh with store := r.1 }, r.2)

def setMembers (now : ℕ) (sh : Shard St) (coll key : String) : List String :=
  IndexStore.setMembers now sh.store coll key

def writeObject (sh : Shard St) (coll key : String) (obj : Value) : Shard St :=
  { sh with store := IndexStore.putObject sh.store coll key obj }

/-- The shard stamps the absolute expiry, a sum of two `u64`s, which wraps; a zero ttl writes without
one. -/
def writeObjectTtl (now : ℕ) (sh : Shard St) (coll key : String) (obj : Value) (ttlMs : ℕ) :
    Shard St :=
  if ttlMs = 0 then sh.writeObject coll key obj
  else { sh with store := IndexStore.putObjectAt sh.store coll key obj ((now + ttlMs) % 2 ^ 64) }

def sweepExpired (now : ℕ) (sh : Shard St) : Shard St × ℕ :=
  let r := IndexStore.sweepExpired sh.store now
  ({ sh with store := r.1 }, r.2)

def cas (now : ℕ) (sh : Shard St) (coll key : String) (expect : Option Value) (new : Value) :
    Shard St × Bool :=
  let r := IndexStore.cas now sh.store coll key expect new
  ({ sh with store := r.1 }, r.2)

def incr (now : ℕ) (sh : Shard St) (coll key : String) (delta : ℤ) : Shard St × Option ℤ :=
  let r := IndexStore.incr now sh.store coll key delta
  ({ sh with store := r.1 }, r.2)

def writeBatch (sh : Shard St) (items : List (String × String × Value)) : Shard St :=
  { sh with store := IndexStore.putBatch sh.store items }

def deleteObject (sh : Shard St) (coll key : String) : Shard St :=
  { sh with store := IndexStore.deleteObject sh.store coll key }

def leaseAcquire (now : ℕ) (sh : Shard St) (key holder : String) (ttlMs : ℕ) :
    Shard St × LeaseOutcome :=
  let r := IndexStore.update now sh.store leaseColl key (Change.lease now holder ttlMs)
  ({ sh with store := r.1 }, r.2)

/-- Every entry of a collection whose id falls in one of `buckets`. -/
def exportEntries (now : ℕ) (sh : Shard St) (coll : String) (buckets : List ℕ) :
    List (String × Value) :=
  (IndexStore.scanEntries now sh.store coll).filter fun e => bucketOf e.1 ∈ buckets

/-- Plain upserts, in order. -/
def importEntries (sh : Shard St) (coll : String) (entries : List (String × Value)) : Shard St :=
  { sh with store := entries.foldl (fun s e => IndexStore.putObject s coll e.1 e.2) sh.store }

/-- Deletes the entries of a collection that fall in `buckets`, and counts them. -/
def dropBuckets (now : ℕ) (sh : Shard St) (coll : String) (buckets : List ℕ) : Shard St × ℕ :=
  let ids := (sh.exportEntries now coll buckets).map Prod.fst
  ({ sh with store := ids.foldl (fun s id => IndexStore.deleteObject s coll id) sh.store },
    ids.length)

end Shard

/-- The mutating operations of a shard, apart from the lease. -/
inductive ShardOp where
  | setAdd (coll key member : String)
  | setRemove (coll key member : String)
  | writeObject (coll key : String) (obj : Value)
  | writeObjectTtl (coll key : String) (obj : Value) (ttlMs : ℕ)
  | sweepExpired
  | cas (coll key : String) (expect : Option Value) (new : Value)
  | incr (coll key : String) (delta : ℤ)
  | writeBatch (items : List (String × String × Value))
  | deleteObject (coll key : String)
  | importEntries (coll : String) (entries : List (String × Value))
  | dropBuckets (coll : String) (buckets : List ℕ)

namespace ShardOp

/-- The shard after the operation, at clock reading `now`. -/
def exec {St : Type} [IndexStore St] (now : ℕ) (sh : Shard St) : ShardOp → Shard St
  | .setAdd coll key member => (sh.setAdd now coll key member).1
  | .setRemove coll key member => (sh.setRemove now coll key member).1
  | .writeObject coll key obj => sh.writeObject coll key obj
  | .writeObjectTtl coll key obj ttlMs => sh.writeObjectTtl now coll key obj ttlMs
  | .sweepExpired => (sh.sweepExpired now).1
  | .cas coll key expect new => (sh.cas now coll key expect new).1
  | .incr coll key delta => (sh.incr now coll key delta).1
  | .writeBatch items => sh.writeBatch items
  | .deleteObject coll key => sh.deleteObject coll key
  | .importEntries coll entries => sh.importEntries coll entries
  | .dropBuckets coll buckets => (sh.dropBuckets now coll buckets).1

/-- The collections an operation names; a sweep names none. -/
def colls : ShardOp → List String
  | .setAdd coll _ _ | .setRemove coll _ _ | .writeObject coll _ _ | .writeObjectTtl coll _ _ _
  | .cas coll _ _ _ | .incr coll _ _ | .deleteObject coll _ | .importEntries coll _
  | .dropBuckets coll _ => [coll]
  | .writeBatch items => items.map Prod.fst
  | .sweepExpired => []

end ShardOp

end Stplr
