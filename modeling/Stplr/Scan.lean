import Stplr.Cluster
import Stplr.Lib.Paging
import Stplr.Lib.SortedMap
import Mathlib.Data.Finset.Sort
import Mathlib.Data.Finset.Union

/-!
# Key iteration

`scan_range` lists the keys of a collection in ascending order, bounded by a cursor, a prefix and an
end; `scan_buckets` keeps those of some buckets.  Both come with the `IndexStore` trait.  A cluster
asks every shard for its page and merges the answers; `partitionPlan` groups the buckets by primary
owner, for readers that go to the shards themselves.
-/

namespace Stplr

open Lib

/-- `str::starts_with`. -/
def startsWith (k start : String) : Bool := start.toList.isPrefixOf k.toList

/-- The page size of `scan_buckets`. -/
def scanChunk : ℕ := 1024

namespace IndexStore

variable {St : Type} [IndexStore St]

/-- The keys of a collection, ascending. -/
def sortedKeys (now : ℕ) (s : St) (coll : String) : List String :=
  ((scanEntries now s coll).map Prod.fst).insertionSort (· ≤ ·)

/-- Up to `limit` keys after `after` that start with `start` and are less than `stop`. -/
def scanRange (now : ℕ) (s : St) (coll : String) (after start stop : Option String) (limit : ℕ) :
    List String :=
  let keys := above after (sortedKeys now s coll)
  ((keys.filter fun k => start.all (startsWith k)).filter fun k => stop.all (k < ·)).take limit

/-- Up to `limit` keys after `after` whose bucket is one of `buckets`.  There are not more pages than
keys, and the page after the last one is empty. -/
def scanBuckets (now : ℕ) (s : St) (coll : String) (buckets : List ℕ) (after : Option String)
    (limit : ℕ) : List String :=
  let pages := (scanEntries now s coll).length + 1
  (gatherPages (fun s cursor => (s, scanRange now s coll cursor none none scanChunk)) scanChunk
    (fun k => bucketOf k ∈ buckets) limit pages s after []).2

end IndexStore

namespace Shard

variable {St : Type} [IndexStore St]

def scanRange (now : ℕ) (sh : Shard St) (coll : String) (after start stop : Option String)
    (limit : ℕ) : List String :=
  IndexStore.scanRange now sh.store coll after start stop limit

def scanBuckets (now : ℕ) (sh : Shard St) (coll : String) (buckets : List ℕ)
    (after : Option String) (limit : ℕ) : List String :=
  IndexStore.scanBuckets now sh.store coll buckets after limit

end Shard

/-! ### Over a cluster -/

/-- The cap on `limit` of the `/scan` handlers. -/
def scanCap : ℕ := 10000

/-- The answers of the shards as one ascending page without duplicates, and its cursor. -/
def mergePage (limit : ℕ) (merged : Finset String) : List String × Option String :=
  let page := (merged.sort (· ≤ ·)).take limit
  (page, cursor limit page)

/-- `Cluster::scan_range`.  A shard that is down is left out, and so is one whose call fails; the
shards reached over the network cap the limit. -/
def World.scanRange {St : Type} [IndexStore St] (w : World St) (remote failed : Finset NodeId)
    (coll : String) (after start stop : Option String) (limit : ℕ) : List String × Option String :=
  let asked := (w.cluster.clients \ w.cluster.down) \ failed
  mergePage limit <| asked.biUnion fun n =>
    let limit := if n ∈ remote then min limit scanCap else limit
    ((w.shards n).scanRange w.now coll after start stop limit).toFinset

/-- A read partition: a shard, its endpoint, and the buckets of which it is the primary owner. -/
structure Partition where
  id : NodeId
  endpoint : String
  buckets : List ℕ
deriving DecidableEq

namespace Cluster

/-- The first owner of a bucket. -/
def primaryOf (c : Cluster) (b : ℕ) : Option NodeId := (c.partitioner.ownersOfBucket b 1).head?

/-- Every bucket with its primary owner. -/
def primaries (c : Cluster) : List (NodeId × ℕ) :=
  (List.range numBuckets).filterMap fun b => (c.primaryOf b).map fun primary => (primary, b)

/-- The buckets grouped by primary owner, in ascending order of ids.  `endpoint` gives the base URLs
of the clients. -/
def partitionPlan (c : Cluster) (endpoint : NodeId → String) : List Partition :=
  (SortedMap.group c.primaries).entries.map fun e =>
    ⟨e.1, if e.1 ∈ c.clients then endpoint e.1 else "", e.2⟩

end Cluster

/-- One page of a partition, read from its own shard; the last key is the next cursor, and a page
shorter than the limit is the last one. -/
def World.scanPartition {St : Type} [IndexStore St] (w : World St) (p : Partition) (coll : String)
    (limit : ℕ) (after : Option String) : List String × Option String :=
  let page := (w.shards p.id).scanBuckets w.now coll p.buckets after limit
  (page, if page.length < limit then none else page.getLast?)

end Stplr
