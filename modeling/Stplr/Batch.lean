import Stplr.BatchRead
import Stplr.Perform

/-!
# Batch calls in one go

`Cluster::mget` and `Cluster::bulk_load` when nothing else runs, loop by loop as in the source.  Where
the source iterates a `HashMap`, the order of its entries is an argument.

`mget` asks one shard for all the keys that it routes there: the shards in `failing` return errors.
`getAmong` is `get` on the same shards.
-/

namespace Stplr

open Lib

/-- How the calls to `owners` end, when those to the shards in `failing` end in an error. -/
def failingNet (failing : Finset NodeId) (owners : List NodeId) : ℕ → Outcome := fun i =>
  if owners[i]?.any (· ∈ failing) then .failedBefore else .ok

/-- `per`: the entries of each node of the ring. -/
def Cluster.perNode (c : Cluster) (entries : List (String × Value)) :
    SortedMap NodeId (List (String × Value)) :=
  SortedMap.group (entries.flatMap fun e => (c.ringOwners e.1).map fun n => (n, e))

namespace World

variable {St : Type} [IndexStore St]

/-! ### `mget` -/

/-- The positions of the keys, each with the first owner of its key that is not marked down. -/
def routedKeys (w : World St) (keys : List String) : List (NodeId × Wanted) :=
  keys.zipIdx.filterMap fun x => (w.cluster.liveOwner x.1).map fun n => (n, x)

/-- `by_node`. -/
def byNode (w : World St) (keys : List String) : List (NodeId × List Wanted) :=
  (SortedMap.group (w.routedKeys keys)).entries

/-- The loop over the nodes: a node that has no client, or whose call fails, leaves its positions
empty. -/
def mgetLoop (w : World St) (failing : Finset NodeId) (coll : String) :
    List (NodeId × List Wanted) → List (Option Value) → List (Option Value)
  | [], out => out
  | g :: gs, out =>
    w.mgetLoop failing coll gs <| if g.1 ∈ w.cluster.clients ∧ g.1 ∉ failing then
        Mget.fill out g.2 ((w.shards g.1).mget w.now coll (g.2.map Prod.fst))
      else out

/-- `mget` with the nodes in the order `order`. -/
def mget (w : World St) (failing : Finset NodeId) (coll : String) (keys : List String)
    (order : List (NodeId × List Wanted)) : List (Option Value) :=
  w.mgetLoop failing coll order (List.replicate keys.length none)

/-- `get` on the same shards. -/
def getAmong (w : World St) (failing : Finset NodeId) (coll key : String) : Option Value :=
  w.get (failingNet failing (w.cluster.owners key)) coll key

/-! ### `bulk_load` -/

/-- The loop over the clients.  A client comes once, so it does not matter that the source takes its
entries out of `per`. -/
def bulkLoop (coll : String) (per : SortedMap NodeId (List (String × Value))) :
    World St → List NodeId → World St
  | w, [] => w
  | w, n :: ns =>
    let w' := match per.find? n with
      | some es => w.setShard n ((w.shards n).importEntries coll es)
      | none => w
    bulkLoop coll per w' ns

/-- `bulk_load` with the clients in the order `order`; errors are ignored and there are none here. -/
def bulkLoad (w : World St) (coll : String) (entries : List (String × Value))
    (order : List NodeId) : World St :=
  bulkLoop coll (w.cluster.perNode entries) w order

end World

end Stplr
