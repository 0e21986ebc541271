import Stplr.Guard
import Stplr.Reshard
import Stplr.Shard
import Mathlib.Data.String.Basic

/-!
# The cluster front door

The state of a coordinator's `Cluster`, the routing of a key (`owners`, through the overlay of a
migration when there is one) and the steps of `commit_membership`.

A client is known by the id of the node it talks to, so the client table is a set of ids; `World`
joins a cluster with the shards behind the clients and the shards' clock.
-/

namespace Stplr

/-- What the migration journal records. -/
structure MigrationRecord where
  oldNodes : List NodeId
  newNodes : List NodeId
  replication : ℕ
  done : Finset ℕ

/-- Routing during a migration: a bucket resolves to its old owners until it has been migrated,
then to its new ones. -/
structure Overlay where
  oldP : Partitioner
  rOld : ℕ
  newP : Partitioner
  rNew : ℕ
  migrated : Finset ℕ

/-- The owners of a bucket under the overlay. -/
def Overlay.owners (o : Overlay) (b : ℕ) : List NodeId :=
  if b ∈ o.migrated then o.newP.ownersOfBucket b o.rNew else o.oldP.ownersOfBucket b o.rOld

/-- A coordinator's state.  `chunk` is the number of buckets migrated together. -/
structure Cluster where
  partitioner : Partitioner
  clients : Finset NodeId
  replicationTarget : ℕ
  target_pos : 0 < replicationTarget
  replication : ℕ
  chunk : ℕ
  chunk_pos : 0 < chunk
  down : Finset NodeId
  journal : Option MigrationRecord
  overlay : Option Overlay
  gates : Gates
  colls : List String
  topology : Topology
  epoch : ℕ

/-- The routing of one key: its owners, and the one that would serve it. -/
structure RouteInfo where
  owners : List NodeId
  servedBy : Option NodeId
  keyValue : String

namespace Cluster

/-- `Cluster::new` over clients listed as `ids`. -/
def new (ids : List NodeId) (replication : ℕ) (colls : List String) : Cluster where
  partitioner := Partitioner.new ids
  clients := ids.toFinset
  replicationTarget := max replication 1
  target_pos := lt_of_lt_of_le Nat.one_pos (le_max_right _ _)
  replication := clamp (max replication 1) ids.length
  chunk := 256
  chunk_pos := by decide
  down := ∅
  journal := none
  overlay := none
  gates := Gates.new
  colls := colls
  topology := ∅
  epoch := 1

def setTopology (c : Cluster) (topology : Topology) : Cluster :=
  { c with topology, partitioner := c.partitioner.setTopology topology }

def withChunk (c : Cluster) (chunk : ℕ) : Cluster :=
  { c with chunk := max chunk 1, chunk_pos := lt_of_lt_of_le Nat.one_pos (le_max_right _ _) }

/-- What `resume_migration` makes of the recorded replication factor. -/
def setTarget (c : Cluster) (replication : ℕ) : Cluster := { c with
    replicationTarget := max replication 1
    target_pos := lt_of_lt_of_le Nat.one_pos (le_max_right _ _) }

def makePartitioner (c : Cluster) (nodes : List NodeId) : Partitioner := ringOf nodes c.topology

/-- The members in ascending order. -/
def memberIds (c : Cluster) : List NodeId := c.partitioner.nodes.insertionSort (· ≤ ·)

def addNode (c : Cluster) (id : NodeId) : Cluster := { c with clients := insert id c.clients }

/-! ### Routing -/

/-- The first half of `owners`: what the overlay says, if there is one. -/
def overlayOwners (c : Cluster) (key : String) : Option (List NodeId) :=
  c.overlay.map fun o => o.owners (bucketOf key)

/-- The second half of `owners`: what the ring says. -/
def ringOwners (c : Cluster) (key : String) : List NodeId :=
  c.partitioner.replicaSet key c.replication

def owners (c : Cluster) (key : String) : List NodeId :=
  (c.overlayOwners key).getD (c.ringOwners key)

/-- `live_owner`: the first owner that is not marked down. -/
def liveOwner (c : Cluster) (key : String) : Option NodeId := (c.owners key).find? (· ∉ c.down)

/-- `Cluster::route`. -/
def route (c : Cluster) (key : String) : RouteInfo := ⟨c.owners key, c.liveOwner key, key⟩

/-! ### `commit_membership`, step by step -/

def clearJournal (c : Cluster) : Cluster := { c with journal := none }

def bumpEpoch (c : Cluster) : Cluster := { c with epoch := c.epoch + 1 }

def setNodes (c : Cluster) (new : List NodeId) : Cluster :=
  { c with partitioner := c.partitioner.setNodes new }

def setReplication (c : Cluster) (new : List NodeId) : Cluster :=
  { c with replication := clamp c.replicationTarget new.length }

/-- Forgets the clients (and the down marks) of the nodes that are not in `new`. -/
def dropClients (c : Cluster) (new : List NodeId) : Cluster := { c with
    clients := c.clients.filter (· ∈ new)
    down := c.down \ c.clients.filter (· ∉ new) }

def removeOverlay (c : Cluster) : Cluster := { c with overlay := none }

def saveRecord (c : Cluster) (old new : List NodeId) (done : Finset ℕ) : Cluster :=
  { c with journal := some ⟨old, new, c.replicationTarget, done⟩ }

end Cluster

/-- A cluster, the shards behind its clients, and the shards' clock. -/
structure World (St : Type) where
  cluster : Cluster
  shards : NodeId → Shard St
  now : ℕ

/-- How a shard call ends: it answers, it fails before it has taken effect, or its effect takes
place and the answer is lost. -/
inductive Outcome where
  | ok
  | failedBefore
  | failedAfter
deriving DecidableEq

/-- Whether the call takes effect on the shard. -/
def Outcome.effective : Outcome → Bool
  | .failedBefore => false
  | _ => true

namespace World

variable {St : Type}

def setCluster (w : World St) (c : Cluster) : World St := { w with cluster := c }

def setShard (w : World St) (n : NodeId) (sh : Shard St) : World St :=
  { w with shards := Function.update w.shards n sh }

end World

end Stplr
