import Stplr.Partitioner

/-!
# The bucket-diff reshard planner

`planReshard` compares two memberships bucket by bucket: a new owner that is not an old one gets a
copy from the first old owner, and an old owner that is not a new one drops the bucket.
-/

namespace Stplr

/-- A bucket to be copied from one node to another. -/
structure Copy where
  bucket : ℕ
  src : NodeId
  dst : NodeId
deriving DecidableEq

/-- A bucket to be dropped from a node. -/
structure Drop where
  bucket : ℕ
  node : NodeId
deriving DecidableEq

structure ReshardPlan where
  copies : List Copy
  drops : List Drop
  buckets : ℕ
  movedBuckets : ℕ

/-- The effective replication factor: at least one, at most the number of nodes. -/
def clamp (target n : ℕ) : ℕ := max (min target (max n 1)) 1

/-- The copies of one bucket: one per owner gained, from the first old owner if there is any. -/
def bucketCopies (b : ℕ) (oldOwners newOwners : List NodeId) : List Copy :=
  match oldOwners.head? with
  | some src => (newOwners.filter fun dst => dst ∉ oldOwners).map fun dst => ⟨b, src, dst⟩
  | none => []

/-- The drops of one bucket: one per owner lost. -/
def bucketDrops (b : ℕ) (oldOwners newOwners : List NodeId) : List Drop :=
  (oldOwners.filter fun n => n ∉ newOwners).map fun n => ⟨b, n⟩

/-- A ring over `nodes` that carries the topology if there is one. -/
def ringOf (nodes : List NodeId) (topology : Topology) : Partitioner :=
  if topology.entries = [] then Partitioner.new nodes
  else (Partitioner.new nodes).setTopology topology

/-- The owners of a bucket in the old membership, as the planner computes them. -/
def planOldOwners (old : List NodeId) (replication : ℕ) (topology : Topology) (b : ℕ) :
    List NodeId :=
  if old = [] then []
  else (ringOf old topology).ownersOfBucket b (clamp replication old.length)

/-- The owners of a bucket in the new membership. -/
def planNewOwners (new : List NodeId) (replication : ℕ) (topology : Topology) (b : ℕ) :
    List NodeId :=
  (ringOf new topology).ownersOfBucket b (clamp replication new.length)

/-- `plan_reshard`. -/
def planReshard (old new : List NodeId) (replication : ℕ) (topology : Topology) : ReshardPlan :=
  let oldOwners := planOldOwners old replication topology
  let newOwners := planNewOwners new replication topology
  let bs := List.range numBuckets
  { copies := bs.flatMap fun b => bucketCopies b (oldOwners b) (newOwners b)
    drops := bs.flatMap fun b => bucketDrops b (oldOwners b) (newOwners b)
    buckets := numBuckets
    movedBuckets := bs.countP fun b =>
      bucketCopies b (oldOwners b) (newOwners b) ≠ [] ∨
        bucketDrops b (oldOwners b) (newOwners b) ≠ [] }

end Stplr
