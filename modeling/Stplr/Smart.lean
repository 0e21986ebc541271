import Stplr.Perform
import Stplr.Requests

/-!
# The direct-to-shard client

A `SmartClient` keeps its own ring and client table and talks to the shards without the coordinator.
It learns the members, not the topology, so its ring is always a plain one (`plain`).  It keeps no
down marks: an owner that fails to answer is passed over.  A scan asks every shard over HTTP.
-/

namespace Stplr

structure SmartClient where
  partitioner : Partitioner
  plain : partitioner.topology = ∅
  clients : Finset NodeId
  replication : ℕ
  epoch : ℕ

namespace SmartClient

/-- `SmartClient::new` over clients listed as `ids`. -/
def new (ids : List NodeId) (replication : ℕ) : SmartClient where
  partitioner := Partitioner.new ids
  plain := rfl
  clients := ids.toFinset
  replication := max replication 1
  epoch := 0

/-- The members in ascending order. -/
def memberIds (sc : SmartClient) : List NodeId := sc.partitioner.nodes.insertionSort (· ≤ ·)

/-- `build_clients`: the members with an endpoint. -/
def buildClients (members : List (NodeId × String)) : List NodeId :=
  ((members.filter fun m => m.2 ≠ "").map Prod.fst).dedup

/-! The three writes of `update_membership`.  A `HashMap` lists its keys in some order, on which
the routes do not depend. -/

def setClients (sc : SmartClient) (members : List (NodeId × String)) : SmartClient :=
  { sc with clients := (buildClients members).toFinset }

def setNodes (sc : SmartClient) (members : List (NodeId × String)) : SmartClient :=
  { sc with partitioner := sc.partitioner.setNodes (buildClients members) }

def setEpoch (sc : SmartClient) (epoch : ℕ) : SmartClient := { sc with epoch }

/-- The test of `refresh`: the answer tells nothing new. -/
def unchanged (sc : SmartClient) (epoch : ℕ) : Prop :=
  epoch ≠ 0 ∧ epoch = sc.epoch ∧ sc.memberIds ≠ []

instance (sc : SmartClient) (epoch : ℕ) : Decidable (sc.unchanged epoch) :=
  inferInstanceAs (Decidable (_ ∧ _))

def owners (sc : SmartClient) (key : String) : List NodeId :=
  sc.partitioner.replicaSet key sc.replication

def route (sc : SmartClient) (key : String) : List NodeId := sc.owners key

variable {St : Type} [IndexStore St]

/-- The loop of `get`: the first owner that answers is believed. -/
def getLoop (sc : SmartClient) (w : World St) (coll key : String) :
    (ℕ → Outcome) → List NodeId → Option Value
  | _, [] => none
  | net, n :: owners =>
    if n ∉ sc.clients ∨ net 0 ≠ .ok then sc.getLoop w coll key (laterCalls net) owners
    else (w.shards n).object w.now coll key

def get (sc : SmartClient) (net : ℕ → Outcome) (w : World St) (coll key : String) : Option Value :=
  sc.getLoop w coll key net (sc.owners key)

/-- The loop of `put`: errors are ignored. -/
def putLoop (sc : SmartClient) (coll key : String) (obj : Value) :
    (ℕ → Outcome) → World St → List NodeId → World St
  | _, w, [] => w
  | net, w, n :: owners =>
    sc.putLoop coll key obj (laterCalls net) (if n ∈ sc.clients ∧ (net 0).effective then
        w.setShard n ((w.shards n).writeObject coll key obj) else w) owners

def put (sc : SmartClient) (net : ℕ → Outcome) (w : World St) (coll key : String) (obj : Value) :
    World St :=
  sc.putLoop coll key obj net w (sc.owners key)

/-- `scan_range`, with every shard behind its own connection: an error is passed over, and the keys of
the others are merged. -/
def scanRange (sc : SmartClient) (wires : NodeId → Wire) (w : World St) (coll : String)
    (after start stop : Option String) (limit : ℕ) : List String × Option String :=
  mergePage limit <| sc.clients.biUnion fun n =>
    let r := (wires n).call w.now (w.shards n) (.scanRange coll after start stop limit)
    (r.2.elim [] ShardAnswer.found).toFinset

end SmartClient

end Stplr
