import Stplr.Scan
import Stplr.System

/-!
# Batch reads against a migration

`mget` and `scan_range` do not enter the gates.  `mget` routes its keys one after the other and then
asks one shard after the other; `scan_range` takes the list of clients and asks each of them.  Both
are cut here at their accesses to shared state, as the single-key calls are; a reader only looks at
the world, so its step returns where the reader stands afterwards.  Where the source iterates a
`HashMap`, the label says which entry comes next.

`Observed` is a system with one reader beside it.
-/

namespace Stplr

open Lib

variable {St : Type} [IndexStore St]

/-! ### `mget` -/

/-- A requested key and its position in the request. -/
abbrev Wanted := String × ℕ

structure Mget where
  coll : String
  keys : List String

/-- Where an `mget` stands.  `todo` are the keys that are not routed yet, `routed` those that are,
with their nodes. -/
inductive MgetPc where
  /-- The overlay is read next, for the first key of `todo`. -/
  | routing (todo : List Wanted) (routed : List (NodeId × Wanted))
  /-- There was no overlay; the ring is read next. -/
  | ring (key : Wanted) (todo : List Wanted) (routed : List (NodeId × Wanted))
  /-- The first owner that is not down is picked next. -/
  | live (owners : List NodeId) (key : Wanted) (todo : List Wanted) (routed : List (NodeId × Wanted))
  /-- The keys are grouped by node; a node is taken up next. -/
  | asking (byNode : List (NodeId × List Wanted)) (out : List (Option Value))
  /-- A request to `node` is on its way. -/
  | calling (node : NodeId) (wanted : List Wanted) (byNode : List (NodeId × List Wanted))
      (out : List (Option Value))
  | returned (out : List (Option Value))

namespace Mget

def start (call : Mget) : MgetPc := .routing call.keys.zipIdx []

/-- The values of a shard go to the positions of their keys. -/
def fill (out : List (Option Value)) (wanted : List Wanted) (vals : List (Option Value)) :
    List (Option Value) :=
  wanted.zipIdx.foldl (fun out e => out.set e.1.2 vals[e.2]?.join) out

/-- The next step of `Cluster::mget`; `next` is the node that the iteration comes to. -/
def step (call : Mget) (w : World St) (pc : MgetPc) (next : NodeId) : Option MgetPc :=
  let c := w.cluster
  match pc with
  | .routing [] routed =>
    some (.asking (SortedMap.group routed).entries (List.replicate call.keys.length none))
  | .routing (key :: todo) routed =>
    match c.overlayOwners key.1 with
    | some owners => some (.live owners key todo routed)
    | none => some (.ring key todo routed)
  | .ring key todo routed => some (.live (c.ringOwners key.1) key todo routed)
  | .live owners key todo routed =>
    match owners.find? (· ∉ c.down) with
    | some owner => some (.routing todo (routed ++ [(owner, key)]))
    | none => some (.routing todo routed)
  | .asking [] out => some (.returned out)
  | .asking byNode out =>
    (byNode.lookup next).map fun wanted =>
      let rest := byNode.eraseP (·.1 = next)
      if next ∈ c.clients then .calling next wanted rest out else .asking rest out
  | .calling node wanted byNode out =>
    let vals := (w.shards node).mget w.now call.coll (wanted.map Prod.fst)
    some (.asking byNode (fill out wanted vals))
  | .returned _ => none

end Mget

/-! ### `scan_range` -/

/-- A `scan_range` call; the shards of `remote` are reached over the network. -/
structure ScanRange where
  remote : Finset NodeId
  coll : String
  after : Option String
  start : Option String
  stop : Option String
  limit : ℕ

/-- Where a `scan_range` stands. -/
inductive ScanPc where
  /-- The client table is read next. -/
  | starting
  | asking (clients : Finset NodeId) (merged : Finset String)
  /-- A request to `node` is on its way. -/
  | calling (node : NodeId) (clients : Finset NodeId) (merged : Finset String)
  | returned (page : List String) (cursor : Option String)

namespace ScanRange

/-- What the shard of `n` answers. -/
def answer (call : ScanRange) (w : World St) (n : NodeId) : Finset String :=
  let limit := if n ∈ call.remote then min call.limit scanCap else call.limit
  ((w.shards n).scanRange w.now call.coll call.after call.start call.stop limit).toFinset

/-- The next step of `Cluster::scan_range`; `next` is the client that the iteration comes to. -/
def step (call : ScanRange) (w : World St) (pc : ScanPc) (next : NodeId) : Option ScanPc :=
  match pc with
  | .starting => some (.asking w.cluster.clients ∅)
  | .asking clients merged =>
    if clients = ∅ then
      let r := mergePage call.limit merged
      some (.returned r.1 r.2)
    else if next ∈ clients then
      if next ∈ w.cluster.down then some (.asking (clients.erase next) merged)
      else some (.calling next (clients.erase next) merged)
    else none
  | .calling node clients merged => some (.asking clients (merged ∪ call.answer w node))
  | .returned _ _ => none

end ScanRange

/-! ### A reader beside the system -/

/-- A system and where a reader stands. -/
structure Observed (St ρ : Type) where
  sys : System St
  pc : ρ

inductive ObsLabel where
  | sys (l : SysLabel)
  | read (next : NodeId)

/-- The system moves, or the reader does. -/
def Observed.step {ρ : Type} (read : World St → ρ → NodeId → Option ρ) (s : Observed St ρ) :
    ObsLabel → Option (Observed St ρ)
  | .sys l => (s.sys.step (fun _ => .ok) l).map fun sys => { s with sys }
  | .read next => (read s.sys.world s.pc next).map fun pc => { s with pc }

/-- The next step of the migration drops the bucket of `key` from the collection on some shard. -/
def Migration.dropsKey (m : Migration) (coll key : String) : Bool := match m.phase with
  | .dropping _ (.drop _ buckets _ c :: _) => c = coll ∧ bucketOf key ∈ buckets
  | _ => false

end Stplr
