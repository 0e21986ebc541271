import Stplr.Calls

/-!
# Single-key calls in one go

`perform` is what a call of `Calls` does when nothing else runs, loop by loop as in the source.
`net i` says how the shard call to the `i`-th owner of the list ends, if there is one: an owner that
is marked down or has no client is passed over.  For `cas` and `incr` the list is that of the owners
that are not marked down, so `net 0` is the call to the primary.
-/

namespace Stplr

/-- How the calls to the owners after the first one end. -/
def laterCalls (net : ℕ → Outcome) : ℕ → Outcome := fun i => net (i + 1)

/-- The loops over the owners pass by the node. -/
def Cluster.skips (c : Cluster) (n : NodeId) : Prop := n ∈ c.down ∨ n ∉ c.clients

instance (c : Cluster) (n : NodeId) : Decidable (c.skips n) := inferInstanceAs (Decidable (_ ∨ _))

namespace World

variable {St : Type} [IndexStore St]

/-- The loop of `get`: the first owner that answers is believed. -/
def getLoop (w : World St) (coll key : String) : (ℕ → Outcome) → List NodeId → Option Value
  | _, [] => none
  | net, n :: owners =>
    if w.cluster.skips n ∨ net 0 ≠ .ok then w.getLoop coll key (laterCalls net) owners
    else (w.shards n).object w.now coll key

/-- The loop of `broadcast`: errors are ignored. -/
def broadcastLoop (op : ShardOp) : (ℕ → Outcome) → World St → List NodeId → World St
  | _, w, [] => w
  | net, w, n :: owners =>
    broadcastLoop op (laterCalls net)
      (if ¬w.cluster.skips n ∧ (net 0).effective then w.setShard n (op.exec w.now (w.shards n))
        else w) owners

/-- The loop of `cas` and `incr` over the replicas. -/
def replicateLoop (coll key : String) (v : Value) :
    (ℕ → Outcome) → World St → List NodeId → World St
  | _, w, [] => w
  | net, w, n :: replicas =>
    replicateLoop coll key v (laterCalls net) (if n ∈ w.cluster.clients ∧ (net 0).effective then
        w.setShard n ((w.shards n).writeObject coll key v) else w) replicas

/-- `cas` from the call to the primary on. -/
def casOn (net : ℕ → Outcome) (w : World St) (coll key : String) (expect : Option Value)
    (new : Value) (primary : NodeId) (replicas : List NodeId) : World St × Bool :=
  let r := (w.shards primary).cas w.now coll key expect new
  let w' := if (net 0).effective then w.setShard primary r.1 else w
  if net 0 = .ok ∧ r.2 then (replicateLoop coll key new (laterCalls net) w' replicas, true)
  else (w', false)

/-- `incr` from the call to the primary on. -/
def incrOn (net : ℕ → Outcome) (w : World St) (coll key : String) (delta : ℤ) (primary : NodeId)
    (replicas : List NodeId) : World St × Option ℤ :=
  let r := (w.shards primary).incr w.now coll key delta
  let w' := if (net 0).effective then w.setShard primary r.1 else w
  match r.2 with
  | some n =>
    if net 0 = .ok then (replicateLoop coll key (.int n) (laterCalls net) w' replicas, some n)
    else (w', none)
  | none => (w', none)

/-- The owners that are not marked down. -/
def live (w : World St) (owners : List NodeId) : List NodeId := owners.filter (· ∉ w.cluster.down)

def cas (net : ℕ → Outcome) (w : World St) (coll key : String) (expect : Option Value)
    (new : Value) (owners : List NodeId) : World St × Bool :=
  match w.live owners with
  | [] => (w, false)
  | p :: replicas =>
    if p ∈ w.cluster.clients then w.casOn net coll key expect new p replicas else (w, false)

def incr (net : ℕ → Outcome) (w : World St) (coll key : String) (delta : ℤ)
    (owners : List NodeId) : World St × Option ℤ :=
  match w.live owners with
  | [] => (w, none)
  | p :: replicas =>
    if p ∈ w.cluster.clients then w.incrOn net coll key delta p replicas else (w, none)

/-- A call whose owners are known. -/
def visitOwners (net : ℕ → Outcome) (w : World St) (call : Call) (owners : List NodeId) :
    World St × Reply :=
  let coll := call.coll
  let key := call.key
  match call.op with
  | .get => (w, .value (w.getLoop coll key net owners))
  | .put obj => (broadcastLoop (.writeObject coll key obj) net w owners, .done)
  | .delete => (broadcastLoop (.deleteObject coll key) net w owners, .done)
  | .setAdd m => (broadcastLoop (.setAdd coll key m) net w owners, .done)
  | .setRemove m => (broadcastLoop (.setRemove coll key m) net w owners, .done)
  | .cas expect new =>
    let r := w.cas net coll key expect new owners
    (r.1, .flag r.2)
  | .incr delta =>
    let r := w.incr net coll key delta owners
    (r.1, .number r.2)

/-- A call that nothing else overlaps. -/
def perform (net : ℕ → Outcome) (w : World St) (call : Call) : World St × Reply :=
  w.visitOwners net call (w.cluster.owners call.key)

/-- `put_ttl` that nothing else overlaps. -/
def putTtl (net : ℕ → Outcome) (w : World St) (coll key : String) (obj : Value) (ttlMs : ℕ) :
    World St :=
  broadcastLoop (.writeObjectTtl coll key obj ttlMs) net w (w.cluster.owners key)

/-- `get` that nothing else overlaps. -/
def get (net : ℕ → Outcome) (w : World St) (coll key : String) : Option Value :=
  w.getLoop coll key net (w.cluster.owners key)

/-- Calls that do not overlap on shards that all answer, each some time after the one before. -/
def runCalls (w : World St) (calls : List (ℕ × Call)) : World St :=
  calls.foldl (fun w c => ({ w with now := w.now + c.1 }.perform (fun _ => .ok) c.2).1) w

/-- Such calls with their replies. -/
def performAll (w : World St) : List (ℕ × Call) → World St × List Reply
  | [] => (w, [])
  | c :: calls =>
    let r := { w with now := w.now + c.1 }.perform (fun _ => .ok) c.2
    let rest := r.1.performAll calls
    (rest.1, r.2 :: rest.2)

/-- The world some time later, when other nodes are marked down. -/
def later (w : World St) (ms : ℕ) (down : Finset NodeId) : World St :=
  { w.setCluster { w.cluster with down } with now := w.now + ms }

end World

end Stplr
