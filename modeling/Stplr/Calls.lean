import Stplr.Cluster

/-!
# The single-key operations of a cluster

`get`, `put`, `cas`, `incr`, `delete`, `set_add` and `set_remove`, each cut at its accesses to
shared state: entering the gate of the key's bucket, reading the overlay, reading the ring,
looking up a client, every shard call, and leaving the gate.

`get` asks the owners in turn until one answers.  The broadcast operations (`put`, `delete`,
`set_add`, `set_remove`) are applied to every owner.  `cas` and `incr` run on the first live owner
and, when they succeed, overwrite the others with the new value.
-/

namespace Stplr

inductive CallOp where
  | get
  | put (obj : Value)
  | cas (expect : Option Value) (new : Value)
  | incr (delta : ℤ)
  | delete
  | setAdd (member : String)
  | setRemove (member : String)
deriving DecidableEq

structure Call where
  coll : String
  key : String
  op : CallOp
deriving DecidableEq

/-- What a call returns. -/
inductive Reply where
  | value (v : Option Value)
  | done
  | flag (set : Bool)
  | number (n : Option ℤ)
deriving DecidableEq

/-- Where a call stands.  `todo` are the owners still to be visited. -/
inductive CallPc where
  /-- At the gate. -/
  | waiting
  /-- In the gate; the overlay is read next. -/
  | entered
  /-- There was no overlay; the ring is read next. -/
  | routing
  | routed (todo : List NodeId)
  /-- A request to `node` is on its way. -/
  | calling (node : NodeId) (todo : List NodeId)
  /-- `cas` or `incr` has decided; the value is copied to the other owners. -/
  | copying (v : Value) (r : Reply) (todo : List NodeId)
  | writing (v : Value) (r : Reply) (node : NodeId) (todo : List NodeId)
  | returning (r : Reply)
  | returned (r : Reply)
deriving DecidableEq

structure CallState where
  call : Call
  pc : CallPc
deriving DecidableEq

namespace CallOp

/-- The operations that decide on one owner and copy the result to the others. -/
def primary : CallOp → Bool
  | .cas _ _ | .incr _ => true
  | _ => false

def isWrite : CallOp → Bool
  | .get => false
  | _ => true

/-- The reply when no owner was reached. -/
def unreached : CallOp → Reply
  | .get => .value none
  | .cas _ _ => .flag false
  | .incr _ => .number none
  | _ => .done

end CallOp

namespace CallState

variable {St : Type} [IndexStore St]

/-- The head of the loop over the owners. -/
def visit (c : Cluster) (t : CallState) (todo : List NodeId) : CallPc := if t.call.op.primary then
    -- the live owners are split into the primary and the replicas
    match todo.filter (· ∉ c.down) with
    | [] => .returning t.call.op.unreached
    | p :: replicas =>
      if p ∈ c.clients then .calling p replicas else .returning t.call.op.unreached
  else
    match todo with
    | [] => .returning t.call.op.unreached
    | n :: todo => if n ∈ c.down ∨ n ∉ c.clients then .routed todo else .calling n todo

/-- The shard call on `node`: its shard afterwards and where the operation goes on. -/
def callNode (o : Outcome) (now : ℕ) (sh : Shard St) (t : CallState) (todo : List NodeId) :
    Shard St × CallPc :=
  let coll := t.call.coll
  let key := t.call.key
  match t.call.op with
  | .get => (sh, if o = .ok then .returning (.value (sh.object now coll key)) else .routed todo)
  | .put obj => (if o.effective then sh.writeObject coll key obj else sh, .routed todo)
  | .delete => (if o.effective then sh.deleteObject coll key else sh, .routed todo)
  | .setAdd m => (if o.effective then (sh.setAdd now coll key m).1 else sh, .routed todo)
  | .setRemove m => (if o.effective then (sh.setRemove now coll key m).1 else sh, .routed todo)
  | .cas expect new =>
    let r := sh.cas now coll key expect new
    (if o.effective then r.1 else sh,
      if o = .ok ∧ r.2 then .copying new (.flag true) todo else .returning (.flag false))
  | .incr delta =>
    let r := sh.incr now coll key delta
    (if o.effective then r.1 else sh, match r.2 with
      | some n => if o = .ok then .copying (.int n) (.number n) todo else .returning (.number none)
      | none => .returning (.number none))

/-- The next step of a call; `o` is how the shard call ends when the step is one. -/
def step (o : Outcome) (w : World St) (t : CallState) : Option (World St × CallState) :=
  let c := w.cluster
  let b := bucketOf t.call.key
  match t.pc with
  | .waiting =>
    if c.gates.canEnter b then
      some (w.setCluster { c with gates := c.gates.enter b }, { t with pc := .entered })
    else none
  | .entered =>
    match c.overlayOwners t.call.key with
    | some owners => some (w, { t with pc := .routed owners })
    | none => some (w, { t with pc := .routing })
  | .routing => some (w, { t with pc := .routed (c.ringOwners t.call.key) })
  | .routed todo => some (w, { t with pc := visit c t todo })
  | .calling n todo =>
    let r := t.callNode o w.now (w.shards n) todo
    some (w.setShard n r.1, { t with pc := r.2 })
  | .copying _ r [] => some (w, { t with pc := .returning r })
  | .copying v r (n :: todo) =>
    some (w, { t with pc := if n ∈ c.clients then .writing v r n todo else .copying v r todo })
  | .writing v r n todo =>
    some (if o.effective then w.setShard n ((w.shards n).writeObject t.call.coll t.call.key v) else w,
      { t with pc := .copying v r todo })
  | .returning r =>
    some (w.setCluster { c with gates := c.gates.leave b }, { t with pc := .returned r })
  | .returned _ => none

end CallState

end Stplr
