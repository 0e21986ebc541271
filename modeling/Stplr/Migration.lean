import Stplr.Cluster
import Stplr.Lib.SortedMap
import Mathlib.Data.Prod.Lex

/-!
# `run_migration` as a state machine

A `Migration` is the local state of one `run_migration` call that holds the `migrating` lock.
Its phases are cut at every access to state that other tasks can see: the overlay, the journal,
the gates, the client table, the ring, and each shard call.  `Migration.step` is the next such
access; `none` means that the call waits (`draining`) or has returned (`finished`).

How each shard call ends is given by a table `MigCall → Outcome`.  Copying and dropping swallow errors:
a failed export counts as an empty one, and a failed import or drop is ignored.

`runMigration` and `runMigrationPartial` compute the run of an undisturbed call in one go, loop by loop
as in the source, without and with `stop_after`.
-/

namespace Stplr

open Lib

/-- The list cut into pieces of `n` elements, the last one possibly shorter. -/
def chunksFuel {α : Type} (n : ℕ) : ℕ → List α → List (List α)
  | _, [] => []
  | 0, _ => []
  | fuel + 1, l => l.take n :: chunksFuel n fuel (l.drop n)

/-- `slice::chunks`. -/
def chunks {α : Type} (n : ℕ) (l : List α) : List (List α) := chunksFuel n l.length l

/-- One planned action on a bucket: a copy between two nodes, or a drop from a node. -/
abbrev Action := (NodeId × NodeId) ⊕ NodeId

/-- The planned actions by bucket, copies first; buckets already done are left out. -/
def actionsOf (plan : ReshardPlan) (done : Finset ℕ) : SortedMap ℕ (List Action) := SortedMap.group
    (((plan.copies.filter fun c => c.bucket ∉ done).map fun c => (c.bucket, .inl (c.src, c.dst))) ++
      (plan.drops.filter fun d => d.bucket ∉ done).map fun d => (d.bucket, .inr d.node))

/-- The copies of a chunk by `(from, to)` pair: all of its buckets that travel between the two. -/
def pairBuckets (actions : SortedMap ℕ (List Action)) (chunk : List ℕ) :
    SortedMap (NodeId ×ₗ NodeId) (List ℕ) :=
  SortedMap.group (chunk.flatMap fun b =>
    ((actions.find? b).getD []).filterMap fun a => a.getLeft?.map fun p => (toLex p, b))

/-- The drops of a chunk by node. -/
def nodeDrops (actions : SortedMap ℕ (List Action)) (chunk : List ℕ) :
    SortedMap NodeId (List ℕ) :=
  SortedMap.group (chunk.flatMap fun b =>
    ((actions.find? b).getD []).filterMap fun a => a.getRight?.map fun n => (n, b))

/-- The shard calls of a migration.  `i` is the position in the list of managed collections. -/
inductive MigCall where
  | exportEntries (src dst : NodeId) (buckets : List ℕ) (i : ℕ)
  | importEntries (src dst : NodeId) (buckets : List ℕ) (i : ℕ)
  | dropBuckets (node : NodeId) (buckets : List ℕ) (i : ℕ)
deriving DecidableEq

/-- What is left of the copy loop of a chunk. -/
inductive CopyJob where
  /-- Look up the two clients of a pair. -/
  | pair (src dst : NodeId) (buckets : List ℕ)
  /-- Export a collection from the source. -/
  | transfer (src dst : NodeId) (buckets : List ℕ) (i : ℕ) (coll : String)
  /-- Import what was exported into the destination. -/
  | deliver (src dst : NodeId) (buckets : List ℕ) (i : ℕ) (coll : String)
      (entries : List (String × Value))

/-- What is left of the drop loop of a chunk. -/
inductive DropJob where
  /-- Look up the client of a node. -/
  | node (node : NodeId) (buckets : List ℕ)
  /-- Drop the buckets from a collection. -/
  | drop (node : NodeId) (buckets : List ℕ) (i : ℕ) (coll : String)

/-- The steps that end a migration. -/
inductive CommitStep where
  | clearJournal
  | bumpEpoch
  | setNodes
  | setReplication
  | dropClients
  | removeOverlay
deriving DecidableEq

/-- `journal.clear()` and `commit_membership`. -/
def commitSteps : List CommitStep :=
  [.clearJournal, .bumpEpoch, .setNodes, .setReplication, .dropClients]

def CommitStep.exec (c : Cluster) (new : List NodeId) : CommitStep → Cluster
  | .clearJournal => c.clearJournal
  | .bumpEpoch => c.bumpEpoch
  | .setNodes => c.setNodes new
  | .setReplication => c.setReplication new
  | .dropClients => c.dropClients new
  | .removeOverlay => c.removeOverlay

/-- Where a migration stands. -/
inductive MigPhase where
  /-- It has just taken the lock. -/
  | locked
  /-- The overlay is in place; the record is saved next. -/
  | planned
  /-- At the head of the chunk loop. -/
  | looping
  /-- The chunk is frozen; in-flight operations drain. -/
  | draining (chunk : List ℕ)
  | copying (chunk : List ℕ) (jobs : List CopyJob)
  /-- The chunk has been cut over. -/
  | dropping (chunk : List ℕ) (jobs : List DropJob)
  /-- The chunk is unfrozen; the record is saved next. -/
  | thawed (chunk : List ℕ)
  | committing (steps : List CommitStep)
  | finished

/-- The local state of a `run_migration` call. -/
structure Migration where
  old : List NodeId
  new : List NodeId
  done : Finset ℕ
  stopAfter : Option ℕ
  actions : SortedMap ℕ (List Action)
  /-- The chunks not started yet. -/
  todo : List (List ℕ)
  /-- The index of the next chunk. -/
  index : ℕ
  movedBuckets : ℕ
  copied : ℕ
  dropped : ℕ
  phase : MigPhase

/-- The call once it has the lock. -/
def Migration.start (old new : List NodeId) (done : Finset ℕ) (stopAfter : Option ℕ) : Migration :=
  ⟨old, new, done, stopAfter, SortedMap.empty, [], 0, 0, 0, 0, .locked⟩

/-- Old and new members are the same, as `run_migration` tests it. -/
def sameMembers (old new : List NodeId) : Prop := old.length = new.length ∧ ∀ n ∈ old, n ∈ new

instance (old new : List NodeId) : Decidable (sameMembers old new) :=
  inferInstanceAs (Decidable (_ ∧ _))

namespace Cluster

/-- The overlay that a migration installs. -/
def migrationOverlay (c : Cluster) (old new : List NodeId) (done : Finset ℕ) : Overlay where
  oldP := c.makePartitioner old
  rOld := clamp c.replicationTarget old.length
  newP := c.makePartitioner new
  rNew := clamp c.replicationTarget new.length
  migrated := done

def installOverlay (c : Cluster) (old new : List NodeId) (done : Finset ℕ) : Cluster :=
  { c with overlay := some (c.migrationOverlay old new done) }

/-- The chunk now routes to its new owners. -/
def cutover (c : Cluster) (chunk : List ℕ) : Cluster :=
  { c with overlay := c.overlay.map fun o => { o with migrated := o.migrated ∪ chunk.toFinset } }

def freeze (c : Cluster) (chunk : List ℕ) : Cluster := { c with gates := c.gates.freeze chunk }

def unfreeze (c : Cluster) (chunk : List ℕ) : Cluster := { c with gates := c.gates.unfreeze chunk }

end Cluster

/-- The copy loop of a chunk. -/
def copyJobs (actions : SortedMap ℕ (List Action)) (chunk : List ℕ) : List CopyJob :=
  (pairBuckets actions chunk).entries.map fun e =>
    .pair (ofLex e.1).1 (ofLex e.1).2 e.2

/-- The drop loop of a chunk. -/
def dropJobs (actions : SortedMap ℕ (List Action)) (chunk : List ℕ) : List DropJob :=
  (nodeDrops actions chunk).entries.map fun e => .node e.1 e.2

variable {St : Type} [IndexStore St]

/-- `export_entries(..).unwrap_or_default()`. -/
def exportCall (net : MigCall → Outcome) (w : World St) (src dst : NodeId) (buckets : List ℕ)
    (i : ℕ) (coll : String) : List (String × Value) :=
  if net (.exportEntries src dst buckets i) = .ok then
    (w.shards src).exportEntries w.now coll buckets
  else []

/-- `let _ = import_entries(..)`. -/
def importCall (net : MigCall → Outcome) (w : World St) (src dst : NodeId) (buckets : List ℕ)
    (i : ℕ) (coll : String) (entries : List (String × Value)) : World St :=
  if (net (.importEntries src dst buckets i)).effective then
    w.setShard dst ((w.shards dst).importEntries coll entries)
  else w

/-- `drop_buckets(..).unwrap_or(0)`. -/
def dropCall (net : MigCall → Outcome) (w : World St) (node : NodeId) (buckets : List ℕ)
    (i : ℕ) (coll : String) : World St × ℕ :=
  let o := net (.dropBuckets node buckets i)
  let r := (w.shards node).dropBuckets w.now coll buckets
  (if o.effective then w.setShard node r.1 else w, if o = .ok then r.2 else 0)

namespace Migration

/-- The next step of the copy loop of a chunk. -/
def copyStep (net : MigCall → Outcome) (w : World St) (m : Migration) (chunk : List ℕ) :
    List CopyJob → World St × Migration
  | [] =>
    (w.setCluster (w.cluster.cutover chunk),
      { m with phase := .dropping chunk (dropJobs m.actions chunk) })
  | .pair src dst buckets :: jobs =>
    let transfers := if src ∈ w.cluster.clients ∧ dst ∈ w.cluster.clients then
      w.cluster.colls.zipIdx.map fun ci => CopyJob.transfer src dst buckets ci.2 ci.1 else []
    (w, { m with phase := .copying chunk (transfers ++ jobs) })
  | .transfer src dst buckets i coll :: jobs =>
    let entries := exportCall net w src dst buckets i coll
    let delivery := if entries = [] then [] else [.deliver src dst buckets i coll entries]
    (w, { m with
      copied := m.copied + entries.length
      phase := .copying chunk (delivery ++ jobs) })
  | .deliver src dst buckets i coll entries :: jobs =>
    (importCall net w src dst buckets i coll entries, { m with phase := .copying chunk jobs })

/-- The next step of the drop loop of a chunk. -/
def dropStep (net : MigCall → Outcome) (w : World St) (m : Migration) (chunk : List ℕ) :
    List DropJob → World St × Migration
  | [] => (w.setCluster (w.cluster.unfreeze chunk), { m with phase := .thawed chunk })
  | .node node buckets :: jobs =>
    let drops := if node ∈ w.cluster.clients then
      w.cluster.colls.zipIdx.map fun ci => DropJob.drop node buckets ci.2 ci.1 else []
    (w, { m with phase := .dropping chunk (drops ++ jobs) })
  | .drop node buckets i coll :: jobs =>
    let r := dropCall net w node buckets i coll
    (r.1, { m with dropped := m.dropped + r.2, phase := .dropping chunk jobs })

/-- The overlay goes up and the chunks are laid out, unless there is nothing to migrate. -/
def planStep (w : World St) (m : Migration) : World St × Migration :=
  let c := w.cluster
  if sameMembers m.old m.new then (w, { m with phase := .committing commitSteps })
  else
    let plan := planReshard m.old m.new c.replicationTarget c.topology
    let actions := actionsOf plan m.done
    (w.setCluster (c.installOverlay m.old m.new m.done), { m with
        actions
        todo := chunks c.chunk (actions.entries.map Prod.fst)
        movedBuckets := plan.movedBuckets
        phase := .planned })

/-- The head of the chunk loop. -/
def loopStep (w : World St) (m : Migration) : World St × Migration := match m.todo with
  | [] => (w, { m with phase := .committing (commitSteps ++ [.removeOverlay]) })
  | chunk :: todo =>
    if m.stopAfter.any (· ≤ m.index) then (w, { m with phase := .finished })
    else (w.setCluster (w.cluster.freeze chunk),
      { m with todo, index := m.index + 1, phase := .draining chunk })

/-- The next step of a migration. -/
def step (net : MigCall → Outcome) (w : World St) (m : Migration) : Option (World St × Migration) :=
  match m.phase with
  | .locked => some (planStep w m)
  | .planned =>
    some (w.setCluster (w.cluster.saveRecord m.old m.new m.done), { m with phase := .looping })
  | .looping => some (loopStep w m)
  | .draining chunk =>
    if w.cluster.gates.drained chunk then
      some (w, { m with phase := .copying chunk (copyJobs m.actions chunk) })
    else none
  | .copying chunk jobs => some (copyStep net w m chunk jobs)
  | .dropping chunk jobs => some (dropStep net w m chunk jobs)
  | .thawed chunk =>
    let done := m.done ∪ chunk.toFinset
    some (w.setCluster (w.cluster.saveRecord m.old m.new done), { m with done, phase := .looping })
  | .committing [] => some (w, { m with phase := .finished })
  | .committing (s :: steps) =>
    some (w.setCluster (s.exec w.cluster m.new), { m with phase := .committing steps })
  | .finished => none

end Migration

/-! ### The run in one go -/

/-- One collection of a pair: export, and import if there is anything. -/
def copyColl (net : MigCall → Outcome) (src dst : NodeId) (buckets : List ℕ) (w : World St)
    (ci : String × ℕ) : World St :=
  let entries := exportCall net w src dst buckets ci.2 ci.1
  if entries = [] then w else importCall net w src dst buckets ci.2 ci.1 entries

/-- One `(from, to)` pair of a chunk. -/
def copyPair (net : MigCall → Outcome) (w : World St) (src dst : NodeId) (buckets : List ℕ) :
    World St :=
  if src ∈ w.cluster.clients ∧ dst ∈ w.cluster.clients then
    w.cluster.colls.zipIdx.foldl (copyColl net src dst buckets) w
  else w

/-- One node of a chunk's drops. -/
def dropNode (net : MigCall → Outcome) (w : World St) (node : NodeId) (buckets : List ℕ) :
    World St :=
  if node ∈ w.cluster.clients then
    w.cluster.colls.zipIdx.foldl (fun w ci => (dropCall net w node buckets ci.2 ci.1).1) w
  else w

/-- One chunk: freeze, copy, cut over, drop, unfreeze, record. -/
def runChunk (net : MigCall → Outcome) (old new : List NodeId) (actions : SortedMap ℕ (List Action))
    (s : World St × Finset ℕ) (chunk : List ℕ) : World St × Finset ℕ :=
  let w := s.1.setCluster (s.1.cluster.freeze chunk)
  let w := (pairBuckets actions chunk).entries.foldl
    (fun w e => copyPair net w (ofLex e.1).1 (ofLex e.1).2 e.2) w
  let w := w.setCluster (w.cluster.cutover chunk)
  let w := (nodeDrops actions chunk).entries.foldl (fun w e => dropNode net w e.1 e.2) w
  let w := w.setCluster (w.cluster.unfreeze chunk)
  let done := s.2 ∪ chunk.toFinset
  (w.setCluster (w.cluster.saveRecord old new done), done)

/-- `commit_membership` after the journal is cleared. -/
def Cluster.commit (c : Cluster) (new : List NodeId) : Cluster :=
  commitSteps.foldl (fun c s => s.exec c new) c

/-- `run_migration` (without `stop_after`) when nothing else runs. -/
def runMigration (net : MigCall → Outcome) (w : World St) (old new : List NodeId)
    (done : Finset ℕ) : World St :=
  if sameMembers old new then w.setCluster (w.cluster.commit new)
  else
    let c := w.cluster
    let actions := actionsOf (planReshard old new c.replicationTarget c.topology) done
    let w := w.setCluster ((c.installOverlay old new done).saveRecord old new done)
    let s := (chunks c.chunk (actions.entries.map Prod.fst)).foldl
      (runChunk net old new actions) (w, done)
    s.1.setCluster ((s.1.cluster.commit new).removeOverlay)

/-- `run_migration` with `stop_after` when nothing else runs: after `maxChunks` chunks it returns as a
crash would leave it, with overlay and journal in place. -/
def runMigrationPartial (net : MigCall → Outcome) (w : World St) (old new : List NodeId)
    (done : Finset ℕ) (maxChunks : ℕ) : World St :=
  if sameMembers old new then w.setCluster (w.cluster.commit new)
  else
    let c := w.cluster
    let actions := actionsOf (planReshard old new c.replicationTarget c.topology) done
    let w := w.setCluster ((c.installOverlay old new done).saveRecord old new done)
    let chs := chunks c.chunk (actions.entries.map Prod.fst)
    let s := (chs.take maxChunks).foldl (runChunk net old new actions) (w, done)
    if maxChunks < chs.length then s.1
    else s.1.setCluster ((s.1.cluster.commit new).removeOverlay)

/-- `rebalance`. -/
def rebalance (net : MigCall → Outcome) (w : World St) (newIds : List NodeId) : World St :=
  runMigration net w w.cluster.memberIds newIds ∅

/-- `rebalance_partial`. -/
def rebalancePartial (net : MigCall → Outcome) (w : World St) (newIds : List NodeId)
    (maxChunks : ℕ) : World St :=
  runMigrationPartial net w w.cluster.memberIds newIds ∅ maxChunks

/-- `resume_migration`: goes on from the journal, if it has a record. -/
def resumeMigration (net : MigCall → Outcome) (w : World St) : World St :=
  match w.cluster.journal with
  | some rec =>
    runMigration net (w.setCluster (w.cluster.setTarget rec.replication)) rec.oldNodes rec.newNodes
      rec.done
  | none => w

/-- `drain`. -/
def drainNode (net : MigCall → Outcome) (w : World St) (node : NodeId) : World St :=
  rebalance net w (w.cluster.memberIds.filter (· ≠ node))

/-- `apply_membership`: clients for the new nodes first, then a rebalance.  `target` lists the keys
of the table. -/
def applyMembership (net : MigCall → Outcome) (w : World St) (target : List NodeId) : World St :=
  rebalance net
    (w.setCluster { w.cluster with clients := w.cluster.clients ∪ target.toFinset }) target

end Stplr
