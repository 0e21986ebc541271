import Stplr.Equiv.Reshard

/-!
# Where a migration routes the buckets

`Cluster.routes` is the owner list that a call which reads the routing state now would get for a
bucket.  `PhaseInv` says, for each phase of a migration, what the overlay, the ring, the gates, the
client table and the journal look like and which buckets are still to be migrated; every step keeps
it (`PhaseInv.step`).

Only the cutover of a chunk changes the set of owners of any bucket, and only of the buckets of that
chunk (`mem_routes_step`).  The three-step commit does not: the ring is set before the replication factor,
but a call that reads the ring in between is on a bucket whose replication factor stays the same.
-/

namespace Stplr

open Lib List Migration Cluster
open Option (some)

/-! ### What a step can do -/

/-- The transitions of a migration, one constructor per kind of step. -/
inductive Migration.Trans {St : Type} [IndexStore St] (net : MigCall → Outcome) (w : World St)
    (m : Migration) : World St × Migration → Prop
  | same (hp : m.phase = .locked) (hsame : sameMembers m.old m.new) :
      Trans net w m (w, { m with phase := .committing commitSteps })
  | plan {plan : ReshardPlan} {actions : SortedMap ℕ (List Action)} (hp : m.phase = .locked)
      (hdiff : ¬sameMembers m.old m.new)
      (hplan : planReshard m.old m.new w.cluster.replicationTarget w.cluster.topology = plan)
      (hacts : actionsOf plan m.done = actions) :
      Trans net w m (w.setCluster (w.cluster.installOverlay m.old m.new m.done), { m with
          actions
          todo := chunks w.cluster.chunk (actions.entries.map Prod.fst)
          movedBuckets := plan.movedBuckets
          phase := .planned })
  | record (hp : m.phase = .planned) : Trans net w m
      (w.setCluster (w.cluster.saveRecord m.old m.new m.done), { m with phase := .looping })
  | last (hp : m.phase = .looping) (htodo : m.todo = []) :
      Trans net w m (w, { m with phase := .committing (commitSteps ++ [.removeOverlay]) })
  | stop {ch : List ℕ} {todo : List (List ℕ)} (hp : m.phase = .looping) (htodo : m.todo = ch :: todo)
      (hstop : m.stopAfter.any (· ≤ m.index) = true) :
      Trans net w m (w, { m with phase := .finished })
  | freeze {ch : List ℕ} {todo : List (List ℕ)} (hp : m.phase = .looping)
      (htodo : m.todo = ch :: todo) (hgo : ¬m.stopAfter.any (· ≤ m.index) = true) :
      Trans net w m (w.setCluster (w.cluster.freeze ch),
        { m with todo, index := m.index + 1, phase := .draining ch })
  | drain {ch : List ℕ} (hp : m.phase = .draining ch) (hd : w.cluster.gates.drained ch) :
      Trans net w m (w, { m with phase := .copying ch (copyJobs m.actions ch) })
  | cutover {ch : List ℕ} (hp : m.phase = .copying ch []) :
      Trans net w m (w.setCluster (w.cluster.cutover ch),
        { m with phase := .dropping ch (dropJobs m.actions ch) })
  | pair {ch : List ℕ} {src dst : NodeId} {bs : List ℕ} {jobs : List CopyJob}
      (hp : m.phase = .copying ch (.pair src dst bs :: jobs)) :
      Trans net w m (m.copyStep net w ch (.pair src dst bs :: jobs))
  | transfer {ch : List ℕ} {src dst : NodeId} {bs : List ℕ} {i : ℕ} {coll : String}
      {jobs : List CopyJob} (hp : m.phase = .copying ch (.transfer src dst bs i coll :: jobs)) :
      Trans net w m (m.copyStep net w ch (.transfer src dst bs i coll :: jobs))
  | deliver {ch : List ℕ} {src dst : NodeId} {bs : List ℕ} {i : ℕ} {coll : String}
      {es : List (String × Value)} {jobs : List CopyJob}
      (hp : m.phase = .copying ch (.deliver src dst bs i coll es :: jobs)) :
      Trans net w m (importCall net w src dst bs i coll es, { m with phase := .copying ch jobs })
  | thaw {ch : List ℕ} (hp : m.phase = .dropping ch []) :
      Trans net w m (w.setCluster (w.cluster.unfreeze ch), { m with phase := .thawed ch })
  | node {ch : List ℕ} {n : NodeId} {bs : List ℕ} {jobs : List DropJob}
      (hp : m.phase = .dropping ch (.node n bs :: jobs)) :
      Trans net w m (m.dropStep net w ch (.node n bs :: jobs))
  | drop {ch : List ℕ} {n : NodeId} {bs : List ℕ} {i : ℕ} {coll : String} {jobs : List DropJob}
      (hp : m.phase = .dropping ch (.drop n bs i coll :: jobs)) :
      Trans net w m ((dropCall net w n bs i coll).1, { m with
          dropped := m.dropped + (dropCall net w n bs i coll).2
          phase := .dropping ch jobs })
  | checkpoint {ch : List ℕ} (hp : m.phase = .thawed ch) : Trans net w m
      (w.setCluster (w.cluster.saveRecord m.old m.new (m.done ∪ ch.toFinset)),
        { m with done := m.done ∪ ch.toFinset, phase := .looping })
  | commit {s : CommitStep} {steps : List CommitStep} (hp : m.phase = .committing (s :: steps)) :
      Trans net w m (w.setCluster (s.exec w.cluster m.new), { m with phase := .committing steps })
  | finish (hp : m.phase = .committing []) : Trans net w m (w, { m with phase := .finished })

variable {m : Migration} {net : MigCall → Outcome} {c : Cluster} {key : String}

section

variable {St : Type} [IndexStore St] {w : World St} {r : World St × Migration}

theorem Migration.trans_of_step (h : m.step net w = some r) : m.Trans net w r := by
  unfold step at h
  split at h <;> rename_i hp
  all_goals try obtain rfl := some.inj h
  · unfold planStep
    dsimp only
    split_ifs with hsame
    · exact .same hp hsame
    · exact .plan hp hsame rfl rfl
  · exact .record hp
  · unfold loopStep
    split <;> rename_i htodo
    · exact .last hp htodo
    · split_ifs with hstop
      · exact .stop hp htodo hstop
      · exact .freeze hp htodo hstop
  · split_ifs at h with hd
    obtain rfl := some.inj h
    exact .drain hp hd
  · unfold copyStep
    split
    · exact .cutover hp
    · exact .pair hp
    · exact .transfer hp
    · exact .deliver hp
  · unfold dropStep
    split
    · exact .thaw hp
    · exact .node hp
    · exact .drop hp
  · exact .checkpoint hp
  · exact .finish hp
  · exact .commit hp
  · cases h

/-- A migration takes the lock once. -/
theorem Migration.Trans.not_locked (hs : m.Trans net w r) : r.2.phase ≠ .locked := by
  intro hp'
  cases hs <;> cases hp'

theorem Migration.Trans.stopAfter_eq (hs : m.Trans net w r) : r.2.stopAfter = m.stopAfter := by
  cases hs <;> rfl

@[simp]
theorem importCall_cluster (net : MigCall → Outcome) (src dst : NodeId) (bs : List ℕ) (i : ℕ)
    (coll : String) (es : List (String × Value)) :
    (importCall net w src dst bs i coll es).cluster = w.cluster := by
  rw [importCall]
  split_ifs <;> rfl

@[simp]
theorem dropCall_cluster (net : MigCall → Outcome) (n : NodeId) (bs : List ℕ) (i : ℕ)
    (coll : String) : (dropCall net w n bs i coll).1.cluster = w.cluster := by
  rw [dropCall]
  dsimp only
  split_ifs <;> rfl

end

/-! ### Routing -/

/-- The owners that a call reading the routing state now gets for a bucket. -/
def Cluster.routes (c : Cluster) (b : ℕ) : List NodeId := match c.overlay with
  | some o => o.owners b
  | none => c.partitioner.ownersOfBucket b c.replication

theorem Cluster.overlayOwners_eq_some {os : List NodeId} (h : c.overlayOwners key = some os) :
    os = c.routes (bucketOf key) := by
  obtain ⟨o, ho, rfl⟩ := Option.map_eq_some_iff.mp h
  rw [routes, ho]

theorem Cluster.overlayOwners_eq_none : c.overlayOwners key = none ↔ c.overlay = none := by
  rw [overlayOwners, Option.map_eq_none_iff]

theorem Cluster.routes_of_overlay_none (h : c.overlay = none) (b : ℕ) :
    c.routes b = c.partitioner.ownersOfBucket b c.replication := by
  rw [routes, h]

namespace Move

/-- The overlay of the move when the buckets of `M` have been cut over. -/
def overlay (mv : Move) (M : Finset ℕ) : Overlay :=
  ⟨ringOf mv.old mv.topology, clamp mv.target mv.old.length,
    ringOf mv.new mv.topology, clamp mv.target mv.new.length, M⟩

theorem owners_overlay {mv : Move} (hv : mv.Valid) (M : Finset ℕ) (b : ℕ) :
    (mv.overlay M).owners b = if b ∈ M then mv.newOwners b else mv.oldOwners b := by
  rw [Overlay.owners, hv.oldOwners_eq]
  rfl

/-- What a migration neither changes nor sees changed. -/
structure Fixed (mv : Move) (colls : List String) (c : Cluster) : Prop where
  target : c.replicationTarget = mv.target
  topology : c.topology = mv.topology
  ringTopology : c.partitioner.topology = mv.topology
  colls : c.colls = colls
  down : c.down = ∅

/-- The ring is that of the old members. -/
structure OldRing (mv : Move) (c : Cluster) : Prop where
  nodes : c.partitioner.nodes.Perm mv.old
  replication : c.replication = clamp mv.target mv.old.length

variable {mv : Move} {colls : List String} {c : Cluster}

theorem OldRing.owners (h : OldRing mv c) (hv : mv.Valid) (hf : Fixed mv colls c) (b : ℕ) :
    c.partitioner.ownersOfBucket b c.replication = mv.oldOwners b := by
  rw [hv.oldOwners_eq, h.replication]
  refine Partitioner.ownersOfBucket_perm (by simpa using h.nodes) (by simpa using hf.ringTopology) ?_ _ _
  intro a ha d hd
  exact hv.hashes a (mem_append_left _ (h.nodes.mem_iff.mp ha)) d
    (mem_append_left _ (h.nodes.mem_iff.mp hd))

theorem newRing_owners (hf : Fixed mv colls c) (hn : c.partitioner.nodes = mv.new) (b : ℕ) :
    c.partitioner.ownersOfBucket b (clamp mv.target mv.new.length) = mv.newOwners b := by
  have hp : c.partitioner = ringOf mv.new mv.topology := by
    have h1 := hf.ringTopology
    cases hc : c.partitioner with
    | mk nodes topology =>
      rw [hc] at hn h1
      cases hr : ringOf mv.new mv.topology with
      | mk nodes' topology' =>
        have h2 := ringOf_nodes mv.new mv.topology
        have h3 := ringOf_topology mv.new mv.topology
        rw [hr] at h2 h3
        dsimp only at hn h1 h2 h3
        rw [hn, h1, h2, h3]
  rw [hp]
  rfl

/-- Equal memberships place every bucket alike. -/
theorem not_moved_of_same (hv : mv.Valid) (h : sameMembers mv.old mv.new) (b : ℕ) :
    ¬mv.Moved b := by
  have hperm : mv.old.Perm mv.new := by
    refine (subperm_of_subset hv.old_nodup h.2).perm_of_length_le ?_
    exact h.1.ge
  have heq : mv.oldOwners b = mv.newOwners b := by
    rw [hv.oldOwners_eq, newOwners, planNewOwners, h.1]
    refine Partitioner.ownersOfBucket_perm (by simpa using hperm) (by simp) ?_ _ _
    intro a ha d hd
    rw [ringOf_nodes] at ha hd
    exact hv.hashes a (mem_append_left _ ha) d (mem_append_left _ hd)
  rw [Moved, heq]
  rintro (⟨n, h1, h2⟩ | ⟨n, h1, h2⟩) <;> exact h2 h1

/-! ### The invariant of the phases -/

/-- The loop over the chunks: `cur` is the chunk being worked on. -/
structure Laid (mv : Move) (m : Migration) (cur : List ℕ) : Prop where
  old_eq : m.old = mv.old
  new_eq : m.new = mv.new
  actions : ∃ d₀, m.actions = actionsOf mv.plan d₀ ∧ d₀ ⊆ m.done
  nodup : (cur ++ m.todo.flatten).Nodup
  pending : ∀ b ∈ cur ++ m.todo.flatten, b ∉ m.done ∧ b < numBuckets ∧ mv.Moved b
  cover : ∀ b < numBuckets, mv.Moved b → b ∈ m.done ∨ b ∈ cur ++ m.todo.flatten
  nonempty : ∀ ch ∈ m.todo, ch ≠ []

/-- The chunks are laid out, the ring is still the old one, and the overlay routes the buckets of
`cut` to their new owners. -/
structure Underway (mv : Move) (c : Cluster) (m : Migration) (cur : List ℕ) (cut : Finset ℕ) :
    Prop where
  laid : Laid mv m cur
  ring : OldRing mv c
  clients : ∀ n, n ∈ mv.old ∨ n ∈ mv.new → n ∈ c.clients
  overlay : c.overlay = some (mv.overlay cut)
  differ : ¬sameMembers mv.old mv.new

/-- The journal holds the progress of the migration. -/
def Recorded (mv : Move) (c : Cluster) (m : Migration) : Prop :=
  c.journal = some ⟨mv.old, mv.new, mv.target, m.done⟩

/-- A call that has just taken the lock, for a first run or for a resumed one. -/
structure Locked (mv : Move) (c : Cluster) (m : Migration) : Prop where
  old_eq : m.old = mv.old
  new_eq : m.new = mv.new
  ring : OldRing mv c
  clients : ∀ n, n ∈ mv.old ∨ n ∈ mv.new → n ∈ c.clients
  frozen : c.gates.frozen = ∅
  overlay : (c.overlay = none ∧ m.done = ∅) ∨
    (c.overlay = some (mv.overlay m.done) ∧ ¬sameMembers mv.old mv.new ∧ Recorded mv c m)
  todo : m.todo = []

/-- In the commit, before the listed steps.  Either the overlay is up and every bucket that moves
has been cut over, or nothing moves. -/
structure Committing (mv : Move) (c : Cluster) (m : Migration) (steps : List CommitStep) :
    Prop where
  new_eq : m.new = mv.new
  frozen : c.gates.frozen = ∅
  nodes : if .setNodes ∈ steps then c.partitioner.nodes.Perm mv.old else c.partitioner.nodes = mv.new
  replication : c.replication
    = clamp mv.target (if .setReplication ∈ steps then mv.old.length else mv.new.length)
  clients : ∀ n ∈ mv.new, n ∈ c.clients
  oldClients : .dropClients ∈ steps → ∀ n ∈ mv.old, n ∈ c.clients
  journal : .clearJournal ∉ steps → c.journal = none
  shape : (steps <:+ commitSteps ++ [.removeOverlay] ∧ (∀ b < numBuckets, mv.Moved b → b ∈ m.done) ∧
      c.overlay = if .removeOverlay ∈ steps then some (mv.overlay m.done) else none) ∨
    (steps <:+ commitSteps ∧ (∀ b, ¬mv.Moved b) ∧ c.overlay = none)

/-- What holds in each phase. -/
def PhaseInv (mv : Move) (c : Cluster) (m : Migration) : Prop := match m.phase with
  | .locked => Locked mv c m
  | .planned => Underway mv c m [] m.done ∧ c.gates.frozen = ∅
  | .looping => Underway mv c m [] m.done ∧ c.gates.frozen = ∅ ∧ Recorded mv c m
  | .draining ch =>
    Underway mv c m ch m.done ∧ c.gates.frozen = ch.toFinset ∧ Recorded mv c m ∧ ch ≠ []
  | .copying ch _ =>
    Underway mv c m ch m.done ∧ c.gates.frozen = ch.toFinset ∧ Recorded mv c m ∧ ch ≠ [] ∧
      c.gates.drained ch
  | .dropping ch _ =>
    Underway mv c m ch (m.done ∪ ch.toFinset) ∧ c.gates.frozen = ch.toFinset ∧ Recorded mv c m ∧
      ch ≠ [] ∧ c.gates.drained ch
  | .thawed ch =>
    Underway mv c m ch (m.done ∪ ch.toFinset) ∧ c.gates.frozen = ∅ ∧ Recorded mv c m
  | .committing steps => Committing mv c m steps
  | .finished =>
    (Underway mv c m [] m.done ∧ c.gates.frozen = ∅ ∧ Recorded mv c m) ∨ Committing mv c m []

section Steps

variable {m : Migration}

theorem migrationOverlay_eq (hf : Fixed mv colls c) (done : Finset ℕ) :
    c.migrationOverlay mv.old mv.new done = mv.overlay done := by
  rw [migrationOverlay, overlay, makePartitioner, makePartitioner, hf.target, hf.topology]

/-- Laying out the chunks of the plan. -/
theorem laid_plan (hv : mv.Valid) (ho : m.old = mv.old) (hn : m.new = mv.new) {k : ℕ} (hk : 0 < k)
    {actions : SortedMap ℕ (List Action)} (hacts : actions = actionsOf mv.plan m.done)
    {todo : List (List ℕ)} (htodo : todo = chunks k (actions.entries.map Prod.fst))
    (mb : ℕ) (ph : MigPhase) :
    Laid mv { m with actions, todo, movedBuckets := mb, phase := ph } [] := by
  have hflat : todo.flatten = actions.entries.map Prod.fst := by
    rw [htodo, flatten_chunks hk]
  have hmem : ∀ b, b ∈ todo.flatten ↔ b ∉ m.done ∧ b < numBuckets ∧ mv.Moved b := fun b => by
    rw [hflat, hacts, mem_actionKeys hv]
  refine ⟨ho, hn, ⟨m.done, hacts, Finset.Subset.refl _⟩, ?_, fun b hb => (hmem b).mp hb, ?_, ?_⟩
  · change todo.flatten.Nodup
    rw [hflat]
    exact SortedMap.nodup_keys _
  · intro b hb hm
    by_cases hd : b ∈ m.done
    · exact .inl hd
    · exact .inr ((hmem b).mpr ⟨hd, hb, hm⟩)
  · intro ch hch
    change ch ∈ todo at hch
    rw [htodo] at hch
    exact ne_nil_of_mem_chunks hk hch

/-- Nothing moves, so the commit follows. -/
theorem Locked.commit (hv : mv.Valid) (h : Locked mv c m) (hsame : sameMembers m.old m.new) :
    Committing mv c { m with phase := .committing commitSteps } commitSteps := by
  rw [h.old_eq, h.new_eq] at hsame
  have hov : c.overlay = none := by
    rcases h.overlay with ⟨hn, -⟩ | ⟨-, hns⟩
    · exact hn
    · exact absurd hsame hns.1
  exact {
    new_eq := h.new_eq
    frozen := h.frozen
    nodes := by rw [if_pos (by decide)]; exact h.ring.nodes
    replication := by rw [if_pos (by decide)]; exact h.ring.replication
    clients := fun n hn => h.clients n (.inr hn)
    oldClients := fun _ n hn => h.clients n (.inl hn)
    journal := fun hj => absurd (by decide) hj
    shape := .inr ⟨suffix_refl _, not_moved_of_same hv hsame, hov⟩ }

/-- After the last chunk the commit follows. -/
theorem Underway.commit (h : Underway mv c m [] m.done) (hfr : c.gates.frozen = ∅)
    (htodo : m.todo = []) :
    Committing mv c { m with phase := .committing (commitSteps ++ [.removeOverlay]) }
      (commitSteps ++ [.removeOverlay]) where
  new_eq := h.laid.new_eq
  frozen := hfr
  nodes := by rw [if_pos (by decide)]; exact h.ring.nodes
  replication := by rw [if_pos (by decide)]; exact h.ring.replication
  clients := fun n hn => h.clients n (.inr hn)
  oldClients := fun _ n hn => h.clients n (.inl hn)
  journal := fun hj => absurd (by decide) hj
  shape := by
    refine .inl ⟨suffix_refl _, fun b hb hm => ?_, by rw [if_pos (by decide)]; exact h.overlay⟩
    have := h.laid.cover b hb hm
    rw [htodo] at this
    simpa using this

/-- The next chunk is taken from the list. -/
theorem Laid.next (hl : Laid mv m []) {ch : List ℕ} {todo : List (List ℕ)}
    (htodo : m.todo = ch :: todo) (index : ℕ) (ph : MigPhase) :
    Laid mv { m with todo, index, phase := ph } ch := by
  have hmem : ∀ b, b ∈ [] ++ m.todo.flatten ↔ b ∈ ch ++ todo.flatten := by
    intro b
    rw [htodo]
    simp
  refine ⟨hl.old_eq, hl.new_eq, hl.actions, ?_, fun b hb => hl.pending b ((hmem b).mpr hb),
    fun b hb hm => (hl.cover b hb hm).imp_right (hmem b).mp,
    fun x hx => hl.nonempty x (htodo ▸ mem_cons_of_mem _ hx)⟩
  have := hl.nodup
  rw [htodo] at this
  simpa using this

variable {cur : List ℕ} {cut : Finset ℕ} {ch : List ℕ} {steps : List CommitStep} {s : CommitStep}
  {b : ℕ}

theorem Laid.withPhase (h : Laid mv m cur) (copied dropped : ℕ) (ph : MigPhase) :
    Laid mv { m with copied, dropped, phase := ph } cur :=
  ⟨h.old_eq, h.new_eq, h.actions, h.nodup, h.pending, h.cover, h.nonempty⟩

theorem Underway.withPhase (h : Underway mv c m cur cut) (copied dropped : ℕ) (ph : MigPhase) :
    Underway mv c { m with copied, dropped, phase := ph } cur cut :=
  ⟨h.laid.withPhase copied dropped ph, h.ring, h.clients, h.overlay, h.differ⟩

/-- A chunk that has been cut over counts as done from the next record on. -/
theorem Underway.finishChunk (h : Underway mv c m ch (m.done ∪ ch.toFinset)) (ph : MigPhase) :
    Underway mv c { m with done := m.done ∪ ch.toFinset, phase := ph } []
      (m.done ∪ ch.toFinset) := by
  have hl := h.laid
  obtain ⟨d₀, ha, hd₀⟩ := hl.actions
  refine ⟨⟨hl.old_eq, hl.new_eq, ⟨d₀, ha, hd₀.trans Finset.subset_union_left⟩, ?_, ?_, ?_,
    hl.nonempty⟩, h.ring, h.clients, h.overlay, h.differ⟩
  · exact hl.nodup.of_append_right
  · intro b hb
    obtain ⟨h1, h2, h3⟩ := hl.pending b (mem_append_right _ hb)
    refine ⟨?_, h2, h3⟩
    rw [Finset.mem_union, mem_toFinset, not_or]
    exact ⟨h1, fun hbc => (nodup_append.mp hl.nodup).2.2 b hbc b hb rfl⟩
  · intro b hb hm
    rw [Finset.mem_union, mem_toFinset, or_assoc]
    exact (hl.cover b hb hm).imp_right mem_append.mp

theorem nodup_of_suffix (h : steps <:+ commitSteps ++ [.removeOverlay] ∨ steps <:+ commitSteps) :
    steps.Nodup := by
  rcases h with h | h
  · exact List.Nodup.sublist h.sublist (by decide)
  · exact List.Nodup.sublist h.sublist (by decide)

theorem suffix_tail {l : List CommitStep} (h : s :: steps <:+ l) : steps <:+ l :=
  (suffix_cons s steps).trans h

/-- One step of the commit. -/
theorem Committing.step (hf : Fixed mv colls c) (h : Committing mv c m (s :: steps)) :
    Committing mv (s.exec c m.new) { m with phase := .committing steps } steps := by
  have hnd : s ∉ steps :=
    (nodup_cons.mp (nodup_of_suffix (h.shape.imp (fun x => x.1) fun x => x.1))).1
  -- a step other than `s` is still to come iff it was before
  have hmem : ∀ s', s' ≠ s → (s' ∈ s :: steps ↔ s' ∈ steps) := by
    intro s' hne
    rw [mem_cons]
    exact or_iff_right hne
  obtain ⟨hnew, hfr, hnodes, hrepl, hcl, hocl, hj, hshape⟩ := h
  have hshape' : s ≠ .removeOverlay → (steps <:+ commitSteps ++ [.removeOverlay] ∧
      (∀ b < numBuckets, mv.Moved b → b ∈ m.done) ∧
      c.overlay = if .removeOverlay ∈ steps then some (mv.overlay m.done) else none) ∨
      (steps <:+ commitSteps ∧ (∀ b, ¬mv.Moved b) ∧ c.overlay = none) := by
    intro hne
    simp only [hmem .removeOverlay hne.symm] at hshape
    exact hshape.imp (fun x => ⟨suffix_tail x.1, x.2⟩) fun x => ⟨suffix_tail x.1, x.2⟩
  cases s with
  | clearJournal =>
    simp only [hmem .setNodes (by decide), hmem .setReplication (by decide),
      hmem .dropClients (by decide)] at hnodes hrepl hocl
    exact ⟨hnew, hfr, hnodes, hrepl, hcl, hocl, fun _ => rfl, hshape' (by decide)⟩
  | bumpEpoch =>
    simp only [hmem .setNodes (by decide), hmem .setReplication (by decide),
      hmem .dropClients (by decide), hmem .clearJournal (by decide)] at hnodes hrepl hocl hj
    exact ⟨hnew, hfr, hnodes, hrepl, hcl, hocl, hj, hshape' (by decide)⟩
  | setNodes =>
    simp only [hmem .setReplication (by decide), hmem .dropClients (by decide),
      hmem .clearJournal (by decide)] at hrepl hocl hj
    refine ⟨hnew, hfr, ?_, hrepl, hcl, hocl, hj, hshape' (by decide)⟩
    rw [if_neg hnd]
    exact hnew
  | setReplication =>
    simp only [hmem .setNodes (by decide), hmem .dropClients (by decide),
      hmem .clearJournal (by decide)] at hnodes hocl hj
    refine ⟨hnew, hfr, hnodes, ?_, hcl, hocl, hj, hshape' (by decide)⟩
    rw [if_neg hnd]
    change clamp c.replicationTarget m.new.length = _
    rw [hf.target, hnew]
  | dropClients =>
    simp only [hmem .setNodes (by decide), hmem .setReplication (by decide),
      hmem .clearJournal (by decide)] at hnodes hrepl hj
    refine ⟨hnew, hfr, hnodes, hrepl, fun n hn => ?_, fun hd => absurd hd hnd, hj,
      hshape' (by decide)⟩
    exact Finset.mem_filter.mpr ⟨hcl n hn, by rwa [hnew]⟩
  | removeOverlay =>
    simp only [hmem .setNodes (by decide), hmem .setReplication (by decide),
      hmem .dropClients (by decide), hmem .clearJournal (by decide)] at hnodes hrepl hocl hj
    refine ⟨hnew, hfr, hnodes, hrepl, hcl, hocl, hj, ?_⟩
    rcases hshape with ⟨h1, h2, -⟩ | ⟨h1, h2, -⟩
    · exact .inl ⟨suffix_tail h1, h2, by rw [if_neg hnd]; rfl⟩
    · exact .inr ⟨suffix_tail h1, h2, rfl⟩

variable {St : Type} [IndexStore St] {w : World St} {r : World St × Migration}
  {net : MigCall → Outcome}

theorem Fixed.step (hf : Fixed mv colls w.cluster) (hs : m.Trans net w r) :
    Fixed mv colls r.1.cluster := by
  cases hs with
  | deliver | drop => simpa using hf
  | @commit s steps hp =>
    refine ⟨?_, ?_, ?_, ?_, ?_⟩
    · cases s <;> exact hf.target
    · cases s <;> exact hf.topology
    · cases s <;> exact hf.ringTopology
    · cases s <;> exact hf.colls
    · cases s with
      | dropClients =>
        change w.cluster.down \ _ = ∅
        rw [hf.down, Finset.empty_sdiff]
      | _ => exact hf.down
  | plan | record | freeze | cutover | thaw | checkpoint =>
    exact ⟨hf.target, hf.topology, hf.ringTopology, hf.colls, hf.down⟩
  | _ => exact hf

/-- Every step of a migration keeps the invariant of its phases. -/
theorem PhaseInv.step (hv : mv.Valid) (hf : Fixed mv colls w.cluster) (h : PhaseInv mv w.cluster m)
    (hs : m.Trans net w r) : Fixed mv colls r.1.cluster ∧ PhaseInv mv r.1.cluster r.2 := by
  refine ⟨hf.step hs, ?_⟩
  have hsaved : ∀ {cur cut}, Underway mv w.cluster m cur cut → ∀ done,
      some ⟨m.old, m.new, w.cluster.replicationTarget, done⟩
        = some (⟨mv.old, mv.new, mv.target, done⟩ : MigrationRecord) := by
    intro cur cut hu done
    rw [hf.target, hu.laid.old_eq, hu.laid.new_eq]
  unfold PhaseInv at h
  cases hs with
  | same hp hsame =>
    rw [hp] at h
    exact h.commit hv hsame
  | plan hp hdiff hplan hacts =>
    rw [hp] at h
    rw [h.old_eq, h.new_eq] at hdiff
    rw [h.old_eq, h.new_eq, hf.target, hf.topology, ← plan] at hplan
    subst hplan
    refine ⟨⟨laid_plan hv h.old_eq h.new_eq w.cluster.chunk_pos hacts.symm rfl _ _,
      ⟨h.ring.nodes, h.ring.replication⟩, h.clients, ?_, hdiff⟩, h.frozen⟩
    change some (w.cluster.migrationOverlay m.old m.new m.done) = _
    rw [h.old_eq, h.new_eq, migrationOverlay_eq hf]
  | record hp =>
    rw [hp] at h
    obtain ⟨hu, hfr⟩ := h
    exact ⟨⟨hu.laid.withPhase m.copied m.dropped _, ⟨hu.ring.nodes, hu.ring.replication⟩,
      hu.clients, hu.overlay, hu.differ⟩, hfr, hsaved hu _⟩
  | last hp htodo =>
    rw [hp] at h
    exact h.1.commit h.2.1 htodo
  | stop hp =>
    rw [hp] at h
    exact .inl ⟨h.1.withPhase m.copied m.dropped _, h.2⟩
  | @freeze ch todo hp htodo =>
    rw [hp] at h
    obtain ⟨hu, hfr, hrec⟩ := h
    refine ⟨⟨hu.laid.next htodo _ _, ⟨hu.ring.nodes, hu.ring.replication⟩, hu.clients, hu.overlay,
      hu.differ⟩, ?_, hrec, hu.laid.nonempty ch (htodo ▸ mem_cons_self ..)⟩
    change w.cluster.gates.frozen ∪ ch.toFinset = ch.toFinset
    rw [hfr, Finset.empty_union]
  | drain hp hd =>
    rw [hp] at h
    obtain ⟨hu, hfr, hrec, hne⟩ := h
    exact ⟨hu.withPhase m.copied m.dropped _, hfr, hrec, hne, hd⟩
  | cutover hp =>
    rw [hp] at h
    obtain ⟨hu, hrest⟩ := h
    refine ⟨⟨hu.laid.withPhase m.copied m.dropped _, ⟨hu.ring.nodes, hu.ring.replication⟩,
      hu.clients, ?_, hu.differ⟩, hrest⟩
    change w.cluster.overlay.map _ = _
    rw [hu.overlay]
    rfl
  | pair hp | node hp =>
    rw [hp] at h
    exact ⟨h.1.withPhase m.copied m.dropped _, h.2⟩
  | transfer hp =>
    rw [hp] at h
    exact ⟨h.1.withPhase _ m.dropped _, h.2⟩
  | deliver hp =>
    rw [hp] at h
    rw [importCall_cluster]
    exact ⟨h.1.withPhase m.copied m.dropped _, h.2⟩
  | @thaw ch hp =>
    rw [hp] at h
    obtain ⟨hu, hfr, hrec, -⟩ := h
    refine ⟨⟨hu.laid.withPhase m.copied m.dropped _, ⟨hu.ring.nodes, hu.ring.replication⟩,
      hu.clients, hu.overlay, hu.differ⟩, ?_, hrec⟩
    change w.cluster.gates.frozen \ ch.toFinset = ∅
    rw [hfr, Finset.sdiff_self]
  | drop hp =>
    rw [hp] at h
    rw [dropCall_cluster]
    exact ⟨h.1.withPhase m.copied _ _, h.2⟩
  | checkpoint hp =>
    rw [hp] at h
    obtain ⟨hu, hfr, -⟩ := h
    have hu' := hu.finishChunk .looping
    exact ⟨⟨hu'.laid, ⟨hu.ring.nodes, hu.ring.replication⟩, hu'.clients, hu'.overlay, hu'.differ⟩,
      hfr, hsaved hu _⟩
  | commit hp =>
    rw [hp] at h
    exact h.step hf
  | finish hp =>
    rw [hp] at h
    exact .inr ⟨h.new_eq, h.frozen, h.nodes, h.replication, h.clients, h.oldClients, h.journal,
      h.shape⟩

/-! ### The routes in each phase -/

theorem Underway.routes_eq (hv : mv.Valid) (h : Underway mv c m cur cut) (b : ℕ) :
    c.routes b = if b ∈ cut then mv.newOwners b else mv.oldOwners b := by
  rw [routes, h.overlay]
  exact owners_overlay hv cut b

theorem Locked.routes_eq (hv : mv.Valid) (hf : Fixed mv colls c) (h : Locked mv c m) (b : ℕ) :
    c.routes b = if b ∈ m.done then mv.newOwners b else mv.oldOwners b := by
  rcases h.overlay with ⟨hn, hd⟩ | ⟨ho, -⟩
  · rw [routes_of_overlay_none hn, h.ring.owners hv hf, hd, if_neg (Finset.notMem_empty b)]
  · rw [routes, ho]
    exact owners_overlay hv m.done b

/-- The order of the commit steps, as far as it matters. -/
theorem order_of_suffix
    (h : s :: steps <:+ commitSteps ++ [.removeOverlay] ∨ s :: steps <:+ commitSteps) :
    (s = .setNodes → .setReplication ∈ steps) ∧ (s = .setReplication → .setNodes ∉ steps) ∧
      (s = .removeOverlay → steps = []) := by
  simp only [commitSteps, cons_append, nil_append, suffix_cons_iff, cons.injEq,
    suffix_nil, reduceCtorEq, or_false] at h
  rcases h with (⟨rfl, rfl⟩ | ⟨rfl, rfl⟩ | ⟨rfl, rfl⟩ | ⟨rfl, rfl⟩ | ⟨rfl, rfl⟩ | ⟨rfl, rfl⟩) |
    (⟨rfl, rfl⟩ | ⟨rfl, rfl⟩ | ⟨rfl, rfl⟩ | ⟨rfl, rfl⟩ | ⟨rfl, rfl⟩) <;> decide

theorem eq_nil_of_suffix (h : steps <:+ commitSteps ++ [.removeOverlay])
    (hr : .removeOverlay ∉ steps) : steps = [] := by
  rcases eq_nil_or_concat' steps with rfl | ⟨init, s, rfl⟩
  · rfl
  · obtain ⟨pre, hpre⟩ := h
    have hs : s = .removeOverlay := by
      have h1 := congrArg getLast? hpre
      rw [← append_assoc, getLast?_concat, getLast?_concat] at h1
      exact some.inj h1
    exact absurd (by rw [hs]; simp) hr

/-- All through the commit the routes are those of the new membership. -/
theorem Committing.mem_routes (hv : mv.Valid) (hf : Fixed mv colls c) (h : Committing mv c m steps)
    (hb : b < numBuckets) (n : NodeId) : n ∈ c.routes b ↔ n ∈ mv.newOwners b := by
  rcases h.shape with ⟨hsuf, hcut, hov⟩ | ⟨-, hun, hov⟩
  · by_cases hr : .removeOverlay ∈ steps
    · rw [if_pos hr] at hov
      rw [routes, hov]
      dsimp only
      rw [owners_overlay hv]
      split_ifs with hd
      · rfl
      · exact mem_iff_of_not_moved (fun hm => hd (hcut b hb hm)) n
    · rw [if_neg hr] at hov
      obtain rfl := eq_nil_of_suffix hsuf hr
      have hn : c.partitioner.nodes = mv.new := h.nodes
      have hrep : c.replication = clamp mv.target mv.new.length := h.replication
      rw [routes_of_overlay_none hov, hrep, newRing_owners hf hn]
  · have hcl := hv.clamp_eq_of_unmoved (hun b)
    have hrep : c.replication = clamp mv.target mv.old.length := by
      rw [h.replication]
      split_ifs
      · rfl
      · exact hcl.symm
    rw [routes_of_overlay_none hov]
    by_cases hs : .setNodes ∈ steps
    · have hperm : c.partitioner.nodes.Perm mv.old := by
        have := h.nodes
        rwa [if_pos hs] at this
      rw [OldRing.owners ⟨hperm, hrep⟩ hv hf]
      exact mem_iff_of_not_moved (hun b) n
    · have hn : c.partitioner.nodes = mv.new := by
        have := h.nodes
        rwa [if_neg hs] at this
      rw [hrep, hcl, newRing_owners hf hn]

/-- The three forms of the routes: by the overlay, by the old ring, or by the ring in the commit. -/
theorem PhaseInv.shape (h : PhaseInv mv c m) : (∃ cur cut, Underway mv c m cur cut) ∨
    Locked mv c m ∨ ∃ steps, Committing mv c m steps := by
  unfold PhaseInv at h
  cases hp : m.phase with
  | locked => rw [hp] at h; exact .inr (.inl h)
  | committing steps => rw [hp] at h; exact .inr (.inr ⟨steps, h⟩)
  | finished =>
    rw [hp] at h
    rcases h with h | h
    · exact .inl ⟨_, _, h.1⟩
    · exact .inr (.inr ⟨[], h⟩)
  | _ => rw [hp] at h; exact .inl ⟨_, _, h.1⟩

/-- In every phase a bucket routes to its old owners or to its new ones. -/
theorem PhaseInv.mem_clients (hv : mv.Valid) (hf : Fixed mv colls c) (h : PhaseInv mv c m)
    (hb : b < numBuckets) {n : NodeId} (hn : n ∈ c.routes b) : n ∈ c.clients := by
  have hmem : ∀ (M : Finset ℕ), n ∈ (if b ∈ M then mv.newOwners b else mv.oldOwners b) →
      n ∈ mv.old ∨ n ∈ mv.new := by
    intro M hM
    split_ifs at hM
    · exact .inr (hv.mem_new hM)
    · exact .inl (hv.mem_old hM)
  rcases h.shape with ⟨cur, cut, hu⟩ | hl | ⟨steps, hc⟩
  · exact hu.clients n (hmem _ (hu.routes_eq hv b ▸ hn))
  · exact hl.clients n (hmem _ (hl.routes_eq hv hf b ▸ hn))
  · exact hc.clients n (hv.mem_new ((hc.mem_routes hv hf hb n).mp hn))

/-! ### What a step does to the routes and the gates -/

/-- The migration is about to cut over the bucket. -/
def CutsOver (m : Migration) (b : ℕ) : Prop := ∃ ch, m.phase = .copying ch [] ∧ b ∈ ch

theorem not_cutsOver (hp : ∀ ch, m.phase ≠ .copying ch []) (b : ℕ) : ¬CutsOver m b := by
  rintro ⟨ch, hch, -⟩
  exact hp ch hch

theorem inFlight_step (hs : m.Trans net w r) :
    r.1.cluster.gates.inFlight = w.cluster.gates.inFlight := by
  cases hs with
  | deliver | drop => simp
  | @commit s => cases s <;> rfl
  | _ => rfl

/-- Only a cutover changes who owns a bucket. -/
theorem mem_routes_step (hv : mv.Valid) (hf : Fixed mv colls w.cluster)
    (h : PhaseInv mv w.cluster m) (hs : m.Trans net w r) (hb : b < numBuckets)
    (hcut : ¬CutsOver m b) (n : NodeId) : n ∈ r.1.cluster.routes b ↔ n ∈ w.cluster.routes b := by
  obtain ⟨hf', h'⟩ := h.step hv hf hs
  unfold PhaseInv at h
  cases hs with
  | plan hp =>
    rw [hp] at h
    have hl : Locked mv w.cluster m := h
    rw [hl.routes_eq hv hf, routes]
    change n ∈ (w.cluster.migrationOverlay m.old m.new m.done).owners b ↔ _
    rw [hl.old_eq, hl.new_eq, migrationOverlay_eq hf, owners_overlay hv]
  | @cutover ch hp =>
    rw [hp] at h
    have hu : Underway mv w.cluster m ch m.done := h.1
    have hu' : Underway mv (w.cluster.cutover ch) _ ch (m.done ∪ ch.toFinset) := h'.1
    have hbc : b ∉ ch := fun hbc => hcut ⟨ch, hp, hbc⟩
    change n ∈ (w.cluster.cutover ch).routes b ↔ _
    rw [hu.routes_eq hv, hu'.routes_eq hv]
    simp only [Finset.mem_union, mem_toFinset, hbc, or_false]
  | deliver | drop => simp
  | @commit s steps hp =>
    rw [hp] at h
    have hc : Committing mv w.cluster m (s :: steps) := h
    have hc' : Committing mv (s.exec w.cluster m.new) _ steps := h'
    rw [hc.mem_routes hv hf hb]
    exact hc'.mem_routes hv hf' hb n
  | _ => rfl

/-- Only two steps of the commit change the ring. -/
theorem ring_step (hs : m.Trans net w r) : (r.1.cluster.partitioner = w.cluster.partitioner ∧
      r.1.cluster.replication = w.cluster.replication) ∨
    ∃ s steps, (s = .setNodes ∨ s = .setReplication) ∧ m.phase = .committing (s :: steps) ∧
      r = (w.setCluster (s.exec w.cluster m.new), { m with phase := .committing steps }) := by
  cases hs with
  | deliver | drop => simp
  | @commit s steps hp =>
    cases s with
    | setNodes => exact .inr ⟨_, steps, .inl rfl, hp, rfl⟩
    | setReplication => exact .inr ⟨_, steps, .inr rfl, hp, rfl⟩
    | _ => exact .inl ⟨rfl, rfl⟩
  | _ => exact .inl ⟨rfl, rfl⟩

/-- A call that has found no overlay reads the ring next: what it will find are the owners. -/
def RingRoutes (c : Cluster) (b : ℕ) : Prop :=
  ∀ n, n ∈ c.partitioner.ownersOfBucket b c.replication ↔ n ∈ c.routes b

/-- No step makes a pending read of the ring go wrong, except the cutover of its bucket. -/
theorem RingRoutes.step (hv : mv.Valid) (hf : Fixed mv colls w.cluster)
    (h : PhaseInv mv w.cluster m) (hs : m.Trans net w r) (hb : b < numBuckets)
    (hcut : ¬CutsOver m b) (hr : RingRoutes w.cluster b) : RingRoutes r.1.cluster b := by
  have hroutes := mem_routes_step hv hf h hs hb hcut
  obtain ⟨hf', h'⟩ := h.step hv hf hs
  unfold PhaseInv at h
  rcases ring_step hs with ⟨h1, h2⟩ | ⟨s, steps, hring, hp, rfl⟩
  · intro n
    rw [h1, h2, hr n, hroutes n]
  rw [hp] at h
  have hc : Committing mv w.cluster m (s :: steps) := h
  have hc' : Committing mv (s.exec w.cluster m.new) _ steps := h'
  have horder := order_of_suffix (hc.shape.imp (fun x => x.1) fun x => x.1)
  intro n
  rw [hroutes n, hc.mem_routes hv hf hb]
  rcases hring with rfl | rfl
  · -- the bucket was read from the old ring and is routed to the new owners: it does not move
    have hmem : .setReplication ∈ CommitStep.setNodes :: steps := mem_cons_of_mem _ (horder.1 rfl)
    have hrep : w.cluster.replication = clamp mv.target mv.old.length := by
      have := hc.replication
      rwa [if_pos hmem] at this
    have hperm : w.cluster.partitioner.nodes.Perm mv.old := by
      have := hc.nodes
      rwa [if_pos (mem_cons_self ..)] at this
    have hold := OldRing.owners ⟨hperm, hrep⟩ hv hf b
    have hun : ¬mv.Moved b := by
      have hiff : ∀ n, n ∈ mv.oldOwners b ↔ n ∈ mv.newOwners b := fun n => by
        rw [← hold, hr n, hc.mem_routes hv hf hb]
      rintro (⟨n, h1, h2⟩ | ⟨n, h1, h2⟩)
      · exact h2 ((hiff n).mpr h1)
      · exact h2 ((hiff n).mp h1)
    have hn : (w.cluster.setNodes m.new).partitioner.nodes = mv.new := hc.new_eq
    have hnew := newRing_owners hf' hn b
    rw [← hv.clamp_eq_of_unmoved hun, ← hrep] at hnew
    exact iff_of_eq (congrArg (n ∈ ·) hnew)
  · have hn : (w.cluster.setReplication m.new).partitioner.nodes = mv.new := by
      have := hc'.nodes
      rwa [if_neg (horder.2.1 rfl)] at this
    have hrep : (w.cluster.setReplication m.new).replication = clamp mv.target mv.new.length := by
      change clamp w.cluster.replicationTarget m.new.length = _
      rw [hf.target, hc.new_eq]
    have hnew := newRing_owners hf' hn b
    rw [← hrep] at hnew
    exact iff_of_eq (congrArg (n ∈ ·) hnew)

end Steps

end Move

end Stplr
