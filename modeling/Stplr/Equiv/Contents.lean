import Stplr.Equiv.Failures
import Stplr.Equiv.Slots

/-!
# Who holds an entry after a migration on healthy shards

When the shards answer, except for the nodes of a set `F` that do not, the calls of a migration hit
exactly what is planned: `Move.handOver` is what it makes of the slots of an entry
(`slot_migrated_of_silent`, `slot_runMigration`).  The cluster itself ends up as the commit leaves it
(`base_runMigration`), with the owners that were planned (`sound_rebalance`).

So we know when a `get` returns after a rebalance what it returned before (`get_rebalance_iff`), and
when the owners of every entry hold it after a rebalance away from a silent node (`replicated_iff`).
-/

namespace Stplr

open Lib List Option Cluster

/-! ### Nodes that do not answer -/

/-- The shard calls of a migration to the nodes of `F` fail, all others are answered. -/
structure OnlySilent (net : MigCall → Outcome) (F : Finset NodeId) : Prop where
  exports : ∀ src dst bs i, net (.exportEntries src dst bs i) = .ok ↔ src ∉ F
  imports : ∀ src dst bs i, net (.importEntries src dst bs i) = .ok ↔ dst ∉ F
  drops : ∀ n bs i, net (.dropBuckets n bs i) = .ok ↔ n ∉ F

theorem onlySilent_ok : OnlySilent (fun _ => .ok) ∅ := ⟨by simp, by simp, by simp⟩

/-- What a migration makes of the slots of an entry in bucket `b` at time `t`: an owner that is gained
takes what the first old owner returns, if that one answers, and an owner that is lost drops it. -/
def Move.handOver (mv : Move) (F : Finset NodeId) (t b : ℕ) (s : NodeId → Slot) (n : NodeId) :
    Slot :=
  if n ∈ mv.oldOwners b then
    if n ∈ mv.newOwners b then s n else (s n).dropped t
  else if n ∈ mv.newOwners b then
    match (mv.oldOwners b).head? with
    | some src => if src ∈ F then s n else (s n).imported ((s src).object t)
    | none => s n
  else s n

theorem Move.handOver_of_sent {mv : Move} {F : Finset NodeId} {b : ℕ} {src n : NodeId}
    (h1 : n ∈ mv.newOwners b) (h2 : n ∉ mv.oldOwners b) (hhead : (mv.oldOwners b).head? = some src)
    (hsrc : src ∉ F) (t : ℕ) (s : NodeId → Slot) :
    mv.handOver F t b s n = (s n).imported ((s src).object t) := by
  rw [handOver, if_neg h2, if_pos h1, hhead]
  exact if_neg hsrc

theorem Move.handOver_of_not_sent {mv : Move} {F : Finset NodeId} {b : ℕ} {n : NodeId}
    (h1 : n ∈ mv.newOwners b)
    (h2 : ∀ src, ¬(n ∉ mv.oldOwners b ∧ (mv.oldOwners b).head? = some src ∧ src ∉ F)) (t : ℕ)
    (s : NodeId → Slot) : mv.handOver F t b s n = s n := by
  rw [handOver, if_pos h1, if_pos h1]
  split_ifs with hold
  · rfl
  · cases hhead : (mv.oldOwners b).head? with
    | none => rfl
    | some src => exact if_pos (not_not.mp fun hs => h2 src ⟨hold, hhead, hs⟩)

section Hits

variable {net : MigCall → Outcome} {F : Finset NodeId} {cl : Cluster} {mv : Move}
  {done : Finset ℕ} {L : List (List ℕ)} {b : ℕ} {c : String} {n : NodeId}

theorem mem_colls_iff : c ∈ cl.colls ↔ ∃ i, (c, i) ∈ cl.colls.zipIdx := by
  constructor
  · intro hc
    obtain ⟨i, hi⟩ := mem_iff_getElem?.mp hc
    exact ⟨i, mk_mem_zipIdx_iff_getElem?.mpr hi⟩
  · rintro ⟨i, hi⟩
    exact mem_of_getElem? (mk_mem_zipIdx_iff_getElem?.mp hi)

theorem exists_deliveredIn_iff (hF : OnlySilent net F) (hn : n ∉ F)
    (hold : ∀ m ∈ mv.oldOwners b, m ∈ cl.clients) (hnew : ∀ m ∈ mv.newOwners b, m ∈ cl.clients)
    (hb : b < numBuckets) :
    (∃ ch ∈ L, DeliveredIn net cl (actionsOf mv.plan done) b c n ch) ↔
      (c ∈ cl.colls ∧ b ∈ L.flatten ∧ b ∉ done) ∧ n ∈ mv.newOwners b ∧ n ∉ mv.oldOwners b ∧
        ∃ src, (mv.oldOwners b).head? = some src ∧ src ∉ F := by
  constructor
  · rintro ⟨ch, hch, src, bs, hm, hbs, -, i, hi, hexp, -⟩
    obtain ⟨hbch, hact⟩ := (Move.mem_pairBuckets hm b).mp hbs
    obtain ⟨hd, hcopy⟩ := Move.mem_actionList_inl.mp (Move.mem_actions.mp hact)
    obtain ⟨-, hhead, h1, h2⟩ := Move.mem_planCopies.mp hcopy
    exact ⟨⟨mem_colls_iff.mpr ⟨i, hi⟩, mem_flatten.mpr ⟨ch, hch, hbch⟩, hd⟩, h1, h2, src, hhead,
      (hF.exports ..).mp hexp⟩
  · rintro ⟨⟨hc, hbL, hd⟩, h1, h2, src, hhead, hsrc⟩
    obtain ⟨ch, hch, hbch⟩ := mem_flatten.mp hbL
    obtain ⟨i, hi⟩ := mem_colls_iff.mp hc
    have hact := Move.mem_actions.mpr
      (Move.mem_actionList_inl.mpr ⟨hd, Move.mem_planCopies.mpr ⟨hb, hhead, h1, h2⟩⟩)
    obtain ⟨bs, hm, hbs⟩ := Move.exists_pairBuckets hbch hact
    refine ⟨ch, hch, src, bs, hm, hbs, ⟨hold src (mem_of_mem_head? hhead), hnew n h1⟩, i, hi,
      (hF.exports ..).mpr hsrc, ?_⟩
    rw [(hF.imports ..).mpr hn]
    rfl

theorem exists_removedIn_iff (hF : OnlySilent net F) (hn : n ∉ F)
    (hold : ∀ m ∈ mv.oldOwners b, m ∈ cl.clients) (hb : b < numBuckets) :
    (∃ ch ∈ L, RemovedIn net cl (actionsOf mv.plan done) b c n ch) ↔
      (c ∈ cl.colls ∧ b ∈ L.flatten ∧ b ∉ done) ∧ n ∈ mv.oldOwners b ∧ n ∉ mv.newOwners b := by
  constructor
  · rintro ⟨ch, hch, bs, hm, hbs, -, i, hi, -⟩
    obtain ⟨hbch, hact⟩ := (Move.mem_nodeDrops hm b).mp hbs
    obtain ⟨hd, hdrop⟩ := Move.mem_actionList_inr.mp (Move.mem_actions.mp hact)
    obtain ⟨-, h1, h2⟩ := Move.mem_planDrops.mp hdrop
    exact ⟨⟨mem_colls_iff.mpr ⟨i, hi⟩, mem_flatten.mpr ⟨ch, hch, hbch⟩, hd⟩, h1, h2⟩
  · rintro ⟨⟨hc, hbL, hd⟩, h1, h2⟩
    obtain ⟨ch, hch, hbch⟩ := mem_flatten.mp hbL
    obtain ⟨i, hi⟩ := mem_colls_iff.mp hc
    have hact := Move.mem_actions.mpr
      (Move.mem_actionList_inr.mpr ⟨hd, Move.mem_planDrops.mpr ⟨hb, h1, h2⟩⟩)
    obtain ⟨bs, hm, hbs⟩ := Move.exists_nodeDrops hbch hact
    refine ⟨ch, hch, bs, hm, hbs, hold n h1, i, hi, ?_⟩
    rw [(hF.drops ..).mpr hn]
    rfl

/-- The deliveries and removals of a healthy migration amount to the hand-over. -/
theorem after_eq_handOver (hF : OnlySilent net F) (hn : n ∉ F)
    (hold : ∀ m ∈ mv.oldOwners b, m ∈ cl.clients) (hnew : ∀ m ∈ mv.newOwners b, m ∈ cl.clients)
    (hb : b < numBuckets) (t : ℕ) (s : NodeId → Slot) :
    Slot.after t (∃ ch ∈ L, DeliveredIn net cl (actionsOf mv.plan done) b c n ch)
        (∃ ch ∈ L, RemovedIn net cl (actionsOf mv.plan done) b c n ch)
        (s ((mv.oldOwners b).headD "")) (s n)
      = if c ∈ cl.colls ∧ b ∈ L.flatten ∧ b ∉ done then mv.handOver F t b s n else s n := by
  rw [Slot.after_congr (exists_deliveredIn_iff hF hn hold hnew hb)
    (exists_removedIn_iff hF hn hold hb), Slot.after, Move.handOver]
  by_cases hact : c ∈ cl.colls ∧ b ∈ L.flatten ∧ b ∉ done
  · rw [if_pos hact]
    by_cases h1 : n ∈ mv.oldOwners b <;> by_cases h2 : n ∈ mv.newOwners b
    · simp [h1, h2]
    · simp [h1, h2, hact]
    · cases hh : (mv.oldOwners b).head? with
      | none => simp [h1, h2]
      | some src =>
        by_cases hs : src ∈ F <;> simp [h1, h2, hact, hs, headD_eq_head?_getD, hh]
    · simp [h1, h2]
  · rw [if_neg fun h => hact h.1, if_neg fun h => hact h.1, if_neg hact]

/-- A bucket without an action stays where it is. -/
theorem handOver_of_notMem (hb : b < numBuckets) (hd : b ∉ done)
    (h : b ∉ (actionsOf mv.plan done).entries.map Prod.fst) (F : Finset NodeId) (t : ℕ)
    (s : NodeId → Slot) (n : NodeId) : mv.handOver F t b s n = s n := by
  rw [Move.mem_actionKeys_iff, not_exists] at h
  rw [Move.handOver]
  split_ifs with h1 h2 h2
  · rfl
  · exact absurd (Move.mem_actionList_inr.mpr ⟨hd, Move.mem_planDrops.mpr ⟨hb, h1, h2⟩⟩) (h _)
  · cases hh : (mv.oldOwners b).head? with
    | none => rfl
    | some src =>
      exact absurd (Move.mem_actionList_inl.mpr ⟨hd, Move.mem_planCopies.mpr ⟨hb, hh, h2, h1⟩⟩) (h _)
  · rfl

end Hits

/-! ### The slots -/

/-- The coordinator has a client for every node that a move of this bucket is about. -/
def Reaches (cl : Cluster) (mv : Move) (b : ℕ) : Prop :=
  ∀ m, m ∈ mv.oldOwners b ∨ m ∈ mv.newOwners b → m ∈ cl.clients

section Slots

variable {net : MigCall → Outcome} {F : Finset NodeId} {old new : List NodeId} {done : Finset ℕ}
  {L : List (List ℕ)} {c k : String} {n : NodeId}

variable {cl : Cluster}

/-- After some chunks, the entries of their buckets have been handed over. -/
theorem foldl_chunkSlots_of_silent (hF : OnlySilent net F) (hn : n ∉ F)
    (hL : L <+: cl.migrationChunks old new done) (hcl : Reaches cl (cl.move old new) (bucketOf k))
    (t : ℕ) (s : NodeId → Slot) :
    L.foldl (chunkSlots net cl c k t (actionsOf (cl.move old new).plan done)) s n
      = if c ∈ cl.colls ∧ bucketOf k ∈ L.flatten then
          (cl.move old new).handOver F t (bucketOf k) s n else s n := by
  have hsub : L.flatten.Sublist (cl.migrationChunks old new done).flatten := by
    obtain ⟨t, ht⟩ := hL
    rw [← ht, flatten_append]
    exact sublist_append_left ..
  have hkeys : bucketOf k ∈ L.flatten → bucketOf k ∉ done := by
    intro hb
    have hm := hsub.subset hb
    rw [migrationChunks, flatten_chunks cl.chunk_pos] at hm
    exact Move.notMem_of_mem_actionKeys hm
  rw [foldl_chunkSlots (copiesFrom_plan (cl.move old new) done (bucketOf k))
      ((cl.nodup_migrationChunks old new done).sublist hsub),
    after_eq_handOver hF hn (fun m hm => hcl m (.inl hm)) (fun m hm => hcl m (.inr hm))
      (bucketOf_lt k)]
  exact if_congr ⟨fun h => ⟨h.1, h.2.1⟩, fun h => ⟨h.1, h.2, hkeys h.2⟩⟩ rfl rfl

/-- After all chunks, every entry of a managed collection has been handed over. -/
theorem foldl_migrationChunks (hF : OnlySilent net F) (hn : n ∉ F) (hd : bucketOf k ∉ done)
    (hcl : Reaches cl (cl.move old new) (bucketOf k)) (t : ℕ) (s : NodeId → Slot) :
    (cl.migrationChunks old new done).foldl
        (chunkSlots net cl c k t (actionsOf (cl.move old new).plan done)) s n
      = if c ∈ cl.colls then (cl.move old new).handOver F t (bucketOf k) s n else s n := by
  rw [foldl_chunkSlots_of_silent hF hn (prefix_refl _) hcl]
  by_cases hb : bucketOf k ∈ (cl.migrationChunks old new done).flatten
  · simp [hb]
  · rw [if_neg fun h => hb h.2]
    rw [migrationChunks, flatten_chunks cl.chunk_pos] at hb
    rw [handOver_of_notMem (bucketOf_lt k) hd hb, ite_self]

variable {St : Type} [IndexStore St] [LawfulCells St] {w : World St}

theorem slot_migrated_of_silent (hF : OnlySilent net F) (hn : n ∉ F)
    (hL : L <+: w.cluster.migrationChunks old new done)
    (hcl : Reaches w.cluster (w.cluster.move old new) (bucketOf k)) :
    (w.migrated net old new done L).slot c k n
      = if c ∈ w.cluster.colls ∧ bucketOf k ∈ L.flatten then
          (w.cluster.move old new).handOver F w.now (bucketOf k) (w.slot c k) n
        else w.slot c k n := by
  rw [(migrates_migrated net w old new done c k L).slot]
  exact foldl_chunkSlots_of_silent hF hn hL hcl w.now _

/-- **What a migration on healthy shards leaves of an entry.** -/
theorem slot_runMigration (hF : OnlySilent net F) (hn : n ∉ F) (hd : bucketOf k ∉ done)
    (hdiff : ¬sameMembers old new)
    (hcl : Reaches w.cluster (w.cluster.move old new) (bucketOf k)) :
    (runMigration net w old new done).slot c k n = if c ∈ w.cluster.colls then
      (w.cluster.move old new).handOver F w.now (bucketOf k) (w.slot c k) n else w.slot c k n := by
  obtain ⟨w', hw', hrun⟩ := runMigration_eq net w done hdiff
  have hs := migrates_migrated net w old new done c k (w.cluster.migrationChunks old new done)
  rw [← hw'] at hs
  rw [hrun, World.slot_setCluster, hs.slot]
  exact foldl_migrationChunks hF hn hd hcl w.now _

end Slots

/-! ### The cluster -/

/-- No node is marked down, the ring carries the topology, and there is a client for every member. -/
structure Cluster.Staffed (c : Cluster) : Prop where
  down : c.down = ∅
  topology : c.partitioner.topology = c.topology
  nodup : c.partitioner.nodes.Nodup
  clients : ∀ n ∈ c.partitioner.nodes, n ∈ c.clients

/-- A coordinator at rest: no overlay, and the replication factor in place. -/
structure Cluster.Sound (c : Cluster) : Prop extends c.Staffed where
  overlay : c.overlay = none
  replication : c.replication = clamp c.replicationTarget c.partitioner.nodes.length

namespace Cluster.Sound

variable {cl : Cluster}

theorem owners_eq (h : cl.Sound) (k : String) : cl.owners k
    = planNewOwners cl.partitioner.nodes cl.replicationTarget cl.topology (bucketOf k) := by
  have hring : cl.partitioner = ringOf cl.partitioner.nodes cl.topology := by
    have hn := ringOf_nodes cl.partitioner.nodes cl.topology
    have ht := ringOf_topology cl.partitioner.nodes cl.topology
    exact (congrArg₂ Partitioner.mk hn (ht.trans h.topology.symm)).symm
  rw [Cluster.owners_eq, Cluster.routes_of_overlay_none h.overlay, planNewOwners, ← hring,
    h.replication]

theorem nodup_owners (h : cl.Sound) (k : String) : (cl.owners k).Nodup := by
  rw [h.owners_eq, planNewOwners]
  exact Partitioner.nodup_ownersOfBucket _ _ _ (by simpa using h.nodup)

variable {k : String} {n : NodeId}

theorem mem_nodes (h : cl.Sound) (hn : n ∈ cl.owners k) : n ∈ cl.partitioner.nodes := by
  rw [h.owners_eq, planNewOwners] at hn
  simpa using Partitioner.ownersOfBucket_subset _ _ _ (by simpa using h.nodup) hn

theorem not_skips (h : cl.Sound) (hn : n ∈ cl.owners k) : ¬cl.skips n := by
  rintro (hd | hc)
  · rw [h.down] at hd
    exact absurd hd (Finset.notMem_empty n)
  · exact hc (h.clients n (h.mem_nodes hn))

/-- A `get` returns what the first owner returns. -/
theorem get_eq {St : Type} [IndexStore St] {w : World St} (h : w.cluster.Sound) (c k : String) :
    w.get (fun _ => .ok) c k = (w.cluster.owners k).head?.bind (w.cell c k) := by
  rw [World.get]
  cases ho : w.cluster.owners k with
  | nil => rfl
  | cons g os =>
    have hg := h.not_skips (n := g) (by rw [ho]; exact mem_cons_self ..)
    rw [World.getLoop, if_neg (by simpa using hg)]
    rfl

end Cluster.Sound

section Base

variable {St : Type} [IndexStore St] [LawfulCells St] (net : MigCall → Outcome)

/-- What a migration does to the cluster, apart from gates and journal. -/
theorem base_runMigration (w : World St) (old new : List NodeId) (done : Finset ℕ) :
    (runMigration net w old new done).cluster.base = (w.cluster.commit new).base ∧
      (runMigration net w old new done).now = w.now ∧
      (runMigration net w old new done).cluster.overlay
        = if sameMembers old new then w.cluster.overlay else none := by
  by_cases hsame : sameMembers old new
  · rw [runMigration, if_pos hsame, if_pos hsame]
    exact ⟨rfl, rfl, rfl⟩
  · obtain ⟨w', hw', hrun⟩ := runMigration_eq net w done hsame
    have hs := migrates_migrated net w old new done "" "" (w.cluster.migrationChunks old new done)
    rw [← hw'] at hs
    rw [hrun, if_neg hsame]
    refine ⟨?_, hs.now, rfl⟩
    change (w'.cluster.base.commit new).base = (w.cluster.base.commit new).base
    rw [hs.base]

variable {new : List NodeId}

omit [IndexStore St] [LawfulCells St] in
/-- A commit ends with a coordinator at rest on the new members. -/
theorem sound_commit {cl cl' : Cluster} (h : cl.Staffed) (hbase : cl'.base = (cl.commit new).base)
    (hov : cl'.overlay = none) (hnd : new.Nodup) (hcl : ∀ n ∈ new, n ∈ cl.clients) : cl'.Sound ∧
      ∀ k, cl'.owners k = planNewOwners new cl.replicationTarget cl.topology (bucketOf k) := by
  have hfield : ∀ {α : Type} (f : Cluster → α), f cl'.base = f (cl.commit new).base :=
    fun f => congrArg f hbase
  have hp : cl'.partitioner = cl.partitioner.setNodes new := hfield partitioner
  have hr : cl'.replication = clamp cl.replicationTarget new.length := hfield replication
  have ht : cl'.replicationTarget = cl.replicationTarget := hfield replicationTarget
  have htop : cl'.topology = cl.topology := hfield topology
  have hclients : cl'.clients = cl.clients.filter (· ∈ new) := hfield clients
  have hdown : cl'.down = cl.down \ cl.clients.filter (· ∉ new) := hfield down
  have hsound : cl'.Sound := by
    refine ⟨⟨?_, ?_, ?_, ?_⟩, hov, ?_⟩
    · rw [hdown, h.down, Finset.empty_sdiff]
    · rw [hp, htop]
      exact h.topology
    · rw [hp]
      exact hnd
    · rw [hp, hclients]
      exact fun n hn => Finset.mem_filter.mpr ⟨hcl n hn, hn⟩
    · rw [hr, hp, ht]
      rfl
  refine ⟨hsound, fun k => ?_⟩
  rw [hsound.owners_eq, hp, ht, htop]
  rfl

theorem sound_rebalance {w : World St} (h : w.cluster.Sound) (hnd : new.Nodup)
    (hcl : ∀ n ∈ new, n ∈ w.cluster.clients) :
    (rebalance net w new).cluster.Sound ∧
    ∀ k, (rebalance net w new).cluster.owners k
      = planNewOwners new w.cluster.replicationTarget w.cluster.topology (bucketOf k) := by
  obtain ⟨hbase, -, hov⟩ := base_runMigration net w w.cluster.memberIds new ∅
  refine sound_commit h.toStaffed hbase ?_ hnd hcl
  rw [rebalance, hov, h.overlay, ite_self]

end Base

/-! ### What a rebalance sends to an owner -/

section Sends

variable {St : Type} [IndexStore St]

/-- A rebalance to `new` sends `g` a copy of the entry, from `src`: the collection is managed, the
membership changes, `g` is not an old owner of the bucket, and `src` is the first one and answers. -/
def World.Sends (w : World St) (F : Finset NodeId) (new : List NodeId) (c k : String)
    (src g : NodeId) : Prop :=
  let old := planOldOwners w.cluster.memberIds w.cluster.replicationTarget w.cluster.topology
    (bucketOf k)
  c ∈ w.cluster.colls ∧ ¬sameMembers w.cluster.memberIds new ∧ g ∉ old ∧ old.head? = some src ∧
    src ∉ F

/-- The coordinator has clients for all nodes that a rebalance is about. -/
theorem reaches_rebalance {cl : Cluster} (h : cl.Staffed) {new : List NodeId} (hnd : new.Nodup)
    (hcl : ∀ n ∈ new, n ∈ cl.clients) (b : ℕ) : Reaches cl (cl.move cl.memberIds new) b := by
  rintro m (hm | hm)
  · change m ∈ planOldOwners cl.memberIds cl.replicationTarget cl.topology b at hm
    rw [planOldOwners] at hm
    split_ifs at hm
    · exact absurd hm not_mem_nil
    · have hnd' : cl.memberIds.Nodup := (perm_insertionSort _ _).nodup_iff.mpr h.nodup
      have := Partitioner.ownersOfBucket_subset _ _ _ (by simpa using hnd') hm
      rw [ringOf_nodes] at this
      exact h.clients m (mem_memberIds.mp this)
  · change m ∈ planNewOwners new cl.replicationTarget cl.topology b at hm
    have := Partitioner.ownersOfBucket_subset _ _ _ (by simpa using hnd) hm
    rw [ringOf_nodes] at this
    exact hcl m this

variable [LawfulCells St] {net : MigCall → Outcome} {F : Finset NodeId} {w : World St}
  {new : List NodeId}

/-- What a new owner of the entry that answers holds afterwards. -/
theorem cell_rebalance_owner (hF : OnlySilent net F) (h : w.cluster.Sound) (hnd : new.Nodup)
    (hcl : ∀ n ∈ new, n ∈ w.cluster.clients) (c k : String) {g : NodeId} (hgF : g ∉ F)
    (hg : g ∈ planNewOwners new w.cluster.replicationTarget w.cluster.topology (bucketOf k)) :
    (∀ src, w.Sends F new c k src g →
      (rebalance net w new).cell c k g = (w.cell c k src).or (w.cell c k g)) ∧
    ((∀ src, ¬w.Sends F new c k src g) → (rebalance net w new).cell c k g = w.cell c k g) := by
  have hcell : (rebalance net w new).cell c k g
      = ((rebalance net w new).slot c k g).object w.now := by
    rw [rebalance, ← (base_runMigration net w w.cluster.memberIds new ∅).2.1]
    rfl
  by_cases hsame : sameMembers w.cluster.memberIds new
  · refine ⟨fun src hs => absurd hsame hs.2.1, fun _ => ?_⟩
    rw [rebalance, runMigration, if_pos hsame]
    rfl
  · have hslot := slot_runMigration (c := c) hF hgF (Finset.notMem_empty (bucketOf k)) hsame
      (reaches_rebalance h.toStaffed hnd hcl (bucketOf k))
    rw [hcell, rebalance, hslot]
    constructor
    · rintro src ⟨hc, -, hold, hhead, hsrc⟩
      rw [if_pos hc, @Move.handOver_of_sent (w.cluster.move w.cluster.memberIds new) F _ _ _ hg hold
        hhead hsrc, Slot.object_imported]
      rfl
    · intro hno
      by_cases hc : c ∈ w.cluster.colls
      · rw [if_pos hc, @Move.handOver_of_not_sent (w.cluster.move w.cluster.memberIds new) F _ _ hg
          fun src hs => hno src ⟨hc, hsame, hs⟩]
        rfl
      · rw [if_neg hc]
        rfl

theorem planNewOwners_ne_nil (hne : new ≠ []) (hnd : new.Nodup) (target : ℕ) (topology : Topology)
    (b : ℕ) : planNewOwners new target topology b ≠ [] := by
  have hpos := length_pos_iff.mpr hne
  have hc := clamp_pos target new.length
  rw [← length_pos_iff, planNewOwners,
    Partitioner.length_ownersOfBucket _ _ _ (by simpa using hnd), ringOf_nodes]
  omega

/-- **When a `get` returns after a rebalance what it returned before.**  For every collection, managed
or not: iff the first owner on the new ring is sent the value or, being sent nothing, has it
already. -/
theorem get_rebalance_iff (h : w.cluster.Sound) (hne : new ≠ []) (hnd : new.Nodup)
    (hcl : ∀ n ∈ new, n ∈ w.cluster.clients) (c k : String) :
    (rebalance (fun _ => .ok) w new).get (fun _ => .ok) c k = w.get (fun _ => .ok) c k ↔
      ∃ g, (planNewOwners new w.cluster.replicationTarget w.cluster.topology (bucketOf k)).head?
          = some g ∧
        ((∃ src, w.Sends ∅ new c k src g ∧
          (w.cell c k src).or (w.cell c k g) = w.get (fun _ => .ok) c k) ∨
        (∀ src, ¬w.Sends ∅ new c k src g) ∧ w.cell c k g = w.get (fun _ => .ok) c k) := by
  obtain ⟨hsound, howners⟩ := sound_rebalance (fun _ => .ok) h hnd hcl
  rw [hsound.get_eq, howners]
  cases ho : planNewOwners new w.cluster.replicationTarget w.cluster.topology (bucketOf k) with
  | nil => exact absurd ho (planNewOwners_ne_nil hne hnd _ _ _)
  | cons g os =>
    obtain ⟨hsent, hkept⟩ := cell_rebalance_owner onlySilent_ok h hnd hcl c k
      (Finset.notMem_empty g) (ho ▸ mem_cons_self ..)
    rw [head?_cons, bind_some]
    constructor
    · intro heq
      refine ⟨g, rfl, ?_⟩
      by_cases hs : ∃ src, w.Sends ∅ new c k src g
      · obtain ⟨src, hs⟩ := hs
        exact Or.inl ⟨src, hs, (hsent src hs).symm.trans heq⟩
      · rw [not_exists] at hs
        exact Or.inr ⟨hs, (hkept hs).symm.trans heq⟩
    · rintro ⟨g', hg', ⟨src, hs, heq⟩ | ⟨hs, heq⟩⟩
      all_goals obtain rfl := some.inj hg'
      · exact (hsent src hs).trans heq
      · exact (hkept hs).trans heq

end Sends

/-! ### A managed and an unmanaged collection -/

theorem sound_clusterWith {ids : List NodeId} (hnd : ids.Nodup) (extra : NodeId) :
    (clusterWith ids extra).Sound where
  overlay := rfl
  down := rfl
  replication := rfl
  topology := rfl
  nodup := hnd
  clients := fun _ hn => Finset.mem_insert_of_mem (mem_toFinset.mpr hn)

theorem get_rebalance_oneEntry_iff :
    (rebalance (fun _ => .ok) oneEntry ["b"]).get (fun _ => .ok) "kv" "x"
        = oneEntry.get (fun _ => .ok) "kv" "x" ↔
      ∃ g, (planNewOwners ["b"] 1 ∅ (bucketOf "x")).head? = some g ∧
        ((∃ src, oneEntry.Sends ∅ ["b"] "kv" "x" src g ∧
          (oneEntry.cell "kv" "x" src).or (oneEntry.cell "kv" "x" g)
            = oneEntry.get (fun _ => .ok) "kv" "x") ∨
        (∀ src, ¬oneEntry.Sends ∅ ["b"] "kv" "x" src g) ∧
          oneEntry.cell "kv" "x" g = oneEntry.get (fun _ => .ok) "kv" "x") :=
  get_rebalance_iff (w := oneEntry) (sound_clusterWith (by decide) "b") (by decide) (by decide)
    (by decide) "kv" "x"

/-- The node `a` holds `1` under `(logs, x)`, a collection that the coordinator does not manage. -/
def unmanagedEntry : World MemoryStore := (blankWorld (clusterWith ["a"] "b")).setShard "a"
    (Shard.writeObject ⟨"a", MemoryStore.new⟩ "logs" "x" (.int 1))

/-- A rebalance from `a` to `b` leaves the entry behind. -/
theorem unmanaged_lost_by_rebalance : unmanagedEntry.cluster.Sound ∧
    unmanagedEntry.get (fun _ => .ok) "logs" "x" = some (.int 1) ∧
    (rebalance (fun _ => .ok) unmanagedEntry ["b"]).get (fun _ => .ok) "logs" "x" = none := by
  have hs : unmanagedEntry.cluster.Sound := sound_clusterWith (by decide) "b"
  have hnd : ["b"].Nodup := by decide
  have hcl : ∀ n ∈ ["b"], n ∈ unmanagedEntry.cluster.clients := by decide
  obtain ⟨hsound, howners⟩ := sound_rebalance (fun _ => .ok) hs hnd hcl
  refine ⟨hs, by decide +kernel, ?_⟩
  have howner : planNewOwners ["b"] 1 ∅ (bucketOf "x") = ["b"] := rfl
  have hb : (rebalance (fun _ => .ok) unmanagedEntry ["b"]).cluster.owners "x" = ["b"] :=
    (howners "x").trans howner
  obtain ⟨-, hkept⟩ := cell_rebalance_owner onlySilent_ok hs hnd hcl "logs" "x" (g := "b") (by decide)
    (by decide +kernel)
  rw [hsound.get_eq, hb, head?_cons, bind_some, hkept]
  · rfl
  · exact fun src hsend => absurd hsend.1 (by decide)

/-! ### Away from a node that does not answer -/

section Silent

variable {St : Type} [IndexStore St] [LawfulCells St]

/-- The members without one of them are as many as the replication target asks for. -/
theorem length_without {ids new : List NodeId} {f : NodeId} {R : ℕ} (hids : ids.Nodup)
    (hnd : new.Nodup) (hnew : ∀ n, n ∈ new ↔ n ∈ ids ∧ n ≠ f) (hlen : R + 1 ≤ ids.length) :
    R ≤ new.length := by
  have hperm : new.Perm (ids.erase f) := by
    refine (perm_ext_iff_of_nodup hnd (hids.erase f)).mpr fun n => ?_
    rw [hnew, hids.mem_erase_iff]
    exact and_comm
  rw [hperm.length_eq, length_erase]
  split_ifs <;> omega

/-- **When a rebalance away from a node that does not answer restores full replication.**  The cluster
has more members than the replication target, all copies of an entry agree, and only the calls to `f`
fail: then every entry of a managed collection is held by as many owners as the target asks for iff
each new owner of it holds it already or is sent it by another node than `f` that holds it. -/
theorem replicated_iff {val : String → String → Option Value} {w : World St} {f : NodeId}
    (h : w.cluster.Sound)
    (hlen : w.cluster.replicationTarget + 1 ≤ w.cluster.partitioner.nodes.length)
    (hagree : ∀ c ∈ w.cluster.colls, ∀ k n, w.cell c k n = val c k ∨
      n ∉ w.cluster.owners k ∧ w.cell c k n = none)
    {new : List NodeId} (hnd : new.Nodup)
    (hnew : ∀ n, n ∈ new ↔ n ∈ w.cluster.partitioner.nodes ∧ n ≠ f)
    {net : MigCall → Outcome} (hF : OnlySilent net {f}) :
    (∀ c ∈ w.cluster.colls, ∀ k v, val c k = some v →
      ((rebalance net w new).cluster.owners k).length = w.cluster.replicationTarget ∧
      ∀ n ∈ (rebalance net w new).cluster.owners k, (rebalance net w new).cell c k n = some v) ↔
    ∀ c ∈ w.cluster.colls, ∀ k v, val c k = some v →
      ∀ n ∈ planNewOwners new w.cluster.replicationTarget w.cluster.topology (bucketOf k),
        w.cell c k n = some v ∨ ∃ src, w.Sends {f} new c k src n ∧ w.cell c k src = some v := by
  have hcl : ∀ n ∈ new, n ∈ w.cluster.clients := fun n hn => h.clients n ((hnew n).mp hn).1
  obtain ⟨-, howners⟩ := sound_rebalance net h hnd hcl
  have hcount : ∀ k, ((rebalance net w new).cluster.owners k).length
      = w.cluster.replicationTarget := by
    intro k
    have hle := length_without h.nodup hnd hnew hlen
    have hpos := w.cluster.target_pos
    rw [howners, planNewOwners, Partitioner.length_ownersOfBucket _ _ _ (by simpa using hnd),
      ringOf_nodes, clamp]
    omega
  refine forall₂_congr fun c hc => forall₂_congr fun k v => forall_congr' fun hv => ?_
  rw [and_iff_right (hcount k), howners]
  refine forall₂_congr fun n hn => ?_
  -- an owner on the new ring is a member, so it is not `f`
  have hnf : n ∉ ({f} : Finset NodeId) := by
    have hmem := Partitioner.ownersOfBucket_subset _ _ _ (by simpa using hnd) hn
    rw [ringOf_nodes] at hmem
    simpa using ((hnew n).mp hmem).2
  obtain ⟨hsent, hkept⟩ := cell_rebalance_owner hF h hnd hcl c k hnf hn
  by_cases hs : ∃ src, w.Sends {f} new c k src n
  · obtain ⟨src, hs⟩ := hs
    have huniq : ∀ src', w.Sends {f} new c k src' n → src' = src := fun src' hs' =>
      some.inj (hs'.2.2.2.1.symm.trans hs.2.2.2.1)
    rw [hsent src hs]
    rcases hagree c hc k src with hsrc | ⟨-, hsrc⟩
    · rw [hsrc, hv, some_or]
      exact iff_of_true rfl (Or.inr ⟨src, hs, hsrc.trans hv⟩)
    · rw [hsrc, none_or]
      refine ⟨Or.inl, fun hh => hh.resolve_right ?_⟩
      rintro ⟨src', hs', hv'⟩
      rw [huniq src' hs', hsrc] at hv'
      cases hv'
  · rw [not_exists] at hs
    rw [hkept hs]
    refine ⟨Or.inl, fun hh => hh.resolve_right ?_⟩
    rintro ⟨src, hs', -⟩
    exact hs src hs'

end Silent

/-- The calls to `f` fail, all others are answered. -/
def silent (f : NodeId) : MigCall → Outcome
  | .exportEntries src _ _ _ => if src = f then .failedBefore else .ok
  | .importEntries _ dst _ _ => if dst = f then .failedBefore else .ok
  | .dropBuckets n _ _ => if n = f then .failedBefore else .ok

theorem onlySilent_silent (f : NodeId) : OnlySilent (silent f) {f} := by
  constructor <;> intros <;> simp [silent]

/-- Three nodes; `b` and `a` hold both copies of `x`. -/
def threeNodes : World MemoryStore :=
  ((blankWorld (Cluster.new ["a", "b", "c"] 2 ["kv"])).setShard "a"
    (Shard.writeObject ⟨"a", MemoryStore.new⟩ "kv" "x" (.int 1))).setShard "b"
    (Shard.writeObject ⟨"b", MemoryStore.new⟩ "kv" "x" (.int 1))

theorem cell_threeNodes (c k : String) (n : NodeId) : threeNodes.cell c k n
    = if (n = "a" ∨ n = "b") ∧ c = "kv" ∧ k = "x" then some (.int 1) else none := by
  have hblank : ∀ m : NodeId, (blankWorld (new ["a", "b", "c"] 2 ["kv"])).cell c k m = none :=
    fun _ => rfl
  rw [threeNodes, World.cell_setShard, World.cell_setShard, Shard.object_writeObject,
    Shard.object_writeObject, hblank]
  change (if _ then if _ then _ else (none : Option Value) else if _ then if _ then _ else none
    else none) = _
  by_cases ha : n = "a" <;> by_cases hb : n = "b" <;> simp [ha, hb]

theorem sound_threeNodes : threeNodes.cluster.Sound where
  overlay := rfl
  down := rfl
  replication := rfl
  topology := rfl
  nodup := by decide
  clients := by decide

theorem owners_threeNodes : threeNodes.cluster.owners "x" = ["b", "a"] := by decide +kernel

/-- All copies in the three nodes agree. -/
theorem threeNodes_agree : ∀ c ∈ threeNodes.cluster.colls, ∀ k n,
    threeNodes.cell c k n = (if c = "kv" ∧ k = "x" then some (.int 1) else none) ∨
      n ∉ threeNodes.cluster.owners k ∧ threeNodes.cell c k n = none := by
  intro c _ k n
  rw [cell_threeNodes]
  by_cases hck : c = "kv" ∧ k = "x"
  · obtain ⟨rfl, rfl⟩ := hck
    by_cases hn : n = "a" ∨ n = "b"
    · simp [hn]
    · rw [owners_threeNodes]
      refine .inr ⟨?_, by simp [hn]⟩
      simpa [not_or, and_comm] using hn
  · rw [if_neg fun hh => hck hh.2, if_neg hck]
    exact .inl rfl

/-- When `a`, the second owner of `x`, fails, `c` gets the copy that is missing. -/
theorem replicated_threeNodes :
    ((rebalance (silent "a") threeNodes ["b", "c"]).cluster.owners "x").length = 2 ∧
    ∀ n ∈ (rebalance (silent "a") threeNodes ["b", "c"]).cluster.owners "x",
      (rebalance (silent "a") threeNodes ["b", "c"]).cell "kv" "x" n = some (.int 1) := by
  refine (replicated_iff (w := threeNodes) (f := "a") sound_threeNodes (by decide) threeNodes_agree
    (by decide) (fun n => ?_) (onlySilent_silent "a")).mpr ?_ "kv" (by decide) "x" (.int 1) (by simp)
  · change n ∈ ["b", "c"] ↔ n ∈ ["a", "b", "c"] ∧ n ≠ "a"
    simp only [mem_cons, not_mem_nil, or_false]
    constructor
    · rintro (rfl | rfl) <;> decide
    · rintro ⟨rfl | h, hn⟩
      · exact absurd rfl hn
      · exact h
  · intro c _ k v hv n hn
    split_ifs at hv with hck
    obtain ⟨rfl, rfl⟩ := hck
    obtain rfl := some.inj hv
    have hnew : planNewOwners ["b", "c"] 2 ∅ (bucketOf "x") = ["b", "c"] := by decide +kernel
    have hn : n ∈ ["b", "c"] := hnew ▸ hn
    rcases mem_cons.mp hn with rfl | hn
    · exact Or.inl (by rw [cell_threeNodes]; simp)
    · obtain rfl := mem_singleton.mp hn
      have hold : planOldOwners threeNodes.cluster.memberIds 2 ∅ (bucketOf "x") = ["b", "a"] := by
        decide +kernel
      refine Or.inr ⟨"b", ⟨by decide, by decide +kernel, ?_, ?_, by decide⟩, ?_⟩
      · change "c" ∉ planOldOwners threeNodes.cluster.memberIds 2 ∅ (bucketOf "x")
        rw [hold]
        decide
      · change (planOldOwners threeNodes.cluster.memberIds 2 ∅ (bucketOf "x")).head? = some "b"
        rw [hold]
        rfl
      · rw [cell_threeNodes]
        simp

/-- When `b`, the first owner of `x`, fails and is drained, `c` becomes an owner of `x` without getting
a copy: the planner copies from the first old owner only. -/
theorem not_replicated_of_silent_source : threeNodes.cluster.Sound ∧
    (∀ c ∈ threeNodes.cluster.colls, ∀ k n,
      threeNodes.cell c k n = (if c = "kv" ∧ k = "x" then some (.int 1) else none) ∨
        n ∉ threeNodes.cluster.owners k ∧ threeNodes.cell c k n = none) ∧
    OnlySilent (silent "b") {"b"} ∧
    "c" ∈ (drainNode (silent "b") threeNodes "b").cluster.owners "x" ∧
    (drainNode (silent "b") threeNodes "b").cell "kv" "x" "c" = none := by
  have hdrain : drainNode (silent "b") threeNodes "b" = rebalance (silent "b") threeNodes ["a", "c"] :=
    congrArg (rebalance (silent "b") threeNodes) (by decide +kernel :
      threeNodes.cluster.memberIds.filter (· ≠ "b") = ["a", "c"])
  have hnd : ["a", "c"].Nodup := by decide
  have hcl : ∀ n ∈ ["a", "c"], n ∈ threeNodes.cluster.clients := by decide
  obtain ⟨-, howners⟩ := sound_rebalance (silent "b") sound_threeNodes hnd hcl
  have hnew : planNewOwners ["a", "c"] 2 ∅ (bucketOf "x") = ["a", "c"] := by decide +kernel
  have hold : planOldOwners threeNodes.cluster.memberIds 2 ∅ (bucketOf "x") = ["b", "a"] := by
    decide +kernel
  have hmem : "c" ∈ planNewOwners ["a", "c"] 2 ∅ (bucketOf "x") := hnew ▸ (by decide)
  obtain ⟨-, hkept⟩ := cell_rebalance_owner (onlySilent_silent "b") sound_threeNodes hnd hcl "kv" "x"
    (g := "c") (by decide) hmem
  refine ⟨sound_threeNodes, threeNodes_agree, onlySilent_silent "b", ?_, ?_⟩
  · rw [hdrain, howners]
    exact hmem
  · rw [hdrain, hkept, cell_threeNodes]
    · simp
    · rintro src ⟨-, -, -, hhead, hsrc⟩
      have hhead : (planOldOwners threeNodes.cluster.memberIds 2 ∅ (bucketOf "x")).head? = some src :=
        hhead
      rw [hold] at hhead
      obtain rfl := some.inj hhead
      exact hsrc (Finset.mem_singleton_self _)

end Stplr
