import Stplr.Equiv.Partitioner
import Stplr.Equiv.Shard
import Stplr.Scan

/-!
# Scans visit every key once

Over a lawful store a scan is a page of the ascending list of the keys within its bounds
(`scanRange_eq`, `scanBuckets_eq`), so what holds of pages holds of scans.  A page of a cluster is the
page of all shards' keys together, although each shard sends no more than its own first `limit` keys
(`World.scanRange_eq`).

In a cluster that does not change, feeding the cursors back visits every key once, in order
(`scan_visits_every_key`), and the partitions tile the buckets, so that readers of different partitions
together find every key once (`partitions_visit_every_key`).
-/

namespace Stplr

open Lib LawfulCells List IndexStore SortedMap

/-- The bounds of a scan apart from its cursor. -/
def InBounds (start stop : Option String) (k : String) : Prop :=
  (∀ p ∈ start, startsWith k p = true) ∧ ∀ e ∈ stop, k < e

theorem above_filter {l : List String} (after : Option String) (f : String → Bool) :
    above after (l.filter f) = (above after l).filter f := by
  rw [above, above, filter_filter, filter_filter]
  exact filter_congr fun k _ => Bool.and_comm ..

/-! ### One store -/

namespace IndexStore

variable {St : Type} [IndexStore St] [LawfulCells St] (now : ℕ) (s : St) (coll : String)

theorem mem_sortedKeys {k : String} :
    k ∈ sortedKeys now s coll ↔ (getObject now s coll k).isSome := by
  rw [sortedKeys, (perm_insertionSort _ _).mem_iff, Option.isSome_iff_exists, mem_map]
  constructor
  · rintro ⟨⟨k', v⟩, hmem, rfl⟩
    exact ⟨v, (mem_scanEntries now s coll k' v).mp hmem⟩
  · rintro ⟨v, hv⟩
    exact ⟨(k, v), (mem_scanEntries now s coll k v).mpr hv, rfl⟩

theorem pairwise_sortedKeys : (sortedKeys now s coll).Pairwise (· < ·) :=
  pairwise_lt_insertionSort (nodup_scanEntries now s coll)

/-- The keys within the bounds of a scan, ascending. -/
def keysIn (start stop : Option String) : List String :=
  (sortedKeys now s coll).filter fun k => start.all (startsWith k) && stop.all (k < ·)

variable {k : String}

theorem mem_keysIn {start stop : Option String} : k ∈ keysIn now s coll start stop ↔
    (getObject now s coll k).isSome ∧ InBounds start stop k := by
  rw [keysIn, mem_filter, mem_sortedKeys, Bool.and_eq_true, Option.all_eq_true,
    Option.all_eq_true, InBounds]
  simp only [decide_eq_true_eq, Option.mem_def]

theorem pairwise_keysIn (start stop : Option String) :
    (keysIn now s coll start stop).Pairwise (· < ·) :=
  (pairwise_sortedKeys now s coll).filter _

omit [LawfulCells St] in
theorem keysIn_none : keysIn now s coll none none = sortedKeys now s coll :=
  filter_eq_self.mpr fun _ _ => rfl

omit [LawfulCells St] in
theorem scanRange_eq (after start stop : Option String) (limit : ℕ) :
    scanRange now s coll after start stop limit = page limit (keysIn now s coll start stop) after := by
  rw [scanRange, page, keysIn, above_filter, filter_filter]
  refine congrArg (take limit) (filter_congr fun k _ => ?_)
  exact Bool.and_comm ..

/-- The keys of some buckets, ascending. -/
def keysOf (buckets : List ℕ) : List String :=
  (sortedKeys now s coll).filter fun k => bucketOf k ∈ buckets

theorem mem_keysOf {buckets : List ℕ} : k ∈ keysOf now s coll buckets ↔
    (getObject now s coll k).isSome ∧ bucketOf k ∈ buckets := by
  rw [keysOf, mem_filter, mem_sortedKeys, decide_eq_true_eq]

variable (buckets : List ℕ)

theorem pairwise_keysOf : (keysOf now s coll buckets).Pairwise (· < ·) :=
  (pairwise_sortedKeys now s coll).filter _

theorem scanBuckets_eq (after : Option String) (limit : ℕ) :
    scanBuckets now s coll buckets after limit
      = page (max limit 1) (keysOf now s coll buckets) after := by
  have hpages : (above after (sortedKeys now s coll)).length
      < (scanEntries now s coll).length + 1 := by
    have h1 : (above after (sortedKeys now s coll)).length ≤ (sortedKeys now s coll).length :=
      length_filter_le ..
    have h2 : (sortedKeys now s coll).length = (scanEntries now s coll).length := by
      rw [sortedKeys, length_insertionSort, length_map]
    omega
  have hnext : ∀ s' cursor, s' = s → (s', scanRange now s' coll cursor none none scanChunk).1 = s ∧
        (s', scanRange now s' coll cursor none none scanChunk).2
          = page scanChunk (sortedKeys now s coll) cursor := by
    rintro s' cursor rfl
    exact ⟨rfl, by rw [scanRange_eq, keysIn_none]⟩
  have hclosed := (gatherPages_eq (I := fun s' => s' = s) (pairwise_sortedKeys now s coll)
    (show 0 < scanChunk by decide) hnext (fun k => bucketOf k ∈ buckets) limit _ s after []
    rfl hpages (by simp)).2
  rw [nil_append, ← above_filter] at hclosed
  exact hclosed

end IndexStore

/-! ### All shards -/

section Cluster

variable {St : Type} [IndexStore St]

/-- The key is stored on a shard that the cluster has a client for. -/
def World.Stores (w : World St) (coll k : String) : Prop :=
  ∃ n ∈ w.cluster.clients, ((w.shards n).object w.now coll k).isSome

variable (w : World St) (coll : String) (start stop : Option String)

/-- The keys of all shards within the bounds of a scan. -/
def World.keysIn : Finset String := w.cluster.clients.biUnion fun n =>
    (IndexStore.keysIn w.now (w.shards n).store coll start stop).toFinset

variable [LawfulCells St]

theorem World.mem_keysIn {k : String} :
    k ∈ w.keysIn coll start stop ↔ w.Stores coll k ∧ InBounds start stop k := by
  rw [World.keysIn, Finset.mem_biUnion, World.Stores]
  constructor
  · rintro ⟨n, hn, hk⟩
    obtain ⟨hsome, hin⟩ := (IndexStore.mem_keysIn ..).mp (mem_toFinset.mp hk)
    exact ⟨⟨n, hn, hsome⟩, hin⟩
  · rintro ⟨⟨n, hn, hsome⟩, hin⟩
    exact ⟨n, hn, mem_toFinset.mpr ((IndexStore.mem_keysIn ..).mpr ⟨hsome, hin⟩)⟩

/-- The first `limit` keys of the shards hold the first `limit` keys of the cluster. -/
theorem World.take_merged (after : Option String) (limit : ℕ) :
    ((w.cluster.clients.biUnion fun n =>
        (page limit (IndexStore.keysIn w.now (w.shards n).store coll start stop) after).toFinset).sort
      (· ≤ ·)).take limit
      = page limit ((w.keysIn coll start stop).sort (· ≤ ·)) after := by
  set keys := fun n => IndexStore.keysIn w.now (w.shards n).store coll start stop with hkeys
  have hsorted : (above after ((w.keysIn coll start stop).sort (· ≤ ·))).Pairwise (· < ·) :=
    (pairwise_lt_sort _).filter _
  have hsort : ((above after ((w.keysIn coll start stop).sort (· ≤ ·))).toFinset).sort (· ≤ ·)
      = above after ((w.keysIn coll start stop).sort (· ≤ ·)) :=
    (toFinset_sort _ (hsorted.imp ne_of_lt)).mpr (hsorted.imp le_of_lt)
  have hmem : ∀ {n}, n ∈ w.cluster.clients → ∀ k ∈ above after (keys n),
      k ∈ above after ((w.keysIn coll start stop).sort (· ≤ ·)) := by
    intro n hn k hk
    obtain ⟨hk, hafter⟩ := mem_above.mp hk
    refine mem_above.mpr ⟨(Finset.mem_sort _).mpr ?_, hafter⟩
    exact Finset.mem_biUnion.mpr ⟨n, hn, mem_toFinset.mpr hk⟩
  rw [page, ← hsort]
  refine take_sort_eq (fun k hk => ?_) fun k hk => ?_
  · obtain ⟨n, hn, hk⟩ := Finset.mem_biUnion.mp hk
    exact mem_toFinset.mpr (hmem hn k (mem_of_mem_take (mem_toFinset.mp hk)))
  · rw [hsort] at hk
    obtain ⟨hk, hfew⟩ := (mem_take_iff hsorted).mp hk
    obtain ⟨hin, hafter⟩ := mem_above.mp hk
    obtain ⟨n, hn, hkn⟩ := Finset.mem_biUnion.mp ((Finset.mem_sort _).mp hin)
    have hshard : (above after (keys n)).Pairwise (· < ·) :=
      (IndexStore.pairwise_keysIn ..).filter _
    refine Finset.mem_biUnion.mpr ⟨n, hn, mem_toFinset.mpr ((mem_take_iff hshard).mpr
      ⟨mem_above.mpr ⟨mem_toFinset.mp hkn, hafter⟩, lt_of_le_of_lt ?_ hfew⟩)⟩
    -- fewer keys of one shard than of all shards are smaller
    have hnd : ((above after (keys n)).filter (· < k)).Nodup := (hshard.filter _).imp ne_of_lt
    refine (subperm_of_subset hnd fun x hx => ?_).length_le
    obtain ⟨hx, hlt⟩ := mem_filter.mp hx
    exact mem_filter.mpr ⟨hmem hn x hx, hlt⟩

/-- A scan of a cluster is a page of the keys of all its shards. -/
theorem World.scanRange_eq (remote : Finset NodeId) (hup : w.cluster.down = ∅) {limit : ℕ}
    (hcap : limit ≤ scanCap) (after : Option String) :
    w.scanRange remote ∅ coll after start stop limit
      = (page limit ((w.keysIn coll start stop).sort (· ≤ ·)) after,
        cursor limit (page limit ((w.keysIn coll start stop).sort (· ≤ ·)) after)) := by
  have hlimit : ∀ n, (if n ∈ remote then min limit scanCap else limit) = limit := by
    intro n
    split_ifs
    · exact min_eq_left hcap
    · rfl
  rw [World.scanRange, hup, Finset.sdiff_empty, Finset.sdiff_empty, mergePage]
  simp only [hlimit, Shard.scanRange, IndexStore.scanRange_eq]
  rw [World.take_merged]

/-- **A scan visits every key once**: with all shards up and nothing changing, feeding the cursors
back from the start ends after finitely many pages, and the pages together list the keys of all
shards within the bounds, strictly ascending. -/
theorem scan_visits_every_key (remote : Finset NodeId) (hup : w.cluster.down = ∅) {limit : ℕ}
    (hpos : 1 ≤ limit) (hcap : limit ≤ scanCap) :
    ∃ pages keys,
      follow (fun after => w.scanRange remote ∅ coll after start stop limit) pages none = some keys ∧
        keys.Pairwise (· < ·) ∧
        ∀ k, k ∈ keys ↔ w.Stores coll k ∧ InBounds start stop k := by
  set keys := (w.keysIn coll start stop).sort (· ≤ ·) with hkeys
  refine ⟨keys.length + 1, keys, ?_, pairwise_lt_sort _, fun k => ?_⟩
  · have h := follow_eq (pairwise_lt_sort (w.keysIn coll start stop)) hpos
      (World.scanRange_eq w coll start stop remote hup hcap) (keys.length + 1) none
    rw [above_none, ← hkeys] at h
    exact h (Nat.lt_succ_self _)
  · rw [Finset.mem_sort, World.mem_keysIn]

end Cluster

/-- Two members that both hold the keys `x` and `y`. -/
def twoShards : World MemoryStore where
  cluster := Cluster.new ["a", "b"] 2 ["kv"]
  shards n := ⟨n, (MemoryStore.new.putObject "kv" "x" (.int 1)).putObject "kv" "y" (.int 2)⟩
  now := 0

/-- Pages of one key, with `b` reached over the network. -/
theorem scan_visits_every_key_twoShards : twoShards.Stores "kv" "x" ∧ ∃ pages keys,
    follow (fun after => twoShards.scanRange {"b"} ∅ "kv" after none (some "z") 1) pages none
        = some keys ∧
      keys.Pairwise (· < ·) ∧
      ∀ k, k ∈ keys ↔ twoShards.Stores "kv" k ∧ InBounds none (some "z") k :=
  ⟨⟨"a", by decide, by decide +kernel⟩,
    scan_visits_every_key twoShards "kv" none (some "z") {"b"} rfl (by decide) (by decide)⟩

/-! ### The partition plan -/

namespace Cluster

variable (c : Cluster) (endpoint : NodeId → String)

theorem primaryOf_eq (b : ℕ) : c.primaryOf b = (c.partitioner.ranked b).head? :=
  c.partitioner.head?_ownersOfBucket b Nat.one_pos

theorem primaryOf_isSome (hne : c.partitioner.nodes ≠ []) (b : ℕ) : (c.primaryOf b).isSome := by
  have hranked : c.partitioner.ranked b ≠ [] := fun hnil =>
    hne (nil_perm.mp (hnil ▸ c.partitioner.ranked_perm b))
  rw [primaryOf_eq, head?_eq_some_head hranked]
  rfl

variable {b : ℕ} {n : NodeId} {p : Partition}

theorem mem_primaries : (n, b) ∈ c.primaries ↔ b < numBuckets ∧ c.primaryOf b = some n := by
  rw [primaries, mem_filterMap]
  simp only [mem_range, Option.map_eq_some_iff, Prod.mk.injEq]
  constructor
  · rintro ⟨b', hb', n', hn, rfl, rfl⟩
    exact ⟨hb', hn⟩
  · rintro ⟨hb, hn⟩
    exact ⟨b, hb, n, hn, rfl, rfl⟩

theorem nodup_primaries : (c.primaries.map Prod.snd).Nodup := by
  refine List.Sublist.nodup ?_ (nodup_range (n := numBuckets))
  rw [primaries]
  generalize range numBuckets = bs
  induction bs with
  | nil => exact List.Sublist.slnil
  | cons b bs ih =>
    cases hb : c.primaryOf b with
    | none =>
      rw [filterMap_cons_none (by rw [hb]; rfl)]
      exact ih.cons _
    | some n =>
      rw [filterMap_cons_some (b := (n, b)) (by rw [hb]; rfl)]
      exact ih.cons_cons _

theorem mem_plan (hp : p ∈ c.partitionPlan endpoint) :
    p.buckets = SortedMap.valuesOf c.primaries p.id := by
  obtain ⟨⟨id, bs⟩, he, rfl⟩ := mem_map.mp hp
  exact (mem_group.mp he).1

/-- The buckets of a partition are those of which its shard is the primary. -/
theorem mem_buckets (hp : p ∈ c.partitionPlan endpoint) :
    b ∈ p.buckets ↔ b < numBuckets ∧ c.primaryOf b = some p.id := by
  rw [c.mem_plan endpoint hp, mem_valuesOf, mem_primaries]

theorem nodup_buckets (hp : p ∈ c.partitionPlan endpoint) : p.buckets.Nodup := by
  rw [c.mem_plan endpoint hp, valuesOf]
  exact c.nodup_primaries.sublist (filter_sublist.map _)

theorem exists_partition (hne : c.partitioner.nodes ≠ []) (hb : b < numBuckets) :
    ∃ p ∈ c.partitionPlan endpoint, b ∈ p.buckets := by
  obtain ⟨n, hn⟩ := Option.isSome_iff_exists.mp (c.primaryOf_isSome hne b)
  have hmem : b ∈ valuesOf c.primaries n := mem_valuesOf.mpr (c.mem_primaries.mpr ⟨hb, hn⟩)
  have hgroup : (n, valuesOf c.primaries n) ∈ (group c.primaries).entries :=
    mem_group.mpr ⟨rfl, ne_nil_of_mem hmem⟩
  rw [partitionPlan]
  refine ⟨_, mem_map_of_mem hgroup, ?_⟩
  dsimp only
  exact hmem

theorem pairwise_plan : (c.partitionPlan endpoint).Pairwise fun p q => p.id ≠ q.id := by
  rw [partitionPlan]
  exact pairwise_map.mpr ((sorted _).imp fun h => ne_of_lt h)

/-- **The plan tiles the buckets**: every bucket is in one partition, once. -/
theorem plan_tiles (hne : c.partitioner.nodes ≠ []) :
    ((c.partitionPlan endpoint).flatMap Partition.buckets).Perm (List.range numBuckets) := by
  refine (perm_ext_iff_of_nodup (nodup_flatMap.mpr
    ⟨fun p hp => c.nodup_buckets endpoint hp, ?_⟩) nodup_range).mpr fun b => ?_
  · -- two partitions with a common bucket have its primary as their id
    refine List.Pairwise.imp_of_mem (fun {p q} hp hq hne => ?_) (c.pairwise_plan endpoint)
    intro b hb hb'
    have hp' := ((c.mem_buckets endpoint hp).mp hb).2
    have hq' := ((c.mem_buckets endpoint hq).mp hb').2
    exact hne (Option.some.inj (hp'.symm.trans hq'))
  · rw [mem_flatMap, mem_range]
    exact ⟨fun ⟨p, hp, hb⟩ => ((c.mem_buckets endpoint hp).mp hb).1,
      c.exists_partition endpoint hne⟩

end Cluster

section Partitions

variable {St : Type} [IndexStore St] [LawfulCells St]

/-- The pages of a partition list the keys that its shard holds in its buckets. -/
theorem World.follow_scanPartition (w : World St) (p : Partition) (coll : String) {limit : ℕ}
    (hpos : 1 ≤ limit) : ∃ pages, follow (w.scanPartition p coll limit) pages none
      = some (keysOf w.now (w.shards p.id).store coll p.buckets) := by
  set keys := keysOf w.now (w.shards p.id).store coll p.buckets with hkeys
  have hnext : ∀ after, w.scanPartition p coll limit after
      = (page limit keys after, cursor limit (page limit keys after)) := by
    intro after
    have hpage : (w.shards p.id).scanBuckets w.now coll p.buckets after limit
        = page limit keys after := by
      rw [Shard.scanBuckets, scanBuckets_eq, max_eq_left hpos]
    rw [World.scanPartition, hpage, cursor]
    refine congrArg (Prod.mk _) ?_
    by_cases hfull : limit ≤ (page limit keys after).length
    · rw [if_pos hfull, if_neg (Nat.not_lt.mpr hfull)]
    · rw [if_neg hfull, if_pos (Nat.not_le.mp hfull)]
  have h := follow_eq (pairwise_keysOf w.now (w.shards p.id).store coll p.buckets) hpos
    hnext (keys.length + 1) none
  rw [above_none] at h
  exact ⟨keys.length + 1, h (Nat.lt_succ_self _)⟩

/-- **Readers of all partitions find every key once.**  The buckets of the plan tile `0..4095`, each at
its primary; and when the owners of a bucket hold its entries, the pages of the partitions, each read
on its own shard, together list every key that a member stores, once. -/
theorem partitions_visit_every_key (w : World St) (endpoint : NodeId → String)
    (hne : w.cluster.partitioner.nodes ≠ []) (hrep : 0 < w.cluster.replication)
    (hheld : ∀ coll k, ∀ n ∈ w.cluster.partitioner.nodes,
      ((w.shards n).object w.now coll k).isSome →
      ∀ m ∈ w.cluster.partitioner.ownersOfBucket (bucketOf k) w.cluster.replication,
        ((w.shards m).object w.now coll k).isSome) :
    let plan := w.cluster.partitionPlan endpoint
    (plan.flatMap Partition.buckets).Perm (range numBuckets) ∧
      (∀ p ∈ plan, ∀ b ∈ p.buckets, w.cluster.primaryOf b = some p.id) ∧
      ∀ (coll : String) (limit : ℕ), 1 ≤ limit → ∃ read : Partition → List String,
          (∀ p ∈ plan, ∃ pages, follow (w.scanPartition p coll limit) pages none = some (read p)) ∧
          (plan.flatMap read).Nodup ∧
          ∀ k, k ∈ plan.flatMap read ↔ ∃ n ∈ w.cluster.partitioner.nodes,
            ((w.shards n).object w.now coll k).isSome := by
  intro plan
  have hbuckets : ∀ p ∈ plan, ∀ b, b ∈ p.buckets ↔
      b < numBuckets ∧ w.cluster.primaryOf b = some p.id :=
    fun p hp b => w.cluster.mem_buckets endpoint hp
  refine ⟨w.cluster.plan_tiles endpoint hne, fun p hp b hb => ((hbuckets p hp b).mp hb).2,
    fun coll limit hpos => ?_⟩
  refine ⟨fun p => keysOf w.now (w.shards p.id).store coll p.buckets,
    fun p _ => w.follow_scanPartition p coll hpos, ?_, fun k => ?_⟩
  · refine nodup_flatMap.mpr ⟨fun p _ => (pairwise_keysOf ..).imp ne_of_lt, ?_⟩
    refine List.Pairwise.imp_of_mem (fun {p q} hp hq hids => ?_) (w.cluster.pairwise_plan endpoint)
    intro k hk hk'
    have hp' := ((hbuckets p hp _).mp ((mem_keysOf ..).mp hk).2).2
    have hq' := ((hbuckets q hq _).mp ((mem_keysOf ..).mp hk').2).2
    exact hids (Option.some.inj (hp'.symm.trans hq'))
  · rw [mem_flatMap]
    constructor
    · rintro ⟨p, hp, hk⟩
      obtain ⟨hsome, hb⟩ := (mem_keysOf ..).mp hk
      have hprimary := ((hbuckets p hp _).mp hb).2
      refine ⟨p.id, ?_, hsome⟩
      rw [Cluster.primaryOf_eq] at hprimary
      exact (w.cluster.partitioner.ranked_perm _).mem_iff.mp (mem_of_mem_head? hprimary)
    · rintro ⟨n, hn, hsome⟩
      obtain ⟨p, hp, hb⟩ := w.cluster.exists_partition endpoint hne (bucketOf_lt k)
      have hprimary := ((hbuckets p hp _).mp hb).2
      refine ⟨p, hp, (mem_keysOf ..).mpr ⟨?_, hb⟩⟩
      rw [Cluster.primaryOf_eq, ← w.cluster.partitioner.head?_ownersOfBucket _ hrep] at hprimary
      exact hheld coll k n hn hsome p.id (mem_of_mem_head? hprimary)

end Partitions

/-- Both members hold every entry, whoever is its primary. -/
theorem partitions_visit_every_key_twoShards :
    let plan := twoShards.cluster.partitionPlan fun n => "http://" ++ n
    (plan.flatMap Partition.buckets).Perm (range numBuckets) ∧
      (∀ p ∈ plan, ∀ b ∈ p.buckets, twoShards.cluster.primaryOf b = some p.id) ∧
      ∀ (coll : String) (limit : ℕ), 1 ≤ limit → ∃ read : Partition → List String,
          (∀ p ∈ plan, ∃ pages,
            follow (twoShards.scanPartition p coll limit) pages none = some (read p)) ∧
          (plan.flatMap read).Nodup ∧
          ∀ k, k ∈ plan.flatMap read ↔ ∃ n ∈ twoShards.cluster.partitioner.nodes,
            ((twoShards.shards n).object twoShards.now coll k).isSome :=
  partitions_visit_every_key twoShards _ (by decide) (by decide) fun _ _ _ _ hsome _ _ => hsome

end Stplr
