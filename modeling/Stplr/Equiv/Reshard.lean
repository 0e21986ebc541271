import Stplr.Equiv.Partitioner
import Stplr.Migration

/-!
# What the plan of a reshard contains

`Move` is the data a reshard is planned from.  A move that is `Valid` (both memberships non-empty
and without repetitions, no two nodes with one hash) gives every bucket at least one old and one
new owner, and a bucket whose owners do not change keeps its replication factor
(`clamp_eq_of_unmoved`).

The plan copies each bucket from its first old owner to the owners it gains and drops it from the
owners it loses (`mem_planCopies`, `mem_planDrops`).  The rest follows these through the grouping by
bucket, by chunk and by pair of nodes (`mem_copyJobs`, `exists_copyJob`, `mem_dropJobs`,
`exists_dropJob`).
-/

namespace Stplr

open Lib List SortedMap

variable {n : ℕ} (nodes : List NodeId) (t : Topology)

@[simp] theorem ringOf_nodes : (ringOf nodes t).nodes = nodes := by
  unfold ringOf
  split_ifs <;> rfl

@[simp] theorem ringOf_topology : (ringOf nodes t).topology = t := by
  unfold ringOf
  split_ifs with h
  · exact AList.ext h.symm
  · rfl

theorem clamp_pos (target n : ℕ) : 0 < clamp target n :=
  lt_of_lt_of_le Nat.one_pos (le_max_right _ _)

theorem clamp_le {target : ℕ} (hn : 0 < n) : clamp target n ≤ n := by
  unfold clamp
  omega

/-- The data a reshard is planned from. -/
structure Move where
  old : List NodeId
  new : List NodeId
  target : ℕ
  topology : Topology

namespace Move

def oldOwners (mv : Move) (b : ℕ) : List NodeId := planOldOwners mv.old mv.target mv.topology b

def newOwners (mv : Move) (b : ℕ) : List NodeId := planNewOwners mv.new mv.target mv.topology b

def plan (mv : Move) : ReshardPlan := planReshard mv.old mv.new mv.target mv.topology

/-- The bucket gains or loses an owner. -/
def Moved (mv : Move) (b : ℕ) : Prop :=
  (∃ n ∈ mv.newOwners b, n ∉ mv.oldOwners b) ∨ ∃ n ∈ mv.oldOwners b, n ∉ mv.newOwners b

/-- Both memberships are non-empty and without repetitions, and hashes tell the nodes apart. -/
structure Valid (mv : Move) : Prop where
  old_ne : mv.old ≠ []
  new_ne : mv.new ≠ []
  old_nodup : mv.old.Nodup
  new_nodup : mv.new.Nodup
  hashes : DistinctHashes (mv.old ++ mv.new)

variable {mv : Move}

variable {b : ℕ} {n : NodeId} {plan : ReshardPlan} {done : Finset ℕ} {bs : List ℕ}
  {actions : SortedMap ℕ (List Action)} {chunk : List ℕ}

theorem mem_iff_of_not_moved (h : ¬mv.Moved b) (n : NodeId) :
    n ∈ mv.oldOwners b ↔ n ∈ mv.newOwners b := by
  simp only [Moved, not_or, not_exists, not_and, not_not] at h
  exact ⟨h.2 n, h.1 n⟩

namespace Valid

theorem oldOwners_eq (h : mv.Valid) (b : ℕ) : mv.oldOwners b
    = (ringOf mv.old mv.topology).ownersOfBucket b (clamp mv.target mv.old.length) := by
  rw [oldOwners, planOldOwners, if_neg h.old_ne]

theorem nodup_oldOwners (h : mv.Valid) (b : ℕ) : (mv.oldOwners b).Nodup := by
  rw [h.oldOwners_eq]
  exact Partitioner.nodup_ownersOfBucket _ _ _ (by simpa using h.old_nodup)

theorem nodup_newOwners (h : mv.Valid) (b : ℕ) : (mv.newOwners b).Nodup :=
  Partitioner.nodup_ownersOfBucket _ _ _ (by simpa using h.new_nodup)

variable {b : ℕ} {n : NodeId}

theorem mem_old (h : mv.Valid) (hn : n ∈ mv.oldOwners b) : n ∈ mv.old := by
  rw [h.oldOwners_eq] at hn
  simpa using Partitioner.ownersOfBucket_subset _ _ _ (by simpa using h.old_nodup) hn

theorem mem_new (h : mv.Valid) (hn : n ∈ mv.newOwners b) : n ∈ mv.new := by
  simpa using Partitioner.ownersOfBucket_subset _ _ _ (by simpa using h.new_nodup) hn

theorem length_oldOwners (h : mv.Valid) (b : ℕ) :
    (mv.oldOwners b).length = clamp mv.target mv.old.length := by
  rw [h.oldOwners_eq, Partitioner.length_ownersOfBucket _ _ _ (by simpa using h.old_nodup),
    ringOf_nodes]
  exact min_eq_left (clamp_le (length_pos_iff.mpr h.old_ne))

theorem length_newOwners (h : mv.Valid) (b : ℕ) :
    (mv.newOwners b).length = clamp mv.target mv.new.length := by
  rw [newOwners, planNewOwners,
    Partitioner.length_ownersOfBucket _ _ _ (by simpa using h.new_nodup), ringOf_nodes]
  exact min_eq_left (clamp_le (length_pos_iff.mpr h.new_ne))

theorem oldOwners_ne_nil (h : mv.Valid) (b : ℕ) : mv.oldOwners b ≠ [] := by
  rw [← length_pos_iff, h.length_oldOwners]
  exact clamp_pos _ _

theorem newOwners_ne_nil (h : mv.Valid) (b : ℕ) : mv.newOwners b ≠ [] := by
  rw [← length_pos_iff, h.length_newOwners]
  exact clamp_pos _ _

/-- A bucket that does not move keeps its number of owners. -/
theorem clamp_eq_of_unmoved (h : mv.Valid) (hb : ¬mv.Moved b) :
    clamp mv.target mv.old.length = clamp mv.target mv.new.length := by
  rw [← h.length_oldOwners b, ← h.length_newOwners b]
  refine List.Perm.length_eq ?_
  exact (perm_ext_iff_of_nodup (h.nodup_oldOwners b) (h.nodup_newOwners b)).mpr
    (mem_iff_of_not_moved hb)

end Valid

/-! ### The plan -/

theorem mem_planCopies {src dst : NodeId} : ⟨b, src, dst⟩ ∈ mv.plan.copies ↔
    b < numBuckets ∧ (mv.oldOwners b).head? = some src ∧ dst ∈ mv.newOwners b ∧
      dst ∉ mv.oldOwners b := by
  rw [plan, planReshard, mem_flatMap]
  constructor
  · rintro ⟨b', hb', hm⟩
    rw [bucketCopies] at hm
    split at hm
    · rename_i s hs
      obtain ⟨d, hd, heq⟩ := mem_map.mp hm
      obtain ⟨rfl, rfl, rfl⟩ := Copy.mk.inj heq
      obtain ⟨h1, h2⟩ := mem_filter.mp hd
      exact ⟨mem_range.mp hb', hs, h1, of_decide_eq_true h2⟩
    · exact absurd hm not_mem_nil
  · rintro ⟨hb, hs, h1, h2⟩
    refine ⟨b, mem_range.mpr hb, ?_⟩
    have hs' : (planOldOwners mv.old mv.target mv.topology b).head? = some src := hs
    rw [bucketCopies, hs']
    exact mem_map.mpr ⟨dst, mem_filter.mpr ⟨h1, decide_eq_true h2⟩, rfl⟩

theorem mem_planDrops : ⟨b, n⟩ ∈ mv.plan.drops ↔
    b < numBuckets ∧ n ∈ mv.oldOwners b ∧ n ∉ mv.newOwners b := by
  rw [plan, planReshard, mem_flatMap]
  constructor
  · rintro ⟨b', hb', hm⟩
    obtain ⟨d, hd, heq⟩ := mem_map.mp hm
    obtain ⟨rfl, rfl⟩ := Drop.mk.inj heq
    obtain ⟨h1, h2⟩ := mem_filter.mp hd
    exact ⟨mem_range.mp hb', h1, of_decide_eq_true h2⟩
  · rintro ⟨hb, h1, h2⟩
    refine ⟨b, mem_range.mpr hb, ?_⟩
    exact mem_map.mpr ⟨n, mem_filter.mpr ⟨h1, decide_eq_true h2⟩, rfl⟩

/-! ### The actions of a bucket -/

/-- The list of actions the map is grouped from. -/
def actionList (plan : ReshardPlan) (done : Finset ℕ) : List (ℕ × Action) :=
  ((plan.copies.filter fun c => c.bucket ∉ done).map fun c => (c.bucket, .inl (c.src, c.dst))) ++
    (plan.drops.filter fun d => d.bucket ∉ done).map fun d => (d.bucket, .inr d.node)

theorem mem_actionList_inl {src dst : NodeId} :
    (b, Sum.inl (src, dst)) ∈ actionList plan done ↔ b ∉ done ∧ ⟨b, src, dst⟩ ∈ plan.copies := by
  simp only [actionList, mem_append, mem_map, mem_filter, decide_eq_true_eq,
    Prod.mk.injEq, Sum.inl.injEq, reduceCtorEq, and_false, exists_false, or_false]
  constructor
  · rintro ⟨⟨b', s, d⟩, ⟨hm, hd⟩, rfl, rfl, rfl⟩
    exact ⟨hd, hm⟩
  · rintro ⟨hd, hm⟩
    exact ⟨_, ⟨hm, hd⟩, rfl, rfl, rfl⟩

theorem mem_actionList_inr :
    (b, Sum.inr n) ∈ actionList plan done ↔ b ∉ done ∧ ⟨b, n⟩ ∈ plan.drops := by
  simp only [actionList, mem_append, mem_map, mem_filter, decide_eq_true_eq,
    Prod.mk.injEq, Sum.inr.injEq, reduceCtorEq, and_false, exists_false, false_or]
  constructor
  · rintro ⟨⟨b', n'⟩, ⟨hm, hd⟩, rfl, rfl⟩
    exact ⟨hd, hm⟩
  · rintro ⟨hd, hm⟩
    exact ⟨_, ⟨hm, hd⟩, rfl, rfl⟩

/-- What the action table of the plan holds for one bucket. -/
theorem mem_actions {a : Action} :
    a ∈ ((actionsOf plan done).find? b).getD [] ↔ (b, a) ∈ actionList plan done := by
  change a ∈ ((group (actionList plan done)).find? b).getD [] ↔ _
  rw [← mem_valuesOf]
  cases hf : (group (actionList plan done)).find? b with
  | some acts => rw [Option.getD_some, (mem_group.mp (find?_eq_some.mp hf)).1]
  | none =>
    have hnil : valuesOf (actionList plan done) b = [] := by
      by_contra hne
      rw [find?_eq_some.mpr (mem_group.mpr ⟨rfl, hne⟩)] at hf
      exact absurd hf (Option.some_ne_none _)
    rw [hnil, Option.getD_none]

/-- The buckets of the table: those with an action. -/
theorem mem_actionKeys_iff :
    b ∈ (actionsOf plan done).entries.map Prod.fst ↔ ∃ a, (b, a) ∈ actionList plan done := by
  constructor
  · intro hb
    obtain ⟨⟨b', acts⟩, he, rfl⟩ := mem_map.mp hb
    obtain ⟨hacts, hne⟩ := mem_group.mp he
    obtain ⟨a, ha⟩ := exists_mem_of_ne_nil _ hne
    rw [hacts] at ha
    exact ⟨a, mem_valuesOf.mp ha⟩
  · rintro ⟨a, ha⟩
    have hv := mem_valuesOf.mpr ha
    exact mem_map.mpr ⟨(b, _), mem_group.mpr ⟨rfl, ne_nil_of_mem hv⟩, rfl⟩

theorem notMem_of_mem_actionKeys (h : b ∈ (actionsOf plan done).entries.map Prod.fst) : b ∉ done := by
  obtain ⟨⟨s, d⟩ | n, ha⟩ := mem_actionKeys_iff.mp h
  · exact (mem_actionList_inl.mp ha).1
  · exact (mem_actionList_inr.mp ha).1

/-- In a valid move these are the buckets not done that move. -/
theorem mem_actionKeys (h : mv.Valid) :
    b ∈ (actionsOf mv.plan done).entries.map Prod.fst ↔ b ∉ done ∧ b < numBuckets ∧ mv.Moved b := by
  rw [mem_actionKeys_iff]
  constructor
  · rintro ⟨⟨s, d⟩ | n, ha⟩
    · obtain ⟨hd, hm⟩ := mem_actionList_inl.mp ha
      obtain ⟨hb, _, h1, h2⟩ := mem_planCopies.mp hm
      exact ⟨hd, hb, .inl ⟨d, h1, h2⟩⟩
    · obtain ⟨hd, hm⟩ := mem_actionList_inr.mp ha
      obtain ⟨hb, h1, h2⟩ := mem_planDrops.mp hm
      exact ⟨hd, hb, .inr ⟨n, h1, h2⟩⟩
  · rintro ⟨hd, hb, ⟨n, h1, h2⟩ | ⟨n, h1, h2⟩⟩
    · obtain ⟨s, hs⟩ : ∃ s, (mv.oldOwners b).head? = some s := by
        cases ho : mv.oldOwners b with
        | nil => exact absurd ho (h.oldOwners_ne_nil b)
        | cons s _ => exact ⟨s, rfl⟩
      exact ⟨_, mem_actionList_inl.mpr ⟨hd, mem_planCopies.mpr ⟨hb, hs, h1, h2⟩⟩⟩
    · exact ⟨_, mem_actionList_inr.mpr ⟨hd, mem_planDrops.mpr ⟨hb, h1, h2⟩⟩⟩

/-! ### The jobs of a chunk -/

theorem mem_flatMap_actions {γ κ : Type} {f : Action → Option γ} {g : γ → κ} {p : γ} {a : Action}
    (hf : ∀ a', f a' = some p ↔ a' = a) (hg : Function.Injective g) :
    (g p, b) ∈ chunk.flatMap (fun b => ((actions.find? b).getD []).filterMap fun a =>
      (f a).map fun p => (g p, b)) ↔ b ∈ chunk ∧ a ∈ (actions.find? b).getD [] := by
  rw [mem_flatMap]
  constructor
  · rintro ⟨b', hb', hm⟩
    obtain ⟨a', ha, heq⟩ := mem_filterMap.mp hm
    obtain ⟨q, hq, heq⟩ := Option.map_eq_some_iff.mp heq
    obtain ⟨hp, rfl⟩ := Prod.mk.inj heq
    obtain rfl := hg hp
    exact ⟨hb', (hf a').mp hq ▸ ha⟩
  · rintro ⟨hb, ha⟩
    exact ⟨b, hb, mem_filterMap.mpr ⟨a, ha, by rw [(hf a).mpr rfl]; rfl⟩⟩

theorem mem_pairBuckets {p : NodeId ×ₗ NodeId} (h : (p, bs) ∈ (pairBuckets actions chunk).entries)
    (b : ℕ) : b ∈ bs ↔ b ∈ chunk ∧ Sum.inl (ofLex p) ∈ (actions.find? b).getD [] := by
  rw [(mem_group.mp h).1, mem_valuesOf]
  exact mem_flatMap_actions (fun _ => Sum.getLeft?_eq_some_iff) toLex.injective

theorem mem_nodeDrops (h : (n, bs) ∈ (nodeDrops actions chunk).entries) (b : ℕ) :
    b ∈ bs ↔ b ∈ chunk ∧ Sum.inr n ∈ (actions.find? b).getD [] := by
  rw [(mem_group.mp h).1, mem_valuesOf]
  exact mem_flatMap_actions (fun _ => Sum.getRight?_eq_some_iff) Function.injective_id

/-- A planned copy is part of the pair of its two nodes. -/
theorem exists_pairBuckets {src dst : NodeId} (hb : b ∈ chunk)
    (ha : Sum.inl (src, dst) ∈ (actions.find? b).getD []) :
    ∃ bs, (toLex (src, dst), bs) ∈ (pairBuckets actions chunk).entries ∧ b ∈ bs :=
  exists_mem_group ((mem_flatMap_actions (fun _ => Sum.getLeft?_eq_some_iff) toLex.injective).mpr
    ⟨hb, ha⟩)

theorem exists_nodeDrops (hb : b ∈ chunk) (ha : Sum.inr n ∈ (actions.find? b).getD []) :
    ∃ bs, (n, bs) ∈ (nodeDrops actions chunk).entries ∧ b ∈ bs :=
  exists_mem_group ((mem_flatMap_actions (fun _ => Sum.getRight?_eq_some_iff)
    Function.injective_id).mpr ⟨hb, ha⟩)

section Jobs

variable {done : Finset ℕ} {chunk : List ℕ}

/-- The pairs of a chunk carry planned copies only. -/
theorem mem_copyJobs {job : CopyJob} (h : job ∈ copyJobs (actionsOf mv.plan done) chunk) :
    ∃ src dst bs, job = .pair src dst bs ∧ ∀ b ∈ bs, b ∈ chunk ∧
      (mv.oldOwners b).head? = some src ∧ dst ∈ mv.newOwners b ∧ dst ∉ mv.oldOwners b := by
  obtain ⟨⟨p, bs⟩, he, rfl⟩ := mem_map.mp h
  refine ⟨_, _, bs, rfl, fun b hb => ?_⟩
  obtain ⟨hbc, ha⟩ := (mem_pairBuckets he b).mp hb
  obtain ⟨-, hm⟩ := mem_actionList_inl.mp (mem_actions.mp ha)
  obtain ⟨-, hs, h1, h2⟩ := mem_planCopies.mp hm
  exact ⟨hbc, hs, h1, h2⟩

variable {b : ℕ} {bs : List ℕ} {actions : SortedMap ℕ (List Action)} {n : NodeId}

/-- Every owner that a bucket of the chunk gains has a pair that carries the bucket. -/
theorem exists_copyJob (h : mv.Valid) (hb : b ∈ chunk) (hlt : b < numBuckets) (hd : b ∉ done)
    {dst : NodeId} (h1 : dst ∈ mv.newOwners b) (h2 : dst ∉ mv.oldOwners b) :
    ∃ src bs, CopyJob.pair src dst bs ∈ copyJobs (actionsOf mv.plan done) chunk ∧ b ∈ bs := by
  obtain ⟨src, hs⟩ : ∃ s, (mv.oldOwners b).head? = some s := by
    cases ho : mv.oldOwners b with
    | nil => exact absurd ho (h.oldOwners_ne_nil b)
    | cons s _ => exact ⟨s, rfl⟩
  have ha := mem_actions.mpr (mem_actionList_inl.mpr ⟨hd, mem_planCopies.mpr ⟨hlt, hs, h1, h2⟩⟩)
  obtain ⟨bs, he, hbs⟩ := exists_pairBuckets hb ha
  exact ⟨src, bs, mem_map.mpr ⟨_, he, rfl⟩, hbs⟩

theorem ne_nil_of_mem_copyJobs {src dst : NodeId} (h : .pair src dst bs ∈ copyJobs actions chunk) :
    bs ≠ [] := by
  obtain ⟨⟨p, bs'⟩, he, heq⟩ := mem_map.mp h
  obtain ⟨-, -, rfl⟩ := CopyJob.pair.inj heq
  exact (mem_group.mp he).2

theorem ne_nil_of_mem_dropJobs (h : .node n bs ∈ dropJobs actions chunk) : bs ≠ [] := by
  obtain ⟨⟨n', bs'⟩, he, heq⟩ := mem_map.mp h
  obtain ⟨-, rfl⟩ := DropJob.node.inj heq
  exact (mem_group.mp he).2

/-- The drops of a chunk are planned drops. -/
theorem mem_dropJobs {job : DropJob} (h : job ∈ dropJobs (actionsOf mv.plan done) chunk) :
    ∃ n bs, job = .node n bs ∧ ∀ b ∈ bs, b ∈ chunk ∧ n ∈ mv.oldOwners b ∧
      n ∉ mv.newOwners b := by
  obtain ⟨⟨n, bs⟩, he, rfl⟩ := mem_map.mp h
  refine ⟨n, bs, rfl, fun b hb => ?_⟩
  obtain ⟨hbc, ha⟩ := (mem_nodeDrops he b).mp hb
  obtain ⟨-, hm⟩ := mem_actionList_inr.mp (mem_actions.mp ha)
  obtain ⟨-, h1, h2⟩ := mem_planDrops.mp hm
  exact ⟨hbc, h1, h2⟩

/-- Every owner that a bucket of the chunk loses drops it. -/
theorem exists_dropJob (hb : b ∈ chunk) (hlt : b < numBuckets) (hd : b ∉ done)
    (h1 : n ∈ mv.oldOwners b) (h2 : n ∉ mv.newOwners b) :
    ∃ bs, DropJob.node n bs ∈ dropJobs (actionsOf mv.plan done) chunk ∧ b ∈ bs := by
  have ha := mem_actions.mpr (mem_actionList_inr.mpr ⟨hd, mem_planDrops.mpr ⟨hlt, h1, h2⟩⟩)
  obtain ⟨bs, he, hbs⟩ := exists_nodeDrops hb ha
  exact ⟨bs, mem_map.mpr ⟨_, he, rfl⟩, hbs⟩

end Jobs

end Move

/-! ### Chunks -/

theorem flatten_chunksFuel {α : Type} (hn : 0 < n) :
    ∀ (fuel : ℕ) (l : List α), l.length ≤ fuel → (chunksFuel n fuel l).flatten = l := by
  intro fuel
  induction fuel with
  | zero =>
    intro l hl
    obtain rfl := eq_nil_of_length_eq_zero (Nat.le_zero.mp hl)
    rfl
  | succ fuel ih =>
    intro l hl
    cases l with
    | nil => rfl
    | cons a l =>
      rw [chunksFuel, flatten_cons, ih, take_append_drop]
      · rw [length_drop]
        simp only [length_cons] at hl ⊢
        omega
      · simp

theorem flatten_chunks {α : Type} (hn : 0 < n) (l : List α) : (chunks n l).flatten = l :=
  flatten_chunksFuel hn _ l le_rfl

theorem exists_mem_chunks {α : Type} (hn : 0 < n) {l : List α} {x : α} (hx : x ∈ l) :
    ∃ ch ∈ chunks n l, x ∈ ch := by
  rwa [← flatten_chunks hn l, mem_flatten] at hx

/-- No chunk is empty. -/
theorem ne_nil_of_mem_chunks {α : Type} (hn : 0 < n) {l ch : List α} (h : ch ∈ chunks n l) : ch ≠ [] := by
  have aux : ∀ (fuel : ℕ) (l : List α), ch ∈ chunksFuel n fuel l → ch ≠ [] := by
    intro fuel
    induction fuel with
    | zero => intro l hm; cases l <;> exact absurd hm not_mem_nil
    | succ fuel ih =>
      intro l hm
      cases l with
      | nil => exact absurd hm not_mem_nil
      | cons a l =>
        rw [chunksFuel, mem_cons] at hm
        · rcases hm with rfl | hm
          · rw [Ne, take_eq_nil_iff]
            simp only [reduceCtorEq, or_false]
            omega
          · exact ih _ hm
        · simp
  exact aux _ l h

end Stplr
