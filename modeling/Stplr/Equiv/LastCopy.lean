import Stplr.Equiv.Rebalance
import Stplr.Equiv.Slots

/-!
# What is left of an entry after a rebalance with failing shard calls

`rebalance net w new` is a whole run of `run_migration` in which the shard calls end as `net` says.
Copying and dropping swallow errors, so a bucket can be dropped from all of its old owners although
no copy of it has arrived anywhere.  `cell_rebalance` says who holds an entry afterwards: whoever
held it before or had a copy delivered (`Delivered`), unless it was removed there (`Removed`).
-/

namespace Stplr

open Lib Move

variable {St : Type} [IndexStore St]

/-! ### A whole rebalance -/

/-- The planned actions of a rebalance by bucket. -/
def rebalanceActions (cl : Cluster) (new : List NodeId) : SortedMap ℕ (List Action) :=
  actionsOf (planReshard cl.memberIds new cl.replicationTarget cl.topology) ∅

/-- The chunks of a rebalance. -/
def rebalanceChunks (cl : Cluster) (new : List NodeId) : List (List ℕ) :=
  chunks cl.chunk ((rebalanceActions cl new).entries.map Prod.fst)

/-- A copy of bucket `b` of `c` is delivered to `n`: both clients are there, the export answers and
the import takes effect. -/
def Delivered (net : MigCall → Outcome) (cl : Cluster) (new : List NodeId) (b : ℕ) (c : String)
    (n : NodeId) : Prop :=
  ∃ ch ∈ rebalanceChunks cl new, DeliveredIn net cl (rebalanceActions cl new) b c n ch

/-- Bucket `b` of `c` is removed from `n`: it is to be dropped there, the client is there, and the
drop takes effect. -/
def Removed (net : MigCall → Outcome) (cl : Cluster) (new : List NodeId) (b : ℕ) (c : String)
    (n : NodeId) : Prop :=
  ∃ ch ∈ rebalanceChunks cl new, RemovedIn net cl (rebalanceActions cl new) b c n ch

/-- The old owners of a bucket hold every entry of it that exists anywhere. -/
def OldOwnersHold (w : World St) : Prop := ∀ c ∈ w.cluster.colls, ∀ k v n, w.cell c k n = some v →
    ∀ o ∈ planOldOwners w.cluster.memberIds w.cluster.replicationTarget w.cluster.topology
      (bucketOf k), w.cell c k o = some v

/-- Who holds an entry after a rebalance: whoever held it or had it delivered, unless it was
removed there. -/
theorem cell_rebalance [LawfulStore St] (net : MigCall → Outcome) {w : World St}
    {new : List NodeId} (hdiff : ¬sameMembers w.cluster.memberIds new) (hown : OldOwnersHold w)
    {c k : String} (hc : c ∈ w.cluster.colls) {v : Value} {n₀ : NodeId}
    (hv : w.cell c k n₀ = some v) (n : NodeId) :
    (rebalance net w new).cell c k n = some v ↔
      (w.cell c k n = some v ∨ Delivered net w.cluster new (bucketOf k) c n) ∧
        ¬Removed net w.cluster new (bucketOf k) c n := by
  set mv := w.cluster.move w.cluster.memberIds new with hmv
  have hhold : ∀ o ∈ mv.oldOwners (bucketOf k), w.cell c k o = some v := hown c hc k v n₀ hv
  -- a copy is delivered from an old owner, and those hold the entry
  have hsrc : Delivered net w.cluster new (bucketOf k) c n →
      w.cell c k ((mv.oldOwners (bucketOf k)).headD "") = some v := by
    rintro ⟨ch, -, src, bs, hm, hb, -⟩
    obtain ⟨hhead, -⟩ := @copy_source mv ∅ _ _ ((mem_pairBuckets hm _).mp hb).2
    rw [List.headD_eq_head?_getD, hhead]
    exact hhold _ (List.mem_of_mem_head? hhead)
  obtain ⟨w', hw', hrun⟩ := runMigration_eq net w ∅ hdiff
  have hs := migrates_migrated net w w.cluster.memberIds new ∅ c k
    (w.cluster.migrationChunks w.cluster.memberIds new ∅)
  rw [← hw'] at hs
  have hslot := (congrFun hs.slot n).trans (foldl_chunkSlots (copiesFrom_plan mv ∅ (bucketOf k))
    (w.cluster.nodup_migrationChunks w.cluster.memberIds new ∅) _ n)
  have hcell : (rebalance net w new).cell c k n = (w'.slot c k n).object w.now := by
    rw [rebalance, hrun, ← hs.now]
    rfl
  have hdel : (∃ ch ∈ w.cluster.migrationChunks w.cluster.memberIds new ∅,
      DeliveredIn net w.cluster (actionsOf mv.plan ∅) (bucketOf k) c n ch) ↔
        Delivered net w.cluster new (bucketOf k) c n := by
    unfold Delivered rebalanceChunks rebalanceActions Cluster.migrationChunks Cluster.move Move.plan
    exact Iff.rfl
  have hrem : (∃ ch ∈ w.cluster.migrationChunks w.cluster.memberIds new ∅,
      RemovedIn net w.cluster (actionsOf mv.plan ∅) (bucketOf k) c n ch) ↔
        Removed net w.cluster new (bucketOf k) c n := by
    unfold Removed rebalanceChunks rebalanceActions Cluster.migrationChunks Cluster.move Move.plan
    exact Iff.rfl
  rw [hcell, hslot, Slot.after_congr hdel hrem, Slot.object_after]
  refine and_congr_left fun _ => ?_
  change (_ ∧ (w.cell c k ((mv.oldOwners (bucketOf k)).headD "")).or (w.cell c k n) = some v ∨
    _ ∧ w.cell c k n = some v) ↔ _
  by_cases hd : Delivered net w.cluster new (bucketOf k) c n
  · rw [hsrc hd]
    simp [hd]
  · simp [hd]

/-- **When a rebalance keeps every entry.**  For every target list and every pattern of failing
shard calls: every entry of a managed collection is still held somewhere afterwards iff nothing
moves at all, or each entry has a node that held it or had it delivered and from which it is not
removed. -/
theorem rebalance_keeps_entries_iff [LawfulStore St] (net : MigCall → Outcome) (w : World St)
    (new : List NodeId) (hown : OldOwnersHold w) :
    (∀ c ∈ w.cluster.colls, ∀ k v n₀, w.cell c k n₀ = some v →
      ∃ n, (rebalance net w new).cell c k n = some v) ↔
    (sameMembers w.cluster.memberIds new ∨ ∀ c ∈ w.cluster.colls, ∀ k v n₀, w.cell c k n₀ = some v →
      ∃ n, (w.cell c k n = some v ∨ Delivered net w.cluster new (bucketOf k) c n) ∧
        ¬Removed net w.cluster new (bucketOf k) c n) := by
  by_cases hsame : sameMembers w.cluster.memberIds new
  · refine iff_of_true (fun c _ k v n₀ hv => ⟨n₀, ?_⟩) (Or.inl hsame)
    rw [rebalance, runMigration, if_pos hsame]
    exact hv
  · rw [or_iff_right hsame]
    refine forall₂_congr fun c hc => forall₃_congr fun k v n₀ => forall_congr' fun hv => ?_
    exact exists_congr fun n => cell_rebalance net hsame hown hc hv n

/-! ### One entry on one node -/

theorem oldOwnersHold_oneEntry : OldOwnersHold oneEntry := by
  intro c _ k v n hv o ho
  have ho : o ∈ ["a"] := ho
  rw [cell_oneEntry] at hv ⊢
  split_ifs at hv with h
  rw [List.mem_singleton.mp ho, if_pos ⟨rfl, h.2⟩]
  exact hv

/-- With one entry on `a` and calls that all succeed. -/
theorem rebalance_keeps_oneEntry_iff : OldOwnersHold oneEntry ∧
    ((∀ c ∈ oneEntry.cluster.colls, ∀ k v n₀, oneEntry.cell c k n₀ = some v →
      ∃ n, (rebalance (fun _ => .ok) oneEntry ["b"]).cell c k n = some v) ↔
    (sameMembers oneEntry.cluster.memberIds ["b"] ∨ ∀ c ∈ oneEntry.cluster.colls, ∀ k v n₀,
      oneEntry.cell c k n₀ = some v →
      ∃ n, (oneEntry.cell c k n = some v ∨
          Delivered (fun _ => .ok) oneEntry.cluster ["b"] (bucketOf k) c n) ∧
        ¬Removed (fun _ => .ok) oneEntry.cluster ["b"] (bucketOf k) c n)) :=
  ⟨oldOwnersHold_oneEntry,
    rebalance_keeps_entries_iff (fun _ => .ok) oneEntry ["b"] oldOwnersHold_oneEntry⟩

/-- Imports fail, everything else works. -/
def importsFail : MigCall → Outcome
  | .importEntries .. => .failedBefore
  | _ => .ok

/-- The entry is removed from `a` although it has not arrived at `b`. -/
theorem entry_lost_of_importsFail : OldOwnersHold oneEntry ∧
    oneEntry.cell "kv" "x" "a" = some (.int 1) ∧
    ∀ n, (rebalance importsFail oneEntry ["b"]).cell "kv" "x" n ≠ some (.int 1) := by
  have hheld : oneEntry.cell "kv" "x" "a" = some (.int 1) := by simp [cell_oneEntry]
  refine ⟨oldOwnersHold_oneEntry, hheld, fun n hn => ?_⟩
  rw [cell_rebalance importsFail (by decide) oldOwnersHold_oneEntry (by decide) hheld] at hn
  obtain ⟨hn, hkept⟩ := hn
  rcases hn with hn | ⟨ch, -, src, bs, -, -, -, i, -, -, himp⟩
  · rw [cell_oneEntry] at hn
    split_ifs at hn with ha
    obtain ⟨rfl, -, -⟩ := ha
    refine hkept ?_
    have hmem : "a" ∈ (oneEntry.moveTo ["b"]).oldOwners (bucketOf "x") := List.mem_singleton.mpr rfl
    have hnot : "a" ∉ (oneEntry.moveTo ["b"]).newOwners (bucketOf "x") := by
      have : (oneEntry.moveTo ["b"]).newOwners (bucketOf "x") = ["b"] := rfl
      rw [this]
      decide
    have hkey := (mem_actionKeys (rebalanceable_aToB.valid (by decide))).mpr
      ⟨Finset.notMem_empty (bucketOf "x"), bucketOf_lt "x", Or.inr ⟨"a", hmem, hnot⟩⟩
    obtain ⟨ch, hch, hb⟩ := exists_mem_chunks oneEntry.cluster.chunk_pos hkey
    have hact := mem_actions.mpr (mem_actionList_inr.mpr ⟨Finset.notMem_empty (bucketOf "x"),
      mem_planDrops.mpr ⟨bucketOf_lt "x", hmem, hnot⟩⟩)
    obtain ⟨bs, he, hbs⟩ := exists_nodeDrops hb hact
    exact ⟨ch, hch, bs, he, hbs, by decide, 0, by decide, rfl⟩
  · cases himp

end Stplr
