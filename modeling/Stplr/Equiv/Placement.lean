import Stplr.Equiv.Partitioner
import Mathlib.Data.List.TakeWhile

/-!
# Where the replicas of a bucket go

`owners_of_bucket` takes the best node of each rack, in the order of the ranking, and then the best of
the nodes left (`order`).  So the owners are as many as can be, the first of them is the best node, and
they are in as many racks as possible (`owners_rack_optimal`).

The ranking is a stable sort by score, and for every bucket the score is an injective function of the
hash of a node.  So nodes with different hashes are ranked alike whatever the order of the list, and
those with one hash swap places when they do in the list (`ranked_order_free_iff`).
-/

namespace Stplr

open List

namespace Partitioner

variable (p : Partitioner)

/-! ### Racks -/

/-- The first nodes of the order are in different racks, up to the number of racks; with more nodes
every rack is there. -/
theorem card_domains_take_order {pl : List NodeId} (hperm : pl.Perm p.nodes) (hnd : p.nodes.Nodup)
    (m : ℕ) :
    (((p.order pl).take m).map p.domain).toFinset.card = min m p.racks := by
  have hpl : pl.Nodup := hperm.nodup_iff.mpr hnd
  rw [order]
  split_ifs with htop
  · -- without a topology every node is its own rack
    have hracks : p.racks = pl.length := by
      rw [racks, p.domain_of_plain htop, map_id, toFinset_card_of_nodup hnd, hperm.length_eq]
    rw [p.domain_of_plain htop, map_id, toFinset_card_of_nodup
      (hpl.sublist (take_sublist ..)), length_take, hracks]
  · have hlen : (p.firsts pl []).length = p.racks := p.length_firsts hperm
    obtain ⟨hdist, hall⟩ := p.firsts_spec pl []
    rw [toFinset_nil, Finset.sdiff_empty] at hall
    by_cases hmr : m ≤ p.racks
    · rw [take_append_of_le_length (by omega), toFinset_card_of_nodup
        (hdist.sublist ((take_sublist ..).map _)), length_map, length_take]
      omega
    · -- all racks are among the first nodes, and there are no others
      have hset : (((p.firsts pl [] ++ pl.filter (· ∉ p.firsts pl [])).take m).map p.domain).toFinset
          = ((p.firsts pl []).map p.domain).toFinset := by
        rw [take_append, take_of_length_le (by omega), map_append,
          toFinset_append, Finset.union_eq_left, hall]
        intro d hd
        obtain ⟨n, hn, rfl⟩ := mem_map.mp (mem_toFinset.mp hd)
        have hmem : n ∈ pl := mem_of_mem_filter (mem_of_mem_take hn)
        exact mem_toFinset.mpr (mem_map_of_mem hmem)
      rw [hset, toFinset_card_of_nodup hdist, length_map, hlen]
      omega

/-- **Replica selection is rack-optimal.**  The owners of a bucket are `min r n` different members, the
first of them the best node of the ranking; they are in `min r` of the racks; without a topology they
are the best nodes; and the owners of a key are those of its bucket. -/
theorem owners_rack_optimal (hnd : p.nodes.Nodup) (b r : ℕ) :
    (p.ownersOfBucket b r).Nodup ∧
    (p.ownersOfBucket b r).length = min r p.nodes.length ∧
    (∀ n ∈ p.ownersOfBucket b r, n ∈ p.nodes) ∧
    (0 < r → (p.ownersOfBucket b r).head? = (p.ranked b).head?) ∧
    ((p.ownersOfBucket b r).map p.domain).toFinset.card
      = min r (p.nodes.map p.domain).toFinset.card ∧
    (p.topology.entries = [] → p.ownersOfBucket b r = (p.ranked b).take (min r p.nodes.length)) ∧
    ∀ key, p.replicaSet key r = p.ownersOfBucket (bucketOf key) r := by
  have hperm := p.ranked_perm b
  have hpl : (p.ranked b).Nodup := hperm.nodup_iff.mpr hnd
  refine ⟨p.nodup_ownersOfBucket b r hnd, p.length_ownersOfBucket b r hnd,
    fun n hn => p.ownersOfBucket_subset b r hnd hn, fun hr => p.head?_ownersOfBucket b hr, ?_, ?_,
    fun key => rfl⟩
  · have hracks : p.racks ≤ p.nodes.length := by
      refine (toFinset_card_le _).trans ?_
      rw [length_map]
    rw [ownersOfBucket, p.pick_eq_take hpl, p.card_domains_take_order hperm hnd]
    change min (min r p.nodes.length) p.racks = min r p.racks
    omega
  · intro htop
    rw [ownersOfBucket, p.pick_eq_take hpl, order, if_pos htop]

/-- Three racks, one node without a rack, and an entry for a node that has left. -/
def racked : Partitioner := ⟨["a", "b", "c", "d"],
    ((((∅ : Topology).insert "a" "r").insert "b" "r").insert "c" "s").insert "gone" "t"⟩

theorem owners_rack_optimal_racked : racked.nodes.Nodup ∧
    ((racked.ownersOfBucket 7 3).map racked.domain).toFinset.card = 3 := by
  have hnd : racked.nodes.Nodup := by decide
  have hcard : min 3 (racked.nodes.map racked.domain).toFinset.card = 3 := by decide
  exact ⟨hnd, (racked.owners_rack_optimal hnd 7 3).2.2.2.2.1.trans hcard⟩

/-! ### The order of the nodes -/

/-- Two nodes with one hash at the head of the list are ranked side by side, in the order of the
list. -/
theorem ranked_tie {a c : NodeId} (hhash : fnv1a a = fnv1a c) (rest : List NodeId) (t : Topology)
    (b : ℕ) : ranked ⟨a :: c :: rest, t⟩ b
      = (ranked ⟨rest, t⟩ b).takeWhile (fun x => ¬bucketScore (fnv1a x) b ≤ bucketScore (fnv1a a) b)
        ++ a :: c :: (ranked ⟨rest, t⟩ b).dropWhile
          (fun x => ¬bucketScore (fnv1a x) b ≤ bucketScore (fnv1a a) b) := by
  have hsort : ∀ x (l : List NodeId), ranked ⟨x :: l, t⟩ b
      = (ranked ⟨l, t⟩ b).takeWhile (fun y => ¬bucketScore (fnv1a y) b ≤ bucketScore (fnv1a x) b)
        ++ x :: (ranked ⟨l, t⟩ b).dropWhile
          (fun y => ¬bucketScore (fnv1a y) b ≤ bucketScore (fnv1a x) b) := fun x l => by
    rw [ranked, insertionSort_cons, orderedInsert_eq_take_drop]
    rfl
  rw [hsort a, hsort c, ← hhash]
  generalize ranked ⟨rest, t⟩ b = l
  generalize hP : (fun x => decide (¬bucketScore (fnv1a x) b ≤ bucketScore (fnv1a a) b)) = P
  have hc : ¬P c = true := by simp [← hP, hhash]
  -- everything before `c` scores higher than `a`, and `c` does not
  have hbefore : ∀ x ∈ l.takeWhile P, P x = true := fun x hx => mem_takeWhile_imp hx
  rw [takeWhile_append_of_pos hbefore, dropWhile_append_of_pos hbefore,
    takeWhile_cons_of_neg hc, dropWhile_cons_of_neg hc, append_nil]

/-- **Placement does not depend on the order of the nodes exactly when hashes are distinct.** -/
theorem ranked_order_free_iff (nodes : List NodeId) :
    (∀ nodes', nodes'.Perm nodes → ∀ b < numBuckets,
      (Partitioner.new nodes').ranked b = (Partitioner.new nodes).ranked b) ↔
    DistinctHashes nodes := by
  constructor
  · intro hfree a ha c hc hhash
    by_contra hne
    -- put the two nodes in front, in both orders
    obtain ⟨rest, hrest⟩ : ∃ rest, (a :: c :: rest).Perm nodes := by
      have h1 := perm_cons_erase ha
      have h2 := perm_cons_erase ((mem_erase_of_ne (Ne.symm hne)).mpr hc)
      exact ⟨_, (h1.trans (h2.cons a)).symm⟩
    have hzero : 0 < numBuckets := by decide
    have heq := (hfree _ hrest 0 hzero).trans
      (hfree _ ((List.Perm.swap a c rest).trans hrest) 0 hzero).symm
    rw [Partitioner.new, Partitioner.new, ranked_tie hhash, ranked_tie hhash.symm, hhash] at heq
    exact hne (cons.inj (append_cancel_left heq)).1
  · intro hd nodes' hperm b _
    exact (ranked_eq_of_perm (p := Partitioner.new nodes) (q := Partitioner.new nodes') hperm.symm hd
      b).symm

end Partitioner

end Stplr
