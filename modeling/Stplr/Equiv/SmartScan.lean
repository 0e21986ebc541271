import Stplr.Equiv.Transport
import Stplr.Smart
import Mathlib.Algebra.Order.BigOperators.Group.Finset

/-!
# Scans of the direct-to-shard client

A page of the client that is shorter than its limit has no cursor: it is taken for the last one.  But
each server cuts its own page at a cap, so the page of the client may be short although there are more
keys.  `sent` are the keys that arrive, the first page of each shard; `drained_iff` says when a page
without a cursor has every key.
-/

namespace Stplr

open Lib List

variable {St : Type} [IndexStore St]

/-- The keys of a shard within the bounds and after the cursor, ascending. -/
def World.ahead (w : World St) (n : NodeId) (coll : String) (after start stop : Option String) :
    List String :=
  above after (IndexStore.keysIn w.now (w.shards n).store coll start stop)

section Ahead

variable [LawfulCells St] {w : World St} {n : NodeId} {coll : String} {after start stop : Option String}

theorem World.mem_ahead {k : String} : k ∈ w.ahead n coll after start stop ↔
    ((w.shards n).object w.now coll k).isSome ∧ InBounds start stop k ∧ ∀ a ∈ after, a < k := by
  rw [World.ahead, mem_above, IndexStore.mem_keysIn, and_assoc]
  rfl

theorem World.nodup_ahead : (w.ahead n coll after start stop).Nodup :=
  ((IndexStore.pairwise_keysIn ..).filter _).imp ne_of_lt

end Ahead

namespace SmartClient

variable (sc : SmartClient) (wires : NodeId → Wire) (w : World St) (coll : String)
  (after start stop : Option String) (limit : ℕ)

/-- The shards that get the request: its URI is not too long. -/
def reached : Finset NodeId :=
  sc.clients.filter fun n => ((wires n).request (.scanRange coll after start stop limit)).isSome

/-- The keys that arrive: the first ones of each shard, as many as the limit and the cap allow. -/
def sent : Finset String := (sc.reached wires coll after start stop limit).biUnion fun n =>
    ((w.ahead n coll after start stop).take (min limit scanCap)).toFinset

theorem mem_sent {k : String} : k ∈ sc.sent wires w coll after start stop limit ↔
    ∃ n ∈ sc.reached wires coll after start stop limit,
      k ∈ (w.ahead n coll after start stop).take (min limit scanCap) := by
  simp only [sent, Finset.mem_biUnion, mem_toFinset]

theorem scanRange_eq (husize : limit < 2 ^ 64) :
    sc.scanRange wires w coll after start stop limit
      = mergePage limit (sc.sent wires w coll after start stop limit) := by
  rw [scanRange, sent]
  refine congrArg (mergePage limit) ?_
  ext k
  rw [Finset.mem_biUnion, Finset.mem_biUnion]
  simp only [reached, Finset.mem_filter, and_assoc]
  refine exists_congr fun n => and_congr_right fun _ => ?_
  cases hreq : (wires n).request (.scanRange coll after start stop limit) with
  | none =>
    rw [Wire.call, hreq]
    simp
  | some req =>
    have hget : req.method = .get := by
      simp only [Wire.request, Wire.get, Option.ite_none_right_eq_some, Option.some.injEq] at hreq
      rw [← hreq.2]
    rw [Wire.call_scanRange husize ⟨req, hreq, Wire.size_of_get hreq hget⟩]
    simp only [Option.elim_some, ShardAnswer.found, Shard.scanRange, IndexStore.scanRange_eq]
    exact (and_iff_right rfl).symm

variable {limit}

/-- The page has no cursor if fewer keys arrive than were asked for, and then it has all of these. -/
theorem scanRange_cases (hpos : 1 ≤ limit) (husize : limit < 2 ^ 64) :
    limit ≤ (sc.sent wires w coll after start stop limit).card ∧
      (sc.scanRange wires w coll after start stop limit).2 ≠ none ∨
    (sc.sent wires w coll after start stop limit).card < limit ∧
      (sc.scanRange wires w coll after start stop limit).2 = none ∧
      ∀ k, k ∈ (sc.scanRange wires w coll after start stop limit).1 ↔
        k ∈ sc.sent wires w coll after start stop limit := by
  rw [scanRange_eq sc wires w coll after start stop limit husize]
  set sent := sc.sent wires w coll after start stop limit
  have hlen : ((sent.sort (· ≤ ·)).take limit).length = min limit sent.card := by
    rw [length_take, Finset.length_sort]
  rw [mergePage, Ne, cursor_eq_none_iff hpos, hlen]
  dsimp only
  rcases Nat.lt_or_ge sent.card limit with hfew | hmany
  · refine .inr ⟨hfew, by omega, fun k => ?_⟩
    rw [take_of_length_le (by rw [Finset.length_sort]; exact hfew.le), Finset.mem_sort]
  · exact .inl ⟨hmany, by omega⟩

variable {sc wires w coll after start stop} {k : String}

/-- A limit within the cap is not cut by any shard, nor are the keys of a shard that has no more than
the cap. -/
theorem ahead_subset_sent [LawfulCells St] {n : NodeId}
    (hcap : limit ≤ scanCap ∨ (w.ahead n coll after start stop).length ≤ scanCap)
    (hfew : (sc.sent wires w coll after start stop limit).card < limit)
    (hn : n ∈ sc.reached wires coll after start stop limit)
    (hk : k ∈ w.ahead n coll after start stop) : k ∈ sc.sent wires w coll after start stop limit := by
  have hsub : ((w.ahead n coll after start stop).take (min limit scanCap)).toFinset
      ⊆ sc.sent wires w coll after start stop limit :=
    Finset.subset_biUnion_of_mem
      (fun n => ((w.ahead n coll after start stop).take (min limit scanCap)).toFinset) hn
  have hlen := Finset.card_le_card hsub
  rw [toFinset_card_of_nodup (World.nodup_ahead.sublist (take_sublist ..)), length_take] at hlen
  refine hsub (mem_toFinset.mpr ?_)
  rwa [take_of_length_le (by omega)]

/-- **When a page without a cursor is the last one.**  Either every shard gets the request, and the
limit is within the cap or no shard has more keys than the cap; or the first pages of the shards have
as many keys as were asked for; or every key is on a first page. -/
theorem drained_iff [LawfulCells St] (sc : SmartClient) (wires : NodeId → Wire) (w : World St)
    (coll : String) (after start stop : Option String) {limit : ℕ} (hpos : 1 ≤ limit)
    (husize : limit < 2 ^ 64) :
    ((sc.scanRange wires w coll after start stop limit).2 = none →
      ∀ n ∈ sc.clients, ∀ k, ((w.shards n).object w.now coll k).isSome → InBounds start stop k →
        (∀ a ∈ after, a < k) → k ∈ (sc.scanRange wires w coll after start stop limit).1) ↔
    (sc.reached wires coll after start stop limit = sc.clients ∧ (limit ≤ scanCap ∨
        ∀ n ∈ sc.clients, (w.ahead n coll after start stop).length ≤ scanCap)) ∨
      limit ≤ ((sc.reached wires coll after start stop limit).biUnion fun n =>
        ((w.ahead n coll after start stop).take (min limit scanCap)).toFinset).card ∨
      ∀ n ∈ sc.clients, ∀ k ∈ w.ahead n coll after start stop,
        ∃ m ∈ sc.reached wires coll after start stop limit,
          k ∈ (w.ahead m coll after start stop).take (min limit scanCap) := by
  simp only [← mem_sent]
  obtain ⟨hmany, hsome⟩ | ⟨hfew, hnone, hpage⟩ :=
    scanRange_cases sc wires w coll after start stop hpos husize
  · exact iff_of_true (fun h => absurd h hsome) (Or.inr (Or.inl hmany))
  · constructor
    · intro hdrained
      refine Or.inr (Or.inr fun n hn k hk => ?_)
      obtain ⟨hstored, hin, hafter⟩ := World.mem_ahead.mp hk
      exact (hpage k).mp (hdrained hnone n hn k hstored hin hafter)
    · rintro (⟨hreached, hcap⟩ | hmany | hall) - n hn k hstored hin hafter
      · exact (hpage k).mpr (ahead_subset_sent (hcap.imp_right fun h => h n hn) hfew (hreached ▸ hn)
          (World.mem_ahead.mpr ⟨hstored, hin, hafter⟩))
      · exact absurd hmany (Nat.not_le.mpr hfew)
      · exact (hpage k).mpr (hall n hn k (World.mem_ahead.mpr ⟨hstored, hin, hafter⟩))

/-- Fewer keys arrive than the caps of all shards together. -/
theorem card_sent_le : (sc.sent wires w coll after start stop limit).card
    ≤ sc.clients.card * scanCap := by
  have hone : ∀ n ∈ sc.reached wires coll after start stop limit,
      ((w.ahead n coll after start stop).take (min limit scanCap)).toFinset.card ≤ scanCap := by
    intro n _
    refine (toFinset_card_le _).trans ?_
    rw [length_take]
    omega
  calc (sc.sent wires w coll after start stop limit).card
      ≤ (sc.reached wires coll after start stop limit).card * scanCap :=
        Finset.card_biUnion_le_card_mul _ _ _ hone
    _ ≤ sc.clients.card * scanCap := Nat.mul_le_mul_right _ (Finset.card_filter_le ..)

/-- Two shards and a limit within the cap. -/
theorem drained_twoShards : (1 ≤ 5 ∧ 5 < 2 ^ 64) ∧
    (((SmartClient.new ["a", "b"] 2).scanRange (fun _ => Wire.localWire) twoShards "kv" none none
        (some "z") 5).2 = none →
      ∀ n ∈ (SmartClient.new ["a", "b"] 2).clients, ∀ k,
        ((twoShards.shards n).object twoShards.now "kv" k).isSome → InBounds none (some "z") k →
        (∀ a ∈ (none : Option String), a < k) →
        k ∈ ((SmartClient.new ["a", "b"] 2).scanRange (fun _ => Wire.localWire) twoShards "kv" none none
          (some "z") 5).1) := by
  refine ⟨by decide, (drained_iff _ _ _ _ _ _ _ (by decide) (by decide)).mpr (Or.inl ⟨?_, Or.inl ?_⟩)⟩
  · decide +kernel
  · decide

/-- `n` keys of different lengths. -/
def crowd (n : ℕ) : List (String × Value) :=
  (List.range n).map fun i => (String.ofList (List.replicate i 'a'), .null)

theorem nodup_crowd (n : ℕ) : ((crowd n).map Prod.fst).Nodup := by
  rw [crowd, map_map]
  refine nodup_range.map fun i j hij => ?_
  have hlen := congrArg (fun s : String => s.toList.length) hij
  simpa using hlen

/-- One shard with one key more than the cap. -/
def crowded : World MemoryStore where
  cluster := Cluster.new ["a"] 1 ["kv"]
  shards n := (⟨n, MemoryStore.new⟩ : Shard MemoryStore).importEntries "kv" (crowd (scanCap + 1))
  now := 0

theorem crowded_stores (hk : k ∈ (crowd (scanCap + 1)).map Prod.fst) (n : NodeId) :
    ((crowded.shards n).object crowded.now "kv" k).isSome := by
  change (Shard.object 0 (Shard.importEntries _ "kv" (crowd (scanCap + 1))) "kv" k).isSome
  rw [Shard.object_importEntries 0 _ "kv" (nodup_crowd _), if_pos rfl, Option.isSome_or,
    Bool.or_eq_true, lookup_isSome_iff]
  obtain ⟨e, he, rfl⟩ := mem_map.mp hk
  exact .inl ⟨e, he, by simp⟩

/-- A page of at most 20000 keys is cut at 10000, and there is no cursor to read on from. -/
theorem crowded_cut :
    ((SmartClient.new ["a"] 1).scanRange (fun _ => Wire.localWire) crowded "kv" none none none 20000).2
      = none ∧
    ∃ k, ((crowded.shards "a").object crowded.now "kv" k).isSome ∧
      k ∉ ((SmartClient.new ["a"] 1).scanRange (fun _ => Wire.localWire) crowded "kv" none none none
        20000).1 := by
  set sc := SmartClient.new ["a"] 1
  have hcard : (sc.sent (fun _ => Wire.localWire) crowded "kv" none none none 20000).card ≤ scanCap :=
    card_sent_le.trans_eq (Nat.one_mul scanCap)
  obtain ⟨hmany, -⟩ | ⟨-, hnone, hpage⟩ := scanRange_cases sc (fun _ => Wire.localWire) crowded "kv"
    none none none (show 1 ≤ 20000 by decide) (by decide)
  · exact absurd (hmany.trans hcard) (by decide)
  · refine ⟨hnone, ?_⟩
    by_contra hall
    push Not at hall
    have hsub : ((crowd (scanCap + 1)).map Prod.fst).toFinset
        ⊆ sc.sent (fun _ => Wire.localWire) crowded "kv" none none none 20000 := fun k hk =>
      (hpage k).mp (hall k (crowded_stores (mem_toFinset.mp hk) "a"))
    have hle := Finset.card_le_card hsub
    rw [toFinset_card_of_nodup (nodup_crowd _), crowd, length_map, length_map, length_range] at hle
    omega

end SmartClient

end Stplr
