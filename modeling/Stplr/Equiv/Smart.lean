import Stplr.Equiv.Slots
import Stplr.Equiv.Sink
import Stplr.Smart

/-!
# The direct-to-shard client against the coordinator

Both rank the members of a bucket in the same way, whatever the order of their lists
(`ranked_eq_of_perm`), and take as many owners.  The coordinator's choice also spreads the owners over
the racks, which the client knows nothing of.  `routes_agree_iff`: the routes are the same, and values
put through one are read through the other while an owner is unreachable, iff for every key the best
nodes, as many as there are replicas and racks, are in different racks.
-/

namespace Stplr

variable {St : Type} [IndexStore St]

/-- A coordinator between two membership changes. -/
structure Cluster.Resting (c : Cluster) : Prop where
  overlay : c.overlay = none
  replication : c.replication = clamp c.replicationTarget c.partitioner.nodes.length
  nodup : c.partitioner.nodes.Nodup
  hashes : DistinctHashes c.partitioner.nodes
  clients : ∀ n ∈ c.partitioner.nodes, n ∈ c.clients

/-- The client holds the coordinator's members and replication target. -/
structure SmartClient.Views (sc : SmartClient) (c : Cluster) : Prop where
  nodes : sc.partitioner.nodes.Perm c.partitioner.nodes
  clients : ∀ n ∈ c.partitioner.nodes, n ∈ sc.clients
  replication : sc.replication = c.replicationTarget

/-- The best nodes for the key, as many as there are replicas and racks, are in different racks. -/
def Cluster.Spread (c : Cluster) (key : String) : Prop :=
  (((c.partitioner.ranked (bucketOf key)).take
    (min (min c.replicationTarget c.partitioner.nodes.length) c.partitioner.racks)).map
      c.partitioner.domain).Nodup

/-! ### Routes -/

/-- The clamped factor and the target give as many owners. -/
theorem min_clamp {target n : ℕ} (h : 0 < target) : min (clamp target n) n = min target n := by
  unfold clamp
  omega

variable {c : Cluster} {sc : SmartClient} {owners : List NodeId} {key : String}

theorem SmartClient.route_eq (hc : c.Resting) (hv : sc.Views c) (key : String) :
    sc.route key = (c.partitioner.ranked (bucketOf key)).take
      (min c.replicationTarget c.partitioner.nodes.length) := by
  have hranked := (Partitioner.ranked_eq_of_perm hv.nodes.symm hc.hashes (bucketOf key)).symm
  unfold route owners Partitioner.replicaSet Partitioner.pick
  dsimp only
  rw [if_pos (by rw [sc.plain]; rfl), hranked, hv.replication, hv.nodes.length_eq]

theorem Cluster.Resting.owners_eq (hc : c.Resting) (key : String) :
    c.owners key = c.partitioner.pick (c.partitioner.ranked (bucketOf key)) c.replicationTarget := by
  have hring : c.owners key = c.ringOwners key := by
    unfold Cluster.owners Cluster.overlayOwners
    rw [hc.overlay]
    rfl
  rw [hring, Cluster.ringOwners, Partitioner.replicaSet, hc.replication]
  unfold Partitioner.pick
  rw [min_clamp c.target_pos]

/-! ### Reading while an owner is unreachable -/

/-- Every call of the loop over `owners` is answered, except possibly those to `u`. -/
def AnswersBut (u : NodeId) (owners : List NodeId) (net : ℕ → Outcome) : Prop :=
  ∀ i n, owners[i]? = some n → n ≠ u → net i = .ok

/-- ... and those to `u` are not. -/
def Unreachable (u : NodeId) (owners : List NodeId) (net : ℕ → Outcome) : Prop :=
  ∀ i, owners[i]? = some u → net i ≠ .ok

/-- A value put through the coordinator or the client is read through the other while `u` is
unreachable: the other owners take the put, and then answer the get. -/
def ReadsBack (St : Type) [IndexStore St] (sc : SmartClient) (c : Cluster) (key : String) : Prop :=
  ∀ (w : World St) (u : NodeId) (coll : String) (v : Value) (net net' : ℕ → Outcome) (t : ℕ),
    w.cluster = c → (∀ n ∈ c.down, n = u) →
    (AnswersBut u (c.owners key) net → AnswersBut u (sc.route key) net' →
      Unreachable u (sc.route key) net' →
      sc.get net' { (w.perform net ⟨coll, key, .put v⟩).1 with now := t } coll key = some v) ∧
    (AnswersBut u (sc.route key) net → AnswersBut u (c.owners key) net' →
      Unreachable u (c.owners key) net' →
      World.get net' { sc.put net w coll key v with now := t } coll key = some v)

/-- The world as the client sees it: its own table of clients, and no down marks. -/
def SmartClient.seen (sc : SmartClient) (w : World St) : World St :=
  w.setCluster { w.cluster with clients := sc.clients, down := ∅ }

omit [IndexStore St] in
theorem SmartClient.skips_seen (sc : SmartClient) (w : World St) (n : NodeId) :
    (sc.seen w).cluster.skips n ↔ n ∉ sc.clients := by
  simp [Cluster.skips, SmartClient.seen, World.setCluster]

theorem SmartClient.getLoop_eq (sc : SmartClient) (w : World St) (coll key : String)
    (owners : List NodeId) : ∀ net : ℕ → Outcome,
      sc.getLoop w coll key net owners = (sc.seen w).getLoop coll key net owners := by
  induction owners with
  | nil => exact fun _ => rfl
  | cons n owners ih =>
    intro net
    rw [SmartClient.getLoop, World.getLoop, ih]
    simp only [sc.skips_seen]
    rfl

theorem SmartClient.putLoop_eq (sc : SmartClient) (coll key : String) (v : Value)
    (owners : List NodeId) : ∀ (net : ℕ → Outcome) (w : World St),
      sc.putLoop coll key v net w owners
        = (World.broadcastLoop (.writeObject coll key v) net (sc.seen w) owners).setCluster
            w.cluster := by
  induction owners with
  | nil => exact fun _ _ => rfl
  | cons n owners ih =>
    intro net w
    rw [SmartClient.putLoop, World.broadcastLoop, ih]
    simp only [sc.skips_seen, not_not]
    split_ifs <;> rfl

variable {coll : String}

/-- If the owners that answer hold one value and there is one, then that value is read. -/
theorem World.getLoop_of_answers {w : World St} {v : Option Value} :
    ∀ {net : ℕ → Outcome},
    (∀ i n, owners[i]? = some n → ¬w.cluster.skips n → net i = .ok → w.cell coll key n = v) →
    (∃ n i, owners[i]? = some n ∧ ¬w.cluster.skips n ∧ net i = .ok) →
    w.getLoop coll key net owners = v := by
  induction owners with
  | nil => rintro net - ⟨n, i, hi, -⟩; cases hi
  | cons m owners ih =>
    intro net hold ⟨n, hn⟩
    by_cases hm : w.cluster.skips m ∨ net 0 ≠ .ok
    · rw [World.getLoop, if_pos hm]
      refine ih (fun i n' hi hskip hok => hold (i + 1) n' hi hskip hok) ⟨n, ?_⟩
      rcases exists_getElem?_cons.mp hn with ⟨rfl, h1, h2⟩ | hn
      · exact absurd h2 (hm.resolve_left h1)
      · exact hn
    · rw [World.getLoop, if_neg hm]
      rw [not_or, not_not] at hm
      exact hold 0 m rfl hm.1 hm.2

/-- With two owners there is one besides `u`. -/
theorem exists_other_owner (hnd : owners.Nodup) (hlen : 2 ≤ owners.length) (u : NodeId) :
    ∃ (n : NodeId) (i : ℕ), owners[i]? = some n ∧ n ≠ u := by
  obtain ⟨a, b, rest, rfl⟩ : ∃ a b rest, owners = a :: b :: rest := by
    match owners, hlen with
    | a :: b :: rest, _ => exact ⟨a, b, rest, rfl⟩
  have hab : a ≠ b := fun heq => (List.nodup_cons.mp hnd).1 (heq ▸ List.mem_cons_self ..)
  by_cases ha : a = u
  · exact ⟨b, 1, rfl, fun hb => hab (ha.trans hb.symm)⟩
  · exact ⟨a, 0, rfl, ha⟩

variable [LawfulCells St]

/-- A put that every owner but `u` takes is read by whoever asks the same owners. -/
theorem getLoop_broadcast {w w' : World St} {u : NodeId} {v : Value} {net net' : ℕ → Outcome}
    (hnd : owners.Nodup) (hlen : 2 ≤ owners.length)
    (hskip : ∀ n ∈ owners, n ≠ u → ¬w.cluster.skips n)
    (hskip' : ∀ n ∈ owners, n ≠ u → ¬w'.cluster.skips n)
    (hshards : w'.shards = (World.broadcastLoop (.writeObject coll key v) net w owners).shards)
    (hput : AnswersBut u owners net) (hget : AnswersBut u owners net')
    (hu : Unreachable u owners net') : w'.getLoop coll key net' owners = some v := by
  refine World.getLoop_of_answers (fun i n hi _ hok => ?_) ?_
  · have hn : n ≠ u := fun heq => hu i (heq ▸ hi) hok
    have htaker : n ∈ takers w.cluster net owners :=
      mem_takers.mpr ⟨i, hi, hskip n (List.mem_of_getElem? hi) hn, by rw [hput i n hi hn]; rfl⟩
    unfold World.cell
    rw [hshards, World.broadcastLoop_eq, World.object_execOn_put, if_pos htaker]
  · obtain ⟨n, i, hi, hn⟩ := exists_other_owner hnd hlen u
    exact ⟨n, i, hi, hskip' n (List.mem_of_getElem? hi) hn, hget i n hi hn⟩

theorem readsBack_of_route_eq (hc : c.Resting) (hv : sc.Views c) (htarget : 2 ≤ c.replicationTarget)
    (hnodes : 2 ≤ c.partitioner.nodes.length) (hroute : sc.route key = c.owners key) :
    ReadsBack St sc c key := by
  obtain ⟨hnd, hsub, hlen⟩ := c.partitioner.pick_spec (c.partitioner.ranked_perm (bucketOf key))
    hc.nodup c.replicationTarget
  rw [← hc.owners_eq] at hnd hsub hlen
  have htwo : 2 ≤ (c.owners key).length := by omega
  rintro w u coll v net net' t rfl hdown
  have hskip : ∀ n ∈ w.cluster.owners key, n ≠ u → ¬w.cluster.skips n := by
    rintro n hn hu (hd | hcl)
    · exact hu (hdown n hd)
    · exact hcl (hc.clients n (hsub n hn))
  have hseen : ∀ (w' : World St), ∀ n ∈ w.cluster.owners key, n ≠ u →
      ¬(sc.seen w').cluster.skips n := by
    intro w' n hn _
    rw [sc.skips_seen, not_not]
    exact hv.clients n (hsub n hn)
  rw [hroute]
  constructor
  · intro hput hget hu
    unfold SmartClient.get
    rw [show sc.owners key = w.cluster.owners key from hroute, sc.getLoop_eq]
    exact getLoop_broadcast hnd htwo hskip (hseen _) rfl hput hget hu
  · intro hput hget hu
    have hloop : sc.put net w coll key v = (World.broadcastLoop (.writeObject coll key v) net
        (sc.seen w) (w.cluster.owners key)).setCluster w.cluster := by
      unfold SmartClient.put
      rw [show sc.owners key = w.cluster.owners key from hroute, sc.putLoop_eq]
    unfold World.get
    rw [hloop]
    exact getLoop_broadcast hnd htwo (hseen w) hskip rfl hput hget hu

/-- **When the client routes like the coordinator.**  A client that holds the members and the
replication target of a coordinator at rest routes every key as the coordinator does, so that values
put through one are read through the other while an owner is unreachable, iff for every key the best
nodes, as many as there are replicas and racks, are in different racks. -/
theorem routes_agree_iff (sc : SmartClient) (c : Cluster) (hc : c.Resting) (hv : sc.Views c) :
    (∀ key, sc.route key = (c.route key).owners ∧
      (2 ≤ c.replicationTarget → 2 ≤ c.partitioner.nodes.length → ReadsBack St sc c key)) ↔
    ∀ key, c.Spread key := by
  refine forall_congr' fun key => ?_
  have hroute : sc.route key = (c.route key).owners ↔ c.Spread key := by
    show sc.route key = c.owners key ↔ _
    rw [SmartClient.route_eq hc hv, hc.owners_eq, eq_comm]
    exact c.partitioner.pick_eq_take_iff (c.partitioner.ranked_perm _) hc.nodup _
  rw [← hroute]
  exact ⟨fun h => h.1, fun h => ⟨h, fun hr hn => readsBack_of_route_eq hc hv hr hn h⟩⟩

/-! ### Three nodes in two racks -/

/-- A coordinator with two replicas over three nodes in the given racks. -/
def rackedCluster (a b c : String) : Cluster := (Cluster.new ["a", "b", "c"] 2 ["kv"]).setTopology
    (((∅ : Topology).insert "a" a |>.insert "b" b).insert "c" c)

theorem resting_rackedCluster (a b c : String) : (rackedCluster a b c).Resting where
  overlay := rfl
  replication := rfl
  nodup := by
    change ["a", "b", "c"].Nodup
    decide
  hashes := by
    change DistinctHashes ["a", "b", "c"]
    decide +kernel
  clients := fun _ hn => List.mem_toFinset.mpr hn

theorem views_rackedCluster (a b c : String) :
    (SmartClient.new ["a", "b", "c"] 2).Views (rackedCluster a b c) where
  nodes := List.Perm.refl _
  clients := fun _ hn => List.mem_toFinset.mpr hn
  replication := rfl

/-- Three racks: all routes agree. -/
theorem routes_agree_threeRacks :
    (rackedCluster "r1" "r2" "r3").Resting ∧
    (SmartClient.new ["a", "b", "c"] 2).Views (rackedCluster "r1" "r2" "r3") ∧
    ∀ key, (SmartClient.new ["a", "b", "c"] 2).route key
      = ((rackedCluster "r1" "r2" "r3").route key).owners ∧
        (2 ≤ (rackedCluster "r1" "r2" "r3").replicationTarget →
          2 ≤ (rackedCluster "r1" "r2" "r3").partitioner.nodes.length →
          ReadsBack MemoryStore (SmartClient.new ["a", "b", "c"] 2) (rackedCluster "r1" "r2" "r3")
            key) := by
  have hc := resting_rackedCluster "r1" "r2" "r3"
  have hv := views_rackedCluster "r1" "r2" "r3"
  refine ⟨hc, hv, (routes_agree_iff _ _ hc hv).mpr fun key => ?_⟩
  have hperm := (rackedCluster "r1" "r2" "r3").partitioner.ranked_perm (bucketOf key)
  have hall : ((rackedCluster "r1" "r2" "r3").partitioner.nodes.map
      (rackedCluster "r1" "r2" "r3").partitioner.domain).Nodup := by decide +kernel
  exact ((hperm.map _).nodup_iff.mpr hall).sublist ((List.take_sublist ..).map _)

/-- Nodes `a` and `b` share a rack: the coordinator places `x` on `b` and `c`, the client asks `b` and
`a`, and while `b` is unreachable it does not find the value. -/
theorem routes_differ_twoRacks :
    let c := rackedCluster "r1" "r1" "r2"
    let sc := SmartClient.new ["a", "b", "c"] 2
    let w : World MemoryStore := ⟨c, fun n => ⟨n, MemoryStore.new⟩, 0⟩
    c.Resting ∧ sc.Views c ∧ sc.route "x" = ["b", "a"] ∧ (c.route "x").owners = ["b", "c"] ∧
    sc.get (fun i => if i = 0 then .failedBefore else .ok)
      (w.perform (fun _ => .ok) ⟨"kv", "x", .put (.int 1)⟩).1 "kv" "x" = none := by
  refine ⟨resting_rackedCluster .., views_rackedCluster .., ?_⟩
  decide +kernel

end Stplr
