import Stplr.BatchRead
import Stplr.Equiv.Membership
import Stplr.Equiv.Scan

/-!
# What batch reads find during a rebalance

`mget` and `scan_range` read without entering the gates, so a bucket can be copied, cut over and
dropped between two of their steps: `mget` then asks a node that no longer has the key, and
`scan_range` asks the new owner too early and the old one too late (`batch_reads_miss_key`).

Only the drops do harm.  A node that holds a key keeps it through every other step of the migration
(`MoveInv.keeps`) and has a client as long (`Keeping.mem_clients`), and a reader that has found no
overlay gets holders from the ring whenever it reads it (`Keeping.ringHolds_migrate`).  So for a wanted
key there is a node that holds it (`Mget.Inv`), or a client that has not been asked does
(`ScanRange.Inv`).  Both readers end with the result (`batch_reads_find_key`).
-/

namespace Stplr

open Lib Move List IndexStore Migration
open Option (bind_some map_eq_some_iff map_some some)

variable {St : Type} [IndexStore St]

/-! ### What the migration leaves to readers -/

namespace Move

variable {mv : Move} {colls : List String} {σ : String → String → Option Value} {w : World St}
  {m : Migration} {r : World St × Migration}

variable {n : NodeId}

/-- A node that holds the value of a key keeps it, unless the step drops the bucket of the key. -/
theorem MoveInv.keeps [LawfulStore St] (h : MoveInv mv colls σ w m)
    (hs : m.Trans (fun _ => .ok) w r) {c k : String} (hd : m.dropsKey c k = false)
    (hn : w.cell c k n = σ c k) : r.1.cell c k n = σ c k := by
  have hjobs := h.jobs
  cases hs with
  | @deliver ch src dst bs i coll es jobs hp =>
    rw [hp] at hjobs
    obtain ⟨-, -, hnd, hlook⟩ : CopyJob.Ok mv colls σ ch (.deliver src dst bs i coll es) :=
      hjobs _ (mem_cons_self ..)
    dsimp only
    rw [cell_deliver w hnd, hn]
    split_ifs with hthis
    · rw [hlook, ← hthis.2]
      split_ifs
      · exact Option.or_self
      · exact Option.none_or
    · rfl
  | drop hp =>
    rw [dropsKey, hp] at hd
    dsimp only
    rw [cell_drop, if_neg]
    · exact hn
    · rintro ⟨-, rfl, hb⟩
      simp [hb] at hd
  | _ => exact hn

/-- Once the members have been replaced, the ring gives new owners only. -/
theorem Committing.ring_subset (hv : mv.Valid) {c : Cluster} (hf : Fixed mv colls c)
    {steps : List CommitStep} (h : Committing mv c m steps) (hs : .setNodes ∉ steps) {b : ℕ}
    (hn : n ∈ c.partitioner.ownersOfBucket b c.replication) : n ∈ mv.newOwners b := by
  have hnodes : c.partitioner.nodes = mv.new := by
    have := h.nodes
    rwa [if_neg hs] at this
  rw [← newRing_owners hf hnodes]
  refine Partitioner.ownersOfBucket_mono _ _ (hnodes ▸ hv.new_nodup) ?_ hn
  have hpos : 0 < mv.target := hf.target ▸ c.target_pos
  have hne := length_pos_iff.mpr hv.new_ne
  rw [hnodes, h.replication]
  unfold clamp
  split_ifs <;> omega

end Move

/-- Every node that the ring gives for the key holds the value. -/
def World.RingHolds (w : World St) (c k : String) (v : Value) : Prop :=
  ∀ n ∈ w.cluster.ringOwners k, w.cell c k n = some v

/-- The label invokes no write of the cell, and it is no drop of the key's bucket. -/
def System.Spares (s : System St) (c k : String) : SysLabel → Prop
  | .invoke call => ¬call.WritesTo c k
  | .migrate => ∀ m ∈ s.migration, m.dropsKey c k = false
  | _ => True

instance (s : System St) (c k : String) : (l : SysLabel) → Decidable (s.Spares c k l)
  | .invoke call => inferInstanceAs (Decidable (¬call.WritesTo c k))
  | .migrate => inferInstanceAs (Decidable (∀ m ∈ s.migration, m.dropsKey c k = false))
  | .call _ _ | .tick _ | .abandon _ | .resume => inferInstanceAs (Decidable True)

/-- No write of the cell is pending, and its value is `v`. -/
structure Keeping (mv : Move) (colls : List String) (val : String → String → Option Value)
    (j : Option MigrationRecord) (c k : String) (v : Value) (s : System St) (m : Migration) :
    Prop where
  inv : SysInv mv colls val j s m
  calm : ∀ (i : ℕ) (t : CallState), s.calls[i]? = some t → ¬t.PendingOn c k
  value : lastValue val s.trace c k = some v

namespace Keeping

variable {mv : Move} {colls : List String} {val : String → String → Option Value}
  {j : Option MigrationRecord} {c k : String} {v : Value} {s s' : System St} {m : Migration}

/-- The owners hold the value. -/
theorem hold (h : Keeping mv colls val j c k v s m) (hc : c ∈ colls) {n : NodeId}
    (hn : n ∈ s.world.cluster.routes (bucketOf k)) : s.world.cell c k n = some v := by
  rw [← h.value]
  exact (h.inv.cell c hc k).calm h.calm n hn

/-- A pending read of the ring finds holders of the value, also after a step of the migration. -/
theorem ringHolds_migrate [LawfulStore St] (hv : mv.Valid) (hc : c ∈ colls)
    (h : Keeping mv colls val j c k v s m) {r : World St × Migration}
    (hs : m.Trans (fun _ => .ok) s.world r) (hd : m.dropsKey c k = false)
    (hring : s.world.RingHolds c k v) : r.1.RingHolds c k v := by
  intro n hn
  rcases ring_step hs with ⟨h1, h2⟩ | ⟨st, steps, hst, hp, rfl⟩
  · -- the ring is as before, and what it gives keeps the value
    rw [← h.value]
    refine h.inv.move.keeps hs hd ?_
    rw [h.value]
    refine hring n ?_
    rwa [Cluster.ringOwners, h1, h2] at hn
  · -- the ring is the new one, whose owners the bucket is routed to
    obtain ⟨hf', hph'⟩ := h.inv.phase.step hv h.inv.fixed hs
    have hph := h.inv.phase
    unfold PhaseInv at hph
    rw [hp] at hph
    have hcom : Committing mv s.world.cluster m (st :: steps) := hph
    have hcom' : Committing mv (st.exec s.world.cluster m.new) _ steps := hph'
    have hsuf := hcom.shape.imp (fun x => x.1) fun x => x.1
    have hdone : CommitStep.setNodes ∉ steps := by
      rcases hst with rfl | rfl
      · exact (nodup_cons.mp (nodup_of_suffix hsuf)).1
      · exact (order_of_suffix hsuf).2.1 rfl
    change s.world.cell c k n = some v
    refine h.hold hc ?_
    rw [hcom.mem_routes hv h.inv.fixed (bucketOf_lt k)]
    exact hcom'.ring_subset hv hf' hdone hn

/-- What a step of the system leaves to a reader: the key keeps its value, and so do the nodes that
hold it and the nodes that the ring gives. -/
theorem step [LawfulStore St] (hv : mv.Valid) (hc : c ∈ colls) (h : Keeping mv colls val j c k v s m)
    {l : SysLabel} (hok : s.Permits l) (hsp : s.Spares c k l)
    (hs : s.step (fun _ => .ok) l = some s') : (∃ m', Keeping mv colls val j c k v s' m') ∧
      (∀ n, s.world.cell c k n = some v → s'.world.cell c k n = some v) ∧
      (s.world.RingHolds c k v → s'.world.RingHolds c k v) := by
  obtain ⟨m', hinv', -⟩ := h.inv.step hv hok hs
  -- what is left when the cells and the ring stay as they are
  have hsame : (∀ n, s'.world.cell c k n = s.world.cell c k n) →
      s'.world.cluster.partitioner = s.world.cluster.partitioner →
      s'.world.cluster.replication = s.world.cluster.replication →
      (∀ n, s.world.cell c k n = some v → s'.world.cell c k n = some v) ∧
        (s.world.RingHolds c k v → s'.world.RingHolds c k v) := by
    intro hcell hp hr
    refine ⟨fun n hn => (hcell n).trans hn, fun hring n hn => (hcell n).trans (hring n ?_)⟩
    rwa [Cluster.ringOwners, hp, hr] at hn
  cases l with
  | invoke call =>
    obtain rfl := some.inj hs
    refine ⟨⟨m', hinv', fun i t ht hp => ?_, ?_⟩, hsame (fun _ => rfl) rfl rfl⟩
    · rcases getElem?_concat_cases ht with ht | ⟨-, rfl⟩
      · exact h.calm i t ht hp
      · exact hsp hp.1
    · exact (lastValue_concat_inv _ _).trans h.value
  | call id o =>
    obtain rfl : o = .ok := hok
    obtain ⟨t, ht, r, hr, rfl⟩ := System.callStep_eq_some hs
    have htr := CallState.trans_of_step hr
    have hnw : ¬t.call.WritesTo c k := fun hw => h.calm id t ht ⟨hw, htr.not_returned⟩
    obtain ⟨g, hg, -⟩ := htr.cluster_eq
    refine ⟨⟨m', hinv', fun i u hu hp => ?_, ?_⟩, hsame ?_ (by rw [hg]) (by rw [hg])⟩
    · rcases getElem?_set_cases hu with ⟨rfl, rfl⟩ | ⟨-, hu⟩
      · exact hnw (htr.call_eq ▸ hp.1)
      · exact h.calm i u hu hp
    · exact (SysInv.lastValue_call val id htr (.inl hnw)).trans h.value
    · exact htr.cell_eq_of_not_writes (h.inv.call id t ht).plain hnw
  | migrate =>
    obtain ⟨m₀, hm, r, hr, rfl⟩ := System.migrateStep_eq_some hs
    have hm₀ : m₀ = m := by
      rcases h.inv.migration with hm' | ⟨hm', -⟩
      · exact some.inj (hm.symm.trans hm')
      · rw [hm'] at hm; cases hm
    subst hm₀
    have htr := trans_of_step hr
    have hd : m₀.dropsKey c k = false := hsp m₀ hm
    refine ⟨⟨m', hinv', h.calm, h.value⟩, fun n hn => ?_, h.ringHolds_migrate hv hc htr hd⟩
    rw [← h.value] at hn ⊢
    exact h.inv.move.keeps htr hd hn
  | tick ms =>
    obtain rfl := some.inj hs
    exact ⟨⟨m', hinv', h.calm, h.value⟩,
      hsame (fun n => Shard.object_congr_now (h.inv.noTtl n c hc k) _ _) rfl rfl⟩
  | abandon late => exact hok.elim
  | resume =>
    rw [System.step] at hs
    split_ifs at hs with hidle
    obtain ⟨rec, hrec, rfl⟩ := map_eq_some_iff.mp hs
    exact ⟨⟨m', hinv', h.calm, h.value⟩, hsame (fun _ => rfl) rfl rfl⟩

/-- A node that holds the value has a client: it is an owner, it is about to become one, or its copy
is about to be dropped. -/
theorem mem_clients (hv : mv.Valid) (hc : c ∈ colls) (h : Keeping mv colls val j c k v s m)
    {n : NodeId} (hn : s.world.cell c k n = some v) : n ∈ s.world.cluster.clients := by
  by_cases hroute : n ∈ s.world.cluster.routes (bucketOf k)
  · exact (h.inv.phase.healthy hv h.inv.fixed).clients _ (bucketOf_lt k) n hroute
  · have hstray := h.inv.move.stray c hc k n hroute
    have hjobs := h.inv.move.jobs
    have hph := h.inv.phase
    unfold PhaseInv at hph
    rw [hn] at hstray
    cases hp : m.phase with
    | copying ch jobs =>
      rw [hp] at hstray hph
      rcases hstray with ⟨hnone, -⟩ | ⟨-, hnew, -⟩
      · cases hnone
      · exact hph.1.clients n (.inr (hv.mem_new hnew))
    | dropping ch jobs =>
      rw [hp] at hstray hph hjobs
      rcases hstray with hnone | ⟨job, hjob, hcar⟩
      · cases hnone
      · have hok := hjobs job hjob
        cases job with
        | node n₀ bs =>
          obtain ⟨rfl, hb⟩ := hcar
          exact hph.1.clients _ (.inl (hv.mem_old (hok.2 _ hb).2.1))
        | drop n₀ bs i coll =>
          obtain ⟨rfl, hb, -⟩ := hcar
          exact hph.1.clients _ (.inl (hv.mem_old (hok.1 _ hb).2.1))
    | _ => rw [hp] at hstray; cases hstray

/-- The ring is never empty. -/
theorem ringOwners_ne_nil (hv : mv.Valid) (h : Keeping mv colls val j c k v s m) :
    s.world.cluster.ringOwners k ≠ [] := by
  have hnodes : s.world.cluster.partitioner.nodes ≠ [] ∧ 0 < s.world.cluster.replication := by
    have hperm : ∀ {l : List NodeId}, l.Perm mv.old → l ≠ [] := fun hl =>
      fun hnil => hv.old_ne (nil_perm.mp (hnil ▸ hl))
    rcases h.inv.phase.shape with ⟨cur, cut, hu⟩ | hl | ⟨steps, hcom⟩
    · exact ⟨hperm hu.ring.nodes, hu.ring.replication ▸ clamp_pos ..⟩
    · exact ⟨hperm hl.ring.nodes, hl.ring.replication ▸ clamp_pos ..⟩
    · refine ⟨?_, hcom.replication ▸ clamp_pos ..⟩
      have := hcom.nodes
      split_ifs at this
      · exact hperm this
      · exact this ▸ hv.new_ne
  rw [← length_pos_iff, Cluster.ringOwners, Partitioner.replicaSet_eq,
    Partitioner.length_ownersOfBucket _ _ _ (h.inv.phase.nodup_nodes hv)]
  exact lt_min hnodes.2 (length_pos_iff.mpr hnodes.1)

end Keeping

/-! ### Runs with a reader -/

/-- Every sequence of the reader's steps ends, whatever happens to the world in between, and until it
has returned the reader always has a next step. -/
inductive Finishes {ρ : Type} (read : World St → ρ → NodeId → Option ρ) (returned : ρ → Prop) :
    ρ → Prop
  | intro (pc : ρ) (hnext : returned pc ∨ ∀ w, ∃ next pc', read w pc next = some pc')
      (hstep : ∀ w next pc', read w pc next = some pc' → Finishes read returned pc') :
      Finishes read returned pc

omit [IndexStore St] in
/-- A step that the reader can take in every world and after which it finishes. -/
theorem Finishes.next {ρ : Type} {read : World St → ρ → NodeId → Option ρ} {returned : ρ → Prop}
    {pc : ρ} (h : ∀ w next, ∃ pc', read w pc next = some pc' ∧ Finishes read returned pc') :
    Finishes read returned pc := by
  refine .intro pc (.inr fun w => ⟨"", (h w "").imp fun _ hpc => hpc.1⟩) fun w next pc' hs => ?_
  obtain ⟨pc'', hpc, hfin⟩ := h w next
  exact some.inj (hpc.symm.trans hs) ▸ hfin

/-- The run drops no bucket of the key, and no write of the key is invoked. -/
def Observed.Spares {ρ : Type} (c k : String) (s : Observed St ρ) : ObsLabel → Prop
  | .sys l => s.sys.Permits l ∧ s.sys.Spares c k l
  | .read _ => True

instance {ρ : Type} (c k : String) (s : Observed St ρ) (l : ObsLabel) :
    Decidable (s.Spares c k l) := by
  cases l <;> unfold Observed.Spares <;> infer_instance

/-- What the reader knows survives the steps of the system if it is about the nodes that hold the
value and about the ring. -/
theorem Keeping.observed_run [LawfulStore St] {mv : Move} {colls : List String}
    {val : String → String → Option Value} {j : Option MigrationRecord} {c k : String} {v : Value}
    {ρ : Type} {read : World St → ρ → NodeId → Option ρ} {I : World St → ρ → Prop} (hv : mv.Valid)
    (hc : c ∈ colls)
    (hsys : ∀ w w' pc, (∀ n, w.cell c k n = some v → w'.cell c k n = some v) →
      (w.RingHolds c k v → w'.RingHolds c k v) → I w pc → I w' pc)
    (hread : ∀ s m pc next pc', Keeping mv colls val j c k v s m → I s.world pc →
      read s.world pc next = some pc' → I s.world pc')
    {s : System St} {m : Migration} (h : Keeping mv colls val j c k v s m) {pc : ρ}
    (h0 : I s.world pc) {ls : List ObsLabel} {r : Observed St ρ}
    (hrun : exec (guarded (Observed.step read) (Observed.Spares c k)) ⟨s, pc⟩ ls = some r) :
    I r.sys.world r.pc := by
  refine (exec_guarded_invariant (I := fun r : Observed St ρ =>
    (∃ m, Keeping mv colls val j c k v r.sys m) ∧ I r.sys.world r.pc) ?_ ⟨⟨m, h⟩, h0⟩ hrun).2
  rintro r l r' ⟨⟨m, hm⟩, hI⟩ hok hs
  cases l with
  | sys l =>
    obtain ⟨sys, hsys', rfl⟩ := map_eq_some_iff.mp hs
    obtain ⟨hm', hcell, hring⟩ := hm.step hv hc hok.1 hok.2 hsys'
    exact ⟨hm', hsys _ _ _ hcell hring hI⟩
  | read next =>
    obtain ⟨pc', hpc', rfl⟩ := map_eq_some_iff.mp hs
    exact ⟨⟨m, hm⟩, hread _ m _ next _ hm hI hpc'⟩

/-! ### `mget` -/

namespace MgetPc

/-- The keys that have no node yet. -/
def waiting : MgetPc → List Wanted
  | .routing todo _ => todo
  | .ring key todo _ | .live _ key todo _ => key :: todo
  | _ => []

/-- The keys of groups, each with its node. -/
def ungroup (byNode : List (NodeId × List Wanted)) : List (NodeId × Wanted) :=
  byNode.flatMap fun g => g.2.map fun x => (g.1, x)

/-- The keys that have a node and have not been read. -/
def assigned : MgetPc → List (NodeId × Wanted)
  | .routing _ routed | .ring _ _ routed | .live _ _ _ routed => routed
  | .asking byNode _ => ungroup byNode
  | .calling node wanted byNode _ => wanted.map (fun x => (node, x)) ++ ungroup byNode
  | .returned _ => []

/-- The values read so far, once there are any. -/
def out : MgetPc → Option (List (Option Value))
  | .asking _ out | .calling _ _ _ out | .returned out => some out
  | _ => none

def isReturned : MgetPc → Prop
  | .returned _ => True
  | _ => False

variable {n : NodeId}

theorem mem_ungroup {byNode : List (NodeId × List Wanted)} {x : Wanted} :
    (n, x) ∈ ungroup byNode ↔ ∃ wanted, (n, wanted) ∈ byNode ∧ x ∈ wanted := by
  simp only [ungroup, mem_flatMap, mem_map, Prod.mk.injEq]
  constructor
  · rintro ⟨g, hg, y, hy, rfl, rfl⟩
    exact ⟨g.2, hg, hy⟩
  · rintro ⟨wanted, hg, hx⟩
    exact ⟨(n, wanted), hg, x, hx, rfl, rfl⟩

theorem mem_ungroup_group {routed : List (NodeId × Wanted)} {e : NodeId × Wanted} :
    e ∈ ungroup (SortedMap.group routed).entries ↔ e ∈ routed := by
  rw [← Prod.mk.eta (p := e), mem_ungroup, ← SortedMap.mem_valuesOf]
  constructor
  · rintro ⟨wanted, hg, hx⟩
    rwa [← (SortedMap.mem_group.mp hg).1]
  · intro hx
    exact ⟨_, SortedMap.mem_group.mpr ⟨rfl, ne_nil_of_mem hx⟩, hx⟩

/-- A group is taken out. -/
theorem perm_of_lookup {gs : List (NodeId × List Wanted)} {wanted : List Wanted}
    (h : gs.lookup n = some wanted) : ((n, wanted) :: gs.eraseP (·.1 = n)).Perm gs := by
  obtain ⟨l, l', rfl, hl⟩ := lookup_eq_some_iff.mp h
  have hne : ∀ p ∈ l, ¬(decide (p.1 = n) = true) := by
    intro p hp heq
    have := hl p hp
    simp_all
  rw [eraseP_append_right _ hne, eraseP_cons_of_pos (by simp)]
  exact perm_middle.symm

theorem mem_ungroup_lookup {byNode : List (NodeId × List Wanted)} {n : NodeId}
    {wanted : List Wanted} (h : byNode.lookup n = some wanted) {e : NodeId × Wanted} :
    e ∈ ungroup byNode ↔ e ∈ wanted.map (fun x => (n, x)) ++ ungroup (byNode.eraseP (·.1 = n)) :=
  ((perm_of_lookup h).symm.flatMap_right _).mem_iff

end MgetPc

namespace Mget

/-- What `fill` does when the shard has answered for every key. -/
theorem fill_map (out : List (Option Value)) (wanted : List Wanted) (g : Wanted → Option Value) :
    fill out wanted (wanted.map g) = wanted.foldl (fun out x => out.set x.2 (g x)) out := by
  have hval : ∀ (out : List (Option Value)) (e : Wanted × ℕ), e ∈ wanted.zipIdx →
      out.set e.1.2 (wanted.map g)[e.2]?.join = out.set e.1.2 (g e.1) := by
    intro out e he
    rw [getElem?_map, mem_zipIdx_iff_getElem?.mp he]
    rfl
  rw [fill, foldl_ext _ _ _ hval]
  conv_rhs => rw [← zipIdx_map_fst 0 wanted, foldl_map]

/-- A position gets the value that all its keys have, or keeps it. -/
theorem getElem?_foldl_set {g : Wanted → Option Value} {i : ℕ} {a : Option Value}
    (wanted : List Wanted) : ∀ {out : List (Option Value)}, i < out.length →
      (∀ x ∈ wanted, x.2 = i → g x = a) → ((∃ x ∈ wanted, x.2 = i) ∨ out[i]? = some a) →
      (wanted.foldl (fun out x => out.set x.2 (g x)) out)[i]? = some a := by
  induction wanted with
  | nil =>
    intro out _ _ h
    rcases h with ⟨x, hx, -⟩ | h
    · exact absurd hx not_mem_nil
    · exact h
  | cons x wanted ih =>
    intro out hi hall h
    rw [foldl_cons]
    refine ih (by rwa [length_set]) (fun y hy => hall y (mem_cons_of_mem _ hy)) ?_
    by_cases hx : x.2 = i
    · refine .inr ?_
      rw [hx, getElem?_set_self hi, hall x (mem_cons_self ..) hx]
    · rw [getElem?_set_ne hx]
      refine h.imp_left ?_
      rintro ⟨y, hy, hyi⟩
      rcases mem_cons.mp hy with rfl | hy
      · exact absurd hyi hx
      · exact ⟨y, hy, hyi⟩

theorem length_foldl_set (g : Wanted → Option Value) (wanted : List Wanted) :
    ∀ out : List (Option Value),
      (wanted.foldl (fun out x => out.set x.2 (g x)) out).length = out.length := by
  induction wanted with
  | nil => exact fun _ => rfl
  | cons x wanted ih =>
    intro out
    rw [foldl_cons, ih, length_set]

section Finishes

variable (call : Mget)

/-- The loop over the nodes ends: each step takes out a group. -/
theorem finishes_asking : ∀ (byNode : List (NodeId × List Wanted)) (out : List (Option Value)),
    Finishes (fun w : World St => call.step w) MgetPc.isReturned (.asking byNode out)
  | [], out =>
    .next fun _ _ => ⟨_, rfl, .intro _ (.inl trivial) fun _ _ _ h => by cases h⟩
  | g :: gs, out => by
    refine .intro _ (.inr fun w => ⟨g.1, ?_⟩) fun w next pc' h => ?_
    · change ∃ pc', ((g :: gs).lookup g.1).map _ = some pc'
      rw [lookup_cons_self]
      exact ⟨_, rfl⟩
    · obtain ⟨wanted, hlook, rfl⟩ := map_eq_some_iff.mp h
      have hmem : ∃ e ∈ g :: gs, decide (e.1 = next) = true := by
        obtain ⟨l, l', hl, -⟩ := lookup_eq_some_iff.mp hlook
        exact ⟨(next, wanted), by rw [hl]; simp, by simp⟩
      have hlt : ((g :: gs).eraseP (·.1 = next)).length < (g :: gs).length := by
        obtain ⟨e, he, hen⟩ := hmem
        rw [length_eraseP_of_mem he hen]
        exact Nat.sub_lt (Nat.succ_pos _) Nat.one_pos
      dsimp only
      split_ifs
      · exact .next fun _ _ => ⟨_, rfl, finishes_asking _ _⟩
      · exact finishes_asking _ _
  termination_by byNode => byNode.length
  decreasing_by all_goals exact hlt

/-- The loop over the keys ends. -/
theorem finishes_routing (todo : List Wanted) : ∀ routed : List (NodeId × Wanted),
    Finishes (fun w : World St => call.step w) MgetPc.isReturned (.routing todo routed) := by
  induction todo with
  | nil => exact fun routed => .next fun _ _ => ⟨_, rfl, call.finishes_asking _ _⟩
  | cons key todo ih =>
    intro routed
    have hlive : ∀ owners, Finishes (fun w : World St => call.step w) MgetPc.isReturned
        (.live owners key todo routed) := by
      refine fun owners => .next fun w _ => ?_
      rw [step]
      cases owners.find? (· ∉ w.cluster.down) with
      | some owner | none => exact ⟨_, rfl, ih _⟩
    have hring : Finishes (fun w : World St => call.step w) MgetPc.isReturned
        (.ring key todo routed) := .next fun _ _ => ⟨_, rfl, hlive _⟩
    refine .next fun w _ => ?_
    rw [step]
    cases w.cluster.overlayOwners key.1 with
    | some owners => exact ⟨_, rfl, hlive owners⟩
    | none => exact ⟨_, rfl, hring⟩

end Finishes

/-- Where `k` is the key that is being routed, the owners that it will find hold the value `v`. -/
def Routes (call : Mget) (k : String) (v : Value) (w : World St) : MgetPc → Prop
  | .ring key _ _ => key.1 = k → w.RingHolds call.coll k v
  | .live owners key _ _ => key.1 = k → owners ≠ [] ∧ ∀ n ∈ owners, w.cell call.coll k n = some v
  | _ => True

/-- What an `mget` knows about the key `k` with the value `v`: wherever `k` is wanted it has no node
yet, or a node that holds the value, or its value. -/
structure Inv (call : Mget) (k : String) (v : Value) (w : World St) (pc : MgetPc) : Prop where
  wanted : ∀ x, x ∈ pc.waiting ∨ (∃ n, (n, x) ∈ pc.assigned) → call.keys[x.2]? = some x.1
  length : ∀ out, pc.out = some out → out.length = call.keys.length
  covered : ∀ i, call.keys[i]? = some k → (k, i) ∈ pc.waiting ∨
    (∃ n, (n, (k, i)) ∈ pc.assigned) ∨ ∃ out, pc.out = some out ∧ out[i]? = some (some v)
  assigned : ∀ n i, (n, (k, i)) ∈ pc.assigned → w.cell call.coll k n = some v
  routes : Routes call k v w pc

namespace Inv

variable {call : Mget} {k : String} {v : Value} {w : World St} {pc : MgetPc}

theorem start : Inv call k v w call.start where
  wanted := by
    rintro x (hx | ⟨n, hx⟩)
    · exact mem_zipIdx_iff_getElem?.mp hx
    · exact absurd hx not_mem_nil
  length := fun _ h => by cases h
  covered := fun i hi => .inl (mem_zipIdx_iff_getElem?.mpr hi)
  assigned := fun _ _ h => absurd h not_mem_nil
  routes := trivial

theorem mono {w' : World St}
    (hcell : ∀ n, w.cell call.coll k n = some v → w'.cell call.coll k n = some v)
    (hring : w.RingHolds call.coll k v → w'.RingHolds call.coll k v) (h : Inv call k v w pc) :
    Inv call k v w' pc where
  wanted := h.wanted
  length := h.length
  covered := h.covered
  assigned := fun n i hn => hcell n (h.assigned n i hn)
  routes := by
    have hroutes := h.routes
    cases pc with
    | ring key todo routed => exact fun hk => hring (hroutes hk)
    | live owners key todo routed =>
      exact fun hk => (hroutes hk).imp_right fun hall n hn => hcell n (hall n hn)
    | _ => trivial

variable {pc' : MgetPc} {key : Wanted} {owners : List NodeId} {todo : List Wanted}
  {routed : List (NodeId × Wanted)}

/-- The invariant where the reader is between two routings or in the loop over the nodes, from a
position with the same keys. -/
theorem of_same {pc' : MgetPc} (h : Inv call k v w pc) (hw : ∀ x, x ∈ pc'.waiting ↔ x ∈ pc.waiting)
    (ha : ∀ e, e ∈ pc'.assigned ↔ e ∈ pc.assigned) (ho : pc.out = none ∨ pc'.out = pc.out)
    (hlen : ∀ out, pc'.out = some out → out.length = call.keys.length)
    (hroutes : Routes call k v w pc') : Inv call k v w pc' where
  wanted := by
    intro x hx
    refine h.wanted x ?_
    rwa [hw, exists_congr fun n => ha (n, x)] at hx
  length := hlen
  covered := by
    intro i hi
    rw [hw, exists_congr fun n => ha (n, (k, i))]
    refine (h.covered i hi).imp_right (Or.imp_right ?_)
    rintro ⟨out, hout, hval⟩
    rcases ho with ho | ho
    · rw [ho] at hout; cases hout
    · exact ⟨out, ho.trans hout, hval⟩
  assigned := fun n i hn => h.assigned n i ((ha _).mp hn)
  routes := hroutes

/-- The key at the head gets its node. -/
theorem route {owners : List NodeId} {key : Wanted} {todo : List Wanted}
    {routed : List (NodeId × Wanted)} (h : Inv call k v w (.live owners key todo routed))
    {owner : NodeId} (hmem : owner ∈ owners) :
    Inv call k v w (.routing todo (routed ++ [(owner, key)])) where
  wanted := by
    intro x hx
    refine h.wanted x ?_
    rcases hx with hx | ⟨n, hx⟩
    · exact .inl (mem_cons_of_mem _ hx)
    · rcases mem_append.mp hx with hx | hx
      · exact .inr ⟨n, hx⟩
      · obtain ⟨-, rfl⟩ := Prod.mk.inj (mem_singleton.mp hx)
        exact .inl (mem_cons_self ..)
  length := fun _ hout => by cases hout
  covered := by
    intro i hi
    rcases h.covered i hi with hx | ⟨n, hx⟩ | ⟨out, hout, -⟩
    · rcases mem_cons.mp hx with rfl | hx
      · exact .inr (.inl ⟨owner, mem_append_right _ (mem_singleton_self _)⟩)
      · exact .inl hx
    · exact .inr (.inl ⟨n, mem_append_left _ hx⟩)
    · cases hout
  assigned := by
    intro n i hx
    rcases mem_append.mp hx with hx | hx
    · exact h.assigned n i hx
    · obtain ⟨rfl, rfl⟩ := Prod.mk.inj (mem_singleton.mp hx)
      exact (h.routes rfl).2 n hmem
  routes := trivial

/-- The answers of a shard are filled in. -/
theorem answer {node : NodeId} {wanted : List Wanted} {byNode : List (NodeId × List Wanted)}
    {out : List (Option Value)} (h : Inv call k v w (.calling node wanted byNode out)) :
    Inv call k v w (.asking byNode
      (fill out wanted ((w.shards node).mget w.now call.coll (wanted.map Prod.fst)))) := by
  have hvals : (w.shards node).mget w.now call.coll (wanted.map Prod.fst)
      = wanted.map fun x => w.cell call.coll x.1 node := by
    rw [Shard.mget, mget, map_map]
    rfl
  have hlen := h.length out rfl
  rw [hvals, fill_map]
  constructor
  · rintro x (hx | ⟨n, hx⟩)
    · exact absurd hx not_mem_nil
    · exact h.wanted x (.inr ⟨n, mem_append_right _ hx⟩)
  · rintro _ ⟨⟩
    rw [length_foldl_set, hlen]
  · intro i hi
    -- whatever is wanted at position `i` is `k`, and the node holds its value
    have hval : ∀ x ∈ wanted, x.2 = i → w.cell call.coll x.1 node = some v := by
      rintro ⟨k', i'⟩ hx rfl
      have hmem : (node, (k', i')) ∈ MgetPc.assigned (.calling node wanted byNode out) :=
        mem_append_left _ (mem_map.mpr ⟨_, hx, rfl⟩)
      obtain rfl : k = k' := some.inj (hi.symm.trans (h.wanted _ (.inr ⟨node, hmem⟩)))
      exact h.assigned node _ hmem
    have hlt : i < out.length := by
      rw [hlen]
      exact (List.getElem?_eq_some_iff.mp hi).1
    rcases h.covered i hi with hx | ⟨n, hx⟩ | ⟨out', hout, hvi⟩
    · exact absurd hx List.not_mem_nil
    · rcases mem_append.mp hx with hx | hx
      · obtain ⟨x, hx, heq⟩ := mem_map.mp hx
        obtain ⟨-, rfl⟩ := Prod.mk.inj heq
        exact .inr (.inr ⟨_, rfl, getElem?_foldl_set wanted hlt hval (.inl ⟨_, hx, rfl⟩)⟩)
      · exact .inr (.inl ⟨n, hx⟩)
    · obtain rfl := some.inj hout
      exact .inr (.inr ⟨_, rfl, getElem?_foldl_set wanted hlt hval (.inr hvi)⟩)
  · exact fun n i hx => h.assigned n i (mem_append_right _ hx)
  · trivial

/-- The key at the head is passed over when it has no owner. -/
theorem pass {owners : List NodeId} {key : Wanted} {todo : List Wanted}
    {routed : List (NodeId × Wanted)} (h : Inv call k v w (.live owners key todo routed))
    (hnil : owners = []) : Inv call k v w (.routing todo routed) where
  wanted := by
    intro x hx
    exact h.wanted x (hx.imp_left (mem_cons_of_mem _))
  length := fun _ hout => by cases hout
  covered := by
    intro i hi
    refine (h.covered i hi).imp_left fun hx => ?_
    rcases mem_cons.mp hx with rfl | hx
    · exact absurd hnil (h.routes rfl).1
    · exact hx
  assigned := h.assigned
  routes := trivial

/-- A node without a client is passed over: it holds no value of `k`. -/
theorem skip {byNode : List (NodeId × List Wanted)} {out : List (Option Value)} {n : NodeId}
    {wanted : List Wanted} (h : Inv call k v w (.asking byNode out))
    (hlook : byNode.lookup n = some wanted) (hn : w.cell call.coll k n ≠ some v) :
    Inv call k v w (.asking (byNode.eraseP (·.1 = n)) out) := by
  have hmem := @MgetPc.mem_ungroup_lookup byNode n wanted hlook
  constructor
  · rintro x (hx | ⟨n', hx⟩)
    · exact absurd hx not_mem_nil
    · exact h.wanted x (.inr ⟨n', hmem.mpr (mem_append_right _ hx)⟩)
  · exact h.length
  · intro i hi
    rcases h.covered i hi with hx | ⟨n', hx⟩ | hout
    · exact absurd hx not_mem_nil
    · rcases mem_append.mp (hmem.mp hx) with hx' | hx'
      · obtain ⟨y, -, heq⟩ := mem_map.mp hx'
        obtain ⟨rfl, -⟩ := Prod.mk.inj heq
        exact absurd (h.assigned n i hx) hn
      · exact .inr (.inl ⟨n', hx'⟩)
    · exact .inr (.inr hout)
  · exact fun n' i hx => h.assigned n' i (hmem.mpr (mem_append_right _ hx))
  · trivial

/-- Every step of the reader keeps the invariant. -/
theorem step {mv : Move} {colls : List String} {val : String → String → Option Value}
    {j : Option MigrationRecord} {s : System St} {m : Migration} (hv : mv.Valid)
    (hc : call.coll ∈ colls) (hst : Keeping mv colls val j call.coll k v s m)
    (h : Inv call k v s.world pc) {next : NodeId} (hs : call.step s.world pc next = some pc') :
    Inv call k v s.world pc' := by
  cases pc with
  | routing todo routed =>
    cases todo with
    | nil =>
      obtain rfl := some.inj hs
      refine h.of_same (fun _ => Iff.rfl) (fun _ => MgetPc.mem_ungroup_group) (.inl rfl) ?_ trivial
      rintro _ ⟨⟩
      exact length_replicate
    | cons key todo =>
      dsimp only [Mget.step] at hs
      cases ho : s.world.cluster.overlayOwners key.1 with
      | some owners =>
        rw [ho] at hs
        obtain rfl := some.inj hs
        refine h.of_same (fun _ => Iff.rfl) (fun _ => Iff.rfl) (.inl rfl) nofun ?_
        rintro rfl
        rw [Cluster.overlayOwners_eq_some ho]
        exact ⟨(hst.inv.phase.healthy hv hst.inv.fixed).nonempty _ (bucketOf_lt _),
          fun n hn => hst.hold hc hn⟩
      | none =>
        rw [ho] at hs
        obtain rfl := some.inj hs
        refine h.of_same (fun _ => Iff.rfl) (fun _ => Iff.rfl) (.inl rfl) nofun ?_
        rintro rfl n hn
        refine hst.hold hc ?_
        rwa [Cluster.routes_of_overlay_none (Cluster.overlayOwners_eq_none.mp ho)]
  | ring key todo routed =>
    obtain rfl := some.inj hs
    refine h.of_same (fun _ => Iff.rfl) (fun _ => Iff.rfl) (.inl rfl) nofun ?_
    rintro rfl
    exact ⟨hst.ringOwners_ne_nil hv, h.routes rfl⟩
  | live owners key todo routed =>
    dsimp only [Mget.step] at hs
    cases hf : owners.find? (· ∉ s.world.cluster.down) with
    | some owner =>
      rw [hf] at hs
      obtain rfl := some.inj hs
      exact h.route (mem_of_find?_eq_some hf)
    | none =>
      rw [hf] at hs
      obtain rfl := some.inj hs
      refine h.pass (eq_nil_iff_forall_not_mem.mpr fun n hn => ?_)
      have hdown := find?_eq_none.mp hf n hn
      rw [hst.inv.fixed.down] at hdown
      simp at hdown
  | asking byNode out =>
    cases byNode with
    | nil =>
      obtain rfl := some.inj hs
      exact h.of_same (fun _ => Iff.rfl) (fun _ => Iff.rfl) (.inr rfl) h.length trivial
    | cons g gs =>
      obtain ⟨wanted, hlook, rfl⟩ := map_eq_some_iff.mp hs
      dsimp only
      split_ifs with hcl
      · exact h.of_same (fun _ => Iff.rfl) (fun _ => (MgetPc.mem_ungroup_lookup hlook).symm)
          (.inr rfl) h.length trivial
      · exact h.skip hlook fun hcell => hcl (hst.mem_clients hv hc hcell)
  | calling node wanted byNode out =>
    obtain rfl := some.inj hs
    exact h.answer
  | returned out => cases hs

end Inv

end Mget

/-! ### `scan_range` -/

def ScanPc.isReturned : ScanPc → Prop
  | .returned _ _ => True
  | _ => False

namespace ScanRange

/-- The merged answers tell about `k`: they have it, or `limit` smaller keys. -/
def Captured (limit : ℕ) (merged : Finset String) (k : String) : Prop :=
  k ∈ merged ∨ limit ≤ (merged.filter (· < k)).card

variable {k : String} {limit : ℕ} {v : Value} (call : ScanRange)

theorem Captured.mono {merged merged' : Finset String} (hsub : merged ⊆ merged')
    (h : Captured limit merged k) : Captured limit merged' k := by
  refine h.imp (fun hk => hsub hk) fun hmany => hmany.trans (Finset.card_le_card ?_)
  exact Finset.filter_subset_filter _ hsub

/-- The page holds every key that the answers tell about and that is not beyond the page. -/
theorem Captured.mem_page {merged : Finset String} (hpos : 0 < limit) (h : Captured limit merged k)
    (hin : (∃ l ∈ (mergePage limit merged).1.getLast?, k ≤ l) ∨ (mergePage limit merged).2 = none) :
    k ∈ (mergePage limit merged).1 := by
  rw [mergePage] at hin ⊢
  dsimp only at hin ⊢
  by_contra hk
  have hmany : limit ≤ ((merged.sort (· ≤ ·)).filter (· < k)).length := by
    rw [length_filter_sort]
    rw [mem_take_sort, not_and, not_lt] at hk
    exact h.elim hk id
  have hlen : ((merged.sort (· ≤ ·)).take limit).length = limit := by
    have := length_filter_le (· < k) (merged.sort (· ≤ ·))
    rw [length_take]
    omega
  rcases hin with ⟨l, hl, hkl⟩ | hnone
  · have hlt := lt_of_mem_take (pairwise_lt_sort merged) hmany (mem_of_getLast? hl)
    exact absurd hkl (not_le.mpr hlt)
  · -- the page is full, so it has a cursor
    rw [cursor, if_pos hlen.ge, getLast?_eq_none_iff] at hnone
    rw [hnone] at hlen
    exact absurd hlen.symm (Nat.pos_iff_ne_zero.mp hpos)

/-- A shard that holds the key answers with it or with `limit` smaller keys. -/
theorem captured_answer [LawfulCells St] {w : World St} {n : NodeId}
    (hcap : call.limit ≤ scanCap ∨ call.remote = ∅) (hafter : ∀ a ∈ call.after, a < k)
    (hin : InBounds call.start call.stop k) (hn : w.cell call.coll k n = some v) :
    Captured call.limit (call.answer w n) k := by
  have hlimit : (if n ∈ call.remote then min call.limit scanCap else call.limit) = call.limit := by
    rcases hcap with hcap | hcap
    · rw [min_eq_left hcap, ite_self]
    · rw [hcap, if_neg (Finset.notMem_empty n)]
  have hkey : k ∈ keysIn w.now (w.shards n).store call.coll call.start call.stop := by
    refine (mem_keysIn ..).mpr ⟨?_, hin⟩
    rw [Option.isSome_iff_exists]
    exact ⟨v, hn⟩
  have hsorted := pairwise_keysIn w.now (w.shards n).store call.coll call.start call.stop
  rw [answer, hlimit, Shard.scanRange, scanRange_eq, page, Captured, mem_toFinset]
  exact mem_take_or_smaller (hsorted.filter _) (mem_above.mpr ⟨hkey, hafter⟩) _

/-- The loop over the clients ends. -/
theorem finishes_asking (clients : Finset NodeId) : ∀ merged : Finset String,
    Finishes (fun w : World St => call.step w) ScanPc.isReturned (.asking clients merged) := by
  induction clients using Finset.strongInduction with
  | H clients ih =>
    intro merged
    by_cases hempty : clients = ∅
    · refine .intro _ (.inr fun w => ⟨"", _, if_pos hempty⟩) fun w next pc' h => ?_
      obtain rfl := some.inj ((if_pos hempty).symm.trans h)
      exact .intro _ (.inl trivial) fun w next pc' h => by cases h
    · have hstep : ∀ (w : World St) next, call.step w (.asking clients merged) next
          = if next ∈ clients then
              if next ∈ w.cluster.down then some (.asking (clients.erase next) merged)
              else some (.calling next (clients.erase next) merged)
            else none := fun w next => if_neg hempty
      refine .intro _ (.inr fun w => ?_) fun w next pc' h => ?_
      · obtain ⟨n, hn⟩ := Finset.nonempty_iff_ne_empty.mpr hempty
        refine ⟨n, ?_⟩
        rw [hstep, if_pos hn]
        split_ifs
        · exact ⟨_, rfl⟩
        · exact ⟨_, rfl⟩
      · rw [hstep] at h
        split_ifs at h with hn hdown
        · obtain rfl := some.inj h
          exact ih _ (Finset.erase_ssubset hn) merged
        · obtain rfl := some.inj h
          exact .next fun _ _ => ⟨_, rfl, ih _ (Finset.erase_ssubset hn) _⟩

/-- `scan_range` returns. -/
theorem finishes : Finishes (fun w : World St => call.step w) ScanPc.isReturned .starting :=
  .next fun _ _ => ⟨_, rfl, call.finishes_asking _ _⟩

/-- What a `scan_range` knows about the key `k` with the value `v`: the answers tell about it, or a
client that has not been asked holds it. -/
def Inv (call : ScanRange) (k : String) (v : Value) (w : World St) : ScanPc → Prop
  | .starting => True
  | .asking clients merged =>
    Captured call.limit merged k ∨ ∃ n ∈ clients, w.cell call.coll k n = some v
  | .calling node clients merged =>
    Captured call.limit merged k ∨ ∃ n ∈ insert node clients, w.cell call.coll k n = some v
  | .returned page cursor => (∃ l ∈ page.getLast?, k ≤ l) ∨ cursor = none → k ∈ page

theorem Inv.mono {call : ScanRange} {w w' : World St} {pc : ScanPc}
    (hcell : ∀ n, w.cell call.coll k n = some v → w'.cell call.coll k n = some v)
    (h : Inv call k v w pc) : Inv call k v w' pc := by
  cases pc with
  | starting => trivial
  | asking clients merged | calling node clients merged =>
    exact h.imp_right fun ⟨n, hn, hval⟩ => ⟨n, hn, hcell n hval⟩
  | returned page cursor => exact h

/-- Every step of the reader keeps the invariant. -/
theorem Inv.step [LawfulStore St] {call : ScanRange} {mv : Move} {colls : List String}
    {val : String → String → Option Value} {j : Option MigrationRecord} {s : System St}
    {m : Migration} {pc pc' : ScanPc} {next : NodeId} (hv : mv.Valid) (hc : call.coll ∈ colls)
    (hst : Keeping mv colls val j call.coll k v s m) (hpos : 0 < call.limit)
    (hcap : call.limit ≤ scanCap ∨ call.remote = ∅) (hafter : ∀ a ∈ call.after, a < k)
    (hin : InBounds call.start call.stop k) (h : Inv call k v s.world pc)
    (hs : call.step s.world pc next = some pc') : Inv call k v s.world pc' := by
  cases pc with
  | starting =>
    -- the owners are among the clients
    obtain rfl := some.inj hs
    have hh := hst.inv.phase.healthy hv hst.inv.fixed
    obtain ⟨n, hn⟩ := exists_mem_of_ne_nil _ (hh.nonempty _ (bucketOf_lt k))
    exact .inr ⟨n, hh.clients _ (bucketOf_lt k) n hn, hst.hold hc hn⟩
  | asking clients merged =>
    rw [ScanRange.step] at hs
    dsimp only at hs
    split_ifs at hs with hempty hn hdown
    · obtain rfl := some.inj hs
      refine Captured.mem_page hpos (h.resolve_right ?_)
      rintro ⟨n, hn, -⟩
      rw [hempty] at hn
      exact Finset.notMem_empty n hn
    · rw [hst.inv.fixed.down] at hdown
      exact absurd hdown (Finset.notMem_empty next)
    · obtain rfl := some.inj hs
      rw [Inv, Finset.insert_erase hn]
      exact h
  | calling node clients merged =>
    obtain rfl := some.inj hs
    rcases h with h | ⟨n, hn, hval⟩
    · exact .inl (h.mono Finset.subset_union_left)
    · rcases Finset.mem_insert.mp hn with rfl | hn
      · exact .inl ((call.captured_answer hcap hafter hin hval).mono Finset.subset_union_right)
      · exact .inr ⟨n, hn, hval⟩
  | returned page cursor => cases hs

end ScanRange

/-! ### Both reads -/

/-- **Batch reads find what the migration leaves in place.**  A batch read that starts in any state of
a rebalance, and during which no step of the migration drops the bucket of `k` from the read
collection, finds `k` if the key is present and no write of it is pending or invoked: `mget` returns
its value, and `scan_range` lists it unless it is beyond the page.  A page limit is at least `1`, and
at most the cap of the shards if any of them is reached over the network. -/
theorem batch_reads_find_key [LawfulStore St] {val : String → String → Option Value} {w : World St}
    {new : List NodeId} (h : Rebalanceable val w new) (hne : w.cluster.partitioner.nodes ≠ [])
    {stopAfter : Option ℕ} {before : List SysLabel} {s : System St}
    (hbefore : exec (guarded (System.step fun _ => .ok) System.Permits)
      (System.begin w w.cluster.memberIds new stopAfter) before = some s)
    {coll k : String} {v : Value} (hcoll : coll ∈ w.cluster.colls)
    (hcalm : ∀ t ∈ s.calls, ¬t.PendingOn coll k) (hval : lastValue val s.trace coll k = some v) :
    (∀ keys : List String, Finishes (fun w : World St => Mget.step ⟨coll, keys⟩ w) MgetPc.isReturned
        (Mget.start ⟨coll, keys⟩) ∧
      ∀ ls s' out, exec (guarded (Observed.step (Mget.step ⟨coll, keys⟩)) (Observed.Spares coll k))
        ⟨s, Mget.start ⟨coll, keys⟩⟩ ls = some ⟨s', .returned out⟩ →
        ∀ i : ℕ, keys[i]? = some k → out[i]? = some (some v)) ∧
    ∀ call : ScanRange, call.coll = coll → 0 < call.limit →
      (call.limit ≤ scanCap ∨ call.remote = ∅) →
      Finishes (fun w : World St => call.step w) ScanPc.isReturned .starting ∧
      ∀ ls s' page cursor, exec (guarded (Observed.step call.step) (Observed.Spares coll k))
        ⟨s, .starting⟩ ls = some ⟨s', .returned page cursor⟩ →
        (∀ a ∈ call.after, a < k) → InBounds call.start call.stop k →
        (∃ l ∈ page.getLast?, k ≤ l) ∨ cursor = none → k ∈ page := by
  obtain ⟨m, hinv, -⟩ := h.sysInv_run hne hbefore
  have hv := h.valid hne
  have hsteady : Keeping (w.moveTo new) w.cluster.colls val w.cluster.journal coll k v s m :=
    ⟨hinv, fun i t ht => hcalm t (mem_of_getElem? ht), hval⟩
  refine ⟨fun keys => ⟨Mget.finishes_routing _ _ _, fun ls s' out hrun i hi => ?_⟩, ?_⟩
  · have hend := hsteady.observed_run (I := Mget.Inv ⟨coll, keys⟩ k v) hv hcoll
      (fun _ _ _ hcell hring hI => hI.mono hcell hring)
      (fun _ _ _ _ _ hst hI hs => hI.step hv hcoll hst hs) Mget.Inv.start hrun
    rcases hend.covered i hi with hx | ⟨n, hx⟩ | ⟨out', hout, hvi⟩
    · exact absurd hx not_mem_nil
    · exact absurd hx not_mem_nil
    · obtain rfl := Option.some.inj hout
      exact hvi
  · rintro call rfl hpos hcap
    refine ⟨call.finishes, fun ls s' page cursor hrun hafter hin => ?_⟩
    exact hsteady.observed_run (I := ScanRange.Inv call k v) hv hcoll
      (fun _ _ _ hcell _ hI => hI.mono hcell)
      (fun _ _ _ _ _ hst hI hs => hI.step hv hcoll hst hpos hcap hafter hin hs)
      (show ScanRange.Inv call k v s.world .starting from trivial) hrun

/-- What an `mget` has returned. -/
def MgetPc.result : MgetPc → Option (List (Option Value))
  | .returned out => some out
  | _ => none

theorem MgetPc.result_eq_some {pc : MgetPc} {out : List (Option Value)}
    (h : pc.result = some out) : pc = .returned out := by
  cases pc with
  | returned out' => exact congrArg _ (some.inj h)
  | _ => cases h

/-- Between the routing of `x` and the read of its node the migration takes its next step. -/
def spared : List ObsLabel :=
  List.replicate 5 (.read "") ++ .sys .migrate :: List.replicate 3 (.read "a")

theorem batch_reads_find_key_oneEntry : ∃ s s',
    exec (guarded (System.step fun _ => .ok) System.Permits)
      (System.begin oneEntry ["a"] ["a", "b"] none) [.migrate] = some s ∧
    exec (guarded (Observed.step (Mget.step ⟨"kv", ["y", "x"]⟩)) (Observed.Spares "kv" "x"))
      ⟨s, Mget.start ⟨"kv", ["y", "x"]⟩⟩ spared = some ⟨s', .returned [none, some (.int 1)]⟩ ∧
    [none, some (Value.int 1)][1]? = some (some (.int 1)) := by
  have hstart : (exec (guarded (System.step fun _ => .ok) System.Permits)
      (System.begin oneEntry ["a"] ["a", "b"] none) [.migrate]).map
        (fun s => (s.calls, s.trace)) = some ([], []) := by
    decide +kernel
  have hread : ((exec (guarded (System.step fun _ => .ok) System.Permits)
      (System.begin oneEntry ["a"] ["a", "b"] none) [.migrate]).bind fun s =>
        exec (guarded (Observed.step (Mget.step ⟨"kv", ["y", "x"]⟩)) (Observed.Spares "kv" "x"))
          ⟨s, Mget.start ⟨"kv", ["y", "x"]⟩⟩ spared).bind (fun r => r.pc.result)
      = some [none, some (.int 1)] := by
    decide +kernel
  obtain ⟨s, hs, hlog⟩ := Option.map_eq_some_iff.mp hstart
  obtain ⟨hcalls, htrace⟩ := Prod.mk.inj hlog
  rw [hs] at hread
  obtain ⟨⟨s', pc⟩, hrun, hpc⟩ := Option.bind_eq_some_iff.mp hread
  obtain rfl := MgetPc.result_eq_some hpc
  refine ⟨s, s', hs, hrun, ?_⟩
  have hcalm : ∀ t ∈ s.calls, ¬t.PendingOn "kv" "x" := by simp [hcalls]
  have hval : lastValue oneEntryVal s.trace "kv" "x" = some (.int 1) := by rw [htrace]; rfl
  exact ((batch_reads_find_key rebalanceable_oneEntry (by decide) hs (by decide) hcalm hval).1
    ["y", "x"]).2 spared s' _ hrun 1 rfl

/-! ### Reads that miss a key -/

/-- The steps of a migration, seen from a reader that does not move. -/
theorem exec_migrate_of_steps {ρ : Type} (read : World St → ρ → NodeId → Option ρ) (pc : ρ)
    {a b : World St × Migration} (h : Migration.Steps (fun _ => .ok) a b) :
    ∃ n, exec (Observed.step read) ⟨⟨a.1, [], some a.2, []⟩, pc⟩
      (List.replicate n (.sys .migrate)) = some ⟨⟨b.1, [], some b.2, []⟩, pc⟩ := by
  refine exec_replicate_of_steps (f := fun a : World St × Migration =>
    (⟨⟨a.1, [], some a.2, []⟩, pc⟩ : Observed St ρ)) (fun a b hab => ?_) h
  rw [Observed.step, System.step_migrate hab]
  rfl

/-- A reader that takes some steps, lets a whole rebalance pass and goes on. -/
theorem exec_rebalance {ρ : Type} {read : World MemoryStore → ρ → NodeId → Option ρ}
    {pc₀ pc₁ pc₂ : ρ} {first last : List ObsLabel}
    (hfirst : exec (Observed.step read) ⟨System.begin oneEntry ["a"] ["a", "b"] none, pc₀⟩ first
      = some ⟨System.begin oneEntry ["a"] ["a", "b"] none, pc₁⟩)
    (hlast : ∀ m, exec (Observed.step read) ⟨⟨grown, [], some m, []⟩, pc₁⟩ last
      = some ⟨⟨grown, [], some m, []⟩, pc₂⟩) :
    ∃ n m, exec (Observed.step read) ⟨System.begin oneEntry ["a"] ["a", "b"] none, pc₀⟩
      (first ++ (List.replicate n (.sys .migrate) ++ last)) = some ⟨⟨grown, [], some m, []⟩, pc₂⟩ := by
  obtain ⟨m, hsteps, -⟩ := exists_finished (fun _ => .ok) oneEntry
    (start oneEntry.cluster.memberIds ["a", "b"] ∅ none) fun b => rfl
  rw [finish_start] at hsteps
  obtain ⟨n, hn⟩ := exec_migrate_of_steps read pc₁ hsteps
  refine ⟨n, m, ?_⟩
  rw [exec_append, hfirst, bind_some, exec_append]
  rw [show oneEntry.cluster.memberIds = ["a"] from rfl, grown_eq] at hn
  change (exec (Observed.step read) ⟨⟨oneEntry, [], some (start ["a"] ["a", "b"] ∅ none),
    []⟩, pc₁⟩ _).bind _ = _
  rw [hn]
  exact hlast m

/-- After the rebalance `b` holds the entry and `a` holds nothing. -/
theorem grown_cells : grown.cell "kv" "x" "b" = some (.int 1) ∧
    ∀ k, grown.cell "kv" k "a" = none := by
  have hcolls : "kv" ∈ grown.cluster.colls := by
    obtain ⟨m, hm, -⟩ := exists_sysInv_grown
    have hc : grown.cluster.colls = oneEntry.cluster.colls := hm.fixed.colls
    rw [hc]
    decide
  refine ⟨?_, fun k => ?_⟩
  · obtain ⟨m, hm, hstop, hfin⟩ := exists_sysInv_grown
    have howner : (oneEntry.moveTo ["a", "b"]).newOwners (bucketOf "x") = ["b"] := by decide +kernel
    have hmem : "b" ∈ grown.cluster.owners "x" :=
      ((hm.handedOver (rebalanceable_oneEntry.valid (by decide)) hstop hfin
        (mem_singleton.mpr rfl) "x").1 "b").mpr (by rw [howner]; decide)
    rw [grown_atRest.cells "kv" hcolls, if_pos hmem]
    rfl
  · by_cases hk : k = "x"
    · rw [hk]
      exact grown_cell
    · rw [grown_atRest.cells "kv" hcolls]
      simp [oneEntryVal, hk]

theorem grown_client_a : "a" ∈ grown.cluster.clients :=
  grown_atRest.clients "a" (by rw [grown_nodes]; decide)

/-- A scan of all keys. -/
def scanAll : ScanRange := ⟨∅, "kv", none, none, none, 100⟩

/-- A shard without keys answers with none. -/
theorem answer_scanAll_eq_empty {w : World MemoryStore} {n : NodeId}
    (h : ∀ k, w.cell "kv" k n = none) : scanAll.answer w n = ∅ := by
  rw [ScanRange.answer, toFinset_eq_empty_iff, Shard.scanRange, scanRange_eq, page]
  refine eq_nil_iff_forall_not_mem.mpr fun k hk => ?_
  have hkey := (mem_above.mp (mem_of_mem_take hk)).1
  have hsome := ((mem_keysIn ..).mp hkey).1
  have hnone : getObject w.now (w.shards n).store "kv" k = none := h k
  rw [show scanAll.coll = "kv" from rfl, hnone] at hsome
  cases hsome

/-- An `mget` of `x` that has routed it to `a`. -/
def routedToA : MgetPc := .asking [("a", [("x", 0)])] [none]

theorem exec_route_oneEntry : exec (Observed.step (Mget.step ⟨"kv", ["x"]⟩))
    ⟨System.begin oneEntry ["a"] ["a", "b"] none, Mget.start ⟨"kv", ["x"]⟩⟩
    (List.replicate 4 (.read "a"))
      = some ⟨System.begin oneEntry ["a"] ["a", "b"] none, routedToA⟩ := by
  have hoverlay : oneEntry.cluster.overlayOwners "x" = none := rfl
  have hring : oneEntry.cluster.ringOwners "x" = ["a"] := rfl
  have hlive : ["a"].find? (· ∉ oneEntry.cluster.down) = some "a" := by decide
  simp only [replicate, exec_cons, exec_nil, Observed.step, Mget.step, Mget.start,
    zipIdx_cons, zipIdx_nil, System.begin, hoverlay, hring, hlive, map_some,
    bind_some, nil_append]
  rfl

theorem mget_singleton (w : World St) (c k : String) (n : NodeId) :
    (w.shards n).mget w.now c [k] = [w.cell c k n] := rfl

variable (m : Migration)

/-- It reads `a` when nothing is left there. -/
theorem exec_read_grown : exec (Observed.step (Mget.step ⟨"kv", ["x"]⟩))
    ⟨⟨grown, [], some m, []⟩, routedToA⟩ (List.replicate 3 (.read "a"))
      = some ⟨⟨grown, [], some m, []⟩, .returned [none]⟩ := by
  have hvals : (grown.shards "a").mget grown.now "kv" ["x"] = [none] := by
    rw [mget_singleton, grown_cells.2]
  have hfill : Mget.fill [none] [("x", 0)] [none] = [none] := rfl
  have hnil : [("a", [("x", 0)])].eraseP (fun e : NodeId × List Wanted => e.1 = "a") = [] := rfl
  simp only [replicate, exec_cons, exec_nil, Observed.step, Mget.step, routedToA,
    lookup_cons_self, map_some, if_pos grown_client_a, bind_some, map_cons,
    map_nil, hvals, hfill, hnil]

/-- A scan that reads `b` while it has nothing. -/
theorem exec_scan_oneEntry : exec (Observed.step scanAll.step)
    ⟨System.begin oneEntry ["a"] ["a", "b"] none, .starting⟩ (List.replicate 3 (.read "b"))
      = some ⟨System.begin oneEntry ["a"] ["a", "b"] none, .asking {"a"} ∅⟩ := by
  have hclients : oneEntry.cluster.clients = {"b", "a"} := by decide
  have hne : ({"b", "a"} : Finset NodeId) ≠ ∅ := by decide
  have hb : "b" ∈ ({"b", "a"} : Finset NodeId) := by decide
  have hdown : "b" ∉ oneEntry.cluster.down := by decide
  have herase : ({"b", "a"} : Finset NodeId).erase "b" = {"a"} := by decide
  have hanswer : scanAll.answer oneEntry "b" = ∅ :=
    answer_scanAll_eq_empty fun k => by rw [cell_oneEntry]; simp
  simp only [replicate, exec_cons, exec_nil, Observed.step, ScanRange.step, System.begin,
    hclients, if_neg hne, if_pos hb, if_neg hdown, herase, hanswer, map_some,
    bind_some, Finset.union_empty]

/-- It reads `a` when nothing is left there. -/
theorem exec_scan_grown : exec (Observed.step scanAll.step)
    ⟨⟨grown, [], some m, []⟩, .asking {"a"} ∅⟩ (List.replicate 3 (.read "a"))
      = some ⟨⟨grown, [], some m, []⟩, .returned [] none⟩ := by
  have hne : ({"a"} : Finset NodeId) ≠ ∅ := by decide
  have ha : "a" ∈ ({"a"} : Finset NodeId) := by decide
  have hdown : "a" ∉ grown.cluster.down := by rw [grown_atRest.down]; decide
  have herase : ({"a"} : Finset NodeId).erase "a" = ∅ := by decide
  have hanswer : scanAll.answer grown "a" = ∅ := answer_scanAll_eq_empty grown_cells.2
  have hpage : mergePage scanAll.limit ∅ = ([], none) := by
    rw [mergePage, Finset.sort_empty]
    rfl
  simp only [replicate, exec_cons, exec_nil, Observed.step, ScanRange.step, if_neg hne,
    if_pos ha, if_neg hdown, herase, hanswer, map_some, bind_some, Finset.union_empty,
    if_true, hpage]

/-- **Batch reads can miss a key.**  The rebalance of `oneEntry` to `a` and `b` moves `x` from `a` to
`b`.  An `mget` that has routed `x` to `a` and reads `a` when the rebalance is over does not find it;
a scan that reads `b` before the rebalance and `a` after it does not list it. -/
theorem batch_reads_miss_key : Rebalanceable oneEntryVal oneEntry ["a", "b"] ∧
    oneEntryVal "kv" "x" = some (.int 1) ∧
    (∃ n s, exec (Observed.step (Mget.step ⟨"kv", ["x"]⟩))
      ⟨System.begin oneEntry ["a"] ["a", "b"] none, Mget.start ⟨"kv", ["x"]⟩⟩
      (List.replicate 4 (.read "a") ++ (List.replicate n (.sys .migrate) ++
        List.replicate 3 (.read "a"))) = some ⟨s, .returned [none]⟩ ∧
      s.trace = [] ∧ s.world.cell "kv" "x" "b" = some (.int 1)) ∧
    ∃ n s, exec (Observed.step scanAll.step)
      ⟨System.begin oneEntry ["a"] ["a", "b"] none, .starting⟩
      (List.replicate 3 (.read "b") ++ (List.replicate n (.sys .migrate) ++
        List.replicate 3 (.read "a"))) = some ⟨s, .returned [] none⟩ ∧
      s.trace = [] ∧ s.world.cell "kv" "x" "b" = some (.int 1) := by
  refine ⟨rebalanceable_oneEntry, rfl, ?_, ?_⟩
  · obtain ⟨n, m, hrun⟩ := exec_rebalance exec_route_oneEntry exec_read_grown
    exact ⟨n, _, hrun, rfl, grown_cells.1⟩
  · obtain ⟨n, m, hrun⟩ := exec_rebalance exec_scan_oneEntry exec_scan_grown
    exact ⟨n, _, hrun, rfl, grown_cells.1⟩

end Stplr
