import Stplr.Equiv.Calls
import Stplr.Equiv.Migration
import Stplr.Lib.Replicas

/-!
# One call on its owners

`CallInv` says what the owner list a call carries has to do with the owners its bucket routes to now;
`WriteInv` says which of the owners a write has already visited.  A step of the call keeps both
(`CallInv.step`, `WriteInv.step`), and when a write leaves the gate every owner holds its result
(`WriteInv.hold_of_visited`).
-/

namespace Stplr

open Lib Move Option CallState

variable {St : Type} [IndexStore St]

namespace World

/-- What node `n` holds under `(c, k)`. -/
def cell (w : World St) (c k : String) (n : NodeId) : Option Value := (w.shards n).object w.now c k

variable (w : World St)

theorem cell_setCluster (cl : Cluster) (c k : String) :
    (w.setCluster cl).cell c k = w.cell c k := rfl

theorem cell_setShard (n : NodeId) (sh : Shard St) (c k : String) (m : NodeId) :
    (w.setShard n sh).cell c k m = if m = n then sh.object w.now c k else w.cell c k m := by
  unfold cell setShard
  by_cases h : m = n
  · rw [if_pos h, h]
    simp
  · rw [if_neg h]
    simp [h]

/-- No cell of the managed collections carries an expiry. -/
def NoTtl (w : World St) (colls : List String) : Prop :=
  ∀ n, ∀ c ∈ colls, ∀ k, (w.shards n).expiryAt c k = none

theorem NoTtl.setShard {w : World St} {colls : List String} (h : w.NoTtl colls) (n : NodeId)
    {sh : Shard St} (hsh : ∀ c ∈ colls, ∀ k, sh.expiryAt c k = none) :
    (w.setShard n sh).NoTtl colls := by
  intro m c hc k
  unfold World.setShard
  by_cases hm : m = n
  · subst hm
    simpa using hsh c hc k
  · simpa [hm] using h m c hc k

end World

/-! ### Positions of a call -/

namespace CallPc

/-- The owners still to be visited; `none` before the owners are known. -/
def unvisited : CallPc → Option (List NodeId)
  | .waiting | .entered | .routing => none
  | .routed todo | .copying _ _ todo => some todo
  | .calling n todo | .writing _ _ n todo => some (n :: todo)
  | .returning _ | .returned _ => some []

/-- The owners before a call that none of them has decided. -/
def unasked : CallPc → Option (List NodeId)
  | .routed todo => some todo
  | .calling n todo => some (n :: todo)
  | _ => none

/-- The value that is being copied to the replicas. -/
def decided : CallPc → Option Value
  | .copying v _ _ | .writing v _ _ _ => some v
  | _ => none

/-- The call counts as in flight. -/
def inGate : CallPc → Bool
  | .waiting | .returned _ => false
  | _ => true

def isReturned : CallPc → Bool
  | .returned _ => true
  | _ => false

end CallPc

/-- Every owner is up and has a client, no owner list repeats a node, and none is empty. -/
structure Healthy (c : Cluster) : Prop where
  down : c.down = ∅
  clients : ∀ b < numBuckets, ∀ n ∈ c.routes b, n ∈ c.clients
  nodup_routes : ∀ b, (c.routes b).Nodup
  nodup_ring : ∀ b, (c.partitioner.ownersOfBucket b c.replication).Nodup
  nonempty : ∀ b < numBuckets, c.routes b ≠ []

theorem Healthy.up {c : Cluster} (h : Healthy c) (n : NodeId) : n ∉ c.down := by
  simp [h.down]

/-- What the position of a call has to do with the routes of its bucket. -/
structure CallInv (c : Cluster) (t : CallState) : Prop where
  /-- A pending read of the ring will find the owners. -/
  ring : t.pc = .routing → RingRoutes c (bucketOf t.call.key)
  nodup : ∀ todo, t.pc.unvisited = some todo → todo.Nodup
  owner : ∀ todo, t.pc.unvisited = some todo → ∀ n ∈ todo, n ∈ c.routes (bucketOf t.call.key)
  /-- Reads and the operations with a primary have not passed by any owner yet. -/
  full : (t.call.op.isWrite = false ∨ t.call.op.primary = true) →
    ∀ todo, t.pc.unasked = some todo → ∀ n ∈ c.routes (bucketOf t.call.key), n ∈ todo
  /-- Only the operations with a primary copy a value. -/
  plain : t.call.op.primary = false → t.pc.decided = none

/-- How far a write has got: its result has reached the owners it has visited. -/
def WriteInv (cell : NodeId → Option Value) (R : List NodeId) (t : CallState) (σ : Option Value) :
    Prop :=
  match t.pc.unvisited with
  | none => Hold cell R σ
  | some todo => Partly cell R todo σ (t.call.op.result σ) ∧
      ∀ v, t.pc.decided = some v → t.call.op.result σ = some v

section Writes

variable {cell : NodeId → Option Value} {R : List NodeId} {t : CallState} {σ : Option Value}

theorem WriteInv.of_none (hp : t.pc.unvisited = none) : WriteInv cell R t σ ↔ Hold cell R σ := by
  rw [WriteInv, hp]

theorem WriteInv.of_some {todo : List NodeId} (hp : t.pc.unvisited = some todo) :
    WriteInv cell R t σ ↔ Partly cell R todo σ (t.call.op.result σ) ∧
      ∀ v, t.pc.decided = some v → t.call.op.result σ = some v := by
  rw [WriteInv, hp]

theorem WriteInv.congr {cell' : NodeId → Option Value} {R' : List NodeId} (h : WriteInv cell R t σ)
    (hc : ∀ n ∈ R, cell' n = cell n) (hR : ∀ n, n ∈ R' ↔ n ∈ R) : WriteInv cell' R' t σ := by
  cases hu : t.pc.unvisited with
  | none => exact (of_none hu).mpr (((of_none hu).mp h).congr hc hR)
  | some todo =>
    obtain ⟨h1, h2⟩ := (of_some hu).mp h
    exact (of_some hu).mpr ⟨h1.congr hc hR, h2⟩

/-- A write that is not in the gate has not changed anything yet. -/
theorem WriteInv.iff_hold (hg : t.pc.inGate = false) (hr : t.pc.isReturned = false) :
    WriteInv cell R t σ ↔ Hold cell R σ := by
  have hp : t.pc = .waiting := by
    cases hp : t.pc <;> simp_all [CallPc.inGate, CallPc.isReturned]
  exact of_none (by rw [hp]; rfl)

/-- When a write has visited every owner, every owner holds its result. -/
theorem WriteInv.hold_of_visited (h : WriteInv cell R t σ) (hu : t.pc.unvisited = some []) :
    Hold cell R (t.call.op.result σ) :=
  ((of_some hu).mp h).1.hold_new

end Writes

section Steps

variable [LawfulCells St] {w : World St} {t : CallState} {r : World St × CallState}

/-! ### The frame of a call step -/

omit [LawfulCells St] in
theorem CallState.Trans.call_eq (h : t.Trans w r) : r.2.call = t.call := by
  cases h <;> rfl

omit [LawfulCells St] in
/-- A call changes nothing of the cluster but the gate's count. -/
theorem CallState.Trans.cluster_eq (h : t.Trans w r) :
    ∃ g : Gates, r.1.cluster = { w.cluster with gates := g } ∧ g.frozen = w.cluster.gates.frozen := by
  cases h with
  | enter hp hc | leave hp => exact ⟨_, rfl, rfl⟩
  | _ => exact ⟨w.cluster.gates, rfl, rfl⟩

omit [LawfulCells St] in
theorem CallState.Trans.routes_eq (h : t.Trans w r) (b : ℕ) :
    r.1.cluster.routes b = w.cluster.routes b := by
  obtain ⟨g, hg, -⟩ := h.cluster_eq
  rw [hg]
  rfl

variable {n : NodeId} {c : Cluster}

/-- A call step changes at most its own cell, on an owner it has not visited yet. -/
theorem CallState.Trans.cell_eq (h : t.Trans w r) {c k : String}
    (hne : ¬(c = t.call.coll ∧ k = t.call.key) ∨ ∀ todo, t.pc.unvisited = some todo → n ∉ todo) :
    r.1.cell c k n = w.cell c k n := by
  have hskip : ∀ {m rest} {sh : Shard St}, t.pc.unvisited = some (m :: rest) →
      (∀ c k, ¬(c = t.call.coll ∧ k = t.call.key) →
        sh.object w.now c k = (w.shards m).object w.now c k) →
      (w.setShard m sh).cell c k n = w.cell c k n := by
    intro m rest sh hu hsh
    rw [World.cell_setShard]
    split_ifs with hm
    · rcases hne with hne | hne
      · rw [hsh c k hne, hm]
        rfl
      · exact absurd (hm ▸ List.mem_cons_self ..) (hne _ hu)
    · rfl
  cases h with
  | call hp =>
    refine hskip (by rw [hp]; rfl) fun c k hck => ?_
    rw [object_callNode, if_neg hck]
  | write hp =>
    refine hskip (by rw [hp]; rfl) fun c k hck => ?_
    rw [Shard.object_writeObject, if_neg hck]
  | _ => rfl

/-- A call that does not write a cell leaves it alone. -/
theorem CallState.Trans.cell_eq_of_not_writes (h : t.Trans w r)
    (hplain : t.call.op.primary = false → t.pc.decided = none)
    {c k : String} (hn : ¬(t.call.op.isWrite = true ∧ t.call.coll = c ∧ t.call.key = k))
    (n : NodeId) : r.1.cell c k n = w.cell c k n := by
  by_cases hck : c = t.call.coll ∧ k = t.call.key
  · have hget : t.call.op = .get := by
      cases hop : t.call.op <;>
      first | rfl | exact absurd ⟨by rw [hop]; rfl, hck.1.symm, hck.2.symm⟩ hn
    cases h with
    | call hp =>
      rw [World.cell_setShard, object_callNode, if_pos hck, hget]
      split_ifs with hm
      · rw [hm, hck.1, hck.2]
        rfl
      · rfl
    | write hp =>
      have hplain := hplain (by rw [hget]; rfl)
      rw [hp] at hplain
      cases hplain
    | _ => rfl
  · exact h.cell_eq (.inl hck)

/-- A call gives no cell an expiry. -/
theorem CallState.Trans.expiryAt_none (h : t.Trans w r) {c k : String}
    (hn : (w.shards n).expiryAt c k = none) : (r.1.shards n).expiryAt c k = none := by
  have hset : ∀ {m : NodeId} {sh : Shard St}, (n = m → sh.expiryAt c k = none) →
      ((w.setShard m sh).shards n).expiryAt c k = none := by
    intro m sh hsh
    unfold World.setShard
    by_cases hm : n = m
    · subst hm
      simpa using hsh rfl
    · simpa [hm] using hn
  cases h with
  | call hp => exact hset fun hm => expiryAt_callNode _ _ _ (hm ▸ hn)
  | write hp => exact hset fun hm => Shard.expiryAt_writeObject _ _ (hm ▸ hn)
  | _ => exact hn

theorem CallState.Trans.noTtl (h : t.Trans w r) {colls : List String} (hn : w.NoTtl colls) :
    r.1.NoTtl colls :=
  fun n c hc k => h.expiryAt_none (hn n c hc k)

/-! ### A call keeps its invariant -/

omit [IndexStore St] [LawfulCells St] in
theorem CallInv.congr {c c' : Cluster} (h : CallInv c t)
    (hr : RingRoutes c (bucketOf t.call.key) → RingRoutes c' (bucketOf t.call.key))
    (hR : ∀ n, n ∈ c'.routes (bucketOf t.call.key) ↔ n ∈ c.routes (bucketOf t.call.key)) :
    CallInv c' t where
  ring := fun hp => hr (h.ring hp)
  nodup := h.nodup
  owner := fun todo hu n hn => (hR n).mpr (h.owner todo hu n hn)
  full := fun ho todo hp n hn => h.full ho todo hp n ((hR n).mp hn)
  plain := h.plain

omit [IndexStore St] [LawfulCells St] in
theorem CallInv.routed {owners : List NodeId} (hnd : owners.Nodup)
    (ho : ∀ n, n ∈ owners ↔ n ∈ c.routes (bucketOf t.call.key)) :
    CallInv c { t with pc := .routed owners } where
  ring := nofun
  nodup := fun _ hu => some.inj hu ▸ hnd
  owner := fun _ hu n hn => (ho n).mp (some.inj hu ▸ hn)
  full := fun _ _ ha n hn => some.inj ha ▸ (ho n).mpr hn
  plain := fun _ => rfl

omit [IndexStore St] [LawfulCells St] in
theorem CallInv.returning (c : Cluster) (t : CallState) (r : Reply) :
    CallInv c { t with pc := .returning r } where
  ring := nofun
  nodup := fun _ hu => some.inj hu ▸ List.nodup_nil
  owner := fun _ hu n hn => by cases some.inj hu ▸ hn
  full := nofun
  plain := fun _ => rfl

omit [IndexStore St] [LawfulCells St] in
/-- A call outside the gate is indifferent to the routes. -/
theorem CallInv.of_not_inGate {c c' : Cluster} (h : CallInv c t) (hg : t.pc.inGate = false) :
    CallInv c' t where
  ring := fun hp => by rw [hp] at hg; cases hg
  nodup := h.nodup
  owner := by
    intro todo hu n hn
    cases hp : t.pc with
    | waiting => rw [hp] at hu; cases hu
    | returned r =>
      rw [hp] at hu
      obtain rfl := some.inj hu
      cases hn
    | _ => rw [hp] at hg; cases hg
  full := by
    rintro - todo ha
    cases hp : t.pc with
    | waiting | returned r => rw [hp] at ha; cases ha
    | _ => rw [hp] at hg; cases hg
  plain := h.plain

omit [LawfulCells St] in
/-- Every step of a call keeps its invariant. -/
theorem CallInv.step (hh : Healthy w.cluster) (hi : CallInv w.cluster t) (h : t.Trans w r) :
    CallInv r.1.cluster r.2 := by
  have hb : bucketOf t.call.key < numBuckets := bucketOf_lt _
  cases h with
  | enter hp hc => exact ⟨nofun, nofun, nofun, nofun, fun _ => rfl⟩
  | overlay hp ho =>
    rw [Cluster.overlayOwners_eq_some ho]
    exact .routed (hh.nodup_routes _) fun n => Iff.rfl
  | noOverlay hp ho =>
    refine ⟨fun _ n => ?_, nofun, nofun, nofun, fun _ => rfl⟩
    rw [Cluster.routes_of_overlay_none (Cluster.overlayOwners_eq_none.mp ho)]
  | ring hp => exact .routed (hh.nodup_ring _) (hi.ring hp)
  | @visit todo hp =>
    have hu : t.pc.unvisited = some todo := by rw [hp]; rfl
    have hown := hi.owner todo hu
    rw [visit_healthy (fun n _ => hh.up n) fun n hn => hh.clients _ hb n (hown n hn)]
    cases todo with
    | nil => exact .returning ..
    | cons n todo =>
      exact ⟨nofun, fun _ hu' => some.inj hu' ▸ hi.nodup _ hu, fun _ hu' => some.inj hu' ▸ hown,
        fun hop _ ha => some.inj ha ▸ hi.full hop _ (by rw [hp]; rfl), fun _ => rfl⟩
  | @call n todo hp =>
    have hu : t.pc.unvisited = some (n :: todo) := by rw [hp]; rfl
    have hnd := (List.nodup_cons.mp (hi.nodup _ hu)).2
    have hown := fun m (hm : m ∈ todo) => hi.owner _ hu m (List.mem_cons_of_mem _ hm)
    by_cases hg : t.call.op = .get
    · rw [callNode_get hg]
      exact .returning ..
    · cases hpr : t.call.op.primary with
      | false =>
        rw [callNode_broadcast hg hpr]
        refine ⟨nofun, fun _ hu' => some.inj hu' ▸ hnd, fun _ hu' => some.inj hu' ▸ hown, ?_,
          fun _ => rfl⟩
        rintro (hw | hpr') - -
        · cases hop : t.call.op <;> simp_all [CallOp.isWrite]
        · exact absurd (hpr.symm.trans hpr') Bool.false_ne_true
      | true =>
        rcases callNode_primary w.now (w.shards n) todo hpr with
          ⟨v, rep, -, heq⟩ | ⟨rep, -, heq⟩
        · rw [heq]
          exact ⟨nofun, fun _ hu' => some.inj hu' ▸ hnd, fun _ hu' => some.inj hu' ▸ hown, nofun,
            fun h => by rw [hpr] at h; cases h⟩
        · rw [heq]
          exact .returning ..
  | copied hp => exact .returning ..
  | @copy v rep n todo hp =>
    have hu : t.pc.unvisited = some (n :: todo) := by rw [hp]; rfl
    have hown := hi.owner _ hu
    rw [if_pos (hh.clients _ hb n (hown n (List.mem_cons_self ..)))]
    refine ⟨nofun, fun _ hu' => some.inj hu' ▸ hi.nodup _ hu, fun _ hu' => some.inj hu' ▸ hown, nofun,
      fun h => ?_⟩
    have := hi.plain h
    rw [hp] at this
    cases this
  | @write v rep n todo hp =>
    have hu : t.pc.unvisited = some (n :: todo) := by rw [hp]; rfl
    refine ⟨nofun, fun _ hu' => some.inj hu' ▸ (List.nodup_cons.mp (hi.nodup _ hu)).2,
      fun _ hu' m hm => hi.owner _ hu m (List.mem_cons_of_mem _ (some.inj hu' ▸ hm)), nofun, fun h => ?_⟩
    have := hi.plain h
    rw [hp] at this
    cases this
  | @leave q hp =>
    have hdone := CallInv.returning w.cluster t q
    exact ⟨nofun, hdone.nodup, hdone.owner, nofun, fun _ => rfl⟩

/-- Every step of a write carries its result one owner further. -/
theorem WriteInv.step (hh : Healthy w.cluster) (hi : CallInv w.cluster t)
    (hwr : t.call.op ≠ .get) {σ : Option Value}
    (hw : WriteInv (w.cell t.call.coll t.call.key) (w.cluster.routes (bucketOf t.call.key)) t σ)
    (h : t.Trans w r) :
    WriteInv (r.1.cell t.call.coll t.call.key) (r.1.cluster.routes (bucketOf t.call.key)) r.2 σ := by
  have hb : bucketOf t.call.key < numBuckets := bucketOf_lt _
  rw [h.routes_eq]
  set R := w.cluster.routes (bucketOf t.call.key) with hR
  cases h with
  | enter hp hc | noOverlay hp ho => exact (of_none rfl).mpr ((of_none (by rw [hp]; rfl)).mp hw)
  | overlay hp ho =>
    rw [Cluster.overlayOwners_eq_some ho]
    have hold := (of_none (by rw [hp]; rfl)).mp hw
    exact (of_some rfl).mpr ⟨hold.partly (fun n hn => hn) _, fun v hv => by cases hv⟩
  | ring hp =>
    have hr : ∀ n, n ∈ w.cluster.ringOwners t.call.key ↔ n ∈ R := hi.ring hp
    have hold := (of_none (by rw [hp]; rfl)).mp hw
    exact (of_some rfl).mpr ⟨hold.partly (fun n hn => (hr n).mpr hn) _, fun v hv => by cases hv⟩
  | @visit todo hp =>
    have hu : t.pc.unvisited = some todo := by rw [hp]; rfl
    obtain ⟨hpart, -⟩ := (of_some hu).mp hw
    rw [visit_healthy (fun n _ => hh.up n) fun n hn => hh.clients _ hb n (hi.owner todo hu n hn)]
    cases todo with
    | nil | cons n todo => exact (of_some rfl).mpr ⟨hpart, fun v hv => by cases hv⟩
  | @call n todo hp =>
    have hu : t.pc.unvisited = some (n :: todo) := by rw [hp]; rfl
    obtain ⟨hpart, -⟩ := (of_some hu).mp hw
    have hnR : n ∈ R := hi.owner _ hu n (List.mem_cons_self ..)
    have hn : (w.shards n).object w.now t.call.coll t.call.key = σ := by
      have := hpart n hnR
      rwa [if_pos (List.mem_cons_self ..)] at this
    have hvisit : Partly ((w.setShard n (t.callNode .ok w.now (w.shards n) todo).1).cell
        t.call.coll t.call.key) R todo σ (t.call.op.result σ) := by
      refine hpart.visit (List.nodup_cons.mp (hi.nodup _ hu)).1 ?_ ?_
      · rw [World.cell_setShard, if_pos rfl, object_callNode, if_pos ⟨rfl, rfl⟩, hn]
      · intro m hm
        rw [World.cell_setShard, if_neg hm]
    cases hpr : t.call.op.primary with
    | false =>
      rw [callNode_broadcast hwr hpr]
      exact (of_some rfl).mpr ⟨hvisit, fun v hv => by cases hv⟩
    | true =>
      have hres := CallOp.result_of_primary hpr σ
      rcases callNode_primary w.now (w.shards n) todo hpr with
        ⟨v, rep, hdec, heq⟩ | ⟨rep, hdec, heq⟩
      · rw [heq]
        rw [hn] at hdec
        refine (of_some rfl).mpr ⟨hvisit, fun v' hv' => ?_⟩
        obtain rfl := some.inj hv'
        change t.call.op.result σ = _
        rw [hres, hdec, some_or]
      · -- the operation failed on the primary: it changes nothing anywhere
        rw [heq]
        rw [hn] at hdec
        rw [hdec, none_or] at hres
        refine (of_some rfl).mpr ⟨fun m hm => ?_, fun v hv => by cases hv⟩
        have hall := hvisit m hm
        change _ = if m ∈ [] then σ else t.call.op.result σ
        rw [hall, hres]
        simp
  | copied hp | leave hp =>
    obtain ⟨hpart, -⟩ := (of_some (show t.pc.unvisited = some [] by rw [hp]; rfl)).mp hw
    exact (of_some rfl).mpr ⟨hpart, fun v hv => by cases hv⟩
  | @copy v rep n todo hp =>
    have hu : t.pc.unvisited = some (n :: todo) := by rw [hp]; rfl
    obtain ⟨hpart, hdec⟩ := (of_some hu).mp hw
    rw [if_pos (hh.clients _ hb n (hi.owner _ hu n (List.mem_cons_self ..)))]
    refine (of_some rfl).mpr ⟨hpart, fun v' hv' => hdec v' ?_⟩
    rw [hp]
    exact hv'
  | @write v rep n todo hp =>
    have hu : t.pc.unvisited = some (n :: todo) := by rw [hp]; rfl
    obtain ⟨hpart, hdec⟩ := (of_some hu).mp hw
    have hres := hdec v (by rw [hp]; rfl)
    refine (of_some rfl).mpr ⟨hpart.visit (List.nodup_cons.mp (hi.nodup _ hu)).1 ?_ ?_, ?_⟩
    · rw [World.cell_setShard, if_pos rfl, Shard.object_writeObject, if_pos ⟨rfl, rfl⟩]
      exact hres.symm
    · intro m hm
      rw [World.cell_setShard, if_neg hm]
    · intro v' hv'
      exact hdec v' (by rw [hp]; exact hv')

end Steps

end Stplr
