import Mathlib.Data.List.Find
import Stplr.Equiv.Contents

/-!
# Migrations that stop between two chunks

`World.migrated` is a migration whose first chunks are through.  Its overlay and its journal name the
buckets of these chunks (`overlay_migrated`, `journal_migrated`), so a key is routed to the new owners
of its bucket if that has been cut over and to the old ones otherwise (`owners_migrated`).

A membership call that follows without a resume plans from the member list, which is still the old
one, and overwrites the overlay.  `readable_iff` says which keys such a call leaves readable.
-/

namespace Stplr

open Lib List Cluster

variable {St : Type} [IndexStore St]

/-! ### Overlay and journal -/

section Routing

variable [LawfulCells St] (net : MigCall → Outcome) (w : World St) (old new : List NodeId)
  (done : Finset ℕ)

variable (actions : SortedMap ℕ (List Action)) (L : List (List ℕ)) (s : World St × Finset ℕ)

theorem runChunks_routing :
    (L.foldl (runChunk net old new actions) s).2 = s.2 ∪ L.flatten.toFinset ∧
    (L.foldl (runChunk net old new actions) s).1.cluster.overlay
      = s.1.cluster.overlay.map fun o => { o with migrated := o.migrated ∪ L.flatten.toFinset } := by
  induction L generalizing s with
  | nil => simp
  | cons ch L ih =>
    obtain ⟨hcl, -⟩ := runChunk_spec net "" "" old new actions s ch
    have hov : (runChunk net old new actions s ch).1.cluster.overlay
        = s.1.cluster.overlay.map fun o => { o with migrated := o.migrated ∪ ch.toFinset } := by
      rw [hcl]
      rfl
    obtain ⟨h1, h2⟩ := ih (runChunk net old new actions s ch)
    rw [foldl_cons, h1, h2, hov, flatten_cons, toFinset_append, Option.map_map]
    refine ⟨Finset.union_assoc .., congrArg (fun f => s.1.cluster.overlay.map f) (funext fun o => ?_)⟩
    simp [Finset.union_assoc]

theorem runChunks_journal
    (hs : s.1.cluster.journal = some ⟨old, new, s.1.cluster.replicationTarget, s.2⟩) :
    (L.foldl (runChunk net old new actions) s).1.cluster.journal
      = some ⟨old, new, s.1.cluster.replicationTarget, s.2 ∪ L.flatten.toFinset⟩ := by
  induction L generalizing s with
  | nil => simpa using hs
  | cons ch L ih =>
    obtain ⟨hcl, -⟩ := runChunk_spec net "" "" old new actions s ch
    rw [foldl_cons, ih, flatten_cons, toFinset_append, ← Finset.union_assoc]
    · rw [hcl]
      rfl
    · rw [hcl]
      rfl

theorem overlay_migrated : (w.migrated net old new done L).cluster.overlay
    = some (w.cluster.migrationOverlay old new (done ∪ L.flatten.toFinset)) := by
  rw [World.migrated]
  generalize actionsOf _ _ = actions
  rw [(runChunks_routing net old new actions L _).2]
  rfl

theorem journal_migrated : (w.migrated net old new done L).cluster.journal
    = some ⟨old, new, w.cluster.replicationTarget, done ∪ L.flatten.toFinset⟩ := by
  rw [World.migrated]
  generalize actionsOf _ _ = actions
  exact runChunks_journal net old new actions L _ rfl

/-- The planner's old owners are those of the ring, also when there are no old members. -/
theorem Move.oldOwners_eq (mv : Move) (b : ℕ) : mv.oldOwners b
    = (ringOf mv.old mv.topology).ownersOfBucket b (clamp mv.target mv.old.length) := by
  rw [oldOwners, planOldOwners]
  split_ifs with h
  · rw [h]
    refine (eq_nil_of_length_eq_zero ?_).symm
    rw [Partitioner.length_ownersOfBucket _ _ _ (by simp)]
    simp
  · rfl

theorem owners_migrated (k : String) :
    (w.migrated net old new done L).cluster.owners k
      = if bucketOf k ∈ done ∪ L.flatten.toFinset then
          (w.cluster.move old new).newOwners (bucketOf k)
        else (w.cluster.move old new).oldOwners (bucketOf k) := by
  rw [owners, overlayOwners, overlay_migrated, Option.map_some, Option.getD_some,
    Overlay.owners, Move.oldOwners_eq]
  rfl

end Routing

theorem runMigrationPartial_eq (net : MigCall → Outcome) (w : World St) {old new : List NodeId}
    (done : Finset ℕ) (max : ℕ) (hdiff : ¬sameMembers old new) :
    ∃ w', w' = w.migrated net old new done ((w.cluster.migrationChunks old new done).take max) ∧
      runMigrationPartial net w old new done max
        = if max < (w.cluster.migrationChunks old new done).length then w'
          else w'.setCluster ((w'.cluster.commit new).removeOverlay) := by
  refine ⟨_, rfl, ?_⟩
  rw [runMigrationPartial, if_neg hdiff]
  unfold World.migrated migrationChunks move Move.plan
  dsimp only

/-- A `get` when no node is marked down: the first owner with a client answers. -/
theorem World.get_eq_find {w : World St} (hdown : w.cluster.down = ∅) (c k : String) :
    w.get (fun _ => .ok) c k
      = ((w.cluster.owners k).find? (· ∈ w.cluster.clients)).bind (w.cell c k) := by
  rw [World.get]
  generalize w.cluster.owners k = os
  induction os with
  | nil => rfl
  | cons n os ih =>
    by_cases hn : n ∈ w.cluster.clients
    · have hskip : ¬w.cluster.skips n := by
        rintro (hd | hc)
        · rw [hdown] at hd
          exact absurd hd (Finset.notMem_empty n)
        · exact hc hn
      rw [World.getLoop, if_neg (by simpa using hskip), find?_cons_of_pos (by simpa using hn)]
      rfl
    · rw [World.getLoop, if_pos (.inl (show w.cluster.skips n from .inr hn)),
        find?_cons_of_neg (by simpa using hn)]
      exact ih

/-- What the nodes return for an entry of bucket `b` once the bucket has been cut over: an owner that
is lost returns nothing, and one that is gained what the first old owner returned, or what it had
itself if that one had nothing. -/
def Move.handed (mv : Move) (b : ℕ) (s : NodeId → Option Value) (n : NodeId) : Option Value :=
  if n ∈ mv.oldOwners b then
    if n ∈ mv.newOwners b then s n else none
  else if n ∈ mv.newOwners b then ((mv.oldOwners b).head?.bind s).or (s n) else s n

theorem Move.object_handOver (mv : Move) (t b : ℕ) (s : NodeId → Slot) (n : NodeId) :
    (mv.handOver ∅ t b s n).object t = mv.handed b (fun m => (s m).object t) n := by
  rw [handOver, handed]
  split_ifs
  · rfl
  · exact Slot.object_dropped ..
  · cases (mv.oldOwners b).head? with
    | none => rfl
    | some src => exact Slot.object_imported ..
  · rfl

/-! ### The calls that may follow -/

/-- A membership call that runs a migration. -/
inductive Reshape where
  | rebalance (newIds : List NodeId)
  | drain (node : NodeId)
  | rebalancePartial (newIds : List NodeId) (maxChunks : ℕ)

namespace Reshape

/-- The members asked for. -/
def target (members : List NodeId) : Reshape → List NodeId
  | .rebalance newIds | .rebalancePartial newIds _ => newIds
  | .drain node => members.filter (· ≠ node)

def run (w : World St) : Reshape → World St
  | .rebalance newIds => Stplr.rebalance (fun _ => .ok) w newIds
  | .drain node => drainNode (fun _ => .ok) w node
  | .rebalancePartial newIds maxChunks => Stplr.rebalancePartial (fun _ => .ok) w newIds maxChunks

/-- The chunks that the call runs, out of the chunks planned. -/
def portion (chs : List (List ℕ)) : Reshape → List (List ℕ)
  | .rebalance _ | .drain _ => chs
  | .rebalancePartial _ maxChunks => chs.take maxChunks

/-- The call runs all the chunks. -/
def completes (chs : List (List ℕ)) : Reshape → Prop
  | .rebalance _ | .drain _ => True
  | .rebalancePartial _ maxChunks => chs.length ≤ maxChunks

theorem portion_prefix (chs : List (List ℕ)) (r : Reshape) : r.portion chs <+: chs := by
  cases r with
  | rebalancePartial newIds max => exact take_prefix ..
  | _ => exact prefix_refl _

theorem portion_of_completes {chs : List (List ℕ)} {r : Reshape} (h : r.completes chs) :
    r.portion chs = chs := by
  cases r with
  | rebalancePartial newIds max => exact take_of_length_le h
  | _ => rfl

variable (w : World St) (r : Reshape)

/-- What a call does when the membership changes. -/
theorem run_eq (hdiff : ¬sameMembers w.cluster.memberIds (r.target w.cluster.memberIds)) :
    let T := r.target w.cluster.memberIds
    let chs := w.cluster.migrationChunks w.cluster.memberIds T ∅
    ∃ w', w' = w.migrated (fun _ => .ok) w.cluster.memberIds T ∅ (r.portion chs) ∧
      (r.completes chs → r.run w = w'.setCluster ((w'.cluster.commit T).removeOverlay)) ∧
      (¬r.completes chs → r.run w = w') := by
  cases r with
  | rebalance newIds | drain node =>
    dsimp only [target, portion] at hdiff ⊢
    obtain ⟨w', hw', hrun⟩ := runMigration_eq (fun _ => .ok) w ∅ hdiff
    exact ⟨w', hw', fun _ => hrun, fun h => absurd trivial h⟩
  | rebalancePartial newIds max =>
    dsimp only [target, portion] at hdiff ⊢
    obtain ⟨w', hw', hrun⟩ := runMigrationPartial_eq (fun _ => .ok) w ∅ max hdiff
    refine ⟨w', hw', fun h => ?_, fun h => ?_⟩
    · exact hrun.trans (if_neg (Nat.not_lt.mpr h))
    · exact hrun.trans (if_pos (Nat.not_le.mp h))

/-- What a call does when the membership stays. -/
theorem run_of_same (hsame : sameMembers w.cluster.memberIds (r.target w.cluster.memberIds)) :
    r.run w = w.setCluster (w.cluster.commit (r.target w.cluster.memberIds)) := by
  cases r with
  | rebalance newIds | drain node | rebalancePartial newIds max => exact if_pos hsame

/-- The call cuts bucket `b` over. -/
def CutsOver (chs : List (List ℕ)) (b : ℕ) (r : Reshape) : Prop :=
  r.completes chs ∨ b ∈ (r.portion chs).flatten

instance (chs : List (List ℕ)) (r : Reshape) : Decidable (r.completes chs) := match r with
  | .rebalance _ | .drain _ => isTrue trivial
  | .rebalancePartial _ maxChunks => inferInstanceAs (Decidable (chs.length ≤ maxChunks))

instance (chs : List (List ℕ)) (b : ℕ) (r : Reshape) : Decidable (r.CutsOver chs b) :=
  inferInstanceAs (Decidable (_ ∨ _))

section Run

variable [LawfulCells St] {w : World St} {r : Reshape}

/-- A call that stops early leaves an overlay, and the members, their clients and the plans as they
are. -/
theorem run_of_stopped (hdiff : ¬sameMembers w.cluster.memberIds (r.target w.cluster.memberIds))
    (hstop : ¬r.completes
      (w.cluster.migrationChunks w.cluster.memberIds (r.target w.cluster.memberIds) ∅)) :
    (r.run w).cluster.base = w.cluster.base ∧ ∃ o, (r.run w).cluster.overlay = some o := by
  obtain ⟨w', hw', -, hrun⟩ := run_eq w r hdiff
  rw [hrun hstop, hw']
  exact ⟨(migrates_migrated (fun _ => .ok) w w.cluster.memberIds (r.target w.cluster.memberIds) ∅
    "" "" _).base, _, overlay_migrated ..⟩

omit [LawfulCells St] in
/-- Under an overlay, a call that asks for the members at hand only drops the clients of other
nodes. -/
theorem get_run_of_same {o : Overlay} (hov : w.cluster.overlay = some o) (hdown : w.cluster.down = ∅)
    (hsame : sameMembers w.cluster.memberIds (r.target w.cluster.memberIds)) {c k : String}
    (hclients : ∀ n ∈ w.cluster.owners k, n ∈ w.cluster.clients) :
    (r.run w).get (fun _ => .ok) c k
      = ((w.cluster.owners k).filter (· ∈ r.target w.cluster.memberIds)).head?.bind
          (w.cell c k) := by
  have howners : (w.cluster.commit (r.target w.cluster.memberIds)).owners k = w.cluster.owners k := by
    have hov' : (w.cluster.commit (r.target w.cluster.memberIds)).overlay = some o := hov
    rw [owners, owners, overlayOwners, overlayOwners, hov, hov']
    rfl
  have hdown' : (w.cluster.commit (r.target w.cluster.memberIds)).down = ∅ := by
    change w.cluster.down \ _ = ∅
    rw [hdown, Finset.empty_sdiff]
  have hfind : (w.cluster.owners k).find?
      (· ∈ w.cluster.clients.filter (· ∈ r.target w.cluster.memberIds))
        = (w.cluster.owners k).find? (· ∈ r.target w.cluster.memberIds) := by
    refine find?_congr fun n hn => ?_
    simp [hclients n hn]
  rw [run_of_same w r hsame, World.get_eq_find hdown', head?_filter]
  change (((w.cluster.commit _).owners k).find? _).bind _ = _
  rw [howners]
  exact congrArg (fun o => o.bind (w.cell c k)) hfind

variable (h : w.cluster.Staffed) (hnd : (r.target w.cluster.memberIds).Nodup)
  (hcl : ∀ n ∈ r.target w.cluster.memberIds, n ∈ w.cluster.clients)
  (hdiff : ¬sameMembers w.cluster.memberIds (r.target w.cluster.memberIds)) {c k : String}
  (hc : c ∈ w.cluster.colls)
include h hnd hcl hdiff hc

/-- What a call that changes the membership leaves: the entries of the buckets that it cuts over have
been handed over, these buckets are routed to their new owners and all others to their old ones, and
there are clients for all of them. -/
theorem run_spec :
    let mv := w.moveTo (r.target w.cluster.memberIds)
    let chs := w.cluster.migrationChunks w.cluster.memberIds (r.target w.cluster.memberIds) ∅
    (r.run w).now = w.now ∧ (r.run w).cluster.down = ∅ ∧
    (r.CutsOver chs (bucketOf k) → (r.run w).cluster.owners k = mv.newOwners (bucketOf k) ∧
      ∀ n, (r.run w).slot c k n = mv.handOver ∅ w.now (bucketOf k) (w.slot c k) n) ∧
    (¬r.CutsOver chs (bucketOf k) → (r.run w).cluster.owners k = mv.oldOwners (bucketOf k) ∧
      ∀ n, (r.run w).slot c k n = w.slot c k n) ∧
    ∀ n ∈ (r.run w).cluster.owners k, n ∈ (r.run w).cluster.clients := by
  intro mv chs
  have hreach := reaches_rebalance h hnd hcl (bucketOf k)
  obtain ⟨w', hw', hcomplete, hstop⟩ := run_eq w r hdiff
  have hmig := migrates_migrated (fun _ => .ok) w w.cluster.memberIds
    (r.target w.cluster.memberIds) ∅ c k (r.portion chs)
  rw [← hw'] at hmig
  by_cases hall : r.completes chs
  · rw [hcomplete hall]
    rw [portion_of_completes hall] at hmig
    have hbase : (w'.setCluster ((w'.cluster.commit
        (r.target w.cluster.memberIds)).removeOverlay)).cluster.base
          = (w.cluster.commit (r.target w.cluster.memberIds)).base := by
      change (w'.cluster.base.commit _).base = (w.cluster.base.commit _).base
      rw [hmig.base]
    obtain ⟨hsound, howners⟩ := sound_commit h hbase rfl hnd hcl
    refine ⟨hmig.now, hsound.down, fun _ => ⟨howners k, fun n => ?_⟩, fun hcut => ?_,
      fun n hn => hsound.clients n (hsound.mem_nodes hn)⟩
    · rw [World.slot_setCluster, hmig.slot, foldl_migrationChunks onlySilent_ok
        (Finset.notMem_empty n) (Finset.notMem_empty _) hreach, if_pos hc]
      rfl
    · exact absurd (.inl hall) hcut
  · rw [hstop hall]
    have hfield : ∀ {α : Type} (f : Cluster → α), f w'.cluster.base = f w.cluster.base :=
      fun f => congrArg f hmig.base
    have howners := owners_migrated (fun _ => .ok) w w.cluster.memberIds
      (r.target w.cluster.memberIds) ∅ (r.portion chs) k
    have hslot : ∀ n, w'.slot c k n = if c ∈ w.cluster.colls ∧ bucketOf k ∈ (r.portion chs).flatten
        then mv.handOver ∅ w.now (bucketOf k) (w.slot c k) n else w.slot c k n := by
      intro n
      rw [hw']
      exact slot_migrated_of_silent onlySilent_ok (Finset.notMem_empty n) (r.portion_prefix chs)
        hreach
    rw [← hw'] at howners
    simp only [Finset.empty_union, mem_toFinset] at howners
    have hclients : w'.cluster.clients = w.cluster.clients := hfield clients
    refine ⟨hmig.now, (hfield down).trans h.down, ?_, ?_, ?_⟩
    · rintro (hcut | hcut)
      · exact absurd hcut hall
      · refine ⟨howners.trans (if_pos hcut), fun n => ?_⟩
        rw [hslot, if_pos ⟨hc, hcut⟩]
    · intro hcut
      have hout : bucketOf k ∉ (r.portion chs).flatten := fun hm => hcut (.inr hm)
      refine ⟨howners.trans (if_neg hout), fun n => ?_⟩
      rw [hslot, if_neg fun hm => hout hm.2]
    · intro n hn
      rw [howners] at hn
      rw [hclients]
      refine hreach n ?_
      split_ifs at hn
      · exact .inr hn
      · exact .inl hn

/-- What a node returns after a call that changes the membership. -/
theorem cell_run : (r.run w).cell c k = if r.CutsOver
            (w.cluster.migrationChunks w.cluster.memberIds (r.target w.cluster.memberIds) ∅)
            (bucketOf k) then
          (w.moveTo (r.target w.cluster.memberIds)).handed (bucketOf k) (w.cell c k)
        else w.cell c k := by
  obtain ⟨hnow, -, hcut, huncut, -⟩ := run_spec (k := k) h hnd hcl hdiff hc
  have hcell : ∀ n, (r.run w).cell c k n = ((r.run w).slot c k n).object w.now := by
    intro n
    rw [← hnow]
    rfl
  funext n
  rw [hcell]
  split_ifs with hb
  · rw [(hcut hb).2, Move.object_handOver]
    rfl
  · rw [(huncut hb).2]
    rfl

/-- What a `get` returns after a call that changes the membership. -/
theorem get_run : (r.run w).get (fun _ => .ok) c k
      = ((r.run w).cluster.owners k).head?.bind ((r.run w).cell c k) := by
  obtain ⟨-, hdown, -, -, hclients⟩ := run_spec (k := k) h hnd hcl hdiff hc
  rw [World.get_eq_find hdown, ← head?_filter, filter_eq_self.mpr]
  exact fun n hn => decide_eq_true (hclients n hn)

end Run

end Reshape

theorem Cluster.Staffed.of_base {cl cl' : Cluster} (h : cl.Staffed) (hbase : cl'.base = cl.base) :
    cl'.Staffed := by
  have hbs : cl.base.Staffed := ⟨h.down, h.topology, h.nodup, h.clients⟩
  rw [← hbase] at hbs
  exact ⟨hbs.down, hbs.topology, hbs.nodup, hbs.clients⟩

/-! ### Two calls without a resume in between -/

section TwoCalls

/-- The chunks that a rebalance to `new` plans. -/
def World.chunksTo (w : World St) (new : List NodeId) : List (List ℕ) :=
  w.cluster.migrationChunks w.cluster.memberIds new ∅

/-- A rebalance to `new` that stops after `max` chunks has cut over the bucket of `k`. -/
def World.CutBy (w : World St) (new : List NodeId) (max : ℕ) (k : String) : Prop :=
  bucketOf k ∈ ((w.chunksTo new).take max).flatten

instance (w : World St) (new : List NodeId) (max : ℕ) (k : String) :
    Decidable (w.CutBy new max k) :=
  inferInstanceAs (Decidable (_ ∈ _))

/-- What the nodes return for an entry after a rebalance to `new` that stops after `max` chunks. -/
def World.heldAfter (w : World St) (new : List NodeId) (max : ℕ) (c k : String) :
    NodeId → Option Value :=
  if w.CutBy new max k then (w.moveTo new).handed (bucketOf k) (w.cell c k) else w.cell c k

/-- What is left of the copies of an entry when the call `r` follows, and where a `get` looks for it.
The call plans from the old members: a bucket that it cuts over is copied from its first *old* owner
and routed to the owners for the members asked for, and all others are routed to their old owners.  A
call for the members at hand moves nothing and leaves the routes of the first call. -/
def World.StaysReadable (w : World St) (new : List NodeId) (max : ℕ) (r : Reshape) (c k : String)
    (v : Value) : Prop :=
  let T := r.target w.cluster.memberIds
  let b := bucketOf k
  let held := w.heldAfter new max c k
  if sameMembers w.cluster.memberIds T then
    let route := if w.CutBy new max k then (w.moveTo new).newOwners b else (w.moveTo new).oldOwners b
    ∃ g, (route.filter (· ∈ T)).head? = some g ∧ held g = some v
  else if r.CutsOver (w.chunksTo T) b then
    ∃ g, ((w.moveTo T).newOwners b).head? = some g ∧ (w.moveTo T).handed b held g = some v
  else ∃ g, ((w.moveTo T).oldOwners b).head? = some g ∧ held g = some v

variable [LawfulCells St] {w : World St} {new : List NodeId} {max : ℕ}

/-- **Which keys stay readable when a membership call follows a migration that has stopped.** -/
theorem readable_iff (h : w.cluster.Sound) (hnd : new.Nodup) (hcl : ∀ n ∈ new, n ∈ w.cluster.clients)
    (hdiff : ¬sameMembers w.cluster.memberIds new) (hstop : max < (w.chunksTo new).length)
    (r : Reshape) (hnd' : (r.target w.cluster.memberIds).Nodup)
    (hcl' : ∀ n ∈ r.target w.cluster.memberIds, n ∈ w.cluster.clients) {c k : String} {v : Value}
    (hc : c ∈ w.cluster.colls) :
    (r.run (rebalancePartial (fun _ => .ok) w new max)).get (fun _ => .ok) c k = some v ↔
      w.StaysReadable new max r c k v := by
  let r₁ : Reshape := .rebalancePartial new max
  have hpart : ¬r₁.completes (w.chunksTo new) := Nat.not_le.mpr hstop
  have hcut : r₁.CutsOver (w.chunksTo new) (bucketOf k) ↔ w.CutBy new max k := or_iff_right hpart
  obtain ⟨-, hdown, hroute, hroute', hclients⟩ := r₁.run_spec (k := k) h.toStaffed hnd hcl hdiff hc
  have hcell := r₁.cell_run (k := k) h.toStaffed hnd hcl hdiff hc
  obtain ⟨hbase, o, hov⟩ := r₁.run_of_stopped hdiff hpart
  -- From here on only these facts about the first call are used.
  change (r.run (r₁.run w)).get _ c k = some v ↔ _
  generalize r₁.run w = w₁ at *
  have hheld : w₁.cell c k = w.heldAfter new max c k := hcell.trans (if_congr hcut rfl rfl)
  have hfield : ∀ {α : Type} (f : Cluster → α), f w₁.cluster.base = f w.cluster.base :=
    fun f => congrArg f hbase
  have hids : w₁.cluster.memberIds = w.cluster.memberIds := hfield Cluster.memberIds
  have hstaffed : w₁.cluster.Staffed := h.toStaffed.of_base hbase
  have hclients₁ : w₁.cluster.clients = w.cluster.clients := hfield Cluster.clients
  have hcolls : w₁.cluster.colls = w.cluster.colls := hfield Cluster.colls
  have hmove : ∀ T, w₁.moveTo T = w.moveTo T := fun T =>
    hfield fun cl => cl.move cl.memberIds T
  have hchunks : ∀ T, w₁.chunksTo T = w.chunksTo T := fun T =>
    hfield fun cl => cl.migrationChunks cl.memberIds T ∅
  rw [World.StaysReadable]
  dsimp only
  by_cases hsame : sameMembers w.cluster.memberIds (r.target w.cluster.memberIds)
  · rw [if_pos hsame, r.get_run_of_same hov hdown (by rwa [hids]) hclients, hids, hheld,
      Option.bind_eq_some_iff]
    by_cases hb : w.CutBy new max k
    · rw [if_pos hb, (hroute (hcut.mpr hb)).1]
      rfl
    · rw [if_neg hb, (hroute' (mt hcut.mp hb)).1]
      rfl
  · -- The second call plans from the same members as the first.
    rw [if_neg hsame]
    rw [← hids] at hsame hnd' hcl'
    rw [← hclients₁] at hcl'
    rw [← hcolls] at hc
    obtain ⟨-, -, hroute₂, hroute₂', -⟩ := r.run_spec (k := k) hstaffed hnd' hcl' hsame hc
    have hcell₂ : (r.run w₁).cell c k
        = if r.CutsOver (w₁.chunksTo (r.target w₁.cluster.memberIds)) (bucketOf k) then
            (w₁.moveTo (r.target w₁.cluster.memberIds)).handed (bucketOf k) (w₁.cell c k)
          else w₁.cell c k :=
      r.cell_run hstaffed hnd' hcl' hsame hc
    rw [r.get_run hstaffed hnd' hcl' hsame hc, hcell₂, hheld, Option.bind_eq_some_iff, ← hids,
      ← hchunks, ← hmove]
    by_cases hb : r.CutsOver (w₁.chunksTo (r.target w₁.cluster.memberIds)) (bucketOf k)
    · rw [if_pos hb, if_pos hb, (hroute₂ hb).1]
    · rw [if_neg hb, if_neg hb, (hroute₂' hb).1]

end TwoCalls

/-! ### Back to the old member -/

/-- The node `a` holds `1` under `(kv, fhc)`, a key of bucket `0`; buckets migrate one at a time. -/
def firstBucket : World MemoryStore :=
  (blankWorld ((clusterWith ["a"] "b").withChunk 1)).setShard "a"
    (Shard.writeObject ⟨"a", MemoryStore.new⟩ "kv" "fhc" (.int 1))

theorem sound_firstBucket : firstBucket.cluster.Sound where
  overlay := rfl
  down := rfl
  replication := rfl
  topology := rfl
  nodup := by decide
  clients := by decide

theorem exists_eq_cons_cons {l : List ℕ} (hs : l.Pairwise (· < ·)) (h0 : 0 ∈ l) (h1 : 1 ∈ l) :
    ∃ y t, l = 0 :: y :: t := by
  match l with
  | [] => exact absurd h0 not_mem_nil
  | [x] => simp at h0 h1; omega
  | x :: y :: t =>
    have hx : x = 0 := by
      rcases mem_cons.mp h0 with h | h
      · exact h.symm
      · exact absurd (rel_of_pairwise_cons hs h) (Nat.not_lt_zero x)
    exact ⟨y, t, by rw [hx]⟩

/-- A rebalance from `a` to `b` moves all the buckets, in order. -/
theorem chunksTo_firstBucket : ∃ y t, firstBucket.chunksTo ["b"] = [0] :: [y] :: t := by
  have hkeys : ∀ b < numBuckets, b ∈ (actionsOf (firstBucket.cluster.move ["a"] ["b"]).plan
      ∅).entries.map Prod.fst := by
    intro b hb
    refine (Move.mem_actionKeys (rebalanceable_aToB.valid (by decide))).mpr
      ⟨Finset.notMem_empty b, hb, .inr ⟨"a", mem_singleton.mpr rfl, ?_⟩⟩
    exact not_mem_cons_of_ne_of_not_mem (by decide) not_mem_nil
  obtain ⟨y, t, hl⟩ := exists_eq_cons_cons (pairwise_map.mpr (SortedMap.sorted _))
    (hkeys 0 (by decide)) (hkeys 1 (by decide))
  refine ⟨y, chunksFuel 1 t.length t, ?_⟩
  have hids : firstBucket.cluster.memberIds = ["a"] := rfl
  change chunks 1 _ = _
  rw [hids, hl]
  rfl

theorem one_lt_chunksTo_firstBucket : 1 < (firstBucket.chunksTo ["b"]).length := by
  obtain ⟨y, t, hch⟩ := chunksTo_firstBucket
  rw [hch]
  simp

theorem readable_firstBucket_iff : 1 < (firstBucket.chunksTo ["b"]).length ∧
    ((rebalance (fun _ => .ok) (rebalancePartial (fun _ => .ok) firstBucket ["b"] 1) ["a"]).get
        (fun _ => .ok) "kv" "fhc" = some (.int 1) ↔
      firstBucket.StaysReadable ["b"] 1 (.rebalance ["a"]) "kv" "fhc" (.int 1)) :=
  ⟨one_lt_chunksTo_firstBucket, readable_iff sound_firstBucket (by decide) (by decide) (by decide)
    one_lt_chunksTo_firstBucket (.rebalance ["a"]) (by decide) (by decide) (by decide)⟩

theorem cutsOver_firstBucket :
    (Reshape.rebalancePartial ["b"] 1).CutsOver (firstBucket.chunksTo ["b"]) (bucketOf "fhc") := by
  obtain ⟨y, t, hch⟩ := chunksTo_firstBucket
  have hb : bucketOf "fhc" = 0 := by decide +kernel
  rw [hb, hch]
  exact .inr (by simp [Reshape.portion])

/-- The bucket has moved to `b` when `a` is asked for again: its entry is on `b`, which is no longer
reached. -/
theorem entry_lost_by_return : firstBucket.cluster.Sound ∧ 1 < (firstBucket.chunksTo ["b"]).length ∧
    firstBucket.get (fun _ => .ok) "kv" "fhc" = some (.int 1) ∧
    (rebalance (fun _ => .ok) (rebalancePartial (fun _ => .ok) firstBucket ["b"] 1) ["a"]).get
      (fun _ => .ok) "kv" "fhc" = none := by
  refine ⟨sound_firstBucket, one_lt_chunksTo_firstBucket, by decide +kernel, ?_⟩
  have hdiff : ¬sameMembers firstBucket.cluster.memberIds ["b"] := by decide
  obtain ⟨-, hdown, hroute, -, hclients⟩ := (Reshape.rebalancePartial ["b"] 1).run_spec (c := "kv")
    (k := "fhc") sound_firstBucket.toStaffed (by decide) (by decide) hdiff (by decide)
  obtain ⟨hbase, o, hov⟩ := (Reshape.rebalancePartial ["b"] 1).run_of_stopped hdiff
    (Nat.not_le.mpr one_lt_chunksTo_firstBucket)
  obtain ⟨howners, -⟩ := hroute cutsOver_firstBucket
  obtain ⟨w₁, hw₁⟩ : ∃ w₁, w₁ = (Reshape.rebalancePartial ["b"] 1).run firstBucket := ⟨_, rfl⟩
  change ((Reshape.rebalance ["a"]).run ((Reshape.rebalancePartial ["b"] 1).run firstBucket)).get
    _ _ _ = _
  rw [← hw₁] at hdown hclients hbase hov howners ⊢
  have hids : w₁.cluster.memberIds = ["a"] := congrArg Cluster.memberIds hbase
  rw [Reshape.get_run_of_same hov hdown (by rw [hids]; decide) hclients, howners]
  rfl

end Stplr
