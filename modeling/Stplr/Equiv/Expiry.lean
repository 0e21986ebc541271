import Stplr.Equiv.Contents

/-!
# Entries that expire, under a rebalance

An export lists plain values, so a copy that a migration makes of an entry has no expiry.  Time passes
between the steps of a migration: `finishSlots` is what is left to be done to the slots of an entry, and
no step changes it (`finishSlots_step`), as long as the entry reads the same at every time until the
migration ends (`SettledUntil`); `finishCluster` does the same for the cluster.

So when a rebalance has finished, the slots have been handed over at its last clock reading
(`Rebalanced.slot_eq`), and an owner still has the expiry on record iff it had it and was sent no copy
(`expiry_kept_iff`).
-/

namespace Stplr

open Lib List Option Migration Cluster MemoryStore

variable {St : Type} [IndexStore St]

namespace Migration

/-- What the rest of a migration does to the slots of an entry. -/
def finishSlots (net : MigCall → Outcome) (cl : Cluster) (c k : String) (t : ℕ) (m : Migration)
    (s : NodeId → Slot) : NodeId → Slot :=
  match m.phase with
  | .locked =>
    if sameMembers m.old m.new then s
    else (cl.migrationChunks m.old m.new m.done).foldl
      (chunkSlots net cl c k t (actionsOf (cl.move m.old m.new).plan m.done)) s
  | .planned | .looping | .thawed _ => m.todo.foldl (chunkSlots net cl c k t m.actions) s
  | .draining ch => (ch :: m.todo).foldl (chunkSlots net cl c k t m.actions) s
  | .copying ch jobs =>
    m.todo.foldl (chunkSlots net cl c k t m.actions)
      ((dropJobs m.actions ch).foldl (DropJob.slots net cl c k t)
        (jobs.foldl (CopyJob.slots net cl c k t) s))
  | .dropping _ jobs =>
    m.todo.foldl (chunkSlots net cl c k t m.actions) (jobs.foldl (DropJob.slots net cl c k t) s)
  | .committing _ | .finished => s

end Migration

/-- The cluster as the end of the chunk loop leaves it, apart from the gates. -/
def Cluster.ended (cl : Cluster) (new : List NodeId) : Cluster :=
  { (cl.commit new).removeOverlay with gates := Gates.new }

theorem Cluster.ended_congr {cl cl' : Cluster} (h : cl.base = cl'.base) (new : List NodeId) :
    cl.ended new = cl'.ended new := by
  change cl.base.ended new = cl'.base.ended new
  rw [h]

namespace Migration

/-- The cluster as the rest of a migration leaves it, apart from the gates. -/
def finishCluster (cl : Cluster) (m : Migration) : Cluster := match m.phase with
  | .locked =>
    if sameMembers m.old m.new then { cl.commit m.new with gates := Gates.new } else cl.ended m.new
  | .committing steps => { steps.foldl (fun c s => s.exec c m.new) cl with gates := Gates.new }
  | .finished => { cl with gates := Gates.new }
  | _ => cl.ended m.new

variable {net : MigCall → Outcome} {w : World St} {m : Migration} {r : World St × Migration}

theorem finishCluster_step (hstop : m.stopAfter = none) (hs : m.Trans net w r) :
    finishCluster r.1.cluster r.2 = finishCluster w.cluster m := by
  cases hs with
  | same hp hsame =>
    conv_rhs => rw [finishCluster, hp]; dsimp only; rw [if_pos hsame]
    rfl
  | plan hp hdiff =>
    conv_rhs => rw [finishCluster, hp]; dsimp only; rw [if_neg hdiff]
    exact ended_congr (base_installOverlay ..) m.new
  | stop hp htodo hany =>
    rw [hstop] at hany
    cases hany
  | freeze hp =>
    conv_rhs => rw [finishCluster, hp]
    exact ended_congr (base_freeze ..) m.new
  | cutover hp =>
    conv_rhs => rw [finishCluster, hp]
    exact ended_congr rfl m.new
  | thaw hp =>
    conv_rhs => rw [finishCluster, hp]
    exact ended_congr (base_unfreeze ..) m.new
  | record hp | checkpoint hp =>
    conv_rhs => rw [finishCluster, hp]
    exact ended_congr (base_saveRecord ..) m.new
  | deliver hp | drop hp =>
    rw [finishCluster, finishCluster, hp]
    simp
  | last hp | drain hp | pair hp | transfer hp | node hp | commit hp | finish hp =>
    conv_rhs => rw [finishCluster, hp]
    rfl

/-! ### What a step leaves to be done to the slots -/

variable [LawfulCells St] {c k : String} {t : ℕ}

theorem foldl_slots_deliveries (hset : w.Settled c k t) (src dst : NodeId) (bs : List ℕ) (i : ℕ)
    (coll : String) (jobs : List CopyJob) :
    ((if exportCall net w src dst bs i coll = [] then []
        else [CopyJob.deliver src dst bs i coll (exportCall net w src dst bs i coll)])
      ++ jobs).foldl (CopyJob.slots net w.cluster c k t) (w.slot c k)
      = (CopyJob.transfer src dst bs i coll :: jobs).foldl (CopyJob.slots net w.cluster c k t)
          (w.slot c k) := by
  rw [foldl_append, foldl_cons]
  congr 1
  rw [CopyJob.slots, ← slots_deliver_export hset w.cluster]
  split_ifs with hes
  · rw [hes, slots_deliver_nil]
    rfl
  · rfl

/-- A step does not change what the migration will have done to the slots. -/
theorem finishSlots_step (hstop : m.stopAfter = none) (hs : m.Trans net w r)
    (hset : w.Settled c k t) :
    finishSlots net r.1.cluster c k t r.2 (r.1.slot c k)
      = finishSlots net w.cluster c k t m (w.slot c k) := by
  cases hs with
  | same hp hsame =>
    conv_rhs => rw [finishSlots, hp]; dsimp only; rw [if_pos hsame]
    rfl
  | plan hp hdiff hplan hacts =>
    conv_rhs => rw [finishSlots, hp]; dsimp only; rw [if_neg hdiff]
    unfold migrationChunks move Move.plan
    dsimp only
    rw [hplan, hacts]
    rfl
  | stop hp htodo hany =>
    rw [hstop] at hany
    cases hany
  | freeze hp htodo | last hp htodo =>
    rw [finishSlots, finishSlots, hp, htodo]
    rfl
  | pair hp =>
    rw [copyStep, finishSlots, finishSlots, hp]
    dsimp only
    rw [foldl_expand]
    rfl
  | transfer hp =>
    rw [copyStep, finishSlots, finishSlots, hp]
    dsimp only
    rw [foldl_slots_deliveries hset]
  | deliver hp =>
    rw [finishSlots, finishSlots, hp]
    dsimp only
    rw [slot_importCall, importCall_cluster]
    rfl
  | node hp =>
    rw [dropStep, finishSlots, finishSlots, hp]
    dsimp only
    rw [foldl_expand]
    rfl
  | drop hp =>
    rw [finishSlots, finishSlots, hp]
    dsimp only
    rw [slot_dropCall hset, dropCall_cluster]
    rfl
  | record hp | drain hp | cutover hp | thaw hp | checkpoint hp | commit hp | finish hp =>
    conv_rhs => rw [finishSlots, hp]
    rfl

end Migration

/-! ### Entries that read the same for a while -/

variable (k : String)

theorem Slot.importAll_cases (es : List (String × Value)) (s : Slot) :
    s.importAll k es = s ∨ ∃ v, s.importAll k es = .plain v := by
  induction es generalizing s with
  | nil => exact .inl rfl
  | cons e es ih =>
    have hstep : s.importAll k (e :: es)
        = (if k = e.1 then Slot.plain e.2 else s).importAll k es := rfl
    rw [hstep]
    split_ifs
    · rcases ih (.plain e.2) with h | h
      · exact .inr ⟨e.2, h⟩
      · exact .inr h
    · exact ih s

/-- Until time `t` the nodes return for the entry what they return at `t`. -/
def World.SettledUntil (w : World St) (c k : String) (t : ℕ) : Prop :=
  ∀ n t', w.now ≤ t' → t' ≤ t → (w.slot c k n).object t' = (w.slot c k n).object t

section Settled

variable [LawfulCells St] {net : MigCall → Outcome} {w : World St} {m : Migration}
  {r : World St × Migration} {c k : String} {t : ℕ}

/-- A step leaves the slot of a node alone or makes it one that does not change with time. -/
theorem slot_step (hs : m.Trans net w r) (c k : String) (n : NodeId) :
    r.1.slot c k n = w.slot c k n ∨ ∃ x, (r.1.slot c k n).object = fun _ => x := by
  cases hs with
  | @deliver ch src dst bs i coll es =>
    have hacts : Acts c k w (importCall net w src dst bs i coll es) _ := acts_importCall ..
    dsimp only
    rw [hacts.slot, CopyJob.slots]
    split_ifs
    · by_cases hn : n = dst
      · subst hn
        rw [Function.update_self]
        refine (Slot.importAll_cases k es _).imp_right ?_
        rintro ⟨v, hv⟩
        exact ⟨some v, by rw [hv]; rfl⟩
      · rw [Function.update_of_ne hn]
        exact .inl rfl
    · exact .inl rfl
  | @drop ch n₀ bs i coll =>
    have hacts : Acts c k w (dropCall net w n₀ bs i coll).1 _ := acts_dropCall ..
    dsimp only
    rw [hacts.slot, dropSlots]
    split_ifs
    · by_cases hn : n = n₀
      · subst hn
        rw [Function.update_self, Slot.dropped]
        split_ifs
        · exact .inr ⟨none, rfl⟩
        · exact .inl rfl
      · rw [Function.update_of_ne hn]
        exact .inl rfl
    · exact .inl rfl
  | _ => exact .inl rfl

theorem World.SettledUntil.step (h : w.SettledUntil c k t) (hs : m.Trans net w r) :
    r.1.SettledUntil c k t := by
  intro n t' hnow hle
  rcases slot_step hs c k n with heq | ⟨x, hx⟩
  · rw [heq]
    exact h n t' (hs.now_eq ▸ hnow) hle
  · rw [hx]

end Settled

/-! ### Runs in which only the migration and the clock move -/

/-- Only the migration and the clock move. -/
def SysLabel.isUndisturbed : SysLabel → Bool
  | .migrate | .tick _ => true
  | _ => false

section Runs

variable [LawfulCells St] {net : MigCall → Outcome} {c k : String}

/-- What is left to be done does not change in a run. -/
theorem finish_of_exec {ls : List SysLabel} (hls : ∀ l ∈ ls, l.isUndisturbed = true) :
    ∀ {s s' : System St} {m : Migration}, s.migration = some m → m.stopAfter = none →
      exec (System.step net) s ls = some s' →
      s.world.now ≤ s'.world.now ∧ ∃ m', s'.migration = some m' ∧
        m'.finishCluster s'.world.cluster = m.finishCluster s.world.cluster ∧
        (s.world.SettledUntil c k s'.world.now →
          m'.finishSlots net s'.world.cluster c k s'.world.now (s'.world.slot c k)
            = m.finishSlots net s.world.cluster c k s'.world.now (s.world.slot c k)) := by
  induction ls with
  | nil =>
    intro s s' m hm _ hrun
    obtain rfl := some.inj hrun
    exact ⟨le_rfl, m, hm, rfl, fun _ => rfl⟩
  | cons l ls ih =>
    intro s s' m hm hstop hrun
    rw [exec_cons, bind_eq_some_iff] at hrun
    obtain ⟨s₁, hs₁, hrun⟩ := hrun
    have ih := @ih fun l hl => hls l (mem_cons_of_mem _ hl)
    cases l with
    | migrate =>
      obtain ⟨m₀, hm₀, r, hr, rfl⟩ := System.migrateStep_eq_some hs₁
      obtain rfl := some.inj (hm.symm.trans hm₀)
      have htrans := trans_of_step hr
      obtain ⟨hle, m', hm', hcl, hslots⟩ := ih rfl (htrans.stopAfter_eq.trans hstop) hrun
      have hnow : r.1.now = s.world.now := htrans.now_eq
      have hle : s.world.now ≤ s'.world.now := hnow ▸ hle
      refine ⟨hle, m', hm', hcl.trans (finishCluster_step hstop htrans), fun hset => ?_⟩
      rw [hslots (hset.step htrans)]
      exact finishSlots_step hstop htrans fun n => hset n _ le_rfl hle
    | tick ms =>
      obtain rfl := some.inj hs₁
      have hm₁ : ({ s with world := { s.world with now := s.world.now + ms } } :
          System St).migration = some m := hm
      obtain ⟨hle, m', hm', hcl, hslots⟩ := ih hm₁ hstop hrun
      refine ⟨(Nat.le_add_right _ ms).trans hle, m', hm', hcl, fun hset => hslots ?_⟩
      exact fun n t' hnow hle' => hset n t' ((Nat.le_add_right _ ms).trans hnow) hle'
    | _ => exact absurd (hls _ (mem_cons_self ..)) (by simp [SysLabel.isUndisturbed])

/-- A rebalance of `w` to `new` that has finished, in a run in which otherwise only time passed. -/
structure Rebalanced (net : MigCall → Outcome) (w : World St) (new : List NodeId) (s : System St) :
    Prop where
  run : ∃ ls, (∀ l ∈ ls, SysLabel.isUndisturbed l = true) ∧
    exec (System.step net) (System.begin w w.cluster.memberIds new none) ls = some s
  finished : ∃ m, s.migration = some m ∧ m.phase = .finished

namespace Rebalanced

variable {w : World St} {new : List NodeId} {s : System St}

/-- The coordinator is at rest on the new members. -/
theorem sound (hreb : Rebalanced net w new s) (h : w.cluster.Sound) (hnd : new.Nodup)
    (hcl : ∀ n ∈ new, n ∈ w.cluster.clients) : s.world.cluster.Sound ∧ ∀ k, s.world.cluster.owners k
        = planNewOwners new w.cluster.replicationTarget w.cluster.topology (bucketOf k) := by
  obtain ⟨ls, hls, hrun⟩ := hreb.run
  obtain ⟨m, hm, hfin⟩ := hreb.finished
  obtain ⟨-, m', hm', hend, -⟩ := finish_of_exec (c := "") (k := "") hls rfl rfl hrun
  obtain rfl := some.inj (hm.symm.trans hm')
  rw [finishCluster, hfin, finishCluster] at hend
  have hbase : s.world.cluster.base = (w.cluster.commit new).base := by
    refine (congrArg base hend).trans ?_
    change (if sameMembers w.cluster.memberIds new then _ else _ : Cluster).base = _
    split_ifs <;> rfl
  have hov : s.world.cluster.overlay = none := by
    refine (congrArg overlay hend).trans ?_
    change (if sameMembers w.cluster.memberIds new then _ else _ : Cluster).overlay = _
    split_ifs
    · exact h.overlay
    · rfl
  exact sound_commit h.toStaffed hbase hov hnd hcl

/-- The slots of an entry of a managed collection that reads the same throughout have been handed over
at the last clock reading. -/
theorem slot_eq (hreb : Rebalanced (fun _ => .ok) w new s) (h : w.cluster.Sound) (hnd : new.Nodup)
    (hcl : ∀ n ∈ new, n ∈ w.cluster.clients) (hc : c ∈ w.cluster.colls)
    (hset : w.SettledUntil c k s.world.now) (n : NodeId) :
    s.world.slot c k n = if sameMembers w.cluster.memberIds new then w.slot c k n
      else (w.cluster.move w.cluster.memberIds new).handOver ∅ s.world.now (bucketOf k)
        (w.slot c k) n := by
  obtain ⟨ls, hls, hrun⟩ := hreb.run
  obtain ⟨m, hm, hfin⟩ := hreb.finished
  obtain ⟨-, m', hm', -, hend⟩ := finish_of_exec (c := c) (k := k) hls rfl rfl hrun
  obtain rfl := some.inj (hm.symm.trans hm')
  have hend := congrFun (hend hset) n
  rw [finishSlots, hfin] at hend
  refine Eq.trans hend ?_
  rw [finishSlots, start, System.begin]
  dsimp only
  split_ifs with hsame
  · rfl
  · rw [foldl_migrationChunks onlySilent_ok (Finset.notMem_empty n) (Finset.notMem_empty _)
      (reaches_rebalance h.toStaffed hnd hcl (bucketOf k)), if_pos hc]

/-- What an owner on the new ring has for the entry. -/
theorem slot_owner (hreb : Rebalanced (fun _ => .ok) w new s) (h : w.cluster.Sound) (hnd : new.Nodup)
    (hcl : ∀ n ∈ new, n ∈ w.cluster.clients) (hc : c ∈ w.cluster.colls)
    (hset : w.SettledUntil c k s.world.now) {n : NodeId}
    (hn : n ∈ planNewOwners new w.cluster.replicationTarget w.cluster.topology (bucketOf k)) :
    (∀ src, w.Sends ∅ new c k src n →
      s.world.slot c k n = (w.slot c k n).imported ((w.slot c k src).object s.world.now)) ∧
    ((∀ src, ¬w.Sends ∅ new c k src n) → s.world.slot c k n = w.slot c k n) := by
  rw [hreb.slot_eq h hnd hcl hc hset]
  constructor
  · rintro src ⟨-, hdiff, hold, hhead, hsrc⟩
    rw [if_neg hdiff]
    exact @Move.handOver_of_sent (w.cluster.move w.cluster.memberIds new) ∅ _ _ _ hn hold hhead hsrc
      _ _
  · intro hno
    split_ifs with hsame
    · rfl
    · exact @Move.handOver_of_not_sent (w.cluster.move w.cluster.memberIds new) ∅ _ _ hn
        (fun src hs => hno src ⟨hc, hsame, hs⟩) _ _

end Rebalanced

/-! ### An entry with a time to live -/

/-- An entry that expires at `e`. -/
def Slot.expiring (v : Value) (e : ℕ) : Slot := ⟨fun t => if e ≤ t then none else some v, some e⟩

/-- The replicas of an entry that expires at `e`: the owners have it, no other node does. -/
structure Expiring (w : World St) (c k : String) (v : Value) (e : ℕ) : Prop where
  owners : ∀ n ∈ w.cluster.owners k, w.slot c k n = .expiring v e
  others : ∀ n ∉ w.cluster.owners k, w.slot c k n = .empty

variable {w : World St} {v : Value}

omit [LawfulCells St] in
theorem Expiring.object_eq {e : ℕ} (hx : Expiring w c k v e) (n : NodeId) {t : ℕ} (ht : t < e) :
    (w.slot c k n).object t = if n ∈ w.cluster.owners k then some v else none := by
  split_ifs with hn
  · rw [hx.owners n hn]
    exact if_neg (Nat.not_le.mpr ht)
  · rw [hx.others n hn]
    rfl

omit [LawfulCells St] in
theorem Expiring.settledUntil {e t : ℕ} (hx : Expiring w c k v e) (ht : t < e) :
    w.SettledUntil c k t := by
  intro n t' _ hle
  rw [hx.object_eq n (hle.trans_lt ht), hx.object_eq n ht]

/-- What a `get` would return at time `t`. -/
def World.getAt (w : World St) (t : ℕ) (c k : String) : Option Value :=
  { w with now := t }.get (fun _ => .ok) c k

omit [LawfulCells St] in
theorem Cluster.Sound.getAt_eq (h : w.cluster.Sound) (t : ℕ) (c k : String) :
    w.getAt t c k = (w.cluster.owners k).head?.bind fun g => (w.slot c k g).object t :=
  Cluster.Sound.get_eq (w := { w with now := t }) h c k

/-- **When a rebalance carries an expiry along.**  An entry of a managed collection expires at `e`,
after the rebalance has finished.  Then all its owners still have `e` on record, and at every later
time a `get` returns what it would have returned without the rebalance, iff every owner on the new ring
was an owner before and was not sent a copy by another one. -/
theorem expiry_kept_iff {w : World St} (h : w.cluster.Sound) {new : List NodeId} (hne : new ≠ [])
    (hnd : new.Nodup) (hcl : ∀ n ∈ new, n ∈ w.cluster.clients) {c k : String}
    (hc : c ∈ w.cluster.colls) {v : Value} {e : ℕ} (hx : Expiring w c k v e) {s : System St}
    (hreb : Rebalanced (fun _ => .ok) w new s) (hlive : s.world.now < e) :
    ((∀ n ∈ s.world.cluster.owners k, (s.world.slot c k n).expiry = some e) ∧
      ∀ t, s.world.now ≤ t → s.world.getAt t c k = w.getAt t c k) ↔
    ∀ n ∈ planNewOwners new w.cluster.replicationTarget w.cluster.topology (bucketOf k),
      n ∈ w.cluster.owners k ∧ ∀ src ∈ w.cluster.owners k, ¬w.Sends ∅ new c k src n := by
  obtain ⟨hsound, howners⟩ := hreb.sound h hnd hcl
  have hslot := fun {n} => @Rebalanced.slot_owner _ _ _ c k _ _ _ hreb h hnd hcl hc
    (hx.settledUntil hlive) n
  -- a copy from an owner is a plain value; from anywhere else there is nothing to copy
  have hkeep : ∀ {n}, n ∈ planNewOwners new w.cluster.replicationTarget w.cluster.topology
      (bucketOf k) → (∀ src ∈ w.cluster.owners k, ¬w.Sends ∅ new c k src n) →
      s.world.slot c k n = w.slot c k n := by
    intro n hn hno
    by_cases hs : ∃ src, w.Sends ∅ new c k src n
    · obtain ⟨src, hs⟩ := hs
      have hsrc : src ∉ w.cluster.owners k := fun hm => hno src hm hs
      rw [(hslot hn).1 src hs, hx.object_eq src hlive, if_neg hsrc]
      rfl
    · exact (hslot hn).2 (not_exists.mp hs)
  rw [howners]
  constructor
  · rintro ⟨hexp, -⟩ n hn
    have hno : ∀ src ∈ w.cluster.owners k, ¬w.Sends ∅ new c k src n := by
      intro src hsrc hs
      have := hexp n hn
      rw [(hslot hn).1 src hs, hx.object_eq src hlive, if_pos hsrc] at this
      cases this
    refine ⟨?_, hno⟩
    by_contra hout
    have := hexp n hn
    rw [hkeep hn hno, hx.others n hout] at this
    cases this
  · intro hall
    have hcopy : ∀ n ∈ planNewOwners new w.cluster.replicationTarget w.cluster.topology (bucketOf k),
        s.world.slot c k n = .expiring v e := fun n hn =>
      (hkeep hn (hall n hn).2).trans (hx.owners n (hall n hn).1)
    refine ⟨fun n hn => by rw [hcopy n hn]; rfl, fun t _ => ?_⟩
    rw [hsound.getAt_eq, h.getAt_eq, howners]
    obtain ⟨g, os, ho⟩ := exists_cons_of_ne_nil
      (planNewOwners_ne_nil hne hnd w.cluster.replicationTarget w.cluster.topology (bucketOf k))
    have hg : g ∈ planNewOwners new w.cluster.replicationTarget w.cluster.topology (bucketOf k) :=
      ho ▸ mem_cons_self ..
    obtain ⟨g', os', ho'⟩ := exists_cons_of_ne_nil (ne_nil_of_mem (hall g hg).1)
    rw [ho, ho', head?_cons, head?_cons, bind_some, bind_some, hcopy g hg,
      hx.owners g' (ho' ▸ mem_cons_self ..)]

/-! ### Every rebalance finishes -/

omit [LawfulCells St] in
theorem exec_of_steps {a b : World St × Migration} (h : Migration.Steps net a b) :
    ∃ ls, (∀ l ∈ ls, SysLabel.isUndisturbed l = true) ∧
      exec (System.step net) ⟨a.1, [], some a.2, []⟩ ls = some ⟨b.1, [], some b.2, []⟩ := by
  obtain ⟨n, hn⟩ := exec_replicate_of_steps (f := fun a : World St × Migration =>
    (⟨a.1, [], some a.2, []⟩ : System St)) (fun a b hab => System.step_migrate hab [] []) h
  exact ⟨replicate n .migrate, fun l hl => (eq_of_mem_replicate hl) ▸ rfl, hn⟩

omit [LawfulCells St] in
/-- A rebalance that nothing disturbs finishes, with what `rebalance` computes. -/
theorem exists_rebalanced (net : MigCall → Outcome) (w : World St) (new : List NodeId)
    (hfree : ∀ b, w.cluster.gates.inFlight b = 0) :
    ∃ s, Rebalanced net w new s ∧ s.world = rebalance net w new := by
  obtain ⟨m, hsteps, hfin⟩ := exists_finished net w (start w.cluster.memberIds new ∅ none) hfree
  rw [finish_start] at hsteps
  obtain ⟨ls, hls, hrun⟩ := exec_of_steps hsteps
  exact ⟨_, ⟨⟨ls, hls, hrun⟩, m, rfl, hfin⟩, rfl⟩

end Runs

/-- The node `a` holds `1` under `(kv, key)` until time 1000; there is a client for `b`. -/
def ttlEntry (key : String) : World MemoryStore := (blankWorld (clusterWith ["a"] "b")).setShard "a"
    (Shard.writeObjectTtl 0 ⟨"a", MemoryStore.new⟩ "kv" key (.int 1) 1000)

variable (key : String)

theorem owners_ttlEntry : (ttlEntry key).cluster.owners k = ["a"] :=
  Cluster.Sound.owners_eq (sound_clusterWith (by decide) "b") k

theorem slot_ttlEntry : (ttlEntry key).slot "kv" key "a" = .expiring (.int 1) 1000 := by
  have hobj : (putObjectAt .new "kv" key (.int 1) 1000).objects.get "kv" key = some (.int 1) := by
    rw [putObjectAt, Nested.get_insert, if_pos ⟨rfl, rfl⟩]
  have hexp : (putObjectAt .new "kv" key (.int 1) 1000).expiry.get "kv" key = some 1000 := by
    rw [putObjectAt, Nested.get_insert, if_pos ⟨rfl, rfl⟩]
  rw [ttlEntry, World.slot_setShard, Function.update_self]
  refine Slot.ext (funext fun t => ?_) hexp
  change getObject t (putObjectAt .new "kv" key (.int 1) 1000) "kv" key = _
  rw [getObject, isExpired, hexp, hobj]
  simp [Slot.expiring]

theorem expiring_ttlEntry : Expiring (ttlEntry key) "kv" key (.int 1) 1000 := by
  constructor
  · intro n hn
    rw [owners_ttlEntry] at hn
    rw [mem_singleton.mp hn, slot_ttlEntry]
  · intro n hn
    rw [owners_ttlEntry, mem_singleton] at hn
    rw [ttlEntry, World.slot_setShard, Function.update_of_ne hn]
    rfl

theorem sound_ttlEntry : (ttlEntry key).cluster.Sound := sound_clusterWith (by decide) "b"

/-- The entry `y` stays on `a` when `b` joins, and keeps its expiry. -/
theorem expiry_kept_ttlEntry : ∃ s, Rebalanced (fun _ => .ok) (ttlEntry "y") ["a", "b"] s ∧
    (∀ n ∈ s.world.cluster.owners "y", (s.world.slot "kv" "y" n).expiry = some 1000) ∧
      ∀ t, s.world.now ≤ t → s.world.getAt t "kv" "y" = (ttlEntry "y").getAt t "kv" "y" := by
  obtain ⟨s, hreb, hw⟩ := exists_rebalanced (fun _ => .ok) (ttlEntry "y") ["a", "b"] fun _ => rfl
  have hnow : s.world.now = 0 := by
    rw [hw]
    exact (base_runMigration ..).2.1
  have hnew : planNewOwners ["a", "b"] 1 ∅ (bucketOf "y") = ["a"] := by decide +kernel
  have hold : planOldOwners (ttlEntry "y").cluster.memberIds 1 ∅ (bucketOf "y") = ["a"] := by
    decide +kernel
  refine ⟨s, hreb, (expiry_kept_iff (sound_ttlEntry "y") (by decide) (by decide) (by decide)
    (by decide) (expiring_ttlEntry "y") hreb (by rw [hnow]; decide)).mpr fun n hn => ?_⟩
  have hn : n ∈ planNewOwners ["a", "b"] 1 ∅ (bucketOf "y") := hn
  rw [hnew, mem_singleton] at hn
  subst hn
  rw [owners_ttlEntry]
  refine ⟨mem_singleton_self _, fun src _ hs => ?_⟩
  have hnot : "a" ∉ planOldOwners (ttlEntry "y").cluster.memberIds 1 ∅ (bucketOf "y") := hs.2.2.1
  rw [hold] at hnot
  exact hnot (mem_singleton_self _)

/-- The entry `x` moves from `a` to `b` and does not expire any more. -/
theorem expiry_lost_by_rebalance : ∃ s, Rebalanced (fun _ => .ok) (ttlEntry "x") ["b"] s ∧
    Expiring (ttlEntry "x") "kv" "x" (.int 1) 1000 ∧ s.world.now < 1000 ∧
    (s.world.slot "kv" "x" "b").expiry = none ∧
    (ttlEntry "x").getAt 1000 "kv" "x" = none ∧ s.world.getAt 1000 "kv" "x" = some (.int 1) := by
  obtain ⟨s, hreb, hw⟩ := exists_rebalanced (fun _ => .ok) (ttlEntry "x") ["b"] fun _ => rfl
  have hnow : s.world.now = 0 := by
    rw [hw]
    exact (base_runMigration ..).2.1
  have hlive : s.world.now < 1000 := by rw [hnow]; decide
  have hx := expiring_ttlEntry "x"
  have hnd : ["b"].Nodup := by decide
  have hcl : ∀ n ∈ ["b"], n ∈ (ttlEntry "x").cluster.clients := by decide
  have hnew : planNewOwners ["b"] 1 ∅ (bucketOf "x") = ["b"] := rfl
  have hold : planOldOwners (ttlEntry "x").cluster.memberIds 1 ∅ (bucketOf "x") = ["a"] := by
    decide +kernel
  have hmem : "b" ∈ planNewOwners ["b"] 1 ∅ (bucketOf "x") := hnew ▸ mem_singleton_self _
  have hsends : (ttlEntry "x").Sends ∅ ["b"] "kv" "x" "a" "b" := by
    refine ⟨by decide, by decide +kernel, ?_, ?_, Finset.notMem_empty _⟩
    · change "b" ∉ planOldOwners (ttlEntry "x").cluster.memberIds 1 ∅ (bucketOf "x")
      rw [hold]
      decide
    · change (planOldOwners (ttlEntry "x").cluster.memberIds 1 ∅ (bucketOf "x")).head? = some "a"
      rw [hold]
      rfl
  obtain ⟨hsound, howners⟩ := hreb.sound (sound_ttlEntry "x") hnd hcl
  -- what `b` gets is a plain copy
  have hslot : s.world.slot "kv" "x" "b" = .plain (.int 1) := by
    rw [(hreb.slot_owner (sound_ttlEntry "x") hnd hcl (by decide) (hx.settledUntil hlive) hmem).1 "a"
      hsends, hx.object_eq "a" hlive, owners_ttlEntry, if_pos (mem_singleton_self _)]
    rfl
  refine ⟨s, hreb, hx, hlive, by rw [hslot]; rfl, ?_, ?_⟩
  · rw [(sound_ttlEntry "x").getAt_eq, owners_ttlEntry, head?_cons, bind_some, slot_ttlEntry]
    rfl
  · have hb : s.world.cluster.owners "x" = ["b"] := (howners "x").trans hnew
    rw [hsound.getAt_eq, hb, head?_cons, bind_some, hslot]
    rfl

end Stplr
