import Stplr.Equiv.Rebalance
import Stplr.Perform

/-!
# Single-key calls when shard calls fail

A broadcast changes the owners on which it takes effect (`takers`, `broadcastLoop_eq`), and `get`
believes the first owner that answers (`getLoop_eq`).  From these:

* `put_readBack_iff`: when a put is read back later;
* `truthful_iff`: when the reply of `cas` or `incr` says what has happened.
-/

namespace Stplr

open Lib List Option Function

variable {St : Type}

/-! ### Positions in the owner list -/

theorem exists_getElem?_cons {α : Type} {P : ℕ → Prop} {a x : α} {l : List α} :
    (∃ i, (a :: l)[i]? = some x ∧ P i) ↔ (a = x ∧ P 0) ∨ ∃ i, l[i]? = some x ∧ P (i + 1) := by
  constructor
  · rintro ⟨i, hi, hP⟩
    cases i with
    | zero => exact .inl ⟨some.inj hi, hP⟩
    | succ i => exact .inr ⟨i, hi, hP⟩
  · rintro (⟨rfl, hP⟩ | ⟨i, hi, hP⟩)
    · exact ⟨0, rfl, hP⟩
    · exact ⟨i + 1, hi, hP⟩

/-- The owners on which a broadcast takes effect. -/
def takers (c : Cluster) : (ℕ → Outcome) → List NodeId → List NodeId
  | _, [] => []
  | net, n :: owners =>
    if ¬c.skips n ∧ (net 0).effective then n :: takers c (laterCalls net) owners
    else takers c (laterCalls net) owners

theorem mem_takers {c : Cluster} {n : NodeId} {owners : List NodeId} : ∀ {net : ℕ → Outcome},
    n ∈ takers c net owners ↔ ∃ i, owners[i]? = some n ∧ ¬c.skips n ∧ (net i).effective = true := by
  induction owners with
  | nil => simp [takers]
  | cons m owners ih =>
    intro net
    rw [exists_getElem?_cons, takers]
    have hih := @ih (laterCalls net)
    split_ifs with h
    · rw [mem_cons, hih]
      refine or_congr_left ⟨fun hn => ?_, fun hn => hn.1.symm⟩
      subst hn
      exact ⟨rfl, h⟩
    · rw [hih, or_iff_right]
      · rfl
      · rintro ⟨rfl, hn⟩
        exact h hn

theorem takers_sublist (c : Cluster) (owners : List NodeId) : ∀ net : ℕ → Outcome,
    (takers c net owners).Sublist owners := by
  induction owners with
  | nil => exact fun _ => List.Sublist.refl _
  | cons m owners ih =>
    intro net
    rw [takers]
    split_ifs
    · exact (ih _).cons_cons m
    · exact (ih _).cons m

/-! ### What a broadcast does -/

namespace World

variable [IndexStore St]

/-- The operation on each of the nodes, one after the other. -/
def execOn (op : ShardOp) (w : World St) (ns : List NodeId) : World St :=
  ns.foldl (fun w n => w.setShard n (op.exec w.now (w.shards n))) w

@[simp] theorem execOn_cluster (op : ShardOp) (ns : List NodeId) : ∀ w : World St,
    (w.execOn op ns).cluster = w.cluster := by
  induction ns with
  | nil => exact fun _ => rfl
  | cons n ns ih => exact fun w => ih _

@[simp] theorem execOn_now (op : ShardOp) (ns : List NodeId) : ∀ w : World St,
    (w.execOn op ns).now = w.now := by
  induction ns with
  | nil => exact fun _ => rfl
  | cons n ns ih => exact fun w => ih _

variable {w : World St} (op : ShardOp) (owners : List NodeId)

/-- A broadcast runs its operation on its takers. -/
theorem broadcastLoop_eq :
    ∀ (net : ℕ → Outcome) (w : World St),
      broadcastLoop op net w owners = w.execOn op (takers w.cluster net owners) := by
  induction owners with
  | nil => exact fun _ _ => rfl
  | cons n owners ih =>
    intro net w
    rw [broadcastLoop, takers, ih]
    split_ifs <;> rfl

/-- The replicas are written like a broadcast that none of them is skipped in for being down. -/
theorem replicateLoop_eq (coll key : String) (v : Value) (replicas : List NodeId) :
    ∀ (net : ℕ → Outcome) (w : World St), (∀ n ∈ replicas, n ∉ w.cluster.down) →
      replicateLoop coll key v net w replicas
        = broadcastLoop (.writeObject coll key v) net w replicas := by
  induction replicas with
  | nil => exact fun _ _ _ => rfl
  | cons n replicas ih =>
    intro net w hup
    have hskip : ¬w.cluster.skips n ↔ n ∈ w.cluster.clients := by
      simp [Cluster.skips, hup n (mem_cons_self ..)]
    rw [replicateLoop, broadcastLoop]
    simp only [hskip]
    rw [ih]
    · rfl
    · intro m hm
      have := hup m (mem_cons_of_mem _ hm)
      split_ifs <;> exact this

theorem shards_execOn {ns : List NodeId} (hnd : ns.Nodup) (n : NodeId) :
    ∀ w : World St, (w.execOn op ns).shards n
      = if n ∈ ns then op.exec w.now (w.shards n) else w.shards n := by
  induction ns with
  | nil => exact fun _ => rfl
  | cons m ns ih =>
    intro w
    obtain ⟨hm, hnd⟩ := nodup_cons.mp hnd
    change ((w.setShard m (op.exec w.now (w.shards m))).execOn op ns).shards n = _
    rw [ih hnd]
    by_cases hn : n = m
    · subst hn
      rw [if_neg hm, if_pos (mem_cons_self ..)]
      exact update_self ..
    · have hsh : (w.setShard m (op.exec w.now (w.shards m))).shards n = w.shards n :=
        update_of_ne hn ..
      rw [hsh]
      simp only [mem_cons, hn, false_or]
      rfl

/-- A put leaves its value with every node that takes it, for good. -/
theorem object_execOn_put [LawfulCells St] (coll key : String) (v : Value) (ns : List NodeId)
    (n : NodeId) (t : ℕ) : ∀ w : World St,
    ((w.execOn (.writeObject coll key v) ns).shards n).object t coll key
      = if n ∈ ns then some v else (w.shards n).object t coll key := by
  induction ns with
  | nil => exact fun _ => rfl
  | cons m ns ih =>
    intro w
    change ((execOn _ (w.setShard m ((w.shards m).writeObject coll key v)) ns).shards n).object t
      coll key = _
    rw [ih]
    by_cases hn : n = m
    · subst hn
      have hsh : (w.setShard n ((w.shards n).writeObject coll key v)).shards n
          = (w.shards n).writeObject coll key v := update_self ..
      rw [hsh, Shard.object_writeObject]
      simp
    · have hsh : (w.setShard m ((w.shards m).writeObject coll key v)).shards n = w.shards n :=
        update_of_ne hn ..
      rw [hsh]
      simp [hn]

/-! ### What `get` believes -/

/-- If the owners hold one value and one of them answers, then that value is read. -/
theorem getLoop_of_hold {coll key : String} {v : Option Value} {owners : List NodeId} :
    ∀ {net : ℕ → Outcome}, Hold (w.cell coll key) owners v →
    (∃ n i, owners[i]? = some n ∧ ¬w.cluster.skips n ∧ net i = .ok) →
    w.getLoop coll key net owners = v := by
  induction owners with
  | nil => rintro net - ⟨n, i, hi, -⟩; cases hi
  | cons m owners ih =>
    intro net hold ⟨n, hn⟩
    by_cases hm : w.cluster.skips m ∨ net 0 ≠ .ok
    · rw [getLoop, if_pos hm]
      refine ih (fun x hx => hold x (mem_cons_of_mem _ hx)) ⟨n, ?_⟩
      -- the first owner does not answer, so it is not the one that does
      rcases exists_getElem?_cons.mp hn with ⟨rfl, h1, h2⟩ | hn
      · exact absurd h2 (hm.resolve_left h1)
      · exact hn
    · rw [getLoop, if_neg hm]
      exact hold m (mem_cons_self ..)

end World

/-! ### A put and a later get -/

/-- On the way from `w` to `w'` nothing is written under the key, and its routes stay. -/
structure Quiet [IndexStore St] (coll key : String) (w w' : World St) : Prop where
  owners : w'.cluster.owners key = w.cluster.owners key
  object : ∀ n t, (w'.shards n).object t coll key = (w.shards n).object t coll key

/-- **When a put is read back.**  Some owner answers the put, and all owners answer a get later on.
The get returns the value put iff the owner that is asked first took the put or held the value
anyway. -/
theorem put_readBack_iff [IndexStore St] [LawfulCells St] {net : ℕ → Outcome} {w later : World St}
    {coll key : String} {v : Value}
    (hput : ∃ n i, (w.cluster.owners key)[i]? = some n ∧ ¬w.cluster.skips n ∧ net i = .ok)
    (hquiet : Quiet coll key (w.perform net ⟨coll, key, .put v⟩).1 later)
    (hall : ∀ n ∈ later.cluster.owners key, ¬later.cluster.skips n) :
    later.get (fun _ => .ok) coll key = some v ↔ ∃ p, (w.cluster.owners key).head? = some p ∧
        (p ∈ takers w.cluster net (w.cluster.owners key) ∨
          (w.shards p).object later.now coll key = some v) := by
  have hown : later.cluster.owners key = w.cluster.owners key := by
    rw [hquiet.owners]
    change (World.broadcastLoop _ net w _).cluster.owners key = _
    rw [World.broadcastLoop_eq, World.execOn_cluster]
  cases ho : w.cluster.owners key with
  | nil =>
    obtain ⟨n, i, hi, -⟩ := hput
    rw [ho] at hi
    cases hi
  | cons p owners =>
    have hp : p ∈ later.cluster.owners key := by rw [hown, ho]; exact mem_cons_self ..
    rw [World.get, hown, ho, World.getLoop, if_neg (by simp [hall p hp]), hquiet.object]
    change ((World.broadcastLoop (.writeObject coll key v) net w
      (w.cluster.owners key)).shards p).object _ _ _ = _ ↔ _
    rw [World.broadcastLoop_eq, World.object_execOn_put, ho]
    simp only [head?_cons, some.injEq, exists_eq_left']
    split_ifs with htake <;> simp [htake]

/-- Both owners of `x` take the put. -/
theorem put_readBack_twoOwners :
    (twoOwners.perform (fun _ => .ok) ⟨"kv", "x", .put (.int 1)⟩).1.get (fun _ => .ok) "kv" "x"
      = some (.int 1) :=
  (put_readBack_iff ⟨"b", 0, by decide +kernel, by decide +kernel, rfl⟩ ⟨rfl, fun _ _ => rfl⟩
    (by decide +kernel)).mpr ⟨"b", by decide +kernel, Or.inl (by decide +kernel)⟩

/-- The first owner of `x` misses the put, the second one answers; later on both answer. -/
theorem put_not_readBack_of_missed :
    let net : ℕ → Outcome := fun i => if i = 0 then .failedBefore else .ok
    let w := (twoOwners.perform net ⟨"kv", "x", .put (.int 1)⟩).1
    (∃ n i, (twoOwners.cluster.owners "x")[i]? = some n ∧ ¬twoOwners.cluster.skips n ∧
      net i = .ok) ∧
    (∀ n ∈ w.cluster.owners "x", ¬w.cluster.skips n) ∧ w.get (fun _ => .ok) "kv" "x" = none :=
  ⟨⟨"a", 1, by decide +kernel, by decide +kernel, rfl⟩, by decide +kernel, by decide +kernel⟩

/-! ### Operations with a primary -/

/-- The reply says that nothing was changed. -/
def Reply.denies : Reply → Bool
  | .flag false | .number none => true
  | _ => false

namespace World

variable [IndexStore St]

/-- What an operation with a primary makes of the primary's shard. -/
structure Decided (w : World St) (call : Call) (p : NodeId) (sh : Shard St) : Prop where
  object : ∀ c k, sh.object w.now c k = if c = call.coll ∧ k = call.key
    then call.op.result (w.cell call.coll call.key p) else w.cell c k p
  expiryAt : ∀ c k, (w.shards p).expiryAt c k = none → sh.expiryAt c k = none

/-- What the primary alone changes. -/
theorem Decided.cell {w : World St} {call : Call} {p : NodeId} {sh : Shard St}
    (hsh : w.Decided call p sh) (c k : String) (n : NodeId) : (w.setShard p sh).cell c k n
      = if n = p ∧ c = call.coll ∧ k = call.key then
          call.op.result (w.cell call.coll call.key p) else w.cell c k n := by
  rw [World.cell_setShard]
  by_cases hn : n = p
  · subst hn
    rw [if_pos rfl, hsh.object]
    simp
  · simp [hn]

variable {w : World St} {owners : List NodeId} {call : Call} {p : NodeId} {replicas : List NodeId}
  {net : ℕ → Outcome} {sh : Shard St} {r : Reply}

variable {n : NodeId}

omit [IndexStore St] in
theorem live_subset (h : n ∈ w.live owners) : n ∈ owners ∧ n ∉ w.cluster.down := by
  simpa [live] using h

variable [LawfulCells St]

/-- An operation with a primary either decides and copies its value, or denies. -/
theorem visitOwners_primary (net : ℕ → Outcome) (w : World St) (hop : call.op.primary = true)
    (hl : w.live owners = p :: replicas) (hp : p ∈ w.cluster.clients) :
    ∃ sh, w.Decided call p sh ∧
      ((∃ v r, call.op.decides (w.cell call.coll call.key p) = some v ∧ net 0 = .ok ∧
          r.denies = false ∧ w.visitOwners net call owners
            = (broadcastLoop (.writeObject call.coll call.key v) (laterCalls net)
              (w.setShard p sh) replicas, r)) ∨
        ((call.op.decides (w.cell call.coll call.key p) = none ∨ net 0 ≠ .ok) ∧
          ∃ r, r.denies = true ∧ w.visitOwners net call owners
            = (if (net 0).effective then w.setShard p sh else w, r))) := by
  have hup : ∀ n ∈ replicas, n ∉ w.cluster.down := fun n hn =>
    (live_subset (hl ▸ mem_cons_of_mem _ hn)).2
  have hcopy := fun v (sh : Shard St) => replicateLoop_eq call.coll call.key v replicas
    (laterCalls net) (w.setShard p sh) hup
  obtain ⟨coll, key, op⟩ := call
  cases op with
  | cas expect new =>
    refine ⟨((w.shards p).cas w.now coll key expect new).1, ⟨fun c k => ?_, fun c k => ?_⟩, ?_⟩
    · exact LawfulCells.getObject_cas w.now (w.shards p).store coll key expect new c k
    · exact (LawfulCells.touches_update w.now (w.shards p).store coll key _).expiryOf_none
    have hset : ((w.shards p).cas w.now coll key expect new).2
        = (casValue expect new (w.cell coll key p)).isSome :=
      LawfulCells.cas_snd w.now (w.shards p).store coll key expect new
    have hval : ∀ v, casValue expect new (w.cell coll key p) = some v → v = new := by
      intro v h
      unfold casValue at h
      split_ifs at h
      exact (some.inj h).symm
    simp only [visitOwners, cas, hl, if_pos hp, casOn, CallOp.decides]
    rw [hset]
    cases hd : casValue expect new (w.cell coll key p) with
    | none => exact .inr ⟨.inl rfl, .flag false, rfl, by simp⟩
    | some v =>
      by_cases ho : net 0 = .ok
      · refine .inl ⟨v, .flag true, rfl, ho, rfl, ?_⟩
        simp [ho, Outcome.effective, hcopy, hval v hd]
      · exact .inr ⟨.inr ho, .flag false, rfl, by simp [ho]⟩
  | incr delta =>
    refine ⟨((w.shards p).incr w.now coll key delta).1, ⟨fun c k => ?_, fun c k => ?_⟩, ?_⟩
    · exact LawfulCells.getObject_incr w.now (w.shards p).store coll key delta c k
    · exact (LawfulCells.touches_update w.now (w.shards p).store coll key _).expiryOf_none
    have hnum : ((w.shards p).incr w.now coll key delta).2.map Value.int
        = incrValue delta (w.cell coll key p) :=
      LawfulCells.incr_snd w.now (w.shards p).store coll key delta
    simp only [visitOwners, incr, hl, if_pos hp, incrOn, CallOp.decides]
    cases hd : ((w.shards p).incr w.now coll key delta).2 with
    | none =>
      rw [hd] at hnum
      exact .inr ⟨.inl hnum.symm, .number none, rfl, rfl⟩
    | some n =>
      rw [hd] at hnum
      by_cases ho : net 0 = .ok
      · refine .inl ⟨.int n, .number n, hnum.symm, ho, rfl, ?_⟩
        simp [ho, Outcome.effective, hcopy]
      · exact .inr ⟨.inr ho, .number none, rfl, by simp [ho]⟩
  | _ => cases hop

omit [LawfulCells St] in
/-- Without a primary that can be called nothing happens. -/
theorem visitOwners_unreached (net : ℕ → Outcome) (w : World St) (hop : call.op.primary = true)
    (hp : ∀ p ∈ (w.live owners).head?, p ∉ w.cluster.clients) :
    ∃ r, r.denies = true ∧ w.visitOwners net call owners = (w, r) := by
  obtain ⟨coll, key, op⟩ := call
  cases op with
  | cas expect new =>
    refine ⟨.flag false, rfl, ?_⟩
    simp only [visitOwners, cas]
    cases hl : w.live owners with
    | nil => rfl
    | cons p replicas =>
      rw [hl] at hp
      simp [hp p rfl]
  | incr delta =>
    refine ⟨.number none, rfl, ?_⟩
    simp only [visitOwners, incr]
    cases hl : w.live owners with
    | nil => rfl
    | cons p replicas =>
      rw [hl] at hp
      simp [hp p rfl]
  | _ => cases hop

/-- What `cas` and `incr` promise with their replies: a call that denies has not changed the value of
any owner, and after a `cas` that has set, every live owner that answers holds the new value. -/
def Truthful (net : ℕ → Outcome) (w : World St) (call : Call) : Prop :=
  let r := w.perform net call
  (r.2.denies = true → ∀ n ∈ w.cluster.owners call.key,
    r.1.cell call.coll call.key n = w.cell call.coll call.key n) ∧
  ∀ expect new, call.op = .cas expect new → r.2 = .flag true →
    ∀ n i, (w.live (w.cluster.owners call.key))[i]? = some n → n ∈ w.cluster.clients →
      net i = .ok → r.1.cell call.coll call.key n = some new

/-- The primary's value is changed and its reply is lost. -/
def LosesReply (net : ℕ → Outcome) (w : World St) (call : Call) : Prop :=
  ∃ p, (w.live (w.cluster.owners call.key)).head? = some p ∧ p ∈ w.cluster.clients ∧
    net 0 = .failedAfter ∧
    call.op.result (w.cell call.coll call.key p) ≠ w.cell call.coll call.key p

/-- A `cas` that has set, on its live owners. -/
theorem cell_of_set {coll key : String} {expect : Option Value} {new : Value} {i : ℕ}
    (hsh : w.Decided ⟨coll, key, .cas expect new⟩ p sh)
    (hd : casValue expect new (w.cell coll key p) = some new)
    (hup : ∀ n ∈ replicas, n ∉ w.cluster.down) (hi : (p :: replicas)[i]? = some n)
    (hn : n ∈ w.cluster.clients) (ho : net i = .ok) :
    (broadcastLoop (.writeObject coll key new) (laterCalls net) (w.setShard p sh)
      replicas).cell coll key n = some new := by
  rw [broadcastLoop_eq]
  unfold cell
  rw [execOn_now, object_execOn_put]
  split_ifs with htake
  · rfl
  · cases i with
    | zero =>
      obtain rfl : p = n := some.inj hi
      have hres := hsh.object coll key
      rw [if_pos ⟨rfl, rfl⟩, CallOp.result, hd] at hres
      rw [show (w.setShard p sh).shards p = sh from update_self ..]
      exact hres
    | succ i =>
      -- a replica that answers is a taker
      refine absurd (mem_takers.mpr ⟨i, hi, ?_, ?_⟩) htake
      · exact not_or.mpr ⟨hup n (mem_of_getElem? hi), not_not.mpr hn⟩
      · rw [laterCalls, ho]
        rfl

omit [LawfulCells St] in
theorem not_losesReply (h : net 0 ≠ .failedAfter) :
    ¬w.LosesReply net call := fun ⟨_, _, _, hlost, _⟩ => h hlost

omit [LawfulCells St] in
/-- A call that denies has not set anything, so only the first promise is about it. -/
theorem truthful_iff_of_denies (hr : (w.perform net call).2.denies = true) :
    w.Truthful net call ↔ ∀ n ∈ w.cluster.owners call.key,
      (w.perform net call).1.cell call.coll call.key n = w.cell call.coll call.key n := by
  refine ⟨fun h => h.1 hr, fun h => ⟨fun _ => h, fun _ _ _ hset => ?_⟩⟩
  rw [hset] at hr
  cases hr

omit [LawfulCells St] in
theorem Decided.cell_eq_update (hsh : w.Decided call p sh) :
    (w.setShard p sh).cell call.coll call.key = Function.update (w.cell call.coll call.key) p
        (call.op.result (w.cell call.coll call.key p)) := by
  ext1 n
  rw [hsh.cell, update_apply]
  simp

/-- The primary has decided: the reply does not deny, and the replicas get the value. -/
theorem truthful_of_decided {v : Value} (hl : w.live (w.cluster.owners call.key) = p :: replicas)
    (hsh : w.Decided call p sh) (hd : call.op.decides (w.cell call.coll call.key p) = some v)
    (hr : r.denies = false)
    (hperf : w.perform net call = (broadcastLoop (.writeObject call.coll call.key v)
      (laterCalls net) (w.setShard p sh) replicas, r)) : w.Truthful net call := by
  have hup : ∀ n ∈ replicas, n ∉ w.cluster.down := fun n hn =>
    (live_subset (by rw [hl]; exact mem_cons_of_mem _ hn)).2
  refine ⟨fun hden => ?_, fun expect new hcas hset n i hi hn hni => ?_⟩
  · rw [hperf, hr] at hden
    cases hden
  · obtain ⟨coll, key, op⟩ := call
    obtain rfl : op = .cas expect new := hcas
    have hv : v = new := by
      rw [CallOp.decides] at hd
      unfold casValue at hd
      split_ifs at hd
      exact (some.inj hd).symm
    subst hv
    rw [hl] at hi
    rw [hperf]
    exact cell_of_set hsh hd hup hi hn hni

omit [LawfulCells St] in
/-- The primary has not decided, or it has and the reply is lost: the call denies, and only the
primary can have changed. -/
theorem truthful_iff_of_denied (hop : call.op.primary = true)
    (hhead : (w.live (w.cluster.owners call.key)).head? = some p) (hc : p ∈ w.cluster.clients)
    (hsh : w.Decided call p sh)
    (hd : call.op.decides (w.cell call.coll call.key p) = none ∨ net 0 ≠ .ok) (hr : r.denies = true)
    (hperf : w.perform net call = (if (net 0).effective then w.setShard p sh else w, r)) :
    w.Truthful net call ↔ ¬w.LosesReply net call := by
  have hcell := hsh.cell_eq_update
  rw [truthful_iff_of_denies (by rw [hperf]; exact hr), hperf]
  cases hnet : net 0 with
  | failedBefore =>
    exact iff_of_true (fun n _ => rfl) (not_losesReply (by rw [hnet]; decide))
  | ok =>
    have hres : call.op.result (w.cell call.coll call.key p) = w.cell call.coll call.key p := by
      rw [CallOp.result_of_primary hop, hd.resolve_right (absurd hnet), none_or]
    refine iff_of_true (fun n _ => ?_) (not_losesReply (by rw [hnet]; decide))
    change (w.setShard p sh).cell call.coll call.key n = _
    rw [hcell, hres, update_eq_self]
  | failedAfter =>
    change (∀ n ∈ _, (w.setShard p sh).cell call.coll call.key n = _) ↔ _
    rw [hcell]
    constructor
    · rintro h ⟨p', hhead', -, -, hne⟩
      obtain rfl : p = p' := some.inj (hhead.symm.trans hhead')
      have hsame := h p (live_subset (mem_of_mem_head? hhead)).1
      rw [update_self] at hsame
      exact hne hsame
    · intro h n _
      by_cases hn : n = p
      · subst hn
        rw [update_self]
        by_contra hne
        exact h ⟨n, hhead, hc, hnet, hne⟩
      · rw [update_of_ne hn]

end World

/-- **When `cas` and `incr` tell the truth**: unless the primary's value is changed and its reply is
lost. -/
theorem truthful_iff [IndexStore St] [LawfulCells St] (net : ℕ → Outcome) (w : World St)
    (call : Call) (hop : call.op.primary = true) :
    w.Truthful net call ↔ ¬w.LosesReply net call := by
  by_cases hp : ∀ p ∈ (w.live (w.cluster.owners call.key)).head?, p ∉ w.cluster.clients
  · obtain ⟨r, hr, heq⟩ := World.visitOwners_unreached net w hop hp
    have hperf : w.perform net call = (w, r) := heq
    refine iff_of_true ?_ fun ⟨p, hhead, hc, _⟩ => hp p hhead hc
    rw [World.truthful_iff_of_denies (by rw [hperf]; exact hr), hperf]
    exact fun n _ => rfl
  · push Not at hp
    obtain ⟨p, hhead, hc⟩ := hp
    obtain ⟨replicas, hl⟩ : ∃ replicas, w.live (w.cluster.owners call.key) = p :: replicas :=
      head?_eq_some_iff.mp hhead
    obtain ⟨sh, hsh, ⟨v, r, hd, ho, hr, heq⟩ | ⟨hd, r, hr, heq⟩⟩ :=
      World.visitOwners_primary net w hop hl hc
    · exact iff_of_true (World.truthful_of_decided hl hsh hd hr heq)
        (World.not_losesReply (by rw [ho]; decide))
    · exact World.truthful_iff_of_denied hop hhead hc hsh hd hr heq

/-- A compare-and-set of the entry. -/
def setOnce : Call := ⟨"kv", "x", .cas (some (.int 1)) (.int 2)⟩

theorem truthful_setOnce : oneEntry.Truthful (fun _ => .ok) setOnce :=
  (truthful_iff (fun _ => .ok) oneEntry setOnce rfl).mpr fun ⟨_, _, _, hlost, _⟩ => by cases hlost

/-- The node sets the entry, its reply is lost, and `cas` returns `false`. -/
theorem not_truthful_of_lost_reply :
    (oneEntry.perform (fun _ => .failedAfter) setOnce).2 = .flag false ∧
    oneEntry.cell "kv" "x" "a" = some (.int 1) ∧
    (oneEntry.perform (fun _ => .failedAfter) setOnce).1.cell "kv" "x" "a" = some (.int 2) ∧
    ¬oneEntry.Truthful (fun _ => .failedAfter) setOnce := by
  have hret : (oneEntry.perform (fun _ => .failedAfter) setOnce).2 = .flag false := by
    decide +kernel
  have hold : oneEntry.cell "kv" "x" "a" = some (.int 1) := by decide +kernel
  have hnew : (oneEntry.perform (fun _ => .failedAfter) setOnce).1.cell "kv" "x" "a"
      = some (.int 2) := by
    decide +kernel
  refine ⟨hret, hold, hnew, fun h => ?_⟩
  have heq := h.1 (by rw [hret]; rfl) "a" (by decide +kernel)
  exact absurd (hnew.symm.trans (heq.trans hold)) (by decide)

end Stplr
