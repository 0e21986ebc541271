import Stplr.Calls
import Stplr.Equiv.Shard

/-!
# What a call does to its cell

On every owner a call visits, the owner's cell becomes `CallOp.result` of what it held, and no other
cell changes (`object_callNode`).  A `cas` or `incr` that succeeds goes on with the value it wrote
(`CallOp.decides`), which is then written to the other owners.

`CallState.Trans` lists the transitions of a call whose shard calls are answered.
-/

namespace Stplr

open IndexStore Option

namespace CallOp

/-- The value that a successful `cas` or `incr` writes. -/
def decides : CallOp → Option Value → Option Value
  | .cas expect new, cur => casValue expect new cur
  | .incr delta, cur => incrValue delta cur
  | _, _ => none

/-- What an operation makes of a value. -/
def result : CallOp → Option Value → Option Value
  | .get, cur => cur
  | .put obj, _ => some obj
  | .delete, _ => none
  | .setAdd m, cur => setAddValue m cur
  | .setRemove m, cur => setRemoveValue m cur
  | .cas expect new, cur => (casValue expect new cur).or cur
  | .incr delta, cur => (incrValue delta cur).or cur

theorem result_of_primary {op : CallOp} (h : op.primary = true) (cur : Option Value) :
    op.result cur = (op.decides cur).or cur := by
  cases op <;> first | rfl | cases h

end CallOp

namespace CallState

variable {St : Type} [IndexStore St] [LawfulCells St] {now : ℕ} {sh : Shard St} {t : CallState}
  {todo : List NodeId}

/-- A shard call that takes effect changes the call's own cell and no other. -/
theorem object_callNode (now : ℕ) (sh : Shard St) (t : CallState) (todo : List NodeId)
    (c k : String) :
    (t.callNode .ok now sh todo).1.object now c k = if c = t.call.coll ∧ k = t.call.key then
          t.call.op.result (sh.object now t.call.coll t.call.key)
        else sh.object now c k := by
  unfold callNode
  cases hop : t.call.op with
  | get =>
    dsimp only
    split_ifs with h
    · rw [h.1, h.2]; rfl
    · rfl
  | put obj => exact Shard.object_writeObject now sh _ _ obj c k
  | delete => exact Shard.object_deleteObject now sh _ _ c k
  | setAdd m => exact LawfulCells.getObject_setAdd now sh.store _ _ m c k
  | setRemove m => exact LawfulCells.getObject_setRemove now sh.store _ _ m c k
  | cas expect new => exact LawfulCells.getObject_cas now sh.store _ _ expect new c k
  | incr delta => exact LawfulCells.getObject_incr now sh.store _ _ delta c k

/-- No call gives a cell an expiry. -/
theorem expiryAt_callNode (now : ℕ) (t : CallState) (todo : List NodeId) {c k : String}
    (h : sh.expiryAt c k = none) : (t.callNode .ok now sh todo).1.expiryAt c k = none := by
  unfold callNode
  cases hop : t.call.op with
  | get => exact h
  | put obj => exact Shard.expiryAt_writeObject sh obj h
  | delete => exact Shard.expiryAt_deleteObject sh h
  | setAdd m | setRemove m | cas expect new | incr delta =>
    exact (LawfulCells.touches_update now sh.store _ _ _).expiryOf_none h

omit [LawfulCells St] in
theorem callNode_get (h : t.call.op = .get) : (t.callNode .ok now sh todo).2
    = .returning (.value (sh.object now t.call.coll t.call.key)) := by
  rw [callNode, h]
  rfl

omit [LawfulCells St] in
/-- A broadcast goes on with the next owner. -/
theorem callNode_broadcast (hg : t.call.op ≠ .get) (hp : t.call.op.primary = false) :
    (t.callNode .ok now sh todo).2 = .routed todo := by
  unfold callNode
  cases hop : t.call.op with
  | get => exact absurd hop hg
  | put obj | delete | setAdd m | setRemove m => rfl
  | cas expect new | incr delta => rw [hop] at hp; cases hp

omit [LawfulCells St] in
/-- A `cas` or `incr` goes on with the value it wrote, or returns. -/
theorem callNode_primary (now : ℕ) (sh : Shard St) (todo : List NodeId)
    (hp : t.call.op.primary = true) :
    (∃ v r, t.call.op.decides (sh.object now t.call.coll t.call.key) = some v ∧
      (t.callNode .ok now sh todo).2 = .copying v r todo) ∨
    (∃ r, t.call.op.decides (sh.object now t.call.coll t.call.key) = none ∧
      (t.callNode .ok now sh todo).2 = .returning r) := by
  unfold callNode
  cases hop : t.call.op with
  | cas expect new =>
    have hsnd := LawfulCells.cas_snd now sh.store t.call.coll t.call.key expect new
    dsimp only
    cases hc : casValue expect new (sh.object now t.call.coll t.call.key) with
    | some v =>
      have hv : v = new := by
        unfold casValue at hc
        split_ifs at hc
        exact (some.inj hc).symm
      have hset : (sh.cas now t.call.coll t.call.key expect new).2 = true :=
        hsnd.trans (congrArg isSome hc)
      refine .inl ⟨v, .flag true, hc, ?_⟩
      rw [if_pos ⟨rfl, hset⟩, hv]
    | none =>
      have hset : (sh.cas now t.call.coll t.call.key expect new).2 = false :=
        hsnd.trans (congrArg isSome hc)
      refine .inr ⟨.flag false, hc, ?_⟩
      rw [if_neg (fun h => Bool.false_ne_true (hset ▸ h.2))]
  | incr delta =>
    have hsnd := LawfulCells.incr_snd now sh.store t.call.coll t.call.key delta
    have hsnd' : (sh.incr now t.call.coll t.call.key delta).2.map Value.int
        = incrValue delta (sh.object now t.call.coll t.call.key) := hsnd
    dsimp only
    cases hr : (sh.incr now t.call.coll t.call.key delta).2 with
    | some n =>
      rw [hr] at hsnd'
      exact .inl ⟨.int n, .number n, hsnd'.symm, rfl⟩
    | none =>
      rw [hr] at hsnd'
      exact .inr ⟨.number none, hsnd'.symm, rfl⟩
  | get | put obj | delete | setAdd m | setRemove m => rw [hop] at hp; cases hp

/-! ### What a step can do -/

/-- The transitions of a call, one constructor per kind of step. -/
inductive Trans (w : World St) (t : CallState) : World St × CallState → Prop
  | enter (hp : t.pc = .waiting) (hc : w.cluster.gates.canEnter (bucketOf t.call.key)) :
      Trans w t (w.setCluster
        { w.cluster with gates := w.cluster.gates.enter (bucketOf t.call.key) },
        { t with pc := .entered })
  | overlay (hp : t.pc = .entered) {os : List NodeId}
      (ho : w.cluster.overlayOwners t.call.key = some os) :
      Trans w t (w, { t with pc := .routed os })
  | noOverlay (hp : t.pc = .entered) (ho : w.cluster.overlayOwners t.call.key = none) :
      Trans w t (w, { t with pc := .routing })
  | ring (hp : t.pc = .routing) :
      Trans w t (w, { t with pc := .routed (w.cluster.ringOwners t.call.key) })
  | visit {todo : List NodeId} (hp : t.pc = .routed todo) :
      Trans w t (w, { t with pc := visit w.cluster t todo })
  | call {n : NodeId} {todo : List NodeId} (hp : t.pc = .calling n todo) :
      Trans w t (w.setShard n (t.callNode .ok w.now (w.shards n) todo).1,
        { t with pc := (t.callNode .ok w.now (w.shards n) todo).2 })
  | copied {v : Value} {r : Reply} (hp : t.pc = .copying v r []) :
      Trans w t (w, { t with pc := .returning r })
  | copy {v : Value} {r : Reply} {n : NodeId} {todo : List NodeId}
      (hp : t.pc = .copying v r (n :: todo)) :
      Trans w t (w, { t with pc :=
        if n ∈ w.cluster.clients then .writing v r n todo else .copying v r todo })
  | write {v : Value} {r : Reply} {n : NodeId} {todo : List NodeId}
      (hp : t.pc = .writing v r n todo) :
      Trans w t (w.setShard n ((w.shards n).writeObject t.call.coll t.call.key v),
        { t with pc := .copying v r todo })
  | leave {r : Reply} (hp : t.pc = .returning r) :
      Trans w t (w.setCluster
        { w.cluster with gates := w.cluster.gates.leave (bucketOf t.call.key) },
        { t with pc := .returned r })

omit [LawfulCells St] in
theorem trans_of_step {w : World St} {r : World St × CallState} (h : t.step .ok w = some r) :
    t.Trans w r := by
  unfold step at h
  dsimp only at h
  split at h
  next hp =>
    split_ifs at h with hc
    obtain rfl := some.inj h
    exact .enter hp hc
  next hp =>
    split at h
    next ho =>
      obtain rfl := some.inj h
      exact .overlay hp ho
    next ho =>
      obtain rfl := some.inj h
      exact .noOverlay hp ho
  next hp =>
    obtain rfl := some.inj h
    exact .ring hp
  next hp =>
    obtain rfl := some.inj h
    exact .visit hp
  next hp =>
    obtain rfl := some.inj h
    exact .call hp
  next hp =>
    obtain rfl := some.inj h
    exact .copied hp
  next hp =>
    obtain rfl := some.inj h
    exact .copy hp
  next hp =>
    obtain rfl := some.inj h
    exact .write hp
  next hp =>
    obtain rfl := some.inj h
    exact .leave hp
  next => cases h

omit [IndexStore St] [LawfulCells St] in
/-- With every owner up and known, the loop over the owners skips none. -/
theorem visit_healthy {c : Cluster} (hd : ∀ n ∈ todo, n ∉ c.down) (hc : ∀ n ∈ todo, n ∈ c.clients) :
    visit c t todo = match todo with
      | [] => .returning t.call.op.unreached
      | n :: todo => .calling n todo := by
  unfold visit
  have hlive : todo.filter (· ∉ c.down) = todo :=
    List.filter_eq_self.mpr fun n hn => by simpa using hd n hn
  rw [hlive]
  cases todo with
  | nil => split_ifs <;> rfl
  | cons n todo =>
    have hn := hc n (List.mem_cons_self ..)
    have hn' := hd n (List.mem_cons_self ..)
    split_ifs
    · simp [hn]
    · simp [hn, hn']

end CallState

end Stplr
