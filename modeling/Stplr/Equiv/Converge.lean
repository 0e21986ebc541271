import Stplr.Equiv.Rebalance

/-!
# Overlapping writes of one key

The gate lets any number of writes into a bucket, and each of them visits the owners one by one.
When every owner takes the writes of a key in the order in which the first owner took them
(`InOrder`), the owners hold the same value once all calls have returned (`converges_of_inOrder`).
Nothing in the code makes them keep that order: a put can be overtaken between two owners
(`diverges_of_overtaking`).
-/

namespace Stplr

open Lib List Option CallState

variable {St : Type} [IndexStore St]

/-! ### Runs without a migration -/

/-- A collection operation on the members of a set. -/
def CallOp.onMembers : CallOp → Bool
  | .setAdd _ | .setRemove _ => true
  | _ => false

/-- The node whose shard the next step of the call reaches. -/
def CallState.reaches (t : CallState) : Option NodeId := match t.pc with
  | .calling n _ | .writing _ _ n _ => some n
  | _ => none

/-- The owners that the call has still to visit, once it knows them. -/
def CallState.left (t : CallState) : List NodeId := t.pc.unvisited.getD []

/-- A system and the writes of one key in the order in which its first owner took them. -/
structure Ordered (St : Type) where
  sys : System St
  order : List ℕ

namespace Ordered

/-- The write that the step brings to the first owner. -/
def arrival (s : System St) (c k : String) : SysLabel → List ℕ
  | .call i _ =>
    if ∃ t ∈ s.calls[i]?, t.call.WritesTo c k ∧
      t.reaches = (s.world.cluster.owners k).head? then [i] else []
  | _ => []

def step (c k : String) (s : Ordered St) (l : SysLabel) : Option (Ordered St) :=
  (s.sys.step (fun _ => .ok) l).map fun sys => ⟨sys, s.order ++ arrival s.sys c k l⟩

/-- Calls come and go and time passes; shard calls succeed and no migration runs. -/
def Permits (c k : String) : SysLabel → Prop
  | .invoke call => call.coll = c ∧ call.key = k → call.op.onMembers = false
  | .call _ o => o = .ok
  | .tick _ => True
  | _ => False

instance (c k : String) : (l : SysLabel) → Decidable (Permits c k l)
  | .invoke call => inferInstanceAs (Decidable (call.coll = c ∧ call.key = k → _))
  | .call _ o => inferInstanceAs (Decidable (o = .ok))
  | .tick _ => inferInstanceAs (Decidable True)
  | .migrate | .abandon _ | .resume => inferInstanceAs (Decidable False)

/-- A write reaches an owner after the writes that the first owner took before it. -/
def InOrder (c k : String) (s : Ordered St) : SysLabel → Prop
  | .call i _ => ∀ t ∈ s.sys.calls[i]?, t.call.WritesTo c k → ∀ n ∈ t.reaches,
      ∀ j ∈ s.order.takeWhile (· ≠ i), ∀ u ∈ s.sys.calls[j]?, n ∉ u.left
  | _ => True

instance (c k : String) (s : Ordered St) : (l : SysLabel) → Decidable (s.InOrder c k l)
  | .call i _ => inferInstanceAs (Decidable (∀ t ∈ s.sys.calls[i]?, t.call.WritesTo c k → _))
  | .invoke _ | .tick _ | .migrate | .abandon _ | .resume => inferInstanceAs (Decidable True)

end Ordered

/-- The owners of the key are different nodes, each one up and with a client. -/
structure OwnersUp (c : Cluster) (k : String) : Prop where
  nodup : (c.owners k).Nodup
  up : ∀ n ∈ c.owners k, n ∉ c.down
  clients : ∀ n ∈ c.owners k, n ∈ c.clients

/-! ### One call -/

/-- How far a call on the key can be: what it has still to visit is an end of the owner list. -/
structure Follows (c : Cluster) (R : List NodeId) (t : CallState) : Prop where
  scalar : t.call.op.onMembers = false
  ring : t.pc = .routing → c.overlay = none
  suffix : ∀ todo, t.pc.unvisited = some todo → todo <:+ R
  /-- `cas` and `incr` begin with the first owner. -/
  fresh : t.call.op.primary = true → ∀ todo, t.pc.unasked = some todo → todo = R
  decided : ∀ v, t.pc.decided = some v → t.call.op.primary = true ∧ t.pc.unvisited ≠ some R

/-- The value that the call is spreading. -/
structure Sends (t : CallState) (v : Option Value) : Prop where
  broadcast : t.call.op.primary = false → ∀ x, t.call.op.result x = v
  copies : ∀ x, t.pc.decided = some x → v = some x

theorem result_const {op : CallOp} (hw : op.isWrite = true) (hs : op.onMembers = false)
    (hp : op.primary = false) (x y : Option Value) : op.result x = op.result y := by
  cases op with
  | put _ | delete => rfl
  | get => cases hw
  | cas _ _ | incr _ => cases hp
  | setAdd _ | setRemove _ => cases hs

namespace Follows

variable {c : Cluster} {R : List NodeId} {t : CallState} {todo : List NodeId}

theorem routed (h : Follows c R t) : Follows c R { t with pc := .routed R } :=
  ⟨h.scalar, nofun, fun _ hu => some.inj hu ▸ suffix_refl R, fun _ _ ha => (some.inj ha).symm, nofun⟩

theorem returning (h : Follows c R t) (q : Reply) : Follows c R { t with pc := .returning q } :=
  ⟨h.scalar, nofun, fun _ hu => some.inj hu ▸ nil_suffix, nofun, nofun⟩

/-- A `cas` or `incr` goes on with the value it has decided. -/
theorem copying (h : Follows c R t) (hprim : t.call.op.primary = true) {n : NodeId}
    (hsuf : n :: todo <:+ R) (v : Value) (q : Reply) :
    Follows c R { t with pc := .copying v q todo } where
  scalar := h.scalar
  ring := nofun
  suffix := fun _ hu => some.inj hu ▸ (suffix_cons n todo).trans hsuf
  fresh := nofun
  decided := by
    refine fun _ _ => ⟨hprim, fun heq => ?_⟩
    have hlen := hsuf.length_le
    rw [← some.inj heq, length_cons] at hlen
    omega

variable {w : World St} {k : String} {r : World St × CallState}

/-- Every step of a call keeps to the owner list. -/
theorem step (hup : OwnersUp w.cluster k) (hk : t.call.key = k)
    (h : Follows w.cluster (w.cluster.owners k) t) (hs : t.Trans w r) :
    Follows w.cluster (w.cluster.owners k) r.2 := by
  have howners : w.cluster.owners k = (w.cluster.overlayOwners k).getD (w.cluster.ringOwners k) := rfl
  cases hs with
  | enter hp hc => exact ⟨h.scalar, nofun, nofun, nofun, nofun⟩
  | overlay hp ho =>
    rw [hk] at ho
    rw [ho, getD_some] at howners
    subst howners
    exact h.routed
  | noOverlay hp ho =>
    exact ⟨h.scalar, fun _ => Cluster.overlayOwners_eq_none.mp ho, nofun, nofun, nofun⟩
  | ring hp =>
    rw [Cluster.overlayOwners_eq_none.mpr (h.ring hp), getD_none] at howners
    rw [hk, ← howners]
    exact h.routed
  | @visit todo hp =>
    have hsuf := h.suffix todo (by rw [hp]; rfl)
    rw [visit_healthy (fun n hn => hup.up n (hsuf.subset hn))
      fun n hn => hup.clients n (hsuf.subset hn)]
    cases todo with
    | nil => exact h.returning _
    | cons n todo =>
      exact ⟨h.scalar, nofun, fun _ hu => some.inj hu ▸ hsuf,
        fun hprim _ ha => some.inj ha ▸ h.fresh hprim _ (by rw [hp]; rfl), nofun⟩
  | @call n todo hp =>
    have hsuf := h.suffix (n :: todo) (by rw [hp]; rfl)
    by_cases hget : t.call.op = .get
    · rw [callNode_get hget]
      exact h.returning _
    by_cases hprim : t.call.op.primary = true
    · rcases callNode_primary w.now (w.shards n) todo hprim with ⟨v, q, -, heq⟩ | ⟨q, -, heq⟩
      · rw [heq]
        exact h.copying hprim hsuf v q
      · rw [heq]
        exact h.returning q
    · rw [callNode_broadcast hget (by simpa using hprim)]
      exact ⟨h.scalar, nofun, fun _ hu => some.inj hu ▸ (suffix_cons n todo).trans hsuf,
        fun hp' => absurd hp' hprim, nofun⟩
  | copied hp => exact h.returning _
  | leave hp => exact ⟨h.scalar, nofun, fun _ hu => some.inj hu ▸ nil_suffix, nofun, nofun⟩
  | @copy v q n todo hp =>
    have hu : t.pc.unvisited = some (n :: todo) := by rw [hp]; rfl
    have hsuf := h.suffix _ hu
    obtain ⟨hprim, hne⟩ := h.decided v (by rw [hp]; rfl)
    rw [if_pos (hup.clients n (hsuf.subset (mem_cons_self ..)))]
    exact ⟨h.scalar, nofun, fun _ hu' => some.inj hu' ▸ hsuf, nofun,
      fun _ _ => ⟨hprim, fun heq => hne (hu.trans heq)⟩⟩
  | @write v q n todo hp =>
    exact h.copying (h.decided v (by rw [hp]; rfl)).1 (h.suffix (n :: todo) (by rw [hp]; rfl)) v q

end Follows

/-- What a step of a write does to its cell: nothing, or it reaches the next owner, or it is a `cas`
or `incr` that the first owner refuses. -/
inductive WriteEffect (c k : String) (R : List NodeId) (w : World St) (t : CallState)
    (r : World St × CallState) : Prop
  | quiet (hn : t.reaches = none) (hcell : ∀ m, r.1.cell c k m = w.cell c k m)
      (hu : r.2.pc.unvisited = t.pc.unvisited ∨ t.pc.unvisited = none ∧ r.2.pc.unvisited = some R)
      (hsend : ∀ v, Sends t v → Sends r.2 v)
  | reach {n : NodeId} {todo : List NodeId} (hn : t.reaches = some n)
      (hu : t.pc.unvisited = some (n :: todo)) (hu' : r.2.pc.unvisited = some todo)
      (hcell : ∀ m, m ≠ n → r.1.cell c k m = w.cell c k m)
      (hlead : n :: todo = R → Sends r.2 (r.1.cell c k n))
      (hfollow : n :: todo ≠ R → ∀ v, Sends t v → Sends r.2 v ∧ r.1.cell c k n = v)
  | refuse {n : NodeId} {todo : List NodeId} (hn : t.reaches = some n) (hR : n :: todo = R)
      (hu : t.pc.unvisited = some R) (hu' : r.2.pc.unvisited = some [])
      (hcell : ∀ m, r.1.cell c k m = w.cell c k m)

section Effect

variable [LawfulCells St] {w : World St} {c k : String} {t : CallState} {r : World St × CallState}

variable {n : NodeId} {todo : List NodeId}

theorem Follows.effect_call (h : Follows w.cluster (w.cluster.owners k) t)
    (hw : t.call.WritesTo c k) (hp : t.pc = .calling n todo) :
    WriteEffect c k (w.cluster.owners k) w t (w.setShard n (t.callNode .ok w.now (w.shards n) todo).1,
      { t with pc := (t.callNode .ok w.now (w.shards n) todo).2 }) := by
  obtain ⟨hwrite, rfl, rfl⟩ := hw
  have hn : t.reaches = some n := by rw [reaches, hp]
  have hu : t.pc.unvisited = some (n :: todo) := by rw [hp]; rfl
  have hcell : ∀ m, (w.setShard n (t.callNode .ok w.now (w.shards n) todo).1).cell t.call.coll
      t.call.key m = if m = n then t.call.op.result (w.cell t.call.coll t.call.key n)
        else w.cell t.call.coll t.call.key m := by
    intro m
    rw [World.cell_setShard, object_callNode]
    simp only [and_self, if_true]
    rfl
  have hget : t.call.op ≠ .get := by
    intro hg
    rw [hg] at hwrite
    cases hwrite
  by_cases hprim : t.call.op.primary = true
  · have hR : n :: todo = w.cluster.owners t.call.key := h.fresh hprim _ (by rw [hp]; rfl)
    have hres := CallOp.result_of_primary hprim (w.cell t.call.coll t.call.key n)
    rcases callNode_primary w.now (w.shards n) todo hprim with
      ⟨v, q, hd, heq⟩ | ⟨q, hd, heq⟩
    · refine .reach hn hu (by rw [heq]; rfl) (fun m hm => by rw [hcell, if_neg hm]) (fun _ => ?_)
        fun hne => absurd hR hne
      have hv : t.call.op.result (w.cell t.call.coll t.call.key n) = some v := by
        rw [hres]
        exact congrArg (Option.or · _) hd
      dsimp only
      rw [hcell, if_pos rfl, hv, heq]
      exact ⟨fun hp' => absurd (hp'.symm.trans hprim) (by simp),
        fun x hx => congrArg some (some.inj hx)⟩
    · refine .refuse hn hR (hR ▸ hu) (by rw [heq]; rfl) fun m => ?_
      have hv : t.call.op.result (w.cell t.call.coll t.call.key n)
          = w.cell t.call.coll t.call.key n := by
        rw [hres]
        exact congrArg (Option.or · _) hd
      dsimp only
      rw [hcell, hv]
      split_ifs with hm
      · rw [hm]
      · rfl
  · have hprim : t.call.op.primary = false := by simpa using hprim
    have hconst := result_const hwrite h.scalar hprim
    have heq : (t.callNode .ok w.now (w.shards n) todo).2 = .routed todo :=
      callNode_broadcast hget hprim
    refine .reach hn hu (by rw [heq]; rfl) (fun m hm => by rw [hcell, if_neg hm]) (fun _ => ?_)
      fun _ v hv => ⟨?_, ?_⟩
    · dsimp only
      rw [hcell, if_pos rfl, heq]
      exact ⟨fun _ x => hconst x _, fun x hx => by cases hx⟩
    · rw [heq]
      exact ⟨fun _ => hv.broadcast hprim, fun x hx => by cases hx⟩
    · dsimp only
      rw [hcell, if_pos rfl]
      exact hv.broadcast hprim _

theorem Follows.effect_write (h : Follows w.cluster (w.cluster.owners k) t)
    (hw : t.call.WritesTo c k) {v : Value} {q : Reply} (hp : t.pc = .writing v q n todo) :
    WriteEffect c k (w.cluster.owners k) w t
      (w.setShard n ((w.shards n).writeObject t.call.coll t.call.key v),
        { t with pc := .copying v q todo }) := by
  obtain ⟨-, rfl, rfl⟩ := hw
  have hu : t.pc.unvisited = some (n :: todo) := by rw [hp]; rfl
  have hne : n :: todo ≠ w.cluster.owners t.call.key :=
    fun heq => (h.decided v (by rw [hp]; rfl)).2 (hu.trans (congrArg some heq))
  refine .reach (by rw [reaches, hp]) hu rfl (fun m hm => ?_) (fun heq => absurd heq hne)
    fun _ x hx => ⟨⟨hx.broadcast, fun y hy => hx.copies y (by rw [hp]; exact hy)⟩, ?_⟩
  · rw [World.cell_setShard, if_neg hm]
  · rw [World.cell_setShard, if_pos rfl, Shard.object_writeObject, if_pos ⟨rfl, rfl⟩]
    exact (hx.copies v (by rw [hp]; rfl)).symm

/-- What a step of a write does to its cell. -/
theorem Follows.effect (hup : OwnersUp w.cluster k) (h : Follows w.cluster (w.cluster.owners k) t)
    (hw : t.call.WritesTo c k) (hs : t.Trans w r) :
    WriteEffect c k (w.cluster.owners k) w t r := by
  have hk := hw.2.2
  have howners : w.cluster.owners k = (w.cluster.overlayOwners k).getD (w.cluster.ringOwners k) := rfl
  have hplain : ∀ {pc : CallPc}, pc.decided = none → ∀ v, Sends t v → Sends { t with pc := pc } v :=
    fun hd v hv => ⟨hv.broadcast, fun x hx => by dsimp only at hx; rw [hd] at hx; cases hx⟩
  cases hs with
  | call hp => exact h.effect_call hw hp
  | write hp => exact h.effect_write hw hp
  | enter hp hc | noOverlay hp ho | copied hp | leave hp =>
    exact .quiet (by rw [reaches, hp]) (fun _ => rfl) (.inl (by rw [hp]; rfl)) (hplain rfl)
  | overlay hp ho =>
    rw [hk] at ho
    rw [ho, getD_some] at howners
    exact .quiet (by rw [reaches, hp]) (fun _ => rfl)
      (.inr ⟨by rw [hp]; rfl, by rw [howners]; rfl⟩) (hplain rfl)
  | ring hp =>
    rw [Cluster.overlayOwners_eq_none.mpr (h.ring hp), getD_none] at howners
    exact .quiet (by rw [reaches, hp]) (fun _ => rfl)
      (.inr ⟨by rw [hp]; rfl, by rw [howners, hk]; rfl⟩) (hplain rfl)
  | @visit todo hp =>
    have hsuf := h.suffix todo (by rw [hp]; rfl)
    rw [visit_healthy (fun n hn => hup.up n (hsuf.subset hn))
      fun n hn => hup.clients n (hsuf.subset hn)]
    cases todo with
    | nil | cons n todo =>
      exact .quiet (by rw [reaches, hp]) (fun _ => rfl) (.inl (by rw [hp]; rfl)) (hplain rfl)
  | @copy v q n todo hp =>
    have hsuf := h.suffix (n :: todo) (by rw [hp]; rfl)
    rw [if_pos (hup.clients n (hsuf.subset (mem_cons_self ..)))]
    exact .quiet (by rw [reaches, hp]) (fun _ => rfl) (.inl (by rw [hp]; rfl))
      fun x hx => ⟨hx.broadcast, fun y hy => hx.copies y (by rw [hp]; exact hy)⟩

end Effect

/-! ### All calls -/

/-- The owners that the `i`-th call has still to visit. -/
def leftOf (calls : List CallState) (i : ℕ) : List NodeId :=
  ((calls[i]?).map CallState.left).getD []

variable {i : ℕ} {calls : List CallState} {t : CallState}

theorem leftOf_eq (h : calls[i]? = some t) : leftOf calls i = t.left := by
  rw [leftOf, h]
  rfl

theorem leftOf_set_self (h : calls[i]? = some t) (u : CallState) : leftOf (calls.set i u) i = u.left :=
  leftOf_eq (List.getElem?_set_self (List.getElem?_eq_some_iff.mp h).1)

variable {j : ℕ}

theorem leftOf_set_ne (u : CallState) (h : j ≠ i) : leftOf (calls.set i u) j = leftOf calls j := by
  rw [leftOf, leftOf, getElem?_set_ne fun hij => h hij.symm]

/-- What stands before `i` in a part of the order stands before it in the order. -/
theorem mem_takeWhile_of_sublist {order before after : List ℕ}
    (h : (before ++ i :: after).Sublist order) (hnd : order.Nodup) (hj : j ∈ before) :
    j ∈ order.takeWhile (· ≠ i) := by
  induction order generalizing before with
  | nil => simp at h
  | cons a order ih =>
    obtain ⟨ha, hnd⟩ := nodup_cons.mp hnd
    obtain ⟨b, before, rfl⟩ := exists_cons_of_ne_nil (ne_nil_of_mem hj)
    rw [cons_append] at h
    have hai : a ≠ i := by
      rintro rfl
      have hmem : a ∈ before ++ a :: after := by simp
      cases h with
      | cons _ h => exact ha (h.subset (mem_cons_of_mem _ hmem))
      | cons_cons _ h => exact ha (h.subset hmem)
    rw [takeWhile_cons, if_pos (by simpa using hai)]
    cases h with
    | cons _ h => exact mem_cons_of_mem _ (ih h hnd hj)
    | cons_cons _ h =>
      rcases mem_cons.mp hj with rfl | hj
      · exact mem_cons_self ..
      · exact mem_cons_of_mem _ (ih h hnd hj)

/-- The call has been at the first owner. -/
def Begun (c k : String) (R : List NodeId) (t : CallState) : Prop :=
  t.call.WritesTo c k ∧ ∃ todo, t.pc.unvisited = some todo ∧ todo ≠ R

/-- The writes that took effect on the first owner, `hist`, are on their way to the other owners in
that order. -/
structure Spreading (c k : String) (R : List NodeId) (init : Option Value) (w : World St)
    (calls : List CallState) (order : List ℕ) (hist : List (ℕ × Option Value)) : Prop where
  sublist : (hist.map Prod.fst).Sublist order
  sends : ∀ x ∈ hist, ∃ t, calls[x.1]? = some t ∧ t.call.WritesTo c k ∧ Sends t x.2
  /-- A refused write is over. -/
  refused : ∀ i ∈ order, i ∉ hist.map Prod.fst → leftOf calls i = []
  caught : ∀ n ∈ R, Caught (w.cell c k) init hist (leftOf calls) n

/-- The invariant of a run in which the owners take the writes in one order. -/
structure Pipeline (c k : String) (init : Option Value) (s : Ordered St) : Prop where
  up : OwnersUp s.sys.world.cluster k
  follows : ∀ (i : ℕ) t, s.sys.calls[i]? = some t → t.call.coll = c → t.call.key = k →
    Follows s.sys.world.cluster (s.sys.world.cluster.owners k) t
  nodup : s.order.Nodup
  mem_order : ∀ i, i ∈ s.order ↔
    ∃ t, s.sys.calls[i]? = some t ∧ Begun c k (s.sys.world.cluster.owners k) t
  ttl : ∀ n ∈ s.sys.world.cluster.owners k, (s.sys.world.shards n).expiryAt c k = none
  spreading : ∃ hist, Spreading c k (s.sys.world.cluster.owners k) init s.sys.world s.sys.calls
    s.order hist

namespace Spreading

variable {c k : String} {R : List NodeId} {init : Option Value} {w w' : World St}
  {calls : List CallState} {order : List ℕ} {hist : List (ℕ × Option Value)} {i : ℕ}
  {t u : CallState}

variable (h : Spreading c k R init w calls order hist)
include h

theorem mem_order {x : ℕ × Option Value} (hx : x ∈ hist) : x.1 ∈ order :=
  h.sublist.subset (mem_map_of_mem hx)

variable (ht : calls[i]? = some t)
include ht

/-- A call moves on between two owners. -/
theorem quiet (hcall : u.call = t.call) (hcell : ∀ n ∈ R, w'.cell c k n = w.cell c k n)
    (hi : i ∈ order → u.left = t.left ∧ ∀ v, Sends t v → Sends u v) :
    Spreading c k R init w' (calls.set i u) order hist := by
  have hleft : ∀ j ∈ order, leftOf (calls.set i u) j = leftOf calls j := by
    intro j hj
    by_cases hji : j = i
    · subst hji
      rw [leftOf_set_self ht, leftOf_eq ht, (hi hj).1]
    · exact leftOf_set_ne u hji
  refine ⟨h.sublist, fun x hx => ?_, fun j hj hnot => ?_, fun n hn => ?_⟩
  · obtain ⟨t', ht', hw, hs⟩ := h.sends x hx
    by_cases hxi : x.1 = i
    · rw [hxi] at ht' ⊢
      obtain rfl := some.inj (ht.symm.trans ht')
      exact ⟨u, List.getElem?_set_self (List.getElem?_eq_some_iff.mp ht).1, hcall ▸ hw,
        (hi (hxi ▸ h.mem_order hx)).2 _ hs⟩
    · exact ⟨t', by rwa [List.getElem?_set_ne fun hix => hxi hix.symm], hw, hs⟩
  · rw [hleft j hj]
    exact h.refused j hj hnot
  · exact (h.caught n hn).congr (hcell n hn) fun x hx => by rw [hleft _ (h.mem_order hx)]

/-- A call is refused by the first owner. -/
theorem refuse (hi : i ∉ order) (hcell : ∀ n ∈ R, w'.cell c k n = w.cell c k n) (hu : u.left = []) :
    Spreading c k R init w' (calls.set i u) (order ++ [i]) hist := by
  have hne : ∀ x ∈ hist, x.1 ≠ i := fun x hx hxi => hi (hxi ▸ h.mem_order hx)
  refine ⟨h.sublist.trans (sublist_append_left ..), fun x hx => ?_, fun j hj hnot => ?_,
    fun n hn => ?_⟩
  · obtain ⟨t', ht', hw, hs⟩ := h.sends x hx
    exact ⟨t', by rwa [getElem?_set_ne fun hix => hne x hx hix.symm], hw, hs⟩
  · by_cases hji : j = i
    · rw [hji, leftOf_set_self ht, hu]
    · rw [leftOf_set_ne u hji]
      refine h.refused j ?_ hnot
      simpa [hji] using hj
  · exact (h.caught n hn).congr (hcell n hn) fun x hx => by rw [leftOf_set_ne u (hne x hx)]

/-- A call takes effect on the first owner. -/
theorem lead (hi : i ∉ order) {p : NodeId} {rest : List NodeId} (hR : R = p :: rest) (hnd : R.Nodup)
    (hbegun : ∀ j ∈ order, p ∉ leftOf calls j) (hw : u.call.WritesTo c k) (hu : u.left = rest)
    (hs : Sends u (w'.cell c k p)) (hcell : ∀ n, n ≠ p → w'.cell c k n = w.cell c k n) :
    Spreading c k R init w' (calls.set i u) (order ++ [i]) (hist ++ [(i, w'.cell c k p)]) := by
  have hne : ∀ x ∈ hist, x.1 ≠ i := fun x hx hxi => hi (hxi ▸ h.mem_order hx)
  have hp : p ∉ rest := by
    rw [hR] at hnd
    exact (nodup_cons.mp hnd).1
  have hself := leftOf_set_self ht u
  constructor
  · rw [map_append]
    exact h.sublist.append (List.Sublist.refl _)
  · intro x hx
    rcases mem_append.mp hx with hx | hx
    · obtain ⟨t', ht', hw', hs'⟩ := h.sends x hx
      exact ⟨t', by rwa [getElem?_set_ne fun hix => hne x hx hix.symm], hw', hs'⟩
    · rw [mem_singleton.mp hx]
      exact ⟨u, List.getElem?_set_self (List.getElem?_eq_some_iff.mp ht).1, hw, hs⟩
  · intro j hj hnot
    have hji : j ≠ i := by
      rintro rfl
      exact hnot (by simp)
    rw [leftOf_set_ne u hji]
    refine h.refused j (by simpa [hji] using hj) fun hmem => hnot ?_
    rw [map_append]
    exact mem_append_left _ hmem
  · intro n hn
    by_cases hnp : n = p
    · subst hnp
      refine Caught.lead (fun x hx => ?_) (by rwa [hself, hu]) rfl
      rw [leftOf_set_ne u (hne x hx)]
      exact hbegun _ (h.mem_order hx)
    · refine ((h.caught n hn).congr (hcell n hnp) fun x hx => ?_).issue _ ?_
      · rw [leftOf_set_ne u (hne x hx)]
      · rw [hself, hu]
        rw [hR] at hn
        exact (mem_cons.mp hn).resolve_left hnp

/-- A call reaches another owner, which has taken everything before it. -/
theorem follow (hnd : order.Nodup) (hcall : u.call = t.call) (hi : i ∈ order) {n : NodeId}
    {todo : List NodeId} (hn : n ∉ todo) (hleft : t.left = n :: todo) (hu : u.left = todo)
    (hord : ∀ j ∈ order.takeWhile (· ≠ i), n ∉ leftOf calls j)
    (hcell : ∀ m, m ≠ n → w'.cell c k m = w.cell c k m)
    (hs : ∀ v, Sends t v → Sends u v ∧ w'.cell c k n = v) :
    Spreading c k R init w' (calls.set i u) order hist := by
  -- the write is in the history: a refused one has nothing left
  have hmem : i ∈ hist.map Prod.fst := by
    by_contra hnot
    have hnil := h.refused i hi hnot
    rw [leftOf_eq ht, hleft] at hnil
    cases hnil
  obtain ⟨⟨i', v⟩, hx, rfl⟩ := mem_map.mp hmem
  obtain ⟨before, after, rfl⟩ := append_of_mem hx
  have hnd' := h.sublist.nodup hnd
  obtain ⟨t', ht', hw, hsend⟩ := h.sends _ hx
  obtain rfl := some.inj (ht.symm.trans ht')
  obtain ⟨hsend', hval⟩ := hs v hsend
  have hne : ∀ x ∈ before ++ after, x.1 ≠ i' := by
    intro x hx' hxi
    rw [map_append, map_cons, nodup_middle, ← map_append] at hnd'
    have hmem' : x.1 ∈ (before ++ after).map Prod.fst := mem_map_of_mem hx'
    rw [hxi] at hmem'
    exact (nodup_cons.mp hnd').1 hmem'
  have hself := leftOf_set_self ht u
  refine ⟨h.sublist, fun x hx' => ?_, fun j hj hnot => ?_, fun m hm => ?_⟩
  · obtain ⟨t'', ht'', hw', hs'⟩ := h.sends x hx'
    by_cases hxi : x.1 = i'
    · have hxv : x = (i', v) := by
        rcases mem_append.mp hx' with hb | hb
        · exact absurd hxi (hne x (mem_append_left _ hb))
        · rcases mem_cons.mp hb with hb | hb
          · exact hb
          · exact absurd hxi (hne x (mem_append_right _ hb))
      rw [hxv]
      exact ⟨u, List.getElem?_set_self (List.getElem?_eq_some_iff.mp ht).1, hcall ▸ hw, hsend'⟩
    · exact ⟨t'', by rwa [List.getElem?_set_ne fun hix => hxi hix.symm], hw', hs'⟩
  · have hji : j ≠ i' := fun hji => hnot (hji ▸ hmem)
    rw [leftOf_set_ne u hji]
    exact h.refused j hj hnot
  · by_cases hmn : m = n
    · subst hmn
      refine (h.caught m hm).take (by rw [leftOf_eq ht, hleft]; exact mem_cons_self ..)
        (fun x hx' => hord _ ?_) hne hval (fun j hj => by rw [leftOf_set_ne u hj])
        (by rwa [hself, hu])
      have hsub := h.sublist
      rw [map_append, map_cons] at hsub
      exact mem_takeWhile_of_sublist hsub hnd (mem_map_of_mem hx')
    · refine (h.caught m hm).congr (hcell m hmn) fun x hx' => ?_
      by_cases hxi : x.1 = i'
      · rw [hxi, hself, hu, leftOf_eq ht, hleft]
        simp [hmn]
      · rw [leftOf_set_ne u hxi]

end Spreading

namespace Pipeline

variable [LawfulCells St] {c k : String} {init : Option Value} {s : Ordered St} {i : ℕ}
  {t : CallState} {r : World St × CallState}

omit [LawfulCells St] in
/-- The first owner has taken every write of the order. -/
theorem not_mem_left (h : Pipeline c k init s) {p : NodeId} {rest : List NodeId}
    (hR : s.sys.world.cluster.owners k = p :: rest) {j : ℕ} (hj : j ∈ s.order) :
    p ∉ leftOf s.sys.calls j := by
  obtain ⟨t, ht, hw, todo, hu, hne⟩ := (h.mem_order j).mp hj
  have hsuf := (h.follows j t ht hw.2.1 hw.2.2).suffix todo hu
  rw [leftOf_eq ht, left, hu]
  have hnd := h.up.nodup
  rw [hR] at hsuf hne hnd
  rcases suffix_cons_iff.mp hsuf with heq | hsuf
  · exact absurd heq hne
  · exact fun hp => (nodup_cons.mp hnd).1 (hsuf.subset hp)

omit [LawfulCells St] in
theorem begun_of_mem (h : Pipeline c k init s) (ht : s.sys.calls[i]? = some t)
    (hi : i ∈ s.order) : Begun c k (s.sys.world.cluster.owners k) t := by
  obtain ⟨t', ht', hb⟩ := (h.mem_order i).mp hi
  rwa [some.inj (ht.symm.trans ht')]

/-- The parts of the invariant that do not depend on how the write gets on. -/
theorem of_call (h : Pipeline c k init s) (ht : s.sys.calls[i]? = some t)
    (hs : t.Trans s.sys.world r) {order : List ℕ} {trace : List Event} (hnd : order.Nodup)
    (hi : i ∈ order ↔ Begun c k (s.sys.world.cluster.owners k) r.2)
    (hne : ∀ j, j ≠ i → (j ∈ order ↔ j ∈ s.order))
    (hspread : ∃ hist, Spreading c k (s.sys.world.cluster.owners k) init r.1
      (s.sys.calls.set i r.2) order hist) :
    Pipeline c k init
      ⟨{ s.sys with world := r.1, calls := s.sys.calls.set i r.2, trace := trace }, order⟩ := by
  obtain ⟨g, hg, -⟩ := hs.cluster_eq
  have howners : r.1.cluster.owners k = s.sys.world.cluster.owners k := by rw [hg]; rfl
  have hfollows : ∀ {u : CallState}, Follows s.sys.world.cluster (s.sys.world.cluster.owners k) u →
      Follows r.1.cluster (s.sys.world.cluster.owners k) u :=
    fun hf => ⟨hf.scalar, fun hp => by rw [hg]; exact hf.ring hp, hf.suffix, hf.fresh, hf.decided⟩
  constructor
  · refine ⟨howners ▸ h.up.nodup, fun n hn => ?_, fun n hn => ?_⟩
    · rw [hg]
      exact h.up.up n (howners ▸ hn)
    · rw [hg]
      exact h.up.clients n (howners ▸ hn)
  · intro j u hu hc hk
    rw [howners]
    rcases getElem?_set_cases hu with ⟨rfl, rfl⟩ | ⟨-, hu⟩
    · rw [hs.call_eq] at hc hk
      exact hfollows ((h.follows j t ht hc hk).step h.up hk hs)
    · exact hfollows (h.follows j u hu hc hk)
  · exact hnd
  · intro j
    rw [howners]
    by_cases hji : j = i
    · subst hji
      have hself : (s.sys.calls.set j r.2)[j]? = some r.2 :=
        List.getElem?_set_self (List.getElem?_eq_some_iff.mp ht).1
      rw [hi]
      exact ⟨fun hb => ⟨_, hself, hb⟩, fun ⟨u, hu, hb⟩ => by
        rwa [some.inj (hself.symm.trans hu)]⟩
    · rw [hne j hji, h.mem_order j, getElem?_set_ne fun hij => hji hij.symm]
  · intro n hn
    exact hs.expiryAt_none (h.ttl n (howners ▸ hn))
  · exact howners.symm ▸ hspread

omit [IndexStore St] [LawfulCells St] in
theorem arrival_call {s : System St} (ht : s.calls[i]? = some t) (o : Outcome) :
    Ordered.arrival s c k (.call i o) = if t.call.WritesTo c k ∧
      t.reaches = (s.world.cluster.owners k).head? then [i] else [] := by
  rw [Ordered.arrival, ht]
  simp

omit [LawfulCells St] in
/-- A call that has all owners before it has not begun. -/
theorem not_mem_order (h : Pipeline c k init s) (ht : s.sys.calls[i]? = some t)
    (hu : t.pc.unvisited = some (s.sys.world.cluster.owners k)) : i ∉ s.order := by
  intro hi
  obtain ⟨-, todo, htodo, hne⟩ := h.begun_of_mem ht hi
  exact hne (some.inj (htodo.symm.trans hu))

omit [LawfulCells St] in
theorem nodup_concat (h : Pipeline c k init s) (hi : i ∉ s.order) : (s.order ++ [i]).Nodup := by
  rw [← concat_eq_append]
  exact h.nodup.concat hi

section Step

variable {trace : List Event} (h : Pipeline c k init s) (ht : s.sys.calls[i]? = some t)
  (hs : t.Trans s.sys.world r)
include h ht hs

/-- A step of a call that does not write the cell. -/
theorem unrelated_step (hw : ¬t.call.WritesTo c k) : Pipeline c k init
    ⟨{ s.sys with world := r.1, calls := s.sys.calls.set i r.2, trace := trace }, s.order⟩ := by
  obtain ⟨hist, hspread⟩ := h.spreading
  have hi : i ∉ s.order := fun hi => hw (h.begun_of_mem ht hi).1
  have hcell : ∀ n, r.1.cell c k n = s.sys.world.cell c k n := by
    by_cases hck : t.call.coll = c ∧ t.call.key = k
    · refine hs.cell_eq_of_not_writes (fun hp => ?_) hw
      by_contra hd
      obtain ⟨v, hv⟩ := ne_none_iff_exists'.mp hd
      have := ((h.follows i t ht hck.1 hck.2).decided v hv).1
      rw [hp] at this
      cases this
    · exact fun n => hs.cell_eq (.inl fun heq => hck ⟨heq.1.symm, heq.2.symm⟩)
  exact h.of_call ht hs h.nodup
    ⟨fun hi' => absurd hi' hi, fun hb => absurd (hs.call_eq ▸ hb.1) hw⟩ (fun _ _ => Iff.rfl)
    ⟨hist, hspread.quiet ht hs.call_eq (fun n _ => hcell n) fun hi' => absurd hi' hi⟩

/-- A step of a write between two owners. -/
theorem quiet_step (hw : t.call.WritesTo c k) (hcell : ∀ m, r.1.cell c k m = s.sys.world.cell c k m)
    (hu : r.2.pc.unvisited = t.pc.unvisited ∨
      t.pc.unvisited = none ∧ r.2.pc.unvisited = some (s.sys.world.cluster.owners k))
    (hsend : ∀ v, Sends t v → Sends r.2 v) : Pipeline c k init
    ⟨{ s.sys with world := r.1, calls := s.sys.calls.set i r.2, trace := trace }, s.order⟩ := by
  obtain ⟨hist, hspread⟩ := h.spreading
  -- a write that has begun is past its first owner, so it has the same owners before it
  have hkeep : i ∈ s.order → r.2.pc.unvisited = t.pc.unvisited := by
    intro hi
    obtain ⟨-, todo, htodo, -⟩ := h.begun_of_mem ht hi
    rcases hu with hu | ⟨hu, -⟩
    · exact hu
    · rw [hu] at htodo
      cases htodo
  refine h.of_call ht hs h.nodup ⟨fun hi => ?_, fun hb => ?_⟩ (fun _ _ => Iff.rfl)
    ⟨hist, hspread.quiet ht hs.call_eq (fun n _ => hcell n) fun hi => ⟨?_, hsend⟩⟩
  · obtain ⟨-, todo, htodo, hne⟩ := h.begun_of_mem ht hi
    exact ⟨hs.call_eq ▸ hw, todo, (hkeep hi).trans htodo, hne⟩
  · obtain ⟨-, todo, htodo, hne⟩ := hb
    rcases hu with hu | ⟨-, hu⟩
    · exact (h.mem_order i).mpr ⟨t, ht, hw, todo, hu.symm.trans htodo, hne⟩
    · exact absurd (some.inj (hu.symm.trans htodo)).symm hne
  · rw [left, left, hkeep hi]

end Step

/-- A step of a call. -/
theorem call_step (h : Pipeline c k init s) (hne : s.sys.world.cluster.owners k ≠ [])
    (ht : s.sys.calls[i]? = some t) (hs : t.Trans s.sys.world r)
    (hord : s.InOrder c k (.call i .ok)) (trace : List Event) :
    Pipeline c k init ⟨{ s.sys with world := r.1, calls := s.sys.calls.set i r.2, trace := trace },
      s.order ++ Ordered.arrival s.sys c k (.call i .ok)⟩ := by
  obtain ⟨hist, hspread⟩ := h.spreading
  obtain ⟨p, rest, hR⟩ := exists_cons_of_ne_nil hne
  have hcall := hs.call_eq
  rw [arrival_call ht, hR, head?_cons]
  by_cases hw : t.call.WritesTo c k
  · have hf := h.follows i t ht hw.2.1 hw.2.2
    have hw' : r.2.call.WritesTo c k := hcall ▸ hw
    cases hf.effect h.up hw hs with
    | quiet hn hcell hu hsend =>
      rw [if_neg (by rw [hn]; simp), append_nil]
      exact h.quiet_step ht hs hw hcell hu hsend
    | @reach n todo hn hu hu' hcell hlead hfollow =>
      have hsuf := hf.suffix _ hu
      have hnd := hsuf.sublist.nodup h.up.nodup
      have hbegun : Begun c k (s.sys.world.cluster.owners k) r.2 := by
        refine ⟨hw', todo, hu', fun heq => ?_⟩
        have hlen := hsuf.length_le
        rw [← heq, length_cons] at hlen
        omega
      by_cases hfirst : n :: todo = s.sys.world.cluster.owners k
      · obtain ⟨rfl, rfl⟩ := cons.inj (hfirst.trans hR)
        have hi := h.not_mem_order ht (hu.trans (congrArg some hfirst))
        rw [if_pos ⟨hw, hn⟩]
        exact h.of_call ht hs (h.nodup_concat hi) ⟨fun _ => hbegun, fun _ => by simp⟩
          (fun j hj => by simp [hj]) ⟨_, hspread.lead ht hi hR h.up.nodup
            (fun j hj => h.not_mem_left hR hj) hw' (by rw [left, hu']; rfl)
            (hlead hfirst) hcell⟩
      · have hi : i ∈ s.order := (h.mem_order i).mpr ⟨t, ht, hw, _, hu, hfirst⟩
        have hnp : n ≠ p := by
          rintro rfl
          refine h.not_mem_left hR hi ?_
          rw [leftOf_eq ht, left, hu]
          exact mem_cons_self ..
        rw [if_neg (by rw [hn]; simp [hnp]), append_nil]
        refine h.of_call ht hs h.nodup ⟨fun _ => hbegun, fun _ => hi⟩ (fun _ _ => Iff.rfl)
          ⟨hist, hspread.follow ht h.nodup hcall hi (nodup_cons.mp hnd).1
            (by rw [left, hu]; rfl) (by rw [left, hu']; rfl) (fun j hj => ?_)
            hcell (hfollow hfirst)⟩
        cases hu : s.sys.calls[j]? with
        | none => simp [leftOf, hu]
        | some u =>
          rw [leftOf_eq hu]
          exact hord t ht hw n hn j hj u hu
    | @refuse n todo hn hR' hu hu' hcell =>
      obtain ⟨rfl, rfl⟩ := cons.inj (hR'.trans hR)
      have hi := h.not_mem_order ht hu
      rw [if_pos ⟨hw, hn⟩]
      refine h.of_call ht hs (h.nodup_concat hi) ⟨fun _ => ⟨hw', [], hu', ?_⟩, fun _ => by simp⟩
          (fun j hj => by simp [hj])
          ⟨hist, hspread.refuse ht hi (fun m _ => hcell m) (by rw [left, hu']; rfl)⟩
      rw [hR]
      simp
  · rw [if_neg fun hc => hw hc.1, append_nil]
    exact h.unrelated_step ht hs hw

omit [LawfulCells St] in
/-- A new call changes nothing yet. -/
theorem invoke_step (h : Pipeline c k init s) {call : Call}
    (hop : call.coll = c ∧ call.key = k → call.op.onMembers = false) (trace : List Event) :
    Pipeline c k init
      ⟨{ s.sys with calls := s.sys.calls ++ [⟨call, .waiting⟩], trace := trace }, s.order⟩ := by
  have hleft : ∀ j, leftOf (s.sys.calls ++ [⟨call, .waiting⟩]) j = leftOf s.sys.calls j := by
    intro j
    rw [leftOf, leftOf, getElem?_append]
    split_ifs with hlt
    · rfl
    · rw [getElem?_eq_none (not_lt.mp hlt)]
      cases hj : ([⟨call, .waiting⟩] : List CallState)[j - s.sys.calls.length]? with
      | none => rfl
      | some u =>
        rw [mem_singleton.mp (mem_of_getElem? hj)]
        rfl
  refine ⟨h.up, fun j u hu hc hk => ?_, h.nodup, fun j => ?_, h.ttl, ?_⟩
  · rcases getElem?_concat_cases hu with hu | ⟨-, rfl⟩
    · exact h.follows j u hu hc hk
    · exact ⟨hop ⟨hc, hk⟩, nofun, nofun, nofun, nofun⟩
  · rw [h.mem_order j]
    refine exists_congr fun u => ⟨fun ⟨hu, hb⟩ => ⟨getElem?_concat_of_some hu _, hb⟩, ?_⟩
    rintro ⟨hu, hb⟩
    rcases getElem?_concat_cases hu with hu | ⟨-, rfl⟩
    · exact ⟨hu, hb⟩
    · obtain ⟨-, todo, htodo, -⟩ := hb
      cases htodo
  · obtain ⟨hist, hspread⟩ := h.spreading
    refine ⟨hist, hspread.sublist, fun x hx => ?_, fun j hj hnot => ?_, fun n hn => ?_⟩
    · obtain ⟨u, hu, hw⟩ := hspread.sends x hx
      exact ⟨u, getElem?_concat_of_some hu _, hw⟩
    · rw [hleft]
      exact hspread.refused j hj hnot
    · exact (hspread.caught n hn).congr rfl fun x _ => by rw [hleft]

theorem tick_step (h : Pipeline c k init s) (ms : ℕ) :
    Pipeline c k init
      ⟨{ s.sys with world := { s.sys.world with now := s.sys.world.now + ms } }, s.order⟩ := by
  obtain ⟨hist, hspread⟩ := h.spreading
  refine ⟨h.up, h.follows, h.nodup, h.mem_order, h.ttl, hist, hspread.sublist, hspread.sends,
    hspread.refused, fun n hn => (hspread.caught n hn).congr ?_ fun _ _ => Iff.rfl⟩
  exact Shard.object_congr_now (h.ttl n hn) _ _

/-- Every permitted step that keeps the order keeps the invariant. -/
theorem step (h : Pipeline c k init s) (hne : s.sys.world.cluster.owners k ≠ []) {l : SysLabel}
    (hok : Ordered.Permits c k l) (hord : s.InOrder c k l) {s' : Ordered St}
    (hs : s.step c k l = some s') : Pipeline c k init s' := by
  obtain ⟨sys, hsys, rfl⟩ := map_eq_some_iff.mp hs
  cases l with
  | invoke call =>
    obtain rfl := some.inj hsys
    have harr : s.order ++ Ordered.arrival s.sys c k (.invoke call) = s.order := append_nil _
    rw [harr]
    exact h.invoke_step hok _
  | call i o =>
    obtain rfl : o = .ok := hok
    obtain ⟨t, ht, r, hr, rfl⟩ := System.callStep_eq_some hsys
    exact h.call_step hne ht (trans_of_step hr) hord _
  | tick ms =>
    obtain rfl := some.inj hsys
    have harr : s.order ++ Ordered.arrival s.sys c k (.tick ms) = s.order := append_nil _
    rw [harr]
    exact h.tick_step ms
  | migrate | abandon _ | resume => cases hok

omit [LawfulCells St] in
theorem start {w : World St} (hup : OwnersUp w.cluster k)
    (hagree : ∀ n ∈ w.cluster.owners k, w.cell c k n = init ∧ (w.shards n).expiryAt c k = none) :
    Pipeline c k init ⟨⟨w, [], none, []⟩, []⟩ := by
  refine ⟨hup, fun i t ht => by simp at ht, nodup_nil, fun i => by simp,
    fun n hn => (hagree n hn).2, [], ?_⟩
  exact ⟨List.Sublist.refl _, nofun, nofun, fun n hn => Caught.nil (hagree n hn).1⟩

omit [LawfulCells St] in
/-- When all calls have returned, every owner holds what the last write in the order wrote. -/
theorem converged (h : Pipeline c k init s) (hret : ∀ t ∈ s.sys.calls, t.pc.isReturned = true) :
    ∃ v, ∀ n ∈ s.sys.world.cluster.owners k, s.sys.world.cell c k n = v := by
  obtain ⟨hist, hspread⟩ := h.spreading
  refine ⟨_, fun n hn => (hspread.caught n hn).last fun x hx => ?_⟩
  obtain ⟨t, ht, -⟩ := hspread.sends x hx
  have hr := hret t (mem_of_getElem? ht)
  rw [leftOf_eq ht, left]
  cases hp : t.pc with
  | returned _ => rfl
  | _ => rw [hp] at hr; cases hr

end Pipeline

/-- The owners stay the same while no migration runs. -/
theorem Ordered.owners_step {c k : String} {s s' : Ordered St} {l : SysLabel}
    (hok : Permits c k l) (hs : s.step c k l = some s') :
    s'.sys.world.cluster.owners k = s.sys.world.cluster.owners k := by
  obtain ⟨sys, hsys, rfl⟩ := map_eq_some_iff.mp hs
  cases l with
  | invoke call | tick ms =>
    obtain rfl := some.inj hsys
    rfl
  | call i o =>
    obtain rfl : o = .ok := hok
    obtain ⟨t, -, r, hr, rfl⟩ := System.callStep_eq_some hsys
    obtain ⟨g, hg, -⟩ := (trans_of_step hr).cluster_eq
    dsimp only
    rw [hg]
    rfl
  | migrate | abandon _ | resume => cases hok

/-- **Replicas converge** when every owner takes the writes of the key in the order in which the
first owner took them: once all calls have returned, all owners hold the same value. -/
theorem converges_of_inOrder [LawfulCells St] {w : World St} {c k : String}
    (hup : OwnersUp w.cluster k) {v : Option Value}
    (hagree : ∀ n ∈ w.cluster.owners k, w.cell c k n = v ∧ (w.shards n).expiryAt c k = none)
    {ls : List SysLabel} {s : Ordered St}
    (hrun : exec (guarded (Ordered.step c k) fun s l => Ordered.Permits c k l ∧ s.InOrder c k l)
      ⟨⟨w, [], none, []⟩, []⟩ ls = some s)
    (hret : ∀ t ∈ s.sys.calls, t.pc.isReturned = true) :
    ∃ v, ∀ n ∈ s.sys.world.cluster.owners k, s.sys.world.cell c k n = v := by
  by_cases hne : w.cluster.owners k = []
  · -- no owner, nothing to agree on
    have hown : s.sys.world.cluster.owners k = [] := by
      exact exec_guarded_invariant (I := fun s => s.sys.world.cluster.owners k = [])
        (fun _ _ _ hI hok hs => (Ordered.owners_step hok.1 hs).trans hI) hne hrun
    exact ⟨none, fun n hn => by rw [hown] at hn; cases hn⟩
  · have hinv : Pipeline c k v s ∧ s.sys.world.cluster.owners k ≠ [] := by
      refine exec_guarded_invariant
        (I := fun s => Pipeline c k v s ∧ s.sys.world.cluster.owners k ≠ []) ?_
        ⟨Pipeline.start hup hagree, hne⟩ hrun
      rintro s l s' ⟨hI, hown⟩ ⟨hok, hord⟩ hs
      exact ⟨hI.step hown hok hord hs, by rwa [Ordered.owners_step hok hs]⟩
    exact hinv.1.converged hret

/-! ### Two puts on two owners -/

theorem ownersUp_twoOwners : OwnersUp twoOwners.cluster "x" where
  nodup := by decide +kernel
  up := by decide +kernel
  clients := by decide +kernel

/-- The calls whose numbers are listed move in that order, after two puts have been invoked. -/
def twoPuts (moves : List ℕ) : List SysLabel :=
  .invoke ⟨"kv", "x", .put (.int 1)⟩ :: .invoke ⟨"kv", "x", .put (.int 2)⟩ ::
    moves.map (.call · .ok)

/-- The first put is on its first owner before the second one, and on the other owner too. -/
def inTurn : List ℕ :=
  List.replicate 5 0 ++ List.replicate 5 1 ++ List.replicate 4 0 ++ List.replicate 4 1

theorem converges_of_inTurn : ∃ s, exec (guarded (Ordered.step "kv" "x") fun s l =>
      Ordered.Permits "kv" "x" l ∧ s.InOrder "kv" "x" l)
      ⟨⟨twoOwners, [], none, []⟩, []⟩ (twoPuts inTurn) = some s ∧
    ∃ v, ∀ n ∈ s.sys.world.cluster.owners "x", s.sys.world.cell "kv" "x" n = v := by
  refine exists_of_map (f := fun s => s.sys.calls.all fun t => t.pc.isReturned) (a := true)
    (by decide +kernel) fun s hs hret => ?_
  exact converges_of_inOrder ownersUp_twoOwners (fun n _ => ⟨rfl, rfl⟩) hs (all_eq_true.mp hret)

/-- The second put overtakes the first one between the two owners. -/
def overtaking : List ℕ := List.replicate 5 0 ++ List.replicate 9 1 ++ List.replicate 4 0

theorem diverges_of_overtaking : OwnersUp twoOwners.cluster "x" ∧
    (∀ n, twoOwners.cell "kv" "x" n = none ∧ (twoOwners.shards n).expiryAt "kv" "x" = none) ∧
    ∃ s, exec (guarded (Ordered.step "kv" "x") fun _ l => Ordered.Permits "kv" "x" l)
      ⟨⟨twoOwners, [], none, []⟩, []⟩ (twoPuts overtaking) = some s ∧
    (∀ t ∈ s.sys.calls, t.pc.isReturned = true) ∧
    s.sys.world.cluster.owners "x" = ["b", "a"] ∧
    s.sys.world.cell "kv" "x" "b" = some (.int 2) ∧
    s.sys.world.cell "kv" "x" "a" = some (.int 1) := by
  refine ⟨ownersUp_twoOwners, fun n => ⟨rfl, rfl⟩, exists_of_map (f := fun s =>
    (s.sys.calls.all fun t => t.pc.isReturned, s.sys.world.cluster.owners "x",
      s.sys.world.cell "kv" "x" "b", s.sys.world.cell "kv" "x" "a"))
    (a := (true, ["b", "a"], some (.int 2), some (.int 1))) (by decide +kernel) fun s _ heq => ?_⟩
  simp only [Prod.mk.injEq] at heq
  exact ⟨all_eq_true.mp heq.1, heq.2⟩

end Stplr
