import Stplr.Equiv.Store
import Stplr.Shard

/-!
# What a shard's operations do to one cell

The cell `(coll, key)` of a shard is read by `Shard.object` and carries the expiry
`Shard.expiryAt`.  The bulk operations act cell by cell: an import overwrites the cells its list
names (`object_importEntries`), a drop empties the cells of its buckets
(`object_dropBuckets`), and an export lists the cells of its buckets (`mem_exportEntries`).
`exec_frame` is the frame rule: an operation that does not name a collection leaves its cells
without expiry as they are.
-/

namespace Stplr

open IndexStore LawfulCells LawfulStore List

namespace Shard

variable {St : Type} [IndexStore St] [LawfulCells St] (now : ℕ) (sh : Shard St)

/-- The absolute expiry recorded for a cell. -/
def expiryAt (sh : Shard St) (c k : String) : Option ℕ := expiryOf sh.store c k

/-- Without an expiry the clock does not matter. -/
theorem object_congr_now {sh : Shard St} {c k : String} (h : sh.expiryAt c k = none)
    (now now' : ℕ) : sh.object now c k = sh.object now' c k :=
  getObject_congr_now now now' h

theorem object_writeObject (c k : String) (v : Value) (c' k' : String) :
    (sh.writeObject c k v).object now c' k'
      = if c' = c ∧ k' = k then some v else sh.object now c' k' :=
  getObject_putObject now sh.store c k v c' k'

variable (c : String) (bs : List ℕ) (es : List (String × Value)) (ids : List String)

theorem object_deleteObject (k c' k' : String) :
    (sh.deleteObject c k).object now c' k'
      = if c' = c ∧ k' = k then none else sh.object now c' k' :=
  getObject_deleteObject now sh.store c k c' k'

theorem expiryAt_writeObject {c k c' k' : String} (v : Value) (h : sh.expiryAt c' k' = none) :
    (sh.writeObject c k v).expiryAt c' k' = none :=
  Touches.expiryOf_none (.inr (.inl ⟨v, rfl⟩)) h

theorem expiryAt_deleteObject {c k c' k' : String} (h : sh.expiryAt c' k' = none) :
    (sh.deleteObject c k).expiryAt c' k' = none :=
  Touches.expiryOf_none (.inr (.inr rfl)) h

/-! ### Export, import and drop -/

theorem mem_exportEntries (k : String) (v : Value) :
    (k, v) ∈ sh.exportEntries now c bs ↔ bucketOf k ∈ bs ∧ sh.object now c k = some v := by
  rw [exportEntries, mem_filter, mem_scanEntries]
  simp only [decide_eq_true_eq]
  exact and_comm

theorem nodup_exportEntries : ((sh.exportEntries now c bs).map Prod.fst).Nodup :=
  (nodup_scanEntries now sh.store c).sublist (filter_sublist.map _)

/-- A key exported from a shard is listed with the value the shard holds. -/
theorem lookup_exportEntries (k : String) :
    (sh.exportEntries now c bs).lookup k = if bucketOf k ∈ bs then sh.object now c k else none := by
  have hmem := fun v => mem_exportEntries now sh c bs k v
  have hnd := nodup_exportEntries now sh c bs
  generalize sh.exportEntries now c bs = es at hmem hnd
  have hlook : ∀ v, es.lookup k = some v ↔ (k, v) ∈ es := by
    intro v
    clear hmem
    induction es with
    | nil => simp
    | cons e es ih =>
      obtain ⟨k', v'⟩ := e
      rw [map_cons, nodup_cons] at hnd
      rw [lookup_cons, mem_cons, Prod.mk.injEq]
      by_cases hk : k = k'
      · subst hk
        have hnot : (k, v) ∉ es := fun hm => hnd.1 (mem_map.mpr ⟨_, hm, rfl⟩)
        simp [hnot, eq_comm]
      · rw [beq_eq_false_iff_ne.mpr hk]
        simp [hk, ih hnd.2]
  ext v
  rw [hlook, hmem]
  split_ifs with hb
  · simp [hb]
  · simp [hb]

theorem object_importEntries_aux (hnd : (es.map Prod.fst).Nodup) (c' k' : String) : ∀ s : St,
    getObject now (es.foldl (fun s e => putObject s c e.1 e.2) s) c' k'
      = if c' = c then (es.lookup k').or (getObject now s c' k')
        else getObject now s c' k' := by
  induction es with
  | nil => intro s; simp
  | cons e es ih =>
    intro s
    obtain ⟨k, v⟩ := e
    rw [map_cons, nodup_cons] at hnd
    rw [foldl_cons, ih hnd.2, getObject_putObject, lookup_cons]
    by_cases hc : c' = c
    · rw [if_pos hc, if_pos hc]
      by_cases hk : k' = k
      · subst hk
        have hnone : es.lookup k' = none := by
          rw [lookup_eq_none_iff]
          intro p hp
          simp only [bne_iff_ne, ne_eq]
          rintro rfl
          exact hnd.1 (mem_map.mpr ⟨p, hp, rfl⟩)
        rw [hnone, if_pos ⟨hc, rfl⟩, BEq.rfl, Option.none_or, Option.some_or]
      · rw [if_neg (fun h => hk h.2), beq_eq_false_iff_ne.mpr hk]
    · rw [if_neg hc, if_neg hc, if_neg (fun h => hc h.1)]

/-- An import overwrites the cells its list names and leaves every other cell alone. -/
theorem object_importEntries {es : List (String × Value)} (hnd : (es.map Prod.fst).Nodup)
    (c' k' : String) :
    (sh.importEntries c es).object now c' k'
      = if c' = c then (es.lookup k').or (sh.object now c' k') else sh.object now c' k' :=
  object_importEntries_aux now c es hnd c' k' sh.store

theorem expiryAt_foldl_putObject {c' k' : String} :
    ∀ s : St, expiryOf s c' k' = none →
      expiryOf (es.foldl (fun s e => putObject s c e.1 e.2) s) c' k' = none := by
  induction es with
  | nil => intro s h; exact h
  | cons e es ih =>
    intro s h
    exact ih _ (Touches.expiryOf_none (.inr (.inl ⟨e.2, rfl⟩)) h)

theorem expiryAt_importEntries {c' k' : String} (h : sh.expiryAt c' k' = none) :
    (sh.importEntries c es).expiryAt c' k' = none :=
  expiryAt_foldl_putObject c es sh.store h

omit [LawfulCells St] in
theorem foldl_deleteObject_eq : ∀ s : St, ids.foldl (fun s id => IndexStore.deleteObject s c id) s
      = (ids.map (Prod.mk c)).foldl (fun s d => IndexStore.deleteObject s d.1 d.2) s := by
  induction ids with
  | nil => intro s; rfl
  | cons i ids ih => intro s; exact ih _

theorem getObject_foldl_deleteObject {k : String} (hk : k ∈ ids) :
    ∀ s : St,
      IndexStore.getObject now (ids.foldl (fun s id => IndexStore.deleteObject s c id) s) c k
        = none := by
  induction ids with
  | nil => simp at hk
  | cons i ids ih =>
    intro s
    rw [foldl_cons]
    by_cases hki : k ∈ ids
    · exact ih hki _
    · have hi : k = i := (mem_cons.mp hk).resolve_right hki
      have hnot : (c, k) ∉ ids.map (Prod.mk c) := by simpa using hki
      rw [foldl_deleteObject_eq, (foldl_deleteObject_frame now _ _ hnot).1, getObject_deleteObject,
        if_pos ⟨rfl, hi⟩]

/-- A drop empties the cells of the buckets it names. -/
theorem object_dropBuckets (c' k' : String) :
    (sh.dropBuckets now c bs).1.object now c' k'
      = if c' = c ∧ bucketOf k' ∈ bs then none else sh.object now c' k' := by
  by_cases hin : c' = c ∧ k' ∈ (sh.exportEntries now c bs).map Prod.fst
  · obtain ⟨rfl, hk⟩ := hin
    have hb : bucketOf k' ∈ bs := by
      obtain ⟨⟨k, v⟩, he, rfl⟩ := mem_map.mp hk
      exact ((mem_exportEntries now sh c' bs k v).mp he).1
    rw [if_pos ⟨rfl, hb⟩]
    exact getObject_foldl_deleteObject now c' _ hk sh.store
  · have hframe : (sh.dropBuckets now c bs).1.object now c' k' = sh.object now c' k' := by
      have hnot : (c', k') ∉ ((sh.exportEntries now c bs).map Prod.fst).map (Prod.mk c) := by
        rintro hm
        obtain ⟨i, hi, heq⟩ := mem_map.mp hm
        obtain ⟨rfl, rfl⟩ := Prod.mk.inj heq
        exact hin ⟨rfl, hi⟩
      have h := (foldl_deleteObject_frame now _ sh.store hnot).1
      rw [← foldl_deleteObject_eq] at h
      exact h
    rw [hframe]
    split_ifs with h
    · obtain ⟨rfl, hb⟩ := h
      rw [Option.eq_none_iff_forall_not_mem]
      intro v hv
      exact hin ⟨rfl, mem_map.mpr ⟨(k', v), (mem_exportEntries now sh c' bs k' v).mpr ⟨hb, hv⟩, rfl⟩⟩
    · rfl

theorem expiryAt_foldl_deleteObject {c' k' : String} :
    ∀ s : St, IndexStore.expiryOf s c' k' = none →
      IndexStore.expiryOf (ids.foldl (fun s id => IndexStore.deleteObject s c id) s) c' k' = none := by
  induction ids with
  | nil => intro s h; exact h
  | cons i ids ih =>
    intro s h
    exact ih _ (Touches.expiryOf_none (.inr (.inr rfl)) h)

theorem expiryAt_dropBuckets {c' k' : String} (h : sh.expiryAt c' k' = none) :
    (sh.dropBuckets now c bs).1.expiryAt c' k' = none :=
  expiryAt_foldl_deleteObject c _ sh.store h

end Shard

/-! ### The frame rule -/

namespace ShardOp

variable {St : Type} [IndexStore St] [LawfulStore St]

/-- A cell without expiry reads the same and stays without expiry. -/
def Unchanged (sh sh' : Shard St) (c k : String) : Prop :=
  (∀ now, sh'.object now c k = sh.object now c k) ∧ sh'.expiryAt c k = none

theorem unchanged_of_touches {sh sh' : Shard St} {c k c' k' : String}
    (h : Touches sh.store sh'.store c k) (hne : ¬(c' = c ∧ k' = k))
    (hexp : sh.expiryAt c' k' = none) : Unchanged sh sh' c' k' :=
  ⟨fun now => h.getObject_ne now hne, h.expiryOf_none hexp⟩

theorem unchanged_putBatch (items : List (String × String × Value)) {c k : String}
    (hc : c ∉ items.map Prod.fst) : ∀ sh : Shard St, sh.expiryAt c k = none →
      Unchanged sh (sh.writeBatch items) c k := by
  induction items with
  | nil => intro sh h; exact ⟨fun _ => rfl, h⟩
  | cons it items ih =>
    intro sh h
    rw [map_cons, mem_cons, not_or] at hc
    have h1 : Unchanged sh (sh.writeObject it.1 it.2.1 it.2.2) c k :=
      unchanged_of_touches (.inr (.inl ⟨_, rfl⟩)) (fun hd => hc.1 hd.1) h
    have h2 := ih hc.2 (sh.writeObject it.1 it.2.1 it.2.2) h1.2
    exact ⟨fun now => (h2.1 now).trans (h1.1 now), h2.2⟩

/-- **Frame rule**: an operation that does not name a collection leaves its cells without expiry
as they are. -/
theorem exec_frame (now : ℕ) (sh : Shard St) (op : ShardOp) {c k : String}
    (hc : c ∉ op.colls) (hexp : sh.expiryAt c k = none) :
    Unchanged sh (op.exec now sh) c k := by
  cases op with
  | setAdd coll key member | setRemove coll key member | cas coll key expect new
  | incr coll key delta =>
    exact unchanged_of_touches (touches_update now sh.store coll key _)
      (fun h => hc (by simp [colls, h.1])) hexp
  | writeObject coll key obj =>
    exact unchanged_of_touches (.inr (.inl ⟨obj, rfl⟩)) (fun h => hc (by simp [colls, h.1])) hexp
  | writeObjectTtl coll key obj ttlMs =>
    have hne : ¬(c = coll ∧ k = key) := fun h => hc (by simp [colls, h.1])
    rw [exec, Shard.writeObjectTtl]
    split_ifs
    · exact unchanged_of_touches (.inr (.inl ⟨obj, rfl⟩)) hne hexp
    · exact ⟨fun t => getObject_putObjectAt_ne t sh.store coll key obj _ hne,
        (expiryOf_putObjectAt_ne sh.store coll key obj _ hne).trans hexp⟩
  | sweepExpired =>
    exact ⟨fun t => (sweepExpired_frame t now hexp).1, (sweepExpired_frame now now hexp).2⟩
  | writeBatch items => exact unchanged_putBatch items hc sh hexp
  | deleteObject coll key =>
    exact unchanged_of_touches (.inr (.inr rfl)) (fun h => hc (by simp [colls, h.1])) hexp
  | importEntries coll entries =>
    have hmap : sh.importEntries coll entries
        = sh.writeBatch (entries.map fun e => (coll, e.1, e.2)) := by
      simp [Shard.importEntries, Shard.writeBatch, putBatch, foldl_map]
    change Unchanged sh (sh.importEntries coll entries) c k
    rw [hmap]
    refine unchanged_putBatch _ ?_ sh hexp
    intro hm
    obtain ⟨x, hx, rfl⟩ := mem_map.mp hm
    obtain ⟨e, _, rfl⟩ := mem_map.mp hx
    exact hc (by simp [colls])
  | dropBuckets coll buckets =>
    have hne : c ≠ coll := fun h => hc (by simp [colls, h])
    have hexp' := Shard.expiryAt_dropBuckets now sh coll buckets hexp
    refine ⟨fun t => ?_, hexp'⟩
    change (sh.dropBuckets now coll buckets).1.object t c k = _
    rw [Shard.object_congr_now hexp' t now, Shard.object_dropBuckets,
      if_neg (fun h => hne h.1), Shard.object_congr_now hexp now t]

end ShardOp

end Stplr
