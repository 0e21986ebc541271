import Stplr.Equiv.LmdbScan
import Stplr.Equiv.Shard

/-!
# Sweeping is not observable

A relation that reads and the primitive writes of two stores keep (`Keeps`) is kept by every call of a
shard, and the calls are answered alike (`Keeps.onShard`).  Such a relation is that of a store and a store
from which some entries are gone that have expired (`Behind`), and a sweep makes such a store of any store
(`Behind.sweepExpired`).

The durable store stands for a store without handles (`Sim.onShard`), so the same holds of it as long as
there are handles for all its collections.  Only its cursor scans list entries that have expired and not
been swept (`ListsLive`, `sweep_seen_by_scan`); with these left aside, the sweep is not observable
(`sweep_unobservable`).
-/

namespace Stplr

open Lib List IndexStore Nested
open LmdbStore (expDb expKey maxDbs objDb)

/-! ### Relations that the calls of a shard keep -/

/-- From `n` on, stores in the relation read the same, and the same writes keep them in it. -/
structure Keeps {St : Type} [IndexStore St] (n : ℕ) (R : St → St → Prop) : Prop where
  getObject {s s' : St} : R s s' → ∀ {now}, n ≤ now → ∀ c k,
    IndexStore.getObject now s c k = IndexStore.getObject now s' c k
  scanEntries {s s' : St} : R s s' → ∀ {now}, n ≤ now → ∀ c,
    (IndexStore.scanEntries now s c).Perm (IndexStore.scanEntries now s' c)
  putObject {s s' : St} : R s s' → ∀ c k v, R (IndexStore.putObject s c k v) (IndexStore.putObject s' c k v)
  putObjectAt {s s' : St} : R s s' → ∀ c k v e,
    R (IndexStore.putObjectAt s c k v e) (IndexStore.putObjectAt s' c k v e)
  deleteAll {s s' : St} : R s s' → ∀ c {ids ids' : List String}, ids.Perm ids' →
    R (ids.foldl (fun s id => IndexStore.deleteObject s c id) s)
      (ids'.foldl (fun s id => IndexStore.deleteObject s c id) s')

namespace Keeps

variable {St : Type} [IndexStore St] {n now : ℕ} {R : St → St → Prop} (hR : Keeps n R) {s s' : St}
include hR

theorem putBatch (items : List (String × String × Value)) : ∀ {s s' : St}, R s s' →
    R (putBatch s items) (putBatch s' items) := by
  induction items with
  | nil => exact fun h => h
  | cons item items ih => exact fun h => ih (hR.putObject h item.1 item.2.1 item.2.2)

theorem sortedKeys (h : R s s') (hn : n ≤ now) (c : String) :
    sortedKeys now s c = sortedKeys now s' c := by
  have hperm := (perm_insertionSort (· ≤ ·) _).trans (((hR.scanEntries h hn c).map Prod.fst).trans
    (perm_insertionSort (· ≤ ·) _).symm)
  exact hperm.eq_of_pairwise' (pairwise_insertionSort _ _) (pairwise_insertionSort _ _)

theorem scanRange (h : R s s') (hn : n ≤ now) (c : String) (after start stop : Option String)
    (limit : ℕ) : IndexStore.scanRange now s c after start stop limit
      = IndexStore.scanRange now s' c after start stop limit := by
  rw [IndexStore.scanRange, IndexStore.scanRange, hR.sortedKeys h hn]

theorem scanBuckets (h : R s s') (hn : n ≤ now) (c : String) (bs : List ℕ)
    (after : Option String) (limit : ℕ) : IndexStore.scanBuckets now s c bs after limit
      = IndexStore.scanBuckets now s' c bs after limit := by
  have hlen := (hR.scanEntries h hn c).length_eq
  rw [IndexStore.scanBuckets, IndexStore.scanBuckets, hlen]
  refine gatherPages_congr (R := fun a b => a = s ∧ b = s') ?_ _ limit _ s s' after [] ⟨rfl, rfl⟩
  rintro a b cursor ⟨rfl, rfl⟩
  exact ⟨⟨rfl, rfl⟩, hR.scanRange h hn c cursor none none scanChunk⟩

theorem update {α : Type} (h : R s s') (hn : n ≤ now) (c k : String)
    (f : Option Value → Change × α) :
    (IndexStore.update now s c k f).2 = (IndexStore.update now s' c k f).2 ∧
      R (IndexStore.update now s c k f).1 (IndexStore.update now s' c k f).1 := by
  rw [IndexStore.update, IndexStore.update, hR.getObject h hn]
  refine ⟨rfl, ?_⟩
  dsimp only
  cases (f (IndexStore.getObject now s' c k)).1 with
  | keep => exact h
  | put v => exact hR.putObject h c k v
  | delete => exact hR.deleteAll h c (Perm.refl [k])

variable {sh sh' : Shard St}

theorem writeObjectTtl (h : R sh.store sh'.store) (now : ℕ) (c k : String) (v : Value) (ttl : ℕ) :
    R (sh.writeObjectTtl now c k v ttl).store (sh'.writeObjectTtl now c k v ttl).store := by
  rw [Shard.writeObjectTtl, Shard.writeObjectTtl]
  split_ifs
  · exact hR.putObject h c k v
  · exact hR.putObjectAt h c k v _

theorem importEntries (h : R sh.store sh'.store) (c : String) (es : List (String × Value)) :
    R (sh.importEntries c es).store (sh'.importEntries c es).store := by
  have hbatch : ∀ sh : Shard St, (sh.importEntries c es).store
      = IndexStore.putBatch sh.store (es.map fun e => (c, e.1, e.2)) := fun sh => by
    rw [Shard.importEntries, IndexStore.putBatch, foldl_map]
  rw [hbatch, hbatch]
  exact hR.putBatch _ h

theorem exportEntries (h : R sh.store sh'.store) (hn : n ≤ now) (c : String) (bs : List ℕ) :
    (sh.exportEntries now c bs).Perm (sh'.exportEntries now c bs) :=
  (hR.scanEntries h hn c).filter _

/-- **Every call is answered alike**, and the stores stay in the relation. -/
theorem onShard (h : R sh.store sh'.store) (hn : n ≤ now) (call : ShardCall) :
    (call.onShard now sh).2 = (call.onShard now sh').2 ∧
      R (call.onShard now sh).1.store (call.onShard now sh').1.store := by
  cases call with
  | object c k => exact ⟨congrArg ShardAnswer.value (hR.getObject h hn c k), h⟩
  | mget c ks =>
    exact ⟨congrArg ShardAnswer.values (map_congr_left fun k _ => hR.getObject h hn c k), h⟩
  | scanRange c after start stop limit =>
    exact ⟨congrArg ShardAnswer.keys (hR.scanRange h hn c after start stop limit), h⟩
  | scanBuckets c bs after limit =>
    exact ⟨congrArg ShardAnswer.keys (hR.scanBuckets h hn c bs after limit), h⟩
  | setAdd | setRemove | cas =>
    exact (hR.update h hn _ _ _).imp_left (congrArg ShardAnswer.flag)
  | writeObject c k v => exact ⟨rfl, hR.putObject h c k v⟩
  | writeObjectTtl c k v ttl => exact ⟨rfl, hR.writeObjectTtl h now c k v ttl⟩
  | writeBatch items => exact ⟨rfl, hR.putBatch items h⟩
  | deleteObject c k => exact ⟨rfl, hR.deleteAll h c (Perm.refl [k])⟩
  | incr c k delta => exact (hR.update h hn c k _).imp_left (congrArg ShardAnswer.number)
  | exportEntries c bs =>
    exact ⟨congrArg ShardAnswer.entries (Multiset.coe_eq_coe.mpr (hR.exportEntries h hn c bs)), h⟩
  | importEntries c es => exact ⟨rfl, hR.importEntries h c es⟩
  | dropBuckets c bs =>
    have hids := (hR.exportEntries h hn c bs).map Prod.fst
    exact ⟨congrArg ShardAnswer.count hids.length_eq, hR.deleteAll h c hids⟩
  | leaseAcquire k holder ttl =>
    exact (hR.update h hn leaseColl k _).imp_left (congrArg ShardAnswer.lease)

/-- ... and so is every sequence of calls. -/
theorem answers {calls : List (ℕ × ShardCall)} : ∀ {sh sh' : Shard St}, R sh.store sh'.store →
    (∀ c ∈ calls, n ≤ c.1) → sh.answers calls = sh'.answers calls := by
  induction calls with
  | nil => exact fun _ _ => rfl
  | cons c calls ih =>
    intro sh sh' h hlate
    obtain ⟨hans, hrest⟩ := hR.onShard h (hlate c (mem_cons_self ..)) c.2
    rw [Shard.answers, Shard.answers]
    rw [hans, ih hrest fun d hd => hlate d (mem_cons_of_mem _ hd)]

end Keeps

/-! ### A store and a store that was swept -/

/-- The object and the expiry of a key. -/
def MemoryStore.cell (t : MemoryStore) (c k : String) : Option Value × Option ℕ :=
  (t.objects.get c k, t.expiry.get c k)

/-- Some keys of `t` that have expired by `n` are gone from `t'`; the others are the same. -/
def Behind (n : ℕ) (t t' : MemoryStore) : Prop :=
  ∀ c k, t'.cell c k = t.cell c k ∨ t.isExpired n c k = true ∧ t'.cell c k = (none, none)

namespace Behind

variable {n now : ℕ} {t t' u u' : MemoryStore}

/-- Writes that set a cell of both stores to the same, or leave it alone in both. -/
theorem of_cells (h : Behind n t t') (hcells : ∀ c k, u'.cell c k = u.cell c k ∨
    u.cell c k = t.cell c k ∧ u'.cell c k = t'.cell c k) : Behind n u u' := by
  intro c k
  rcases hcells c k with hsame | ⟨hu, hu'⟩
  · exact .inl hsame
  · have hexp : u.isExpired n c k = t.isExpired n c k := by
      rw [MemoryStore.isExpired, MemoryStore.isExpired, (Prod.mk.inj hu).2]
    rw [hu, hu', hexp]
    exact h c k

theorem putObject (h : Behind n t t') (c k : String) (v : Value) :
    Behind n (t.putObject c k v) (t'.putObject c k v) := by
  refine h.of_cells fun c' k' => ?_
  simp only [MemoryStore.cell, MemoryStore.putObject, MemoryStore.clearExpiry, get_insert, get_erase]
  split_ifs
  · exact .inl rfl
  · exact .inr ⟨rfl, rfl⟩

theorem putObjectAt (h : Behind n t t') (c k : String) (v : Value) (e : ℕ) :
    Behind n (t.putObjectAt c k v e) (t'.putObjectAt c k v e) := by
  refine h.of_cells fun c' k' => ?_
  simp only [MemoryStore.cell, MemoryStore.putObjectAt, get_insert]
  split_ifs
  · exact .inl rfl
  · exact .inr ⟨rfl, rfl⟩

theorem cell_deleteAll (dead : List (String × String)) (c k : String) (t : MemoryStore) :
    (dead.foldl (fun t d => t.deleteObject d.1 d.2) t).cell c k
      = if (c, k) ∈ dead then (none, none) else t.cell c k := by
  obtain ⟨hobj, hexp⟩ := MemoryStore.get_foldl_deleteObject dead c k t
  rw [MemoryStore.cell, hobj, hexp]
  split_ifs <;> rfl

theorem cell_deleteKeys (c : String) (ids : List String) (c' k' : String) (t : MemoryStore) :
    (ids.foldl (fun t id => t.deleteObject c id) t).cell c' k'
      = if c' = c ∧ k' ∈ ids then (none, none) else t.cell c' k' := by
  have hfold : ids.foldl (fun t id => t.deleteObject c id) t
      = (ids.map (Prod.mk c)).foldl (fun t d => t.deleteObject d.1 d.2) t := by rw [foldl_map]
  have hmem : (c', k') ∈ ids.map (Prod.mk c) ↔ c' = c ∧ k' ∈ ids := by
    simp [eq_comm, and_comm]
  rw [hfold, cell_deleteAll]
  simp only [hmem]

theorem deleteAll (h : Behind n t t') (c : String) {ids ids' : List String} (hids : ids.Perm ids') :
    Behind n (ids.foldl (fun s id => s.deleteObject c id) t)
      (ids'.foldl (fun s id => s.deleteObject c id) t') := by
  refine h.of_cells fun c' k' => ?_
  rw [cell_deleteKeys, cell_deleteKeys]
  simp only [hids.mem_iff]
  split_ifs
  · exact .inl rfl
  · exact .inr ⟨rfl, rfl⟩

/-- A sweep at `n` deletes keys that have expired by `n`. -/
theorem sweepExpired (n : ℕ) (t : MemoryStore) : Behind n t (t.sweepExpired n).1 := by
  intro c k
  rw [MemoryStore.sweepExpired, cell_deleteAll]
  split_ifs with hdead
  · obtain ⟨e, he, hle⟩ := MemoryStore.mem_deadKeys.mp hdead
    exact .inr ⟨by simp [MemoryStore.isExpired, he, hle], rfl⟩
  · exact .inl rfl

theorem getObject (h : Behind n t t') (hn : n ≤ now) (c k : String) :
    t.getObject now c k = t'.getObject now c k := by
  rw [MemoryStore.getObject, MemoryStore.getObject, MemoryStore.isExpired, MemoryStore.isExpired]
  rcases h c k with heq | ⟨hexp, hgone⟩
  · obtain ⟨hobj, hexp⟩ := Prod.mk.inj heq
    rw [hobj, hexp]
  · obtain ⟨hobj, hnone⟩ := Prod.mk.inj hgone
    rw [MemoryStore.isExpired] at hexp
    rw [hobj, hnone]
    cases he : t.expiry.get c k with
    | none => simp [he] at hexp
    | some e =>
      have hle : e ≤ n := by simpa [he] using hexp
      simp [hle.trans hn]

theorem scanEntries (h : Behind n t t') (hn : n ≤ now) (c : String) :
    (t.scanEntries now c).Perm (t'.scanEntries now c) := by
  refine (perm_ext_iff_of_nodup (List.Nodup.of_map _ (MemoryStore.nodup_scanEntries now t c))
    (List.Nodup.of_map _ (MemoryStore.nodup_scanEntries now t' c))).mpr fun ⟨k, v⟩ => ?_
  refine (MemoryStore.mem_scanEntries now t c k v).trans (Iff.trans ?_
    (MemoryStore.mem_scanEntries now t' c k v).symm)
  exact Eq.congr_left (h.getObject hn c k)

end Behind

theorem keeps_memory (n : ℕ) : Keeps n (Behind n) where
  getObject h _ hn c k := h.getObject hn c k
  scanEntries h _ hn c := h.scanEntries hn c
  putObject h c k v := h.putObject c k v
  putObjectAt h c k v e := h.putObjectAt c k v e
  deleteAll h c _ _ hids := h.deleteAll c hids

theorem TextStore.mem_deleteAll {T : Type} [Text T] (c : String) (ids : List String) :
    ∀ t : TextStore T, (ids.foldl (fun s id => deleteObject s c id) t).mem
      = ids.foldl (fun s id => s.deleteObject c id) t.mem := by
  induction ids with
  | nil => exact fun _ => rfl
  | cons id ids ih => exact fun t => ih _

theorem keeps_texts (T : Type) [Text T] (n : ℕ) :
    Keeps n fun t t' : TextStore T => Behind n t.mem t'.mem where
  getObject h _ hn c k := congrArg (Option.bind · (Text.reread T)) (h.getObject hn c k)
  scanEntries h _ hn c := (h.scanEntries hn c).filterMap _
  putObject h c k v := h.putObject c k v
  putObjectAt h c k v e := h.putObjectAt c k v e
  deleteAll h c _ _ hids := by
    rw [TextStore.mem_deleteAll, TextStore.mem_deleteAll]
    exact h.deleteAll c hids

/-! ### The durable store -/

/-- The call on a store without handles.  The cursor scans list the stored keys, expired or not. -/
def ShardCall.onText {T : Type} [Text T] (now : ℕ) (t : TextStore T) :
    ShardCall → TextStore T × ShardAnswer
  | .scanRange c after start stop limit =>
    (t, .keys (page limit ((t.storedKeys c).filter (LmdbStore.within start stop)) after))
  | .scanBuckets c bs after limit =>
    (t, .keys (page (max limit 1) ((t.storedKeys c).filter fun k => bucketOf k ∈ bs) after))
  | call => (call.onShard now ⟨"", t⟩).map Shard.store id

namespace LmdbStore

namespace Sim

variable {T : Type} [Text T] {C : Finset String} {s : LmdbStore T} {t : TextStore T} {c k : String}

theorem writeObjectTtl (h : Sim C s t) (now : ℕ) (ha : Accepts C c k) (v : Value) (ttl : ℕ) :
    ∃ s', s.writeObjectTtl now c k v ttl = some s' ∧
      Sim C s' (Shard.writeObjectTtl now ⟨"", t⟩ c k v ttl).store := by
  rw [LmdbStore.writeObjectTtl, Shard.writeObjectTtl]
  split_ifs
  · exact h.putObject ha v
  · obtain ⟨s', hs', hsim⟩ := h.putObjectAt ha v (UInt64.ofNat (now + ttl))
    rw [UInt64.toNat_ofNat'] at hsim
    exact ⟨s', hs', hsim⟩

theorem importEntries {es : List (String × Value)} : ∀ {s : LmdbStore T} {t : TextStore T},
    Sim C s t → (∀ e ∈ es, Accepts C c e.1) → ∃ s', s.importEntries c es = some s' ∧
      Sim C s' (es.foldl (fun t e => IndexStore.putObject t c e.1 e.2) t) := by
  induction es with
  | nil => exact fun h _ => ⟨_, rfl, h⟩
  | cons e es ih =>
    intro s t h hes
    obtain ⟨s₁, hs₁, hsim₁⟩ := h.putObject (hes e (mem_cons_self ..)) e.2
    obtain ⟨s₂, hs₂, hsim₂⟩ := ih hsim₁ fun d hd => hes d (mem_cons_of_mem _ hd)
    refine ⟨s₂, ?_, hsim₂⟩
    rw [LmdbStore.importEntries, foldlM_cons, hs₁]
    exact hs₂

theorem deleteAll {ids : List String} : ∀ {s : LmdbStore T} {t : TextStore T}, Sim C s t →
    (∀ id ∈ ids, Accepts C c id) →
    ∃ s', ids.foldlM (fun (s : LmdbStore T) id => s.deleteObject c id) s = some s' ∧
      Sim C s' (ids.foldl (fun t id => IndexStore.deleteObject t c id) t) := by
  induction ids with
  | nil => exact fun h _ => ⟨_, rfl, h⟩
  | cons id ids ih =>
    intro s t h hids
    obtain ⟨s₁, hs₁, hsim₁⟩ := h.deleteObject (hids id (mem_cons_self ..))
    obtain ⟨s₂, hs₂, hsim₂⟩ := ih hsim₁ fun d hd => hids d (mem_cons_of_mem _ hd)
    refine ⟨s₂, ?_, hsim₂⟩
    rw [foldlM_cons, hs₁]
    exact hs₂

theorem exportEntries (h : Sim C s t) (now : ℕ) (hc : NulFree c) (bs : List ℕ) :
    Sim C (s.exportEntries now c bs).1 t ∧
      (s.exportEntries now c bs).2.Perm (Shard.exportEntries now ⟨"", t⟩ c bs) := by
  obtain ⟨hsim, hent⟩ := h.scanEntries now hc
  exact ⟨hsim, (Multiset.coe_eq_coe.mp hent).filter _⟩

/-- An entry that is read is stored, so its key is one that LMDB takes. -/
theorem accepts_of_getObject (h : Sim C s t) {now : ℕ} {v : Value}
    (hget : IndexStore.getObject now t c k = some v) : Accepts C c k := by
  obtain ⟨u, hu, -⟩ := Option.bind_eq_some_iff.mp hget
  rw [MemoryStore.getObject] at hu
  split_ifs at hu
  exact h.held c k (by rw [hu]; rfl)

theorem dropBuckets (h : Sim C s t) (now : ℕ) (hc : NulFree c) (bs : List ℕ) :
    ∃ s', s.dropBuckets now c bs = some (s', (Shard.dropBuckets now ⟨"", t⟩ c bs).2) ∧
      Sim C s' (Shard.dropBuckets now ⟨"", t⟩ c bs).1.store := by
  obtain ⟨hsim, hperm⟩ := h.exportEntries now hc bs
  have hids := hperm.map Prod.fst
  have haccept : ∀ k ∈ (s.exportEntries now c bs).2.map Prod.fst, Accepts C c k := by
    intro k hk
    obtain ⟨⟨k', v⟩, hmem, rfl⟩ := mem_map.mp (hids.mem_iff.mp hk)
    exact h.accepts_of_getObject ((TextStore.mem_scanEntries ..).mp (mem_filter.mp hmem).1)
  obtain ⟨s', hs', hsim'⟩ := hsim.deleteAll haccept
  -- the store without handles deletes the same keys in another order
  have hcell : ∀ c' k', (Shard.dropBuckets now ⟨"", t⟩ c bs).1.store.mem.cell c' k'
      = (((s.exportEntries now c bs).2.map Prod.fst).foldl
          (fun t id => IndexStore.deleteObject t c id) t).mem.cell c' k' := by
    intro c' k'
    rw [Shard.dropBuckets, TextStore.mem_deleteAll, TextStore.mem_deleteAll, Behind.cell_deleteKeys,
      Behind.cell_deleteKeys]
    simp only [hids.mem_iff]
  refine ⟨s', ?_, hsim'.congr_memory (fun c' k' => (Prod.mk.inj (hcell c' k')).1) fun c' k' =>
    (Prod.mk.inj (hcell c' k')).2⟩
  rw [LmdbStore.dropBuckets, hs', Option.map_some, hids.length_eq]
  rfl

/-- Every call is answered like the store without handles answers it. -/
theorem onShard (h : Sim C s t) (now : ℕ) {call : ShardCall} (hlim : call.InLimits)
    (hC : ∀ c ∈ call.colls, c ∈ C) : ∃ s', call.onLmdb now s = some (s', (call.onText now t).2) ∧
      Sim C s' (call.onText now t).1 := by
  have hown : ∀ {c k}, call.colls = [c] → call.keys = [(c, k)] → Accepts C c k :=
    fun hc hk => accepts_of_eq hlim hC hc hk
  have hread : ∀ {c}, call.colls = [c] → NulFree c := fun hc => nulFree_of_eq hlim hc
  cases call with
  | object c k =>
    obtain ⟨hsim, hval⟩ := h.getObject now (hread rfl) k
    exact ⟨_, congrArg (fun v => some (_, ShardAnswer.value v)) hval, hsim⟩
  | mget c ks =>
    obtain ⟨hsim, hval⟩ := h.mget now (hread rfl) ks
    exact ⟨_, congrArg (fun v => some (_, ShardAnswer.values v)) hval, hsim⟩
  | scanRange c after start stop limit =>
    obtain ⟨hend, hval⟩ := LmdbStore.scanRange_spec (s := s) (c := c) (.inl rfl) after start stop limit
    rw [h.listed_eq] at hval
    exact ⟨_, congrArg (fun v => some (_, ShardAnswer.keys v)) hval, h.scanned hend⟩
  | scanBuckets c bs after limit =>
    obtain ⟨hend, hval⟩ := LmdbStore.scanBuckets_spec s c bs after limit
    rw [h.listed_eq] at hval
    exact ⟨_, congrArg (fun v => some (_, ShardAnswer.keys v)) hval, h.scanned hend⟩
  | writeObject c k v =>
    obtain ⟨s', hs', hsim⟩ := h.putObject (hown rfl rfl) v
    exact ⟨s', congrArg (Option.map _) hs', hsim⟩
  | writeObjectTtl c k v ttl =>
    obtain ⟨s', hs', hsim⟩ := h.writeObjectTtl now (hown rfl rfl) v ttl
    exact ⟨s', congrArg (Option.map _) hs', hsim⟩
  | writeBatch items =>
    obtain ⟨s', hs', hsim⟩ := h.putBatch fun item hi => accepts_of_mem hlim hC (mem_map_of_mem hi)
      (mem_map_of_mem (f := fun item => (item.1, item.2.1)) hi)
    exact ⟨s', congrArg (Option.map _) hs', hsim⟩
  | deleteObject c k =>
    obtain ⟨s', hs', hsim⟩ := h.deleteObject (hown rfl rfl)
    exact ⟨s', congrArg (Option.map _) hs', hsim⟩
  | exportEntries c bs =>
    obtain ⟨hsim, hperm⟩ := h.exportEntries now (hread rfl) bs
    exact ⟨_, congrArg (fun es => some (_, ShardAnswer.entries es)) (Multiset.coe_eq_coe.mpr hperm),
      hsim⟩
  | importEntries c es =>
    obtain ⟨s', hs', hsim⟩ := h.importEntries fun e he => accepts_of_mem hlim hC
      (mem_singleton_self c) (mem_map_of_mem (f := fun e => (c, e.1)) he)
    exact ⟨s', congrArg (Option.map _) hs', hsim⟩
  | dropBuckets c bs =>
    obtain ⟨s', hs', hsim⟩ := h.dropBuckets now (hread rfl) bs
    exact ⟨s', congrArg (Option.map _) hs', hsim⟩
  | setAdd | setRemove | cas | incr | leaseAcquire =>
    obtain ⟨s', hs', hsim⟩ := h.update now (hown rfl rfl) _
    exact ⟨s', congrArg (Option.map _) hs', hsim⟩

/-- What has expired on disk has expired. -/
theorem expired_eq (h : Sim C s t) (now : ℕ) (hc : NulFree c) (k : String) :
    s.expired now c k = t.mem.isExpired now c k := by
  rw [expired, MemoryStore.isExpired, h.mirrors.expiry c k hc]
  cases he : t.mem.expiry.get c k with
  | none => rfl
  | some e => simp [Text.toNat_ofNat (h.mirrors.expiring c k e he).2.1]

end Sim

end LmdbStore

/-- The keys that a cursor scan of the durable store lists, with their collection. -/
def ShardCall.listed {T : Type} (s : LmdbStore T) : ShardCall → List (String × String)
  | .scanRange c after start stop limit =>
    (page limit ((s.diskKeys c).filter (LmdbStore.within start stop)) after).map (Prod.mk c)
  | .scanBuckets c bs after limit =>
    (page (max limit 1) ((s.diskKeys c).filter fun k => bucketOf k ∈ bs) after).map (Prod.mk c)
  | _ => []

/-- No cursor scan of the run lists a key that has expired by `n`. -/
def LmdbStore.ListsLive {T : Type} [Text T] (n : ℕ) : LmdbStore T → List (ℕ × ShardCall) → Prop
  | _, [] => True
  | s, c :: calls => (∀ p ∈ c.2.listed s, s.expired n p.1 p.2 = false) ∧
    ∀ r ∈ c.2.onLmdb c.1 s, ListsLive n r.1 calls

namespace LmdbStore

/-- The stores stand for a store and a store from which keys that have expired by `n` are gone. -/
def Follows {T : Type} [Text T] (n : ℕ) (C : Finset String) (s s' : LmdbStore T) : Prop :=
  ∃ t t', Sim C s t ∧ Sim C s' t' ∧ Behind n t.mem t'.mem

namespace Follows

variable {T : Type} [Text T] {n now : ℕ} {C : Finset String} {s s' : LmdbStore T}

omit [Text T] in
/-- A page of which no key is gone is a page of the other store. -/
theorem page_eq {t t' : TextStore T} (h : Behind n t.mem t'.mem) (c : String) (p : String → Bool)
    (after : Option String) (limit : ℕ)
    (hlive : ∀ k ∈ page limit ((t.storedKeys c).filter p) after, t.mem.isExpired n c k = false) :
    page limit ((t.storedKeys c).filter p) after = page limit ((t'.storedKeys c).filter p) after := by
  set kept := fun k => (t'.mem.objects.get c k).isSome
  have hkeys : t'.storedKeys c = (t.storedKeys c).filter kept := by
    refine List.Pairwise.eq_of_mem_iff (t'.pairwise_storedKeys c)
      ((t.pairwise_storedKeys c).filter _) fun k => ?_
    rw [mem_filter, TextStore.mem_storedKeys, TextStore.mem_storedKeys]
    refine (and_iff_right_of_imp fun hsome => ?_).symm
    rcases h c k with heq | ⟨-, hgone⟩
    · rwa [(Prod.mk.inj heq).1] at hsome
    · rw [(Prod.mk.inj hgone).1] at hsome
      cases hsome
  have hcomm : above after ((t'.storedKeys c).filter p)
      = (above after ((t.storedKeys c).filter p)).filter kept := by
    rw [hkeys, above_filter, above_filter, above_filter, filter_filter, filter_filter]
    exact filter_congr fun k _ => Bool.and_comm ..
  rw [page, page, hcomm, eq_comm, take_filter_eq_take_iff]
  intro k hk
  have hstored : k ∈ t.storedKeys c := (mem_filter.mp (mem_above.mp (mem_of_mem_take hk)).1).1
  rcases h c k with heq | ⟨hexp, -⟩
  · change (t'.mem.objects.get c k).isSome = true
    rw [(Prod.mk.inj heq).1]
    exact TextStore.mem_storedKeys.mp hstored
  · rw [hlive k hk] at hexp
    cases hexp

theorem onLmdb (h : Follows n C s s') (hn : n ≤ now) {call : ShardCall} (hlim : call.InLimits)
    (hC : ∀ c ∈ call.colls, c ∈ C) (hlive : ∀ p ∈ call.listed s, s.expired n p.1 p.2 = false) :
    ∃ r r' answer, call.onLmdb now s = some (r, answer) ∧ call.onLmdb now s' = some (r', answer) ∧
      Follows n C r r' := by
  obtain ⟨t, t', hsim, hsim', hbehind⟩ := h
  obtain ⟨r, hr, hsimr⟩ := hsim.onShard now hlim hC
  obtain ⟨r', hr', hsimr'⟩ := hsim'.onShard now hlim hC
  have hshards : Behind n (⟨"", t⟩ : Shard (TextStore T)).store.mem
    (⟨"", t'⟩ : Shard (TextStore T)).store.mem := hbehind
  have halike : (call.onText now t).2 = (call.onText now t').2 ∧
      Behind n (call.onText now t).1.mem (call.onText now t').1.mem := by
    have hnul : ∀ {c}, call.colls = [c] → NulFree c := fun hc => nulFree_of_eq hlim hc
    have hcalls := (keeps_texts T n).onShard hshards hn call
    cases call with
    | scanRange c after start stop limit =>
      refine ⟨congrArg ShardAnswer.keys (page_eq hbehind c _ after limit fun k hk => ?_), hbehind⟩
      rw [← hsim.diskKeys_eq] at hk
      rw [← hsim.expired_eq n (hnul rfl)]
      exact hlive (c, k) (mem_map_of_mem hk)
    | scanBuckets c bs after limit =>
      refine ⟨congrArg ShardAnswer.keys (page_eq hbehind c _ after _ fun k hk => ?_), hbehind⟩
      rw [← hsim.diskKeys_eq] at hk
      rw [← hsim.expired_eq n (hnul rfl)]
      exact hlive (c, k) (mem_map_of_mem hk)
    | _ => exact hcalls
  refine ⟨r, r', _, hr, ?_, _, _, hsimr, hsimr', halike.2⟩
  rw [hr', halike.1]

theorem shardAnswers {calls : List (ℕ × ShardCall)} : ∀ {s s' : LmdbStore T}, Follows n C s s' →
    (∀ c ∈ calls, n ≤ c.1 ∧ c.2.InLimits ∧ ∀ coll ∈ c.2.colls, coll ∈ C) → s.ListsLive n calls →
    ∃ answers, s.shardAnswers calls = some answers ∧ s'.shardAnswers calls = some answers := by
  induction calls with
  | nil => exact fun _ _ _ => ⟨[], rfl, rfl⟩
  | cons c calls ih =>
    intro s s' h hcalls hlive
    obtain ⟨hn, hlim, hC⟩ := hcalls c (mem_cons_self ..)
    obtain ⟨r, r', answer, hr, hr', hrest⟩ := h.onLmdb hn hlim hC hlive.1
    obtain ⟨answers, ha, ha'⟩ := ih hrest (fun d hd => hcalls d (mem_cons_of_mem _ hd))
      (hlive.2 _ hr)
    exact ⟨answer :: answers, by simp [LmdbStore.shardAnswers, hr, ha],
      by simp [LmdbStore.shardAnswers, hr', ha']⟩

end Follows

end LmdbStore

/-- **Sweeping is not observable.**  Calls at times from `n` on are answered alike whether or not a
sweep at `n` comes first: by every shard in memory, and by every shard over a durable store that keeps
to the limits of LMDB, names fewer collections than there are handles and whose cursor scans meet no key
that the sweep deletes. -/
theorem sweep_unobservable (n : ℕ) (later : List (ℕ × ShardCall)) (hlate : ∀ c ∈ later, n ≤ c.1) :
    (∀ sh : Shard MemoryStore, (sh.sweepExpired n).1.answers later = sh.answers later) ∧
    ∀ (T : Type) [Text T] (before : List (ℕ × StoreCall)) (s : LmdbStore T),
      LmdbStore.new.after before = some s → (∀ c ∈ before, c.2.InLimits) →
      (∀ c ∈ later, c.2.InLimits) →
      ((before.flatMap fun c => c.2.colls) ++ later.flatMap fun c => c.2.colls).toFinset.card
        < LmdbStore.maxDbs →
      s.ListsLive n later →
      ∃ answers, s.shardAnswers later = some answers ∧
        (s.sweepExpired n).1.shardAnswers later = some answers := by
  constructor
  · intro sh
    exact ((keeps_memory n).answers (Behind.sweepExpired n sh.store) hlate).symm
  · intro T _ before s hs hbefore hlater hroom hlive
    set C := ((before.flatMap fun c => c.2.colls) ++ later.flatMap fun c => c.2.colls).toFinset with hC
    have hmem : ∀ c ∈ before, ∀ coll ∈ c.2.colls, coll ∈ C := fun c hc coll hcoll =>
      mem_toFinset.mpr (mem_append_left _ (mem_flatMap.mpr ⟨c, hc, hcoll⟩))
    have hmem' : ∀ c ∈ later, ∀ coll ∈ c.2.colls, coll ∈ C := fun c hc coll hcoll =>
      mem_toFinset.mpr (mem_append_right _ (mem_flatMap.mpr ⟨c, hc, hcoll⟩))
    obtain ⟨s', t, hs', hsim⟩ := (LmdbStore.Sim.new (T := T) hroom).after
      fun c hc => ⟨hbefore c hc, hmem c hc⟩
    obtain rfl : s' = s := Option.some.inj (hs'.symm.trans hs)
    refine LmdbStore.Follows.shardAnswers ⟨t, _, hsim, (hsim.sweepExpired n).1,
      Behind.sweepExpired n t.mem⟩ (fun c hc => ?_) hlive
    exact ⟨hlate c hc, hlater c hc, hmem' c hc⟩

/-- An entry that expires, a reopen, and calls that would find it. -/
theorem sweep_unobservable_ttl :
    let before : List (ℕ × StoreCall) := [(0, .putObjectAt "kv" "x" (.int 1) 10),
      (0, .putObject "kv" "y" (.int 2)), (5, .reopen)]
    let later : List (ℕ × ShardCall) := [(10, .scanRange "kv" (some "x") none none 5),
      (11, .setAdd "kv" "x" "m"), (12, .object "kv" "x")]
    let sh : Shard MemoryStore := ⟨"a", MemoryStore.new.putObjectAt "kv" "x" (.int 1) 10⟩
    (sh.sweepExpired 10).1.answers later = sh.answers later ∧
      ∃ s, (LmdbStore.new : LmdbStore Value).after before = some s ∧
        ∃ answers, s.shardAnswers later = some answers ∧
          (s.sweepExpired 10).1.shardAnswers later = some answers :=
  ⟨(sweep_unobservable 10 _ (by decide)).1 _, _, rfl, (sweep_unobservable 10 _ (by decide)).2 Value
      [(0, .putObjectAt "kv" "x" (.int 1) 10), (0, .putObject "kv" "y" (.int 2)), (5, .reopen)] _ rfl
      (by decide +kernel) (by decide +kernel) (by decide +kernel)
      ⟨by decide +kernel, fun _ _ => ⟨by simp [ShardCall.listed], fun _ _ =>
        ⟨by simp [ShardCall.listed], fun _ _ => trivial⟩⟩⟩⟩

/-- **A scan shows whether a sweep came first**: it lists the entry that has expired until the sweep
deletes it. -/
theorem sweep_seen_by_scan :
    let s := (LmdbStore.new : LmdbStore Value).after [(0, .putObjectAt "kv" "x" (.int 1) 10)]
    let later : List (ℕ × ShardCall) := [(20, .scanRange "kv" none none none 5)]
    s.bind (·.shardAnswers later) = some [.keys ["x"]] ∧
      s.bind (fun s => (s.sweepExpired 20).1.shardAnswers later) = some [.keys []] :=
  ⟨rfl, rfl⟩

end Stplr
