import Stplr.Equiv.Handles
import Stplr.Equiv.Store

/-!
# The durable store answers like the in-memory store

A durable store without handles is an in-memory store whose values are read back from their texts
(`TextStore`).  `Mirrors` relates what is on disk to such a store, entry by entry.  Together with the
meaning of the guard `has_any_ttl` (while it is down there is no expiry) this is a simulation (`Sim`):
every call on both stores keeps it and gets the same answer (`Sim.onLmdb`).  Where the values are read
back as they were written (`Exacts`), the in-memory store gives that answer as well.  So both answer a
whole history alike (`answers_eq_memory`), as long as the history names fewer collections than there are
handles; with more of them a put panics (`answers_eq_none`).
-/

namespace Stplr

open Lib List LmdbStore Nested Text
open Option (map map_eq_some_iff some)

theorem Value.asU64_int {n : ℕ} (h : n < 2 ^ 64) : Value.asU64 (.int n) = some n := by
  have hint : (0 : ℤ) ≤ n ∧ (n : ℤ) < 2 ^ 64 := by omega
  rw [Value.asU64, if_pos hint]
  rfl

/-- A filter that keeps the keys keeps them different. -/
theorem keys_filterMap_sublist {κ α β : Type} {f : κ × α → Option (κ × β)}
    (hf : ∀ e r, f e = some r → r.1 = e.1) (l : List (κ × α)) :
    ((l.filterMap f).map Prod.fst).Sublist (l.map Prod.fst) := by
  induction l with
  | nil => exact List.Sublist.slnil
  | cons e l ih =>
    cases hr : f e with
    | none =>
      rw [filterMap_cons_none hr]
      exact ih.cons _
    | some r =>
      rw [filterMap_cons_some hr, map_cons, hf e r hr]
      exact ih.cons_cons _

/-- A durable store without handles: an in-memory store whose values are read back from their texts. -/
structure TextStore (T : Type) where
  mem : MemoryStore

instance {T : Type} [Text T] : IndexStore (TextStore T) where
  putObject s c k v := ⟨s.mem.putObject c k v⟩
  getObject now s c k := (s.mem.getObject now c k).bind (reread T)
  scanEntries now s c :=
    (s.mem.scanEntries now c).filterMap fun e => (reread T e.2).map fun v => (e.1, v)
  clearCollection s c := ⟨s.mem.clearCollection c⟩
  deleteObject s c k := ⟨s.mem.deleteObject c k⟩
  putObjectAt s c k v e := ⟨s.mem.putObjectAt c k v e⟩
  expiryOf s c k := s.mem.expiry.get c k
  sweepExpired s now := (s.mem.sweepExpired now).map .mk id

namespace TextStore

variable {T : Type} [Text T] (now : ℕ) (t : TextStore T) (c k : String) (v : Value)

theorem mem_scanEntries :
    (k, v) ∈ IndexStore.scanEntries now t c ↔ IndexStore.getObject now t c k = some v := by
  change _ ∈ filterMap _ _ ↔ (t.mem.getObject now c k).bind _ = _
  rw [mem_filterMap, Option.bind_eq_some_iff]
  constructor
  · rintro ⟨⟨k', v'⟩, hmem, hr⟩
    obtain ⟨u, hu, heq⟩ := map_eq_some_iff.mp hr
    obtain ⟨rfl, rfl⟩ := Prod.mk.inj heq
    exact ⟨v', (MemoryStore.mem_scanEntries ..).mp hmem, hu⟩
  · rintro ⟨v', hget, hr⟩
    exact ⟨(k, v'), (MemoryStore.mem_scanEntries ..).mpr hget, by rw [hr]; rfl⟩

theorem nodup_scanEntries : ((IndexStore.scanEntries now t c).map Prod.fst).Nodup := by
  refine (MemoryStore.nodup_scanEntries now t.mem c).sublist
    (keys_filterMap_sublist (fun e r hr => ?_) _)
  obtain ⟨u, -, rfl⟩ := map_eq_some_iff.mp hr
  rfl

theorem putBatch_eq (items : List (String × String × Value)) :
    IndexStore.putBatch t items = ⟨IndexStore.putBatch t.mem items⟩ := by
  induction items generalizing t with
  | nil => rfl
  | cons item items ih => exact ih _

end TextStore

theorem Text.exact_wrappingAdd {T : Type} [Text T] (a b : ℤ) :
    Text.Exact T (.int (IndexStore.wrappingAdd a b)) := by
  have hlo := Int.le_bmod (x := a + b) (m := 2 ^ 64) (by decide)
  have hhi := Int.bmod_lt (x := a + b) (m := 2 ^ 64) (by decide)
  refine toValue_int ?_ ?_
  · rw [IndexStore.wrappingAdd]
    omega
  · rw [IndexStore.wrappingAdd]
    omega

namespace LmdbStore

variable {T : Type} {now : ℕ}

/-- The filter of a scan.  `P` is kept by the reads of the expiry times, which find `dead`. -/
theorem dropExpired_spec [Text T] {P : LmdbStore T → Prop} {dead : String → Bool} {c : String}
    (hread : ∀ s, P s → ∀ k, P (s.isExpired now c k).1 ∧ (s.isExpired now c k).2 = dead k)
    (es : List (String × Value)) : ∀ {s : LmdbStore T}, P s → P (dropExpired now c s es).1 ∧
      (dropExpired now c s es).2 = es.filter fun e => !dead e.1 := by
  induction es with
  | nil => exact fun h => ⟨h, rfl⟩
  | cons e es ih =>
    intro s h
    obtain ⟨hP, hexp⟩ := hread s h e.1
    obtain ⟨hP', hrest⟩ := ih hP
    refine ⟨hP', ?_⟩
    rw [dropExpired]
    dsimp only
    rw [hrest, hexp]
    cases he : dead e.1 <;> simp [he]

variable [Text T]

/-! ### Entries of a sub-database -/

theorem nodup_entries (s : LmdbStore T) (name : String) :
    ((s.entries name).2.map Prod.fst).Nodup := by
  unfold entries
  dsimp only
  split_ifs
  · refine (Nested.nodup_entries ..).sublist (keys_filterMap_sublist (fun e r hr => ?_) _)
    obtain ⟨v, -, rfl⟩ := map_eq_some_iff.mp hr
    rfl
  · exact nodup_nil

variable {es : List (String × Value)}

theorem mem_deadEntries_iff {d : String × String × String} :
    d ∈ deadEntries now es ↔
      ∃ v e, (d.1, v) ∈ es ∧ v.asU64 = some e ∧ e ≤ now ∧ splitOnce '\x00' d.1 = some d.2 := by
  obtain ⟨key, p⟩ := d
  rw [deadEntries, mem_filterMap]
  constructor
  · rintro ⟨⟨key', v⟩, hmem, hd⟩
    obtain ⟨e, he, hd⟩ := Option.bind_eq_some_iff.mp hd
    split_ifs at hd with hlt
    obtain ⟨p', hp', heq⟩ := map_eq_some_iff.mp hd
    obtain ⟨rfl, rfl⟩ := Prod.mk.inj heq
    exact ⟨v, e, hmem, he, Nat.not_lt.mp hlt, hp'⟩
  · rintro ⟨v, e, hmem, he, hle, hp⟩
    refine ⟨(key, v), hmem, ?_⟩
    dsimp only at hp ⊢
    rw [he, Option.bind_some, if_neg (Nat.not_lt.mpr hle), hp]
    rfl

theorem nodup_deadEntries (now : ℕ) (hnd : (es.map Prod.fst).Nodup) :
    ((deadEntries now es).map Prod.fst).Nodup := by
  refine hnd.sublist (keys_filterMap_sublist (fun e r hr => ?_) _)
  obtain ⟨exp, -, hr⟩ := Option.bind_eq_some_iff.mp hr
  split_ifs at hr
  obtain ⟨p, -, rfl⟩ := map_eq_some_iff.mp hr
  rfl

/-! ### What is on disk -/

/-- The contents `g` of the sub-databases stand for the in-memory store `t`. -/
structure Mirrors (g : String → String → Option T) (t : MemoryStore) : Prop where
  objects : ∀ c k, g (objDb c) k = (t.objects.get c k).map ofValue
  expiry : ∀ c k, NulFree c → g expDb (expKey c k) = (t.expiry.get c k).map ofNat
  expKeys : ∀ key x, g expDb key = some x → ∃ c k, NulFree c ∧ key = expKey c k
  expiring : ∀ c k e, t.expiry.get c k = some e →
    NulFree c ∧ e < 2 ^ 64 ∧ (t.objects.get c k).isSome

namespace Mirrors

variable {g : String → String → Option T} {t : MemoryStore} {c k : String}

theorem new : Mirrors (fun _ _ => none : String → String → Option T) MemoryStore.new where
  objects := fun c k => by simp [MemoryStore.new]
  expiry := fun c k _ => by simp [MemoryStore.new]
  expKeys := fun _ _ h => by cases h
  expiring := fun c k e h => by simp [MemoryStore.new] at h

/-- Writing an object and replacing its expiry by `e`, if it is to have one. -/
theorem put (h : Mirrors g t) (hc : NulFree c) (v : Value) (t' : MemoryStore) {e : Option ℕ}
    (he : ∀ n ∈ e, n < 2 ^ 64) (hobj : t'.objects = t.objects.insert c k v)
    (hexp : ∀ c' k', t'.expiry.get c' k' = if c' = c ∧ k' = k then e else t.expiry.get c' k') :
    Mirrors (write (write g (objDb c) k (some (ofValue v))) expDb (expKey c k)
      (e.map ofNat)) t' where
  objects := fun c' k' => by
    simp only [write, objDb_ne_expDb, false_and, if_false, objDb_inj, hobj, get_insert]
    split_ifs
    · rfl
    · exact h.objects c' k'
  expiry := fun c' k' hc' => by
    simp only [write, true_and, expKey_inj hc' hc, (objDb_ne_expDb c).symm, false_and, if_false, hexp]
    split_ifs
    · rfl
    · exact h.expiry c' k' hc'
  expKeys := fun key x hx => by
    simp only [write, true_and, (objDb_ne_expDb c).symm, false_and, if_false] at hx
    split_ifs at hx with hkey
    · exact ⟨c, k, hc, hkey⟩
    · exact h.expKeys key x hx
  expiring := fun c' k' e' he' => by
    rw [hexp] at he'
    rw [hobj, get_insert]
    split_ifs at he' ⊢ with hck
    · exact ⟨hck.1 ▸ hc, he e' he', rfl⟩
    · exact h.expiring c' k' e' he'

/-- Deleting an object and its expiry. -/
theorem delete (h : Mirrors g t) (hc : NulFree c) :
    Mirrors (write (write g (objDb c) k none) expDb (expKey c k) none) (t.deleteObject c k) where
  objects := fun c' k' => by
    simp only [write, objDb_ne_expDb, false_and, if_false, objDb_inj, MemoryStore.deleteObject,
      get_erase]
    split_ifs
    · rfl
    · exact h.objects c' k'
  expiry := fun c' k' hc' => by
    simp only [write, true_and, expKey_inj hc' hc, (objDb_ne_expDb c).symm, false_and, if_false,
      MemoryStore.deleteObject, get_erase]
    split_ifs
    · rfl
    · exact h.expiry c' k' hc'
  expKeys := fun key x hx => by
    simp only [write, true_and, (objDb_ne_expDb c).symm, false_and, if_false] at hx
    split_ifs at hx
    exact h.expKeys key x hx
  expiring := fun c' k' e' he' => by
    simp only [MemoryStore.deleteObject, get_erase] at he' ⊢
    split_ifs at he' ⊢
    exact h.expiring c' k' e' he'

variable {ttl : Bool}

/-- The put of an item; while the guard is down there is no expiry to clear. -/
theorem putContents (h : Mirrors g t) (hguard : ttl = false → ∀ c k, t.expiry.get c k = none)
    (hc : NulFree c) (v : Value) :
    Mirrors (putContents ttl g (c, k, v)) (t.putObject c k v) ∧
      (ttl = false → ∀ c' k', (t.putObject c k v).expiry.get c' k' = none) := by
  have hput := h.put hc v (t.putObject c k v) (e := none) (by simp) rfl fun c' k' => get_erase ..
  cases ttl with
  | true => exact ⟨hput, fun hf => by cases hf⟩
  | false =>
    have hnone : write g (objDb c) k (some (ofValue v)) expDb (expKey c k) = none := by
      rw [write, if_neg fun hn => objDb_ne_expDb c hn.1.symm, h.expiry c k hc, hguard rfl]
      rfl
    rw [Option.map_none, write_eq_self hnone] at hput
    refine ⟨hput, fun _ c' k' => ?_⟩
    show (t.expiry.erase c k).get c' k' = none
    rw [get_erase, hguard rfl, ite_self]

/-- The items of a batch, one after the other. -/
theorem putContents_foldl (h : Mirrors g t) (hguard : ttl = false → ∀ c k, t.expiry.get c k = none)
    (items : List (String × String × Value)) (hitems : ∀ item ∈ items, NulFree item.1) :
    Mirrors (items.foldl (LmdbStore.putContents ttl) g) (IndexStore.putBatch t items) ∧
      (ttl = false → ∀ c k, (IndexStore.putBatch t items).expiry.get c k = none) := by
  induction items generalizing g t with
  | nil => exact ⟨h, hguard⟩
  | cons item items ih =>
    obtain ⟨hput, hguard'⟩ := h.putContents hguard (hitems item (mem_cons_self ..)) item.2.2
    exact ih hput hguard' fun i hi => hitems i (mem_cons_of_mem _ hi)

end Mirrors

/-! ### The simulation -/

/-- The store takes the key `k` of the collection `c`. -/
structure Accepts (C : Finset String) (c k : String) : Prop where
  used : c ∈ C
  nulFree : NulFree c
  key : ValidKey k
  expKey : ValidKey (expKey c k)

theorem Accepts.takes {C : Finset String} {item : String × String × Value}
    (h : Accepts C item.1 item.2.1) : Takes C item :=
  ⟨h.used, validName_objDb h.nulFree h.key h.expKey, h.key⟩

section Limits

variable {C : Finset String} {colls : List String} {keys : List (String × String)} {c k : String}
  (hlim : (∀ c ∈ colls, NulFree c) ∧ ∀ p ∈ keys, ValidKey p.2 ∧ ValidKey (LmdbStore.expKey p.1 p.2))
include hlim

/-- What a call within the limits names is accepted. -/
theorem accepts_of_mem (hC : ∀ c ∈ colls, c ∈ C) (hc : c ∈ colls) (hk : (c, k) ∈ keys) :
    Accepts C c k :=
  ⟨hC c hc, hlim.1 c hc, (hlim.2 _ hk).1, (hlim.2 _ hk).2⟩

/-- The case of a call on one key. -/
theorem accepts_of_eq (hC : ∀ c ∈ colls, c ∈ C) (hc : colls = [c]) (hk : keys = [(c, k)]) :
    Accepts C c k :=
  accepts_of_mem hlim hC (hc ▸ mem_singleton_self c) (hk ▸ mem_singleton_self _)

theorem nulFree_of_eq (hc : colls = [c]) : NulFree c := hlim.1 c (hc ▸ mem_singleton_self c)

end Limits

/-- Every stored key is one that LMDB takes. -/
def Held (C : Finset String) (t : MemoryStore) : Prop :=
  ∀ c k, (t.objects.get c k).isSome → Accepts C c k

namespace Held

variable {C : Finset String} {t t' : MemoryStore} {c k : String}

theorem new : Held C MemoryStore.new := by
  intro c k h
  rw [MemoryStore.new, get_empty] at h
  cases h

theorem insert (h : Held C t) (ha : Accepts C c k) {v : Value}
    (hobj : t'.objects = t.objects.insert c k v) : Held C t' := by
  intro c' k' hsome
  rw [hobj, get_insert] at hsome
  split_ifs at hsome with hck
  · obtain ⟨rfl, rfl⟩ := hck
    exact ha
  · exact h c' k' hsome

theorem deleteObject (h : Held C t) (c k : String) : Held C (t.deleteObject c k) := by
  intro c' k' hsome
  rw [MemoryStore.deleteObject, get_erase] at hsome
  split_ifs at hsome
  · cases hsome
  · exact h c' k' hsome

theorem putBatch {items : List (String × String × Value)} : ∀ {t : MemoryStore}, Held C t →
    (∀ item ∈ items, Accepts C item.1 item.2.1) → Held C (IndexStore.putBatch t items) := by
  induction items with
  | nil => exact fun h _ => h
  | cons item items ih =>
    intro t h hitems
    exact ih (h.insert (hitems item (mem_cons_self ..)) rfl)
      fun i hi => hitems i (mem_cons_of_mem _ hi)

end Held

/-- The durable store `s` stands for the store `t` without handles, with room for the collections
`C`. -/
structure Sim (C : Finset String) (s : LmdbStore T) (t : TextStore T) : Prop where
  room : C.card < maxDbs
  fits : Fits C s
  mirrors : Mirrors s.disk.get t.mem
  guard : s.hasAnyTtl = false → ∀ c k, t.mem.expiry.get c k = none
  held : Held C t.mem

namespace Sim

variable {C : Finset String} {s s' : LmdbStore T} {t : TextStore T} {c k : String}

theorem of_leaves (h : Sim C s t) (hl : Leaves C s s' s.disk.get) : Sim C s' t where
  room := h.room
  fits := hl.fits
  mirrors := by
    rw [hl.get]
    exact h.mirrors
  guard := fun hf => h.guard (hl.flag.symm.trans hf)
  held := h.held

theorem new (hC : C.card < maxDbs) : Sim C (LmdbStore.new : LmdbStore T) ⟨MemoryStore.new⟩ where
  room := hC
  fits := Fits.new C
  mirrors := by
    have hget : (LmdbStore.new : LmdbStore T).disk.get = fun _ _ => none := by
      funext n k
      exact get_empty ..
    rw [hget]
    exact Mirrors.new
  guard := fun _ c k => get_empty ..
  held := Held.new

/-! #### Reads -/

theorem readExpiry (h : Sim C s t) (hc : NulFree c) (k : String) :
    Sim C (s.readExpiry c k).1 t ∧ (s.readExpiry c k).2 = t.mem.expiry.get c k := by
  refine ⟨h.of_leaves (h.fits.readDb h.room expDb).1, ?_⟩
  refine (readDb_get (h.fits.room h.room) (expKey c k) toNat).trans ?_
  rw [h.mirrors.expiry c k hc]
  cases he : t.mem.expiry.get c k with
  | none => rfl
  | some e => exact toNat_ofNat (h.mirrors.expiring c k e he).2.1

/-- The guard does not change an answer. -/
theorem isExpired (h : Sim C s t) (now : ℕ) (hc : NulFree c) (k : String) :
    Sim C (s.isExpired now c k).1 t ∧ (s.isExpired now c k).2 = t.mem.isExpired now c k := by
  rw [LmdbStore.isExpired, MemoryStore.isExpired]
  by_cases hflag : s.hasAnyTtl = true
  · obtain ⟨hsim, hexp⟩ := h.readExpiry hc k
    rw [if_pos hflag]
    refine ⟨hsim, ?_⟩
    dsimp only
    rw [hexp]
    cases t.mem.expiry.get c k <;> rfl
  · rw [if_neg hflag, h.guard (by simpa using hflag)]
    exact ⟨h, rfl⟩

theorem getObject (h : Sim C s t) (now : ℕ) (hc : NulFree c) (k : String) :
    Sim C (s.getObject now c k).1 t ∧ (s.getObject now c k).2 = IndexStore.getObject now t c k := by
  obtain ⟨hsim, hexp⟩ := h.isExpired now hc k
  rw [LmdbStore.getObject]
  dsimp only
  rw [hexp]
  change _ ∧ _ = (if t.mem.isExpired now c k then none else t.mem.objects.get c k).bind _
  by_cases he : t.mem.isExpired now c k = true
  · rw [if_pos he, if_pos he]
    exact ⟨hsim, rfl⟩
  · rw [if_neg he, if_neg he]
    refine ⟨hsim.of_leaves (hsim.fits.readDb hsim.room _).1, ?_⟩
    refine (readDb_get (hsim.fits.room hsim.room) k toValue).trans ?_
    rw [hsim.mirrors.objects, Option.bind_map]
    rfl

theorem mget (h : Sim C s t) (now : ℕ) (hc : NulFree c) (ks : List String) :
    Sim C (s.mget now c ks).1 t ∧ (s.mget now c ks).2 = IndexStore.mget now t c ks := by
  induction ks generalizing s with
  | nil => exact ⟨h, rfl⟩
  | cons k ks ih =>
    obtain ⟨hsim, hval⟩ := h.getObject now hc k
    obtain ⟨hsim', hvals⟩ := ih hsim
    refine ⟨hsim', ?_⟩
    change _ :: _ = _ :: _
    rw [hval, hvals]
    rfl

theorem setMembers (h : Sim C s t) (now : ℕ) (hc : NulFree c) (k : String) :
    Sim C (s.setMembers now c k).1 t ∧
      (s.setMembers now c k).2 = IndexStore.setMembers now t c k := by
  obtain ⟨hsim, hval⟩ := h.getObject now hc k
  exact ⟨hsim, congrArg IndexStore.membersOf hval⟩

/-! #### Writes -/

theorem obj_mem (h : Accepts C c k) : objDb c ∈ insert expDb (C.image objDb) :=
  Finset.mem_insert_of_mem (Finset.mem_image_of_mem _ h.used)

variable {t' : TextStore T}

/-- The end of a write that clears the expiry: while the guard is down there is none to clear. -/
theorem clear (h : Sim C s t) (hc : NulFree c) {g : String → String → Option T}
    (hl : Leaves C s s' g) (hg : g expDb (expKey c k) = s.disk.get expDb (expKey c k))
    (hm : Mirrors (write g expDb (expKey c k) none) t'.mem)
    (hexp : t'.mem.expiry = t.mem.expiry.erase c k) (hheld : Held C t'.mem) :
    ∃ s'', (if s'.hasAnyTtl then s'.clearExpiry c k else some s') = some s'' ∧ Sim C s'' t' := by
  have hguard : s.hasAnyTtl = false → ∀ c' k', t'.mem.expiry.get c' k' = none := by
    intro hf c' k'
    rw [hexp, get_erase, h.guard hf, ite_self]
  by_cases hflag : s'.hasAnyTtl = true
  · obtain ⟨s₂, hclear, hl₂⟩ := hl.fits.clearExpiry h.room c k
    rw [hl.get] at hl₂
    rw [if_pos hflag]
    refine ⟨s₂, hclear, ⟨h.room, hl₂.fits, hl₂.get ▸ hm, fun hf => ?_, hheld⟩⟩
    exact hguard ((hl.trans hl₂).flag.symm.trans hf)
  · have hf : s.hasAnyTtl = false := by
      rw [← hl.flag]
      simpa using hflag
    have hnone : g expDb (expKey c k) = none := by
      rw [hg, h.mirrors.expiry c k hc, h.guard hf]
      rfl
    rw [write_eq_self hnone] at hm
    rw [if_neg hflag]
    exact ⟨s', rfl, ⟨h.room, hl.fits, hl.get ▸ hm, fun _ => hguard hf, hheld⟩⟩

theorem putObject (h : Sim C s t) (ha : Accepts C c k) (v : Value) :
    ∃ s', s.putObject c k v = some s' ∧ Sim C s' (IndexStore.putObject t c k v) := by
  obtain ⟨s₁, hput, hl⟩ := h.fits.putStr h.room (obj_mem ha)
    (validName_objDb ha.nulFree ha.key ha.expKey) ha.key (ofValue v)
  obtain ⟨s₂, hs₂, hsim⟩ := h.clear ha.nulFree hl (if_neg fun hn => objDb_ne_expDb c hn.1.symm)
    (h.mirrors.put ha.nulFree v (IndexStore.putObject t c k v).mem (e := none) (by simp) rfl
      fun c' k' => get_erase ..) rfl (h.held.insert ha rfl)
  refine ⟨s₂, ?_, hsim⟩
  simpa [LmdbStore.putObject, hput] using hs₂

theorem putObjectAt (h : Sim C s t) (ha : Accepts C c k) (v : Value) (e : UInt64) :
    ∃ s', s.putObjectAt c k v e = some s' ∧ Sim C s' (IndexStore.putObjectAt t c k v e.toNat) := by
  obtain ⟨s₁, hput₁, hl₁⟩ := h.fits.putStr h.room (obj_mem ha)
    (validName_objDb ha.nulFree ha.key ha.expKey) ha.key (ofValue v)
  obtain ⟨s₂, hput₂, hl₂⟩ := hl₁.fits.putStr h.room (Finset.mem_insert_self ..) validName_expDb
    ha.expKey (ofNat e.toNat)
  have hmirrors := h.mirrors.put ha.nulFree v (IndexStore.putObjectAt t c k v e.toNat).mem
    (e := some e.toNat) (fun n hn => some.inj hn ▸ e.toNat_lt) rfl
    (fun c' k' => get_insert ..)
  rw [hl₁.get] at hl₂
  refine ⟨{ s₂ with hasAnyTtl := true }, ?_,
    ⟨h.room, ⟨hl₂.fits.names, hl₂.fits.dbs⟩, ?_, ?_, h.held.insert ha rfl⟩⟩
  · simp [LmdbStore.putObjectAt, hput₁, hput₂]
  · change Mirrors s₂.disk.get _
    rw [hl₂.get]
    exact hmirrors
  · intro hf
    cases hf

theorem deleteObject (h : Sim C s t) (ha : Accepts C c k) :
    ∃ s', s.deleteObject c k = some s' ∧ Sim C s' (IndexStore.deleteObject t c k) := by
  obtain ⟨s₁, hs₁, hl⟩ := h.fits.eraseObject h.room c ha.key
  obtain ⟨s₂, hs₂, hsim⟩ : ∃ s₂, _ = some s₂ ∧ Sim C s₂ (IndexStore.deleteObject t c k) :=
    h.clear ha.nulFree hl (if_neg fun hn => objDb_ne_expDb c hn.1.symm) (h.mirrors.delete ha.nulFree) rfl
    (h.held.deleteObject c k)
  refine ⟨s₂, ?_, hsim⟩
  simpa [LmdbStore.deleteObject, hs₁] using hs₂

theorem putBatch (h : Sim C s t) {items : List (String × String × Value)}
    (hitems : ∀ item ∈ items, Accepts C item.1 item.2.1) :
    ∃ s', s.putBatch items = some s' ∧ Sim C s' (IndexStore.putBatch t items) := by
  obtain ⟨s', hs', hl⟩ := h.fits.putBatch h.room fun item hi => (hitems item hi).takes
  obtain ⟨hmirrors, hguard⟩ := h.mirrors.putContents_foldl h.guard items fun item hi =>
    (hitems item hi).nulFree
  refine ⟨s', hs', ⟨h.room, hl.fits, ?_, fun hf => ?_, ?_⟩⟩
  all_goals rw [TextStore.putBatch_eq]
  · exact hl.get ▸ hmirrors
  · exact hguard (hl.flag.symm.trans hf)
  · exact h.held.putBatch hitems

/-! #### Scans -/

theorem entries (h : Sim C s t) (name : String) : Sim C (s.entries name).1 t ∧
    (s.entries name).1.disk = s.disk ∧ (s.entries name).1.hasAnyTtl = s.hasAnyTtl ∧
    (s.entries name).2
      = (s.disk.entries name).filterMap fun e => (toValue e.2).map fun v => (e.1, v) := by
  obtain ⟨hl, hdisk, hno⟩ := h.fits.readDb h.room name
  refine ⟨h.of_leaves hl, hdisk, hl.flag, ?_⟩
  rw [LmdbStore.entries]
  dsimp only
  rw [hdisk]
  by_cases hr : (s.readDb name).2 = true
  · rw [if_pos hr]
  · rw [if_neg hr, entries_of_notMem (hno (by simpa using hr))]
    rfl

theorem mem_entries (h : Sim C s t) {name key : String} {v : Value} :
    (key, v) ∈ (s.entries name).2 ↔ ∃ x, s.disk.get name key = some x ∧ toValue x = some v := by
  rw [(h.entries name).2.2.2, mem_filterMap]
  constructor
  · rintro ⟨⟨key', x⟩, hx, hv⟩
    obtain ⟨v', hv', he⟩ := map_eq_some_iff.mp hv
    obtain ⟨rfl, rfl⟩ := Prod.mk.inj he
    exact ⟨x, (Nested.mem_entries ..).mp hx, hv'⟩
  · rintro ⟨x, hx, hv⟩
    exact ⟨(key, x), (Nested.mem_entries ..).mpr hx, by rw [hv]; rfl⟩

theorem scanEntries (h : Sim C s t) (now : ℕ) (hc : NulFree c) :
    Sim C (s.scanEntries now c).1 t ∧
      Multiset.ofList (s.scanEntries now c).2 = Multiset.ofList (IndexStore.scanEntries now t c) := by
  obtain ⟨hsim, -, hflag, -⟩ := h.entries (objDb c)
  have hscan : Sim C (s.scanEntries now c).1 t ∧ (s.scanEntries now c).2
      = (s.entries (objDb c)).2.filter fun e => !t.mem.isExpired now c e.1 := by
    rw [LmdbStore.scanEntries]
    by_cases hup : (s.entries (objDb c)).1.hasAnyTtl = true
    · rw [if_pos hup]
      exact dropExpired_spec (P := fun s => Sim C s t) (fun s hs k => hs.isExpired now hc k) _ hsim
    · rw [if_neg hup]
      refine ⟨hsim, (filter_eq_self.mpr fun e _ => ?_).symm⟩
      rw [MemoryStore.isExpired, hsim.guard (by simpa using hup)]
      rfl
  refine ⟨hscan.1, Multiset.coe_eq_coe.mpr ?_⟩
  have hnd : (s.scanEntries now c).2.Nodup := by
    rw [hscan.2]
    exact (List.Nodup.of_map _ (nodup_entries ..)).filter _
  refine (perm_ext_iff_of_nodup hnd
    (List.Nodup.of_map _ (TextStore.nodup_scanEntries now t c))).mpr ?_
  rintro ⟨k, v⟩
  rw [hscan.2, mem_filter, h.mem_entries, h.mirrors.objects, TextStore.mem_scanEntries]
  change _ ↔ (if t.mem.isExpired now c k then none else t.mem.objects.get c k).bind _ = some v
  cases hexp : t.mem.isExpired now c k with
  | true => simp
  | false =>
    cases hobj : t.mem.objects.get c k with
    | none => simp
    | some u => simp [reread]

/-! #### Sweeps -/

/-- The dead entries are those of the in-memory store. -/
theorem mem_deadEntries (h : Sim C s t) (now : ℕ) {d : String × String × String} :
    d ∈ deadEntries now (s.entries expDb).2 ↔
      ∃ c k e, t.mem.expiry.get c k = some e ∧ e ≤ now ∧ d = (expKey c k, c, k) := by
  have hread : ∀ {c k : String} {e : ℕ}, t.mem.expiry.get c k = some e →
      Value.asU64 (.int e) = some e ∧ splitOnce '\x00' (expKey c k) = some (c, k) ∧
        (expKey c k, Value.int e) ∈ (s.entries expDb).2 := by
    intro c k e he
    obtain ⟨hnul, hlt, -⟩ := h.mirrors.expiring c k e he
    refine ⟨Value.asU64_int hlt, splitOnce_expKey hnul k, h.mem_entries.mpr ⟨ofNat e, ?_, ?_⟩⟩
    · rw [h.mirrors.expiry c k hnul, he]
      rfl
    · exact toValue_ofNat hlt
  rw [mem_deadEntries_iff]
  constructor
  · rintro ⟨v, e, hmem, hu64, hle, hsplit⟩
    obtain ⟨key, p⟩ := d
    obtain ⟨x, hx, hv⟩ := h.mem_entries.mp hmem
    obtain ⟨c, k, hnul, rfl⟩ := h.mirrors.expKeys key x hx
    rw [h.mirrors.expiry c k hnul] at hx
    obtain ⟨e', he', rfl⟩ := map_eq_some_iff.mp hx
    rw [toValue_ofNat (h.mirrors.expiring c k e' he').2.1] at hv
    obtain rfl := some.inj hv
    obtain rfl := some.inj ((hread he').1.symm.trans hu64)
    obtain rfl := some.inj ((hread he').2.1.symm.trans hsplit)
    exact ⟨c, k, e', he', hle, rfl⟩
  · rintro ⟨c, k, e, he, hle, rfl⟩
    obtain ⟨hu64, hsplit, hmem⟩ := hread he
    exact ⟨_, e, hmem, hu64, hle, hsplit⟩

/-- Both stores find the same dead entries, in different orders. -/
theorem perm_deadEntries (h : Sim C s t) (now : ℕ) :
    ((deadEntries now (s.entries expDb).2).map Prod.snd).Perm (t.mem.deadKeys now) := by
  have hnd := List.Nodup.of_map _ (nodup_deadEntries now (s.nodup_entries expDb))
  refine (perm_ext_iff_of_nodup (List.Nodup.map_on ?_ hnd)
    (MemoryStore.nodup_deadKeys t.mem now)).mpr ?_
  · intro d hd d' hd' heq
    obtain ⟨c, k, e, -, -, rfl⟩ := (h.mem_deadEntries now).mp hd
    obtain ⟨c', k', e', -, -, rfl⟩ := (h.mem_deadEntries now).mp hd'
    obtain ⟨rfl, rfl⟩ := Prod.mk.inj heq
    rfl
  · rintro ⟨c, k⟩
    rw [MemoryStore.mem_deadKeys, mem_map]
    constructor
    · rintro ⟨d, hd, heq⟩
      obtain ⟨c', k', e, he, hle, rfl⟩ := (h.mem_deadEntries now).mp hd
      obtain ⟨rfl, rfl⟩ := Prod.mk.inj heq
      exact ⟨e, he, hle⟩
    · rintro ⟨e, he, hle⟩
      exact ⟨_, (h.mem_deadEntries now).mpr ⟨c, k, e, he, hle, rfl⟩, rfl⟩

/-- One dead entry: the sweep deletes the object and its expiry. -/
theorem sweepOne (h : Sim C s t) (hc : NulFree c) (hdisk : objDb c ∈ s.disk) (k : String) :
    Sim C (s.sweepOne (expKey c k, c, k)) (IndexStore.deleteObject t c k) ∧
      ∀ name ∈ s.disk, name ∈ (s.sweepOne (expKey c k, c, k)).disk := by
  obtain ⟨hl, -, hno⟩ := h.fits.readDb h.room (objDb c)
  have hr : (s.readDb (objDb c)).2 = true := by
    by_contra hr
    exact hno (by simpa using hr) hdisk
  have hget := get_sweepOne s (expKey c k, c, k)
  rw [if_pos hr] at hget
  refine ⟨⟨h.room, ⟨fun n hn => ?_, ?_⟩, ?_, fun hf c' k' => ?_, h.held.deleteObject c k⟩,
    fun name => (mem_sweepOne ..).mpr⟩
  · exact h.fits.names n ((mem_sweepOne ..).mp hn)
  · rw [sweepOne_dbs]
    exact hl.fits.dbs
  · rw [hget]
    exact h.mirrors.delete hc
  · change (t.mem.expiry.erase c k).get c' k' = none
    rw [get_erase, h.guard ((sweepOne_flag ..).symm.trans hf), ite_self]

/-- The loop of a sweep. -/
theorem sweepAll {dead : List (String × String × String)} : ∀ {s : LmdbStore T} {t : TextStore T},
    Sim C s t → (∀ d ∈ dead, NulFree d.2.1 ∧ objDb d.2.1 ∈ s.disk ∧ d.1 = expKey d.2.1 d.2.2) →
    Sim C (dead.foldl LmdbStore.sweepOne s)
      ⟨(dead.map Prod.snd).foldl (fun t d => t.deleteObject d.1 d.2) t.mem⟩ := by
  induction dead with
  | nil => exact fun h _ => h
  | cons d dead ih =>
    intro s t h hdead
    obtain ⟨key, c, k⟩ := d
    obtain ⟨hc, hdisk, hkey⟩ := hdead _ (mem_cons_self ..)
    obtain rfl : key = expKey c k := hkey
    obtain ⟨hsim, hkeep⟩ := h.sweepOne hc hdisk k
    refine ih hsim fun d hd => ?_
    obtain ⟨h1, h2, h3⟩ := hdead d (mem_cons_of_mem _ hd)
    exact ⟨h1, hkeep _ h2, h3⟩

/-- The in-memory store matters only for what it returns. -/
theorem congr_memory (h : Sim C s t) (hobj : ∀ c k, t'.mem.objects.get c k = t.mem.objects.get c k)
    (hexp : ∀ c k, t'.mem.expiry.get c k = t.mem.expiry.get c k) : Sim C s t' where
  room := h.room
  fits := h.fits
  mirrors :=
    { objects := fun c k => by rw [hobj, h.mirrors.objects]
      expiry := fun c k hc => by rw [hexp, h.mirrors.expiry c k hc]
      expKeys := h.mirrors.expKeys
      expiring := fun c k e he => by
        rw [hobj]
        exact h.mirrors.expiring c k e (hexp c k ▸ he) }
  guard := fun hf c k => (hexp c k).trans (h.guard hf c k)
  held := fun c k hsome => h.held c k (hobj c k ▸ hsome)

/-- The dead entries can all be swept: their collections are on disk. -/
theorem sweepable (h : Sim C s t) (now : ℕ) : ∀ d ∈ deadEntries now (s.entries expDb).2,
    NulFree d.2.1 ∧ objDb d.2.1 ∈ (s.entries expDb).1.disk ∧ d.1 = expKey d.2.1 d.2.2 := by
  intro d hd
  obtain ⟨c, k, e, he, -, rfl⟩ := (h.mem_deadEntries now).mp hd
  obtain ⟨hc, -, hobj⟩ := h.mirrors.expiring c k e he
  obtain ⟨v, hv⟩ := Option.isSome_iff_exists.mp hobj
  refine ⟨hc, ?_, rfl⟩
  have hget := h.mirrors.objects c k
  rw [hv] at hget
  rw [(h.entries expDb).2.1]
  exact mem_of_get hget

theorem sweepExpired (h : Sim C s t) (now : ℕ) :
    Sim C (s.sweepExpired now).1 (IndexStore.sweepExpired t now).1 ∧
      (s.sweepExpired now).2 = (IndexStore.sweepExpired t now).2 := by
  change Sim C _ ⟨(t.mem.sweepExpired now).1⟩ ∧ _ = (t.mem.sweepExpired now).2
  rw [LmdbStore.sweepExpired]
  by_cases hup : s.hasAnyTtl = true
  · obtain ⟨hl, -, hno⟩ := h.fits.readDb h.room expDb
    have hsim := h.of_leaves hl
    rw [if_pos hup]
    dsimp only
    by_cases hr : (s.readDb expDb).2 = true
    · have hperm := hsim.perm_deadEntries now
      have hswept := (hsim.entries expDb).1.sweepAll (hsim.sweepable now)
      rw [if_pos hr]
      refine ⟨hswept.congr_memory (fun c k => ?_) fun c k => ?_, ?_⟩
      · refine (MemoryStore.get_foldl_deleteObject _ c k t.mem).1.trans
          (Eq.trans ?_ (MemoryStore.get_foldl_deleteObject _ c k t.mem).1.symm)
        simp only [hperm.mem_iff]
      · refine (MemoryStore.get_foldl_deleteObject _ c k t.mem).2.trans
          (Eq.trans ?_ (MemoryStore.get_foldl_deleteObject _ c k t.mem).2.symm)
        simp only [hperm.mem_iff]
      · rw [MemoryStore.sweepExpired, ← hperm.length_eq, length_map]
    · -- no expiry on disk, so none in memory
      have hnone : ∀ c k, t.mem.expiry.get c k = none := by
        intro c k
        cases he : t.mem.expiry.get c k with
        | none => rfl
        | some e =>
          have hget := h.mirrors.expiry c k (h.mirrors.expiring c k e he).1
          rw [he] at hget
          exact absurd (mem_of_get hget) (hno (by simpa using hr))
      rw [if_neg hr, MemoryStore.sweepExpired_of_no_expiry hnone]
      exact ⟨hsim, rfl⟩
  · rw [if_neg hup, MemoryStore.sweepExpired_of_no_expiry (h.guard (by simpa using hup))]
    exact ⟨h, rfl⟩

/-- The guard is recovered. -/
theorem reopen (h : Sim C s t) : Sim C s.reopen t where
  room := h.room
  fits := ⟨h.fits.names, Finset.empty_subset _⟩
  mirrors := h.mirrors
  held := h.held
  guard := fun hf c k => by
    cases he : t.mem.expiry.get c k with
    | none => rfl
    | some e =>
      have hget := h.mirrors.expiry c k (h.mirrors.expiring c k e he).1
      rw [he] at hget
      have hmem := (Nested.mem_entries ..).mpr hget
      have hf : (s.disk.entries expDb).head?.isSome = false := hf
      cases hes : s.disk.entries expDb with
      | nil =>
        rw [hes] at hmem
        cases hmem
      | cons e es =>
        rw [hes] at hf
        cases hf

/-! #### Read-modify-write -/

theorem update {α : Type} (h : Sim C s t) (now : ℕ) (ha : Accepts C c k)
    (f : Option Value → Change × α) :
    ∃ s', s.update now c k f = some (s', (IndexStore.update now t c k f).2) ∧
      Sim C s' (IndexStore.update now t c k f).1 := by
  obtain ⟨hsim, hval⟩ := h.getObject now ha.nulFree k
  rw [LmdbStore.update, hval]
  obtain ⟨s', hs', hsim'⟩ : ∃ s', (s.getObject now c k).1.change c k
      (f (IndexStore.getObject now t c k)).1 = some s' ∧
        Sim C s' (IndexStore.update now t c k f).1 := by
    rw [IndexStore.update]
    cases (f (IndexStore.getObject now t c k)).1 with
    | keep => exact ⟨_, rfl, hsim⟩
    | put v => exact hsim.putObject ha v
    | delete => exact hsim.deleteObject ha
  exact ⟨s', congrArg (Option.map _) hs', hsim'⟩

/-- Every call is answered like the store without handles answers it. -/
theorem onLmdb (h : Sim C s t) (now : ℕ) {call : StoreCall} (hlim : call.InLimits)
    (hC : ∀ c ∈ call.colls, c ∈ C) : ∃ s', call.onLmdb now s = some (s', (call.onStore now t).2) ∧
      Sim C s' (call.onStore now t).1 := by
  have hwrite : ∀ {c k}, call.colls = [c] → call.keys = [(c, k)] → Accepts C c k :=
    fun hc hk => accepts_of_eq hlim hC hc hk
  have hread : ∀ {c}, call.colls = [c] → NulFree c := fun hc => nulFree_of_eq hlim hc
  cases call with
  | putObject c k v =>
    obtain ⟨s', hs', hsim⟩ := h.putObject (hwrite rfl rfl) v
    exact ⟨s', congrArg (Option.map _) hs', hsim⟩
  | putObjectAt c k v e =>
    obtain ⟨s', hs', hsim⟩ := h.putObjectAt (hwrite rfl rfl) v e
    exact ⟨s', congrArg (Option.map _) hs', hsim⟩
  | putBatch items =>
    obtain ⟨s', hs', hsim⟩ := h.putBatch fun item hi =>
      accepts_of_mem hlim hC (mem_map_of_mem hi)
        (mem_map_of_mem (f := fun item => (item.1, item.2.1)) hi)
    exact ⟨s', congrArg (Option.map _) hs', hsim⟩
  | getObject c k =>
    obtain ⟨hsim, hval⟩ := h.getObject now (hread rfl) k
    exact ⟨_, congrArg (fun v => some (_, StoreAnswer.value v)) hval, hsim⟩
  | mget c ks =>
    obtain ⟨hsim, hval⟩ := h.mget now (hread rfl) ks
    exact ⟨_, congrArg (fun v => some (_, StoreAnswer.values v)) hval, hsim⟩
  | scanEntries c =>
    obtain ⟨hsim, hval⟩ := h.scanEntries now (hread rfl)
    exact ⟨_, congrArg (fun v => some (_, StoreAnswer.entries v)) hval, hsim⟩
  | deleteObject c k =>
    obtain ⟨s', hs', hsim⟩ := h.deleteObject (hwrite rfl rfl)
    exact ⟨s', congrArg (Option.map _) hs', hsim⟩
  | expiryOf c k =>
    obtain ⟨hsim, hval⟩ := h.readExpiry (hread rfl) k
    exact ⟨_, congrArg (fun v => some (_, StoreAnswer.expiry v)) hval, hsim⟩
  | sweepExpired nowMs =>
    obtain ⟨hsim, hval⟩ := h.sweepExpired nowMs
    exact ⟨_, congrArg (fun v => some (_, StoreAnswer.count v)) hval, hsim⟩
  | cas | incr | setAdd | setRemove =>
    obtain ⟨s', hs', hsim⟩ := h.update now (hwrite rfl rfl) _
    exact ⟨s', congrArg (Option.map _) hs', hsim⟩
  | setMembers c k =>
    obtain ⟨hsim, hval⟩ := h.setMembers now (hread rfl) k
    exact ⟨_, congrArg (fun v => some (_, StoreAnswer.members v)) hval, hsim⟩
  | reopen => exact ⟨_, rfl, h.reopen⟩

/-- A store with a history within the limits stands for a store without handles. -/
theorem after {calls : List (ℕ × StoreCall)} : ∀ {s : LmdbStore T} {t : TextStore T}, Sim C s t →
    (∀ c ∈ calls, c.2.InLimits ∧ ∀ coll ∈ c.2.colls, coll ∈ C) →
    ∃ s' t', s.after calls = some s' ∧ Sim C s' t' := by
  induction calls with
  | nil => exact fun h _ => ⟨_, _, rfl, h⟩
  | cons c calls ih =>
    intro s t h hcalls
    obtain ⟨hlim, hC⟩ := hcalls c (mem_cons_self ..)
    obtain ⟨s₁, hs₁, hsim₁⟩ := h.onLmdb c.1 hlim hC
    obtain ⟨s₂, t₂, hs₂, hsim₂⟩ := ih hsim₁ fun d hd => hcalls d (mem_cons_of_mem _ hd)
    exact ⟨s₂, t₂, by rw [LmdbStore.after, hs₁]; exact hs₂, hsim₂⟩

end Sim

end LmdbStore

/-! ### Values that are read back exactly -/

/-- Every stored value is read back as it was written. -/
def MemoryStore.Exacts (T : Type) [Text T] (t : MemoryStore) : Prop :=
  ∀ c k v, t.objects.get c k = some v → Text.Exact T v

namespace MemoryStore.Exacts

variable {T : Type} [Text T] {t : MemoryStore} (h : t.Exacts T)
include h

theorem getObject (now : ℕ) (c k : String) :
    IndexStore.getObject now (⟨t⟩ : TextStore T) c k = IndexStore.getObject now t c k := by
  change (t.getObject now c k).bind (reread T) = t.getObject now c k
  rw [MemoryStore.getObject]
  split_ifs
  · rfl
  · cases hobj : t.objects.get c k with
    | none => rfl
    | some v => exact h c k v hobj

theorem setMembers (now : ℕ) (c k : String) :
    IndexStore.setMembers now (⟨t⟩ : TextStore T) c k = IndexStore.setMembers now t c k :=
  congrArg IndexStore.membersOf (h.getObject now c k)

theorem scanEntries (now : ℕ) (c : String) :
    IndexStore.scanEntries now (⟨t⟩ : TextStore T) c = IndexStore.scanEntries now t c := by
  change (t.scanEntries now c).filterMap _ = t.scanEntries now c
  refine (filterMap_congr fun e he => ?_).trans filterMap_some
  obtain ⟨hobj, -⟩ := mem_filter.mp he
  rw [h c e.1 e.2 ((Nested.mem_entries ..).mp hobj)]
  rfl

theorem insert {t' : MemoryStore} {c k : String} {v : Value} (hv : Text.Exact T v)
    (hobj : t'.objects = t.objects.insert c k v) : t'.Exacts T := by
  intro c' k' v' hget
  rw [hobj, get_insert] at hget
  split_ifs at hget
  · exact some.inj hget ▸ hv
  · exact h c' k' v' hget

theorem deleteAll (dead : List (String × String)) :
    (dead.foldl (fun t d => t.deleteObject d.1 d.2) t).Exacts T := by
  intro c k v hget
  rw [(MemoryStore.get_foldl_deleteObject dead c k t).1] at hget
  split_ifs at hget
  exact h c k v hget

omit h in
theorem putBatch {items : List (String × String × Value)} : ∀ {t : MemoryStore}, t.Exacts T →
    (∀ item ∈ items, Text.Exact T item.2.2) → (IndexStore.putBatch t items).Exacts T := by
  induction items with
  | nil => exact fun h _ => h
  | cons item items ih =>
    intro t h hitems
    exact ih (h.insert (hitems item (mem_cons_self ..)) rfl)
      fun i hi => hitems i (mem_cons_of_mem _ hi)

theorem update {α : Type} (now : ℕ) (c k : String) {f : Option Value → Change × α}
    (hf : ∀ v, (f (IndexStore.getObject now t c k)).1 = .put v → Text.Exact T v) :
    IndexStore.update now (⟨t⟩ : TextStore T) c k f = (IndexStore.update now t c k f).map .mk id ∧
      (IndexStore.update now t c k f).1.Exacts T := by
  rw [IndexStore.update, IndexStore.update, h.getObject now c k]
  dsimp only
  cases hr : (f (IndexStore.getObject now t c k)).1 with
  | keep => exact ⟨rfl, h⟩
  | put v => exact ⟨rfl, h.insert (hf v hr) rfl⟩
  | delete => exact ⟨rfl, h.deleteAll [(c, k)]⟩

/-- A call that is given such values to write finds them, and leaves such values only. -/
theorem onStore (now : ℕ) {call : StoreCall} (hv : ∀ v ∈ call.values, Text.Exact T v) :
    call.onStore now (⟨t⟩ : TextStore T) = (call.onStore now t).map .mk id ∧
      (call.onStore now t).1.Exacts T := by
  have hget := h.getObject now
  have hmem := h.setMembers now
  have hown : ∀ {v}, call.values = [v] → Text.Exact T v := fun hl => hv _ (hl ▸ mem_singleton_self _)
  cases call with
  | putObject c k v | putObjectAt c k v e => exact ⟨rfl, h.insert (hown rfl) rfl⟩
  | putBatch items =>
    refine ⟨congrArg (·, StoreAnswer.done) (TextStore.putBatch_eq ⟨t⟩ items), h.putBatch ?_⟩
    exact fun item hi => hv _ (mem_map_of_mem (f := fun item => item.2.2) hi)
  | getObject c k => exact ⟨congrArg (fun v => (_, StoreAnswer.value v)) (hget c k), h⟩
  | mget c ks =>
    exact ⟨congrArg (fun vs => (_, StoreAnswer.values vs)) (map_congr_left fun k _ => hget c k), h⟩
  | scanEntries c =>
    exact ⟨congrArg (fun es => (_, StoreAnswer.entries (Multiset.ofList es))) (h.scanEntries now c), h⟩
  | deleteObject c k => exact ⟨rfl, h.deleteAll [(c, k)]⟩
  | expiryOf c k | reopen => exact ⟨rfl, h⟩
  | sweepExpired nowMs => exact ⟨rfl, h.deleteAll _⟩
  | setMembers c k => exact ⟨congrArg (fun ms => (_, StoreAnswer.members ms)) (hmem c k), h⟩
  | cas c k expect new =>
    have hr := h.update now c k (f := Change.cas expect new) fun v hput => by
      unfold Change.cas at hput
      split_ifs at hput
      exact Change.put.inj hput ▸ hown rfl
    exact hr.imp_left (congrArg (Prod.map id StoreAnswer.flag))
  | incr c k delta =>
    have hr := h.update now c k (f := Change.incr delta) fun v hput => by
      unfold Change.incr at hput
      split at hput
      · cases hput
      · exact Change.put.inj hput ▸ exact_wrappingAdd _ delta
    exact hr.imp_left (congrArg (Prod.map id StoreAnswer.number))
  | setAdd c k m =>
    have hr := h.update now c k (f := Change.setAdd m) fun v hput => by
      unfold Change.setAdd at hput
      dsimp only at hput
      split_ifs at hput
      exact Change.put.inj hput ▸ toValue_ofStrings _
    exact hr.imp_left (congrArg (Prod.map id StoreAnswer.flag))
  | setRemove c k m =>
    have hr := h.update now c k (f := Change.setRemove m) fun v hput => by
      unfold Change.setRemove at hput
      dsimp only at hput
      split_ifs at hput
      exact Change.put.inj hput ▸ toValue_ofStrings _
    exact hr.imp_left (congrArg (Prod.map id StoreAnswer.flag))

end MemoryStore.Exacts

/-- Every history is answered like the in-memory store answers it. -/
theorem LmdbStore.Sim.answers {T : Type} [Text T] {C : Finset String} {calls : List (ℕ × StoreCall)} :
    ∀ {s : LmdbStore T} {t : MemoryStore}, Sim C s ⟨t⟩ → t.Exacts T →
    (∀ c ∈ calls, c.2.InLimits ∧ (∀ coll ∈ c.2.colls, coll ∈ C) ∧ ∀ v ∈ c.2.values, Text.Exact T v) →
    s.answers calls = some (t.answers calls) := by
  induction calls with
  | nil => exact fun _ _ _ => rfl
  | cons c calls ih =>
    intro s t h hexact hcalls
    obtain ⟨hlim, hC, hv⟩ := hcalls c (mem_cons_self ..)
    obtain ⟨s', hs', hsim⟩ := h.onLmdb c.1 hlim hC
    obtain ⟨heq, hexact'⟩ := hexact.onStore c.1 hv
    rw [heq] at hs' hsim
    have hrest := ih (t := (c.2.onStore c.1 t).1) hsim hexact' fun d hd =>
      hcalls d (mem_cons_of_mem _ hd)
    simp [LmdbStore.answers, MemoryStore.answers, hs', hrest]

/-- **The durable store answers like the in-memory store**, from empty stores on, in every history
that keeps to the limits of LMDB, names fewer collections than there are handles and writes values that
are read back as they were written. -/
theorem answers_eq_memory {T : Type} [Text T] {calls : List (ℕ × StoreCall)}
    (hlim : ∀ c ∈ calls, c.2.InLimits)
    (hcolls : (calls.flatMap fun c => c.2.colls).toFinset.card < LmdbStore.maxDbs)
    (hexact : ∀ c ∈ calls, ∀ v ∈ c.2.values, Text.Exact T v) :
    (LmdbStore.new : LmdbStore T).answers calls = some (MemoryStore.new.answers calls) := by
  refine (LmdbStore.Sim.new hcolls).answers (fun c k v hget => ?_) fun c hc =>
    ⟨hlim c hc, fun coll hcoll => ?_, hexact c hc⟩
  · rw [MemoryStore.new, get_empty] at hget
    cases hget
  · exact mem_toFinset.mpr (mem_flatMap.mpr ⟨c, hc, hcoll⟩)

/-! ### Values as their own texts -/

instance : Text Value where
  ofValue := id
  toValue := some
  ofNat n := .int n
  toNat := Value.asU64
  toNat_ofNat := Value.asU64_int
  toValue_ofNat _ := rfl
  toValue_int _ _ := rfl
  toValue_ofStrings _ := rfl

/-- An entry that expires, a reopen, a sweep and a scan. -/
theorem answers_eq_memory_ttl :
    let calls : List (ℕ × StoreCall) :=
      [(0, .putObjectAt "kv" "x" (.int 1) 10), (9, .getObject "kv" "x"), (9, .reopen),
        (10, .getObject "kv" "x"), (10, .incr "kv" "y" 2), (11, .sweepExpired 10),
        (11, .scanEntries "kv")]
    (LmdbStore.new : LmdbStore Value).answers calls = some (MemoryStore.new.answers calls) :=
  answers_eq_memory (by decide +kernel) (by decide +kernel) fun _ _ _ _ => rfl

/-! ### More collections than handles -/

/-- Once the handle table is full, a put to another collection panics. -/
theorem answers_eq_none {T : Type} [Text T] {names : List String} : ∀ {s : LmdbStore T},
    names.Nodup → (∀ n ∈ names, LmdbStore.objDb n ∉ s.dbs) → s.hasAnyTtl = false →
    s.dbs.card ≤ LmdbStore.maxDbs → LmdbStore.maxDbs < s.dbs.card + names.length →
    s.answers (names.map fun n => (0, .putObject n "k" .null)) = none := by
  induction names with
  | nil =>
    intro s _ _ _ hle hlt
    exact absurd hlt (by simpa using hle)
  | cons n names ih =>
    intro s hnd hnew hflag hle hlt
    obtain ⟨hn, hnd⟩ := nodup_cons.mp hnd
    have hopen : LmdbStore.objDb n ∉ s.dbs := hnew n (mem_cons_self ..)
    by_cases hroom : s.dbs.card < maxDbs ∧ LmdbStore.ValidName (objDb n)
    · have hkey : LmdbStore.ValidKey "k" := by decide
      obtain ⟨s', hs', hdbs, hflag'⟩ : ∃ s', (StoreCall.putObject n "k" .null).onLmdb 0 s
          = some (s', .done) ∧ s'.dbs = insert (objDb n) s.dbs ∧ s'.hasAnyTtl = false := by
        simp [StoreCall.onLmdb, putObject, putStr, db, hopen, hroom, hkey, hflag]
      have hcard : s'.dbs.card = s.dbs.card + 1 := by
        rw [hdbs, Finset.card_insert_of_notMem hopen]
      rw [length_cons] at hlt
      have hrest := ih hnd (fun m hm hin => ?_) hflag' (by omega) (by omega)
      · simp [LmdbStore.answers, hs', hrest]
      · rcases Finset.mem_insert.mp (hdbs ▸ hin) with he | hin
        · exact hn (objDb_inj.mp he ▸ hm)
        · exact hnew m (mem_cons_of_mem _ hm) hin
    · simp [LmdbStore.answers, StoreCall.onLmdb, putObject, putStr, db, hopen, hroom]

/-- The `i`-th collection of a family of short names. -/
def letter (i : ℕ) : String := String.singleton (Char.ofNat (97 + i))

variable {i : ℕ}

theorem toNat_letter (hi : i < 1025) : (Char.ofNat (97 + i)).toNat = 97 + i := by
  have hvalid : (97 + i).isValidChar := Or.inl (by omega)
  unfold Char.ofNat
  rw [dif_pos hvalid]
  rfl

theorem inLimits_letter (hi : i < 1025) : (StoreCall.putObject (letter i) "k" .null).InLimits := by
  have hnul : LmdbStore.NulFree (letter i) := by
    intro h
    have hc : '\x00' = Char.ofNat (97 + i) := by simpa [letter] using h
    have hn := toNat_letter hi
    rw [← hc] at hn
    have : (0 : ℕ) = 97 + i := hn
    omega
  have hsize : (expKey (letter i) "k").utf8ByteSize = (Char.ofNat (97 + i)).utf8Size + 1 + 1 := by
    simp only [expKey, letter, String.utf8ByteSize_append, String.utf8ByteSize_singleton]
    rfl
  have h4 := Char.utf8Size_le_four (Char.ofNat (97 + i))
  constructor
  · intro c hc
    rw [mem_singleton.mp hc]
    exact hnul
  · intro p hp
    rw [mem_singleton.mp hp]
    refine ⟨show LmdbStore.ValidKey "k" by decide, ?_, ?_⟩
    · rw [hsize]
      omega
    · rw [hsize, maxKeySize]
      omega

theorem nodup_letters {m : ℕ} (hm : m ≤ 1025) : ((List.range m).map letter).Nodup := by
  refine List.Nodup.map_on (fun i hi j hj hij => ?_) nodup_range
  have hc : Char.ofNat (97 + i) = Char.ofNat (97 + j) := by
    simpa [letter] using hij
  have hn := congrArg Char.toNat hc
  rw [toNat_letter ((mem_range.mp hi).trans_le hm),
    toNat_letter ((mem_range.mp hj).trans_le hm)] at hn
  omega

/-- Puts to 1025 collections. -/
def manyPuts : List (ℕ × StoreCall) :=
  ((List.range 1025).map letter).map fun n => (0, .putObject n "k" .null)

/-- The last one panics, although every put keeps to the limits. -/
theorem manyPuts_panic : (∀ c ∈ manyPuts, c.2.InLimits) ∧
    (LmdbStore.new : LmdbStore Value).answers manyPuts = none := by
  constructor
  · intro c hc
    obtain ⟨n, hn, rfl⟩ := mem_map.mp hc
    obtain ⟨i, hi, rfl⟩ := mem_map.mp hn
    exact inLimits_letter (mem_range.mp hi)
  · refine answers_eq_none (nodup_letters (Nat.le_refl _))
      (fun _ _ hm => absurd hm (Finset.notMem_empty _)) rfl ?_ ?_
    · exact Nat.zero_le _
    · rw [length_map, length_range]
      decide

end Stplr
