import Stplr.Equiv.Lmdb

/-!
# Expiry times and their objects

Both stores keep the expiry times in a table of their own.  In the in-memory store every operation
leaves them in step with the objects (`MemoryStore.Owned.onMemory`).

In the durable store all calls do (`Preserves.onLmdb`): while its guard is down there is no expiry
time at all (`Kept.guard`), and otherwise a call that removes an object removes its expiry time as
well.  `clear_collection` does not (`owned_clearCollection_iff`).  `expiries_owned_iff` says this of
whole histories, together with what the invariant gives: no expiry time is found for an absent key,
and a sweep counts the objects it removes.
-/

namespace Stplr

open Lib List LmdbStore Nested IndexStore
open Prod (ext fst mk)
open Option (bind_eq_some_iff isSome_iff_ne_none map_eq_some_iff some)

/-! ### The in-memory store -/

namespace MemoryStore

/-- Every expiry time is that of an object. -/
def Owned (t : MemoryStore) : Prop := ∀ c k, (t.expiry.get c k).isSome → (t.objects.get c k).isSome

variable {t : MemoryStore}

namespace Owned

theorem new : MemoryStore.new.Owned := by
  intro c k h
  change ((∅ : Nested String ℕ).get c k).isSome at h
  rw [get_empty] at h
  cases h

theorem putObject (h : t.Owned) (c k : String) (v : Value) :
    (putObject t c k v).Owned := by
  intro c' k' he
  change ((t.expiry.erase c k).get c' k').isSome at he
  change ((t.objects.insert c k v).get c' k').isSome
  rw [get_erase] at he
  rw [get_insert]
  split_ifs at he ⊢
  · cases he
  · exact h c' k' he

theorem putObjectAt (h : t.Owned) (c k : String) (v : Value) (e : ℕ) :
    (putObjectAt t c k v e).Owned := by
  intro c' k' he
  change ((t.expiry.insert c k e).get c' k').isSome at he
  change ((t.objects.insert c k v).get c' k').isSome
  rw [get_insert] at he ⊢
  split_ifs at he ⊢
  · rfl
  · exact h c' k' he

theorem deleteObject (h : t.Owned) (c k : String) : (deleteObject t c k).Owned := by
  intro c' k' he
  change ((t.expiry.erase c k).get c' k').isSome at he
  change ((t.objects.erase c k).get c' k').isSome
  rw [get_erase] at he ⊢
  split_ifs at he ⊢
  · cases he
  · exact h c' k' he

theorem clearCollection (h : t.Owned) (c : String) : (clearCollection t c).Owned := by
  intro c' k' he
  change (get (AList.erase c t.expiry) c' k').isSome at he
  change (get (AList.erase c t.objects) c' k').isSome
  rw [get_erase_outer] at he ⊢
  split_ifs at he ⊢
  · cases he
  · exact h c' k' he

theorem putBatch (items : List (String × String × Value)) : ∀ {t : MemoryStore}, t.Owned →
    (putBatch t items).Owned := by
  induction items with
  | nil => exact fun h => h
  | cons item items ih => exact fun h => ih (h.putObject _ _ _)

theorem deleteAll (dead : List (String × String)) : ∀ {t : MemoryStore}, t.Owned →
    (dead.foldl (fun t d => IndexStore.deleteObject t d.1 d.2) t).Owned := by
  induction dead with
  | nil => exact fun h => h
  | cons d dead ih => exact fun h => ih (h.deleteObject _ _)

theorem update {α : Type} (h : t.Owned) (now : ℕ) (c k : String)
    (f : Option Value → Change × α) : (IndexStore.update now t c k f).1.Owned := by
  unfold IndexStore.update
  dsimp only
  cases (f (IndexStore.getObject now t c k)).1 with
  | keep => exact h
  | put v => exact h.putObject c k v
  | delete => exact h.deleteObject c k

/-- No operation leaves an expiry time without its object. -/
theorem onMemory (h : t.Owned) (now : ℕ) (op : StoreOp) : (op.onMemory now t).Owned := by
  cases op with
  | clearCollection c => exact h.clearCollection c
  | call call =>
    cases call with
    | putObject c k v => exact h.putObject c k v
    | putObjectAt c k v e => exact h.putObjectAt c k v _
    | putBatch items => exact putBatch items h
    | deleteObject c k => exact h.deleteObject c k
    | sweepExpired nowMs => exact deleteAll _ h
    | cas | incr | setAdd | setRemove => exact h.update now _ _ _
    | getObject | mget | scanEntries | expiryOf | setMembers | reopen => exact h

theorem runOps (ops : List (ℕ × StoreOp)) : ∀ {t : MemoryStore}, t.Owned → (t.runOps ops).Owned := by
  induction ops with
  | nil => exact fun h => h
  | cons op ops ih => exact fun h => ih (h.onMemory op.1 op.2)

theorem expiryOf_eq_none (h : t.Owned) {c k : String} (hnone : t.objects.get c k = none) :
    expiryOf t c k = none := by
  change t.expiry.get c k = none
  rw [← Option.not_isSome_iff_eq_none]
  intro he
  have hobj := h c k he
  rw [hnone] at hobj
  cases hobj

/-- A sweep counts the objects that it removes. -/
theorem sweepExpired_count (h : t.Owned) (now : ℕ) : (sweepExpired t now).2
    = (t.objects.cells \ (sweepExpired t now).1.objects.cells).card := by
  have hremoved : t.objects.cells \ (sweepExpired t now).1.objects.cells
      = (t.deadKeys now).toFinset := by
    ext ⟨c, k⟩
    have hget : (sweepExpired t now).1.objects.get c k
        = if (c, k) ∈ t.deadKeys now then none else t.objects.get c k :=
      (get_foldl_deleteObject (t.deadKeys now) c k t).1
    rw [Finset.mem_sdiff, mem_cells, mem_cells, hget, mem_toFinset]
    split_ifs with hdead
    · obtain ⟨e, he, -⟩ := mem_deadKeys.mp hdead
      simp [hdead, h c k (by rw [he]; rfl)]
    · exact iff_of_false (fun hc => hc.2 hc.1) hdead
  rw [hremoved, toFinset_card_of_nodup (nodup_deadKeys t now)]
  rfl

end Owned

end MemoryStore

/-! ### The durable store -/

namespace LmdbStore

variable {T : Type}

/-- In these contents every expiry time is that of an object. -/
def OwnedIn (g : String → String → Option T) : Prop :=
  ∀ key, (g expDb key).isSome → ∃ c k, splitOnce '\x00' key = some (c, k) ∧ (g (objDb c) k).isSome

/-- Every expiry time on disk is that of an object on disk. -/
def Owned (s : LmdbStore T) : Prop := OwnedIn s.disk.get

namespace OwnedIn

variable {g : String → String → Option T} {c k : String}

theorem of_empty (h : ∀ key, g expDb key = none) : OwnedIn g := by
  intro key hkey
  rw [h] at hkey
  cases hkey

theorem putObj (h : OwnedIn g) (c k : String) (x : T) : OwnedIn (write g (objDb c) k (some x)) := by
  intro key hkey
  rw [write_obj_expDb] at hkey
  obtain ⟨c', k', hsplit, hobj⟩ := h key hkey
  refine ⟨c', k', hsplit, ?_⟩
  rw [write]
  split_ifs
  · rfl
  · exact hobj

theorem clear (h : OwnedIn g) (key : String) : OwnedIn (write g expDb key none) := by
  intro key' hkey
  rw [write] at hkey
  split_ifs at hkey
  · cases hkey
  · obtain ⟨c, k, hsplit, hobj⟩ := h key' hkey
    exact ⟨c, k, hsplit, by rwa [write_expDb_obj]⟩

theorem putExp (h : OwnedIn g) (hc : NulFree c) (hobj : (g (objDb c) k).isSome) (x : T) :
    OwnedIn (write g expDb (expKey c k) (some x)) := by
  intro key hkey
  rw [write] at hkey
  split_ifs at hkey with hhere
  · refine ⟨c, k, ?_, by rwa [write_expDb_obj]⟩
    rw [hhere.2]
    exact splitOnce_expKey hc k
  · obtain ⟨c', k', hsplit, hobj'⟩ := h key hkey
    exact ⟨c', k', hsplit, by rwa [write_expDb_obj]⟩

/-- An object goes together with its expiry time. -/
theorem delete (h : OwnedIn g) (c k : String) :
    OwnedIn (write (write g (objDb c) k none) expDb (expKey c k) none) := by
  intro key hkey
  rw [write] at hkey
  split_ifs at hkey with hhere
  · cases hkey
  · rw [write_obj_expDb] at hkey
    obtain ⟨c', k', hsplit, hobj⟩ := h key hkey
    refine ⟨c', k', hsplit, ?_⟩
    -- the object that goes has `key` as its expiry key, which goes too
    have hne : ¬(objDb c' = objDb c ∧ k' = k) := by
      rintro ⟨hc', rfl⟩
      rw [objDb_inj] at hc'
      rw [hc'] at hsplit
      exact hhere ⟨rfl, (splitOnce_eq_some hsplit).1⟩
    rwa [write_expDb_obj, write, if_neg hne]

end OwnedIn

/-- LMDB has taken the names on disk, and the handles are of sub-databases on disk. -/
structure Sane (s : LmdbStore T) : Prop where
  names : ∀ name ∈ s.disk, ValidName name
  dbs : ∀ name ∈ s.dbs, name ∈ s.disk

/-- What holds in all stores: while the guard is down there is no expiry time. -/
structure Kept (s : LmdbStore T) : Prop extends Sane s where
  guard : s.hasAnyTtl = false → ∀ key, s.disk.get expDb key = none

/-- A step from `s` to `s'` keeps what holds in all stores and the expiry times owned. -/
def Preserves (s s' : LmdbStore T) : Prop := s.Kept → s'.Kept ∧ (s.Owned → s'.Owned)

variable {s s' s'' : LmdbStore T}

theorem Preserves.refl (s : LmdbStore T) : Preserves s s := fun h => ⟨h, id⟩

theorem Preserves.trans (h : Preserves s s') (h' : Preserves s' s'') : Preserves s s'' := by
  intro hk
  obtain ⟨hk', ho⟩ := h hk
  obtain ⟨hk'', ho'⟩ := h' hk'
  exact ⟨hk'', ho' ∘ ho⟩

theorem Sane.opened (h : s.Sane) (hopened : Opened s s') : s'.Sane where
  names := by
    rw [hopened.disk]
    exact h.names
  dbs name hn := by
    rw [hopened.disk]
    exact (hopened.dbs name hn).elim (h.dbs name) id

theorem Opened.preserves (h : Opened s s') : Preserves s s' := by
  intro hk
  refine ⟨⟨hk.opened h, ?_⟩, ?_⟩
  · rw [h.disk, h.flag]
    exact hk.guard
  · rw [Owned, Owned, h.disk]
    exact id

/-! #### The writes on disk -/

theorem ValidName.nulFree {c : String} (h : ValidName (objDb c)) : NulFree c := by
  intro hc
  refine h.2 ?_
  rw [objDb, String.toList_append]
  exact mem_append_right _ hc

section Writes

variable {name key c k : String}

theorem Sane.db (h : s.Sane) (hdb : s.db name = some s') :
    s'.Sane ∧ ValidName name ∧ name ∈ s'.disk := by
  have hcreated := db_created hdb
  have hvalid : ValidName name := hcreated.valid.elim (fun hn => h.names _ (h.dbs _ hn)) id
  have hmem : name ∈ s'.disk := by
    rw [hcreated.disk]
    by_cases hn : name ∈ s.dbs
    · exact .inl (h.dbs _ hn)
    · exact .inr ⟨rfl, hn⟩
  refine ⟨⟨fun n hn => ?_, fun n hn => ?_⟩, hvalid, hmem⟩
  · rcases (hcreated.disk n).mp hn with hn | ⟨rfl, -⟩
    · exact h.names n hn
    · exact hvalid
  · rw [hcreated.dbs] at hn
    rcases Finset.mem_insert.mp hn with rfl | hn
    · exact hmem
    · exact (hcreated.disk n).mpr (.inl (h.dbs n hn))

theorem Sane.insert (h : s.Sane) (hname : name ∈ s.disk) (key : String) (x : T) :
    Sane { s with disk := s.disk.insert name key x } where
  names n hn := by
    rcases (mem_insert ..).mp hn with rfl | hn
    · exact h.names _ hname
    · exact h.names n hn
  dbs n hn := (mem_insert ..).mpr (.inr (h.dbs n hn))

theorem Sane.erase (h : s.Sane) (name key : String) :
    Sane { s with disk := s.disk.erase name key } where
  names n hn := h.names n ((mem_erase ..).mp hn)
  dbs n hn := (mem_erase ..).mpr (h.dbs n hn)

theorem Sane.putStr {x : T} (h : s.Sane) (hput : s.putStr name key x = some s') :
    s'.Sane ∧ ValidName name ∧ s'.disk.get = write s.disk.get name key (some x) ∧
      s'.hasAnyTtl = s.hasAnyTtl := by
  obtain ⟨s₁, hdb, hput⟩ := bind_eq_some_iff.mp hput
  obtain ⟨hs₁, hvalid, hmem⟩ := h.db hdb
  have hcreated := db_created hdb
  split_ifs at hput
  obtain rfl := some.inj hput
  refine ⟨hs₁.insert hmem key x, hvalid, ?_, hcreated.flag⟩
  rw [← hcreated.get]
  exact get_insert_eq_write ..

theorem Sane.clearExpiry (h : s.Sane) (hclear : s.clearExpiry c k = some s') :
    s'.Sane ∧ s'.disk.get = write s.disk.get expDb (expKey c k) none ∧
      s'.hasAnyTtl = s.hasAnyTtl := by
  obtain ⟨s₁, hdb, hclear⟩ := bind_eq_some_iff.mp hclear
  have hcreated := db_created hdb
  obtain rfl := some.inj hclear
  refine ⟨(h.db hdb).1.erase _ _, ?_, hcreated.flag⟩
  rw [← hcreated.get]
  exact get_erase_eq_write ..

/-- The object may stay, when its sub-database cannot be opened. -/
theorem Sane.eraseObject (h : s.Sane) (herase : s.eraseObject c k = some s') :
    s'.Sane ∧ (s'.disk.get = write s.disk.get (objDb c) k none ∨ s'.disk.get = s.disk.get) ∧
      s'.hasAnyTtl = s.hasAnyTtl := by
  have hopened := readDb_opened s (objDb c)
  unfold LmdbStore.eraseObject at herase
  dsimp only at herase
  split_ifs at herase
  · obtain rfl := some.inj herase
    refine ⟨(h.opened hopened).erase _ _, .inl ?_, hopened.flag⟩
    rw [← hopened.disk]
    exact get_erase_eq_write ..
  · obtain rfl := some.inj herase
    exact ⟨h.opened hopened, .inr (congrArg get hopened.disk), hopened.flag⟩

end Writes

/-! #### The calls -/

section Calls

variable {c k : String} {d : String × String × String}

theorem Preserves.deleteObject (h : s.deleteObject c k = some s') : Preserves s s' := by
  intro hk
  obtain ⟨s₁, herase, h⟩ := bind_eq_some_iff.mp h
  obtain ⟨hs₁, hget, hflag⟩ := hk.eraseObject herase
  have hexp : ∀ key, s₁.disk.get expDb key = s.disk.get expDb key := by
    intro key
    rcases hget with hget | hget
    · rw [hget, write_obj_expDb]
    · rw [hget]
  split_ifs at h with hup
  · obtain ⟨hs', hget', hflag'⟩ := hs₁.clearExpiry h
    refine ⟨⟨hs', fun hdown => ?_⟩, fun ho => ?_⟩
    · rw [hflag', hup] at hdown
      cases hdown
    · rw [Owned, hget']
      rcases hget with hget | hget
      · rw [hget]
        exact ho.delete c k
      · rw [hget]
        exact ho.clear _
  · -- the guard is down, so there is no expiry time to go with the object
    obtain rfl := some.inj h
    have hempty : ∀ key, s₁.disk.get expDb key = none := fun key =>
      (hexp key).trans (hk.guard (hflag.symm.trans (Bool.eq_false_iff.mpr hup)) key)
    exact ⟨⟨hs₁, fun _ => hempty⟩, fun _ => OwnedIn.of_empty hempty⟩

theorem Preserves.db {name : String} (h : s.db name = some s') : Preserves s s' := by
  intro hk
  have hcreated := db_created h
  refine ⟨⟨(hk.db h).1, ?_⟩, ?_⟩
  · rw [hcreated.get, hcreated.flag]
    exact hk.guard
  · rw [Owned, Owned, hcreated.get]
    exact id

/-- A loop whose steps preserve. -/
theorem Preserves.foldlM {α : Type} {f : LmdbStore T → α → Option (LmdbStore T)}
    (hf : ∀ s a s', f s a = some s' → Preserves s s') (l : List α) : ∀ {s : LmdbStore T},
    l.foldlM f s = some s' → Preserves s s' := by
  induction l with
  | nil =>
    intro s h
    obtain rfl := some.inj h
    exact .refl s
  | cons a l ih =>
    intro s h
    rw [foldlM_cons] at h
    obtain ⟨s₁, hs₁, h⟩ := bind_eq_some_iff.mp h
    exact (hf s a s₁ hs₁).trans (ih h)

theorem Preserves.sweepOne (s : LmdbStore T) (hd : d.1 = expKey d.2.1 d.2.2) :
    Preserves s (s.sweepOne d) := by
  intro hk
  have hopened := readDb_opened s (objDb d.2.1)
  have hsane : (s.sweepOne d).Sane := by
    refine ⟨fun n hn => hk.names n ((mem_sweepOne ..).mp hn), fun n hn => (mem_sweepOne ..).mpr ?_⟩
    rw [sweepOne_dbs] at hn
    exact (hopened.dbs n hn).elim (hk.dbs n) id
  refine ⟨⟨hsane, fun hdown key => ?_⟩, fun ho => ?_⟩
  · have hnone := hk.guard ((sweepOne_flag s d).symm.trans hdown) key
    rw [get_sweepOne]
    split_ifs
    · rw [write, write_obj_expDb, hnone, ite_self]
    · exact hnone
  · rw [Owned, get_sweepOne]
    split_ifs
    · rw [hd]
      exact ho.delete _ _
    · exact ho

/-- The guard is recovered from the expiry times. -/
theorem Preserves.reopen (s : LmdbStore T) : Preserves s s.reopen := by
  intro hk
  refine ⟨⟨⟨hk.names, fun name hn => absurd hn (Finset.notMem_empty name)⟩, fun hdown key => ?_⟩, id⟩
  have hnil : s.disk.entries expDb = [] := by simpa [LmdbStore.reopen] using hdown
  exact get_eq_none hnil key

theorem Kept.new : (LmdbStore.new : LmdbStore T).Kept :=
  ⟨⟨fun _ hn => absurd hn (AList.notMem_empty _), fun _ hn => absurd hn (Finset.notMem_empty _)⟩,
    fun _ _ => get_empty ..⟩

theorem Owned.new : (LmdbStore.new : LmdbStore T).Owned := OwnedIn.of_empty fun _ => get_empty ..

/-! #### `clear_collection` -/

/-- The collection has no expiry time, or its sub-database cannot be opened. -/
def Spares (s : LmdbStore T) (c : String) : Prop :=
  (s.readDb (objDb c)).2 = true → ∀ k, s.disk.get expDb (expKey c k) = none

theorem get_clearCollection (s : LmdbStore T) (c n k : String) :
    (s.clearCollection c).disk.get n k
      = if (s.readDb (objDb c)).2 = true ∧ n = objDb c then none else s.disk.get n k := by
  have hopened := readDb_opened s (objDb c)
  unfold clearCollection
  dsimp only
  by_cases hr : (s.readDb (objDb c)).2 = true
  · rw [if_pos hr]
    dsimp only
    rw [get_clear, hopened.disk]
    simp only [hr, true_and]
  · rw [if_neg hr, hopened.disk, if_neg fun h => hr h.1]

theorem get_clearCollection_expDb (s : LmdbStore T) (c key : String) :
    (s.clearCollection c).disk.get expDb key = s.disk.get expDb key := by
  rw [get_clearCollection, if_neg fun he => objDb_ne_expDb c he.2.symm]

theorem Kept.clearCollection (h : s.Kept) (c : String) : (s.clearCollection c).Kept := by
  have hopened := readDb_opened s (objDb c)
  have hsane := h.opened hopened
  have hflag : (s.clearCollection c).hasAnyTtl = s.hasAnyTtl := by
    unfold LmdbStore.clearCollection
    dsimp only
    split_ifs <;> exact hopened.flag
  have hsane' : (s.clearCollection c).Sane := by
    unfold LmdbStore.clearCollection
    dsimp only
    split_ifs
    · exact ⟨fun n hn => hsane.names n ((mem_clear ..).mp hn),
        fun n hn => (mem_clear ..).mpr (hsane.dbs n hn)⟩
    · exact hsane
  refine ⟨hsane', fun hdown key => ?_⟩
  rw [get_clearCollection_expDb]
  exact h.guard (hflag.symm.trans hdown) key

/-- A collection whose sub-database is there has no NUL in its name. -/
theorem Sane.nulFree (h : s.Sane) (hr : (s.readDb (objDb c)).2 = true) : NulFree c := by
  have hmem : objDb c ∈ s.disk := by
    unfold readDb at hr
    split_ifs at hr with hopen hcan
    · exact h.dbs _ hopen
    · exact hcan.1
  exact (h.names _ hmem).nulFree

/-- The objects go and their expiry times stay. -/
theorem owned_clearCollection_iff (hs : s.Sane) (ho : s.Owned) (c : String) :
    (s.clearCollection c).Owned ↔ s.Spares c := by
  constructor
  · -- an expiry time that stays has lost its object
    intro howned hr k
    by_contra hk
    obtain ⟨c', k', hsplit, hobj⟩ := howned (expKey c k)
      (by rw [get_clearCollection_expDb]; exact isSome_iff_ne_none.mpr hk)
    rw [splitOnce_expKey (hs.nulFree hr)] at hsplit
    obtain ⟨rfl, rfl⟩ := Prod.mk.inj (some.inj hsplit)
    rw [get_clearCollection, if_pos ⟨hr, rfl⟩] at hobj
    cases hobj
  · intro hspares key hkey
    rw [get_clearCollection_expDb] at hkey
    obtain ⟨c', k, hsplit, hobj⟩ := ho key hkey
    refine ⟨c', k, hsplit, ?_⟩
    rw [get_clearCollection, if_neg]
    · exact hobj
    · -- an object that goes would have an expiry time in the collection
      rintro ⟨hr, hc⟩
      rw [objDb_inj.mp hc] at hsplit
      rw [(splitOnce_eq_some hsplit).1, hspares hr k] at hkey
      cases hkey

/-- The objects on disk, each by its sub-database and its key. -/
def objects (s : LmdbStore T) : Finset (String × String) := s.disk.cells.filter fun p => p.1 ≠ expDb

theorem mem_objects {p : String × String} :
    p ∈ s.objects ↔ p.1 ≠ expDb ∧ (s.disk.get p.1 p.2).isSome := by
  rw [objects, Finset.mem_filter, mem_cells, and_comm]

/-- While there is room in the table the object goes, if it is there. -/
theorem get_sweepOne_obj (hroom : objDb d.2.1 ∈ s.disk → objDb d.2.1 ∉ s.dbs → s.dbs.card < maxDbs)
    {n : String} (hn : n ≠ expDb) (k : String) :
    (s.sweepOne d).disk.get n k = write s.disk.get (objDb d.2.1) d.2.2 none n k := by
  rw [get_sweepOne]
  split_ifs with hr
  · rw [write, if_neg fun he => hn he.1]
  · have hnone : s.disk.get (objDb d.2.1) d.2.2 = none := by
      by_contra hsome
      obtain ⟨x, hx⟩ := Option.ne_none_iff_exists'.mp hsome
      exact notMem_of_readDb hroom (Bool.eq_false_iff.mpr hr) (mem_of_get hx)
    rw [write_eq_self hnone]

/-- In a table with room for all sub-databases `N`, every dead entry of a sweep takes its object. -/
theorem mem_objects_sweep {N : Finset String} (hN : N.card ≤ maxDbs)
    (dead : List (String × String × String)) (p : String × String) : ∀ s : LmdbStore T,
    (∀ n ∈ s.disk, n ∈ N) → s.dbs ⊆ N → (p ∈ (dead.foldl sweepOne s).objects ↔
      p ∈ s.objects ∧ ∀ d ∈ dead, p ≠ (objDb d.2.1, d.2.2)) := by
  induction dead with
  | nil => simp
  | cons d dead ih =>
    intro s hnames hdbs
    have hopened := readDb_opened s (objDb d.2.1)
    have hroom : objDb d.2.1 ∈ s.disk → objDb d.2.1 ∉ s.dbs → s.dbs.card < maxDbs := by
      intro hdisk hnew
      exact (Finset.card_lt_card ⟨hdbs, fun hsub => hnew (hsub (hnames _ hdisk))⟩).trans_le hN
    have hdisk : ∀ n ∈ (s.sweepOne d).disk, n ∈ N := fun n hn => hnames n ((mem_sweepOne ..).mp hn)
    have hdbs' : (s.sweepOne d).dbs ⊆ N := by
      intro n hn
      rw [sweepOne_dbs] at hn
      exact (hopened.dbs n hn).elim (fun hn => hdbs hn) (hnames n)
    have hone : p ∈ (s.sweepOne d).objects ↔ p ∈ s.objects ∧ p ≠ (objDb d.2.1, d.2.2) := by
      rw [mem_objects, mem_objects, and_assoc]
      refine and_congr_right fun hp => ?_
      rw [get_sweepOne_obj hroom hp, write]
      by_cases hhere : p.1 = objDb d.2.1 ∧ p.2 = d.2.2
      · rw [if_pos hhere]
        exact iff_of_false (by simp) fun h => h.2 (ext hhere.1 hhere.2)
      · rw [if_neg hhere]
        exact (and_iff_left fun he => hhere (Prod.mk.inj he)).symm
    rw [foldl_cons, ih _ hdisk hdbs', hone, forall_mem_cons, and_assoc]

/-! #### Calls that look at values -/

variable [Text T] {v : Value} {b : Bool} {now : ℕ} {m : String}

theorem Preserves.putObject (h : s.putObject c k v = some s') : Preserves s s' := by
  intro hk
  obtain ⟨s₁, hput, h⟩ := bind_eq_some_iff.mp h
  obtain ⟨hs₁, -, hget, hflag⟩ := hk.putStr hput
  have howned : s.Owned → s₁.Owned := by
    intro ho
    rw [Owned, hget]
    exact ho.putObj c k _
  split_ifs at h with hup
  · obtain ⟨hs', hget', hflag'⟩ := hs₁.clearExpiry h
    refine ⟨⟨hs', fun hdown => ?_⟩, fun ho => ?_⟩
    · rw [hflag', hup] at hdown
      cases hdown
    · rw [Owned, hget']
      exact (howned ho).clear _
  · obtain rfl := some.inj h
    refine ⟨⟨hs₁, fun hdown key => ?_⟩, howned⟩
    rw [hget, write_obj_expDb]
    exact hk.guard (hflag.symm.trans hdown) key

theorem Preserves.putObjectAt {e : UInt64} (h : s.putObjectAt c k v e = some s') :
    Preserves s s' := by
  intro hk
  obtain ⟨s₁, hput, h⟩ := bind_eq_some_iff.mp h
  obtain ⟨s₂, hput', h⟩ := bind_eq_some_iff.mp h
  obtain rfl := some.inj h
  obtain ⟨hs₁, hvalid, hget, -⟩ := hk.putStr hput
  obtain ⟨hs₂, -, hget', -⟩ := hs₁.putStr hput'
  refine ⟨⟨⟨hs₂.names, hs₂.dbs⟩, fun hdown => by cases hdown⟩, fun ho => ?_⟩
  change OwnedIn s₂.disk.get
  rw [hget', hget]
  refine (ho.putObj c k _).putExp hvalid.nulFree ?_ _
  rw [write, if_pos ⟨rfl, rfl⟩]
  rfl

theorem Preserves.putItem {ttl : Bool} {item : String × String × Value}
    (h : LmdbStore.putItem ttl s item = some s') : Preserves s s' := by
  intro hk
  obtain ⟨c, k, v⟩ := item
  unfold LmdbStore.putItem at h
  dsimp only at h
  split_ifs at h with hopen hup hexp
  · obtain rfl := some.inj h
    have hget : ((s.disk.insert (objDb c) k (Text.ofValue v)).erase expDb (expKey c k)).get
        = write (write s.disk.get (objDb c) k (some (Text.ofValue v))) expDb (expKey c k) none := by
      rw [get_erase_eq_write, get_insert_eq_write]
    refine ⟨⟨(hk.insert (hk.dbs _ hopen.1) _ _).erase _ _, fun hdown key => ?_⟩, fun ho => ?_⟩
    · change get (erase _ _ _) _ _ = _
      rw [hget, write, write_obj_expDb, hk.guard hdown key, ite_self]
    · change OwnedIn (get (erase _ _ _))
      rw [hget]
      exact (ho.putObj c k _).clear _
  · obtain rfl := some.inj h
    refine ⟨⟨hk.insert (hk.dbs _ hopen.1) _ _, fun hdown key => ?_⟩, fun ho => ?_⟩
    · change get (insert _ _ _ _) _ _ = _
      rw [get_insert_eq_write, write_obj_expDb]
      exact hk.guard hdown key
    · change OwnedIn (get (insert _ _ _ _))
      rw [get_insert_eq_write]
      exact ho.putObj c k _

theorem Preserves.putBatch {items : List (String × String × Value)}
    (h : s.putBatch items = some s') : Preserves s s' := by
  unfold LmdbStore.putBatch at h
  split_ifs at h
  · obtain rfl := some.inj h
    exact .refl s
  · obtain ⟨s₁, hs₁, h⟩ := bind_eq_some_iff.mp h
    obtain ⟨s₂, hs₂, h⟩ := bind_eq_some_iff.mp h
    have hopen : Preserves s₁ s₂ := by
      unfold openExpiry at hs₂
      split_ifs at hs₂
      · exact .db hs₂
      · obtain rfl := some.inj hs₂
        exact .refl _
    have hhandles := Preserves.foldlM (fun _ _ _ => Preserves.db) items hs₁
    have hitems := Preserves.foldlM (fun _ _ _ => Preserves.putItem) items h
    exact (hhandles.trans hopen).trans hitems

theorem Preserves.sweepExpired (s : LmdbStore T) (now : ℕ) :
    Preserves s (s.sweepExpired now).1 := by
  have hloop : ∀ (dead : List (String × String × String)), (∀ d ∈ dead, d.1 = expKey d.2.1 d.2.2) →
      ∀ s : LmdbStore T, Preserves s (dead.foldl LmdbStore.sweepOne s) := by
    intro dead
    induction dead with
    | nil => exact fun _ s => .refl s
    | cons d dead ih =>
      intro hdead s
      exact (Preserves.sweepOne s (hdead d (mem_cons_self ..))).trans
        (ih (fun d' hd' => hdead d' (mem_cons_of_mem _ hd')) _)
  unfold LmdbStore.sweepExpired
  dsimp only
  split_ifs
  · have hentries : Opened s ((s.readDb expDb).1.entries expDb).1 :=
      (readDb_opened s expDb).trans (readDb_opened ..)
    refine hentries.preserves.trans (hloop _ (fun d hd => ?_) _)
    obtain ⟨v, e, -, -, -, hsplit⟩ := mem_deadEntries_iff.mp hd
    exact (splitOnce_eq_some hsplit).1
  · exact (readDb_opened s expDb).preserves
  · exact .refl s

theorem Preserves.update {α : Type} {f : Option Value → Change × α} {a : α}
    (h : s.update now c k f = some (s', a)) : Preserves s s' := by
  have hread := (getObject_opened now s c k).preserves
  obtain ⟨s₁, hchange, heq⟩ := map_eq_some_iff.mp h
  obtain rfl := congrArg fst heq
  refine hread.trans ?_
  cases hf : (f (s.getObject now c k).2).1 with
  | keep =>
    rw [hf] at hchange
    exact some.inj hchange ▸ .refl _
  | put v =>
    rw [hf] at hchange
    exact .putObject hchange
  | delete =>
    rw [hf] at hchange
    exact .deleteObject hchange

/-- No call leaves an expiry time without its object. -/
theorem Preserves.onLmdb {now : ℕ} {call : StoreCall} {answer : StoreAnswer}
    (h : call.onLmdb now s = some (s', answer)) : Preserves s s' := by
  have hwritten : ∀ {o : Option (LmdbStore T)},
      (o.map fun s => (s, StoreAnswer.done)) = some (s', answer) → o = some s' := by
    intro o ho
    obtain ⟨s₁, hs₁, heq⟩ := map_eq_some_iff.mp ho
    obtain rfl := congrArg fst heq
    exact hs₁
  have hanswered : ∀ {α : Type} {f : α → StoreAnswer} {o : Option (LmdbStore T × α)},
      (o.map fun r => r.map id f) = some (s', answer) → ∃ a, o = some (s', a) := by
    intro α f o ho
    obtain ⟨⟨s₁, a⟩, hs₁, heq⟩ := map_eq_some_iff.mp ho
    obtain rfl := congrArg fst heq
    exact ⟨a, hs₁⟩
  have hread : ∀ {r : LmdbStore T × StoreAnswer}, Preserves s r.1 →
      some r = some (s', answer) → Preserves s s' := by
    intro r hr heq
    rwa [some.inj heq] at hr
  cases call with
  | putObject c k v => exact .putObject (hwritten h)
  | putObjectAt c k v e => exact .putObjectAt (hwritten h)
  | putBatch items => exact .putBatch (hwritten h)
  | deleteObject c k => exact .deleteObject (hwritten h)
  | cas | incr | setAdd | setRemove =>
    obtain ⟨a, ha⟩ := hanswered h
    exact .update ha
  | sweepExpired nowMs => exact hread (.sweepExpired s nowMs) h
  | reopen => exact hread (.reopen s) h
  | getObject c k | setMembers c k => exact hread (getObject_opened now s c k).preserves h
  | mget c ks => exact hread (mget_opened now c ks s).preserves h
  | scanEntries c => exact hread (scanEntries_opened now s c).preserves h
  | expiryOf c k => exact hread (readDb_opened s expDb).preserves h

/-! #### Histories -/

/-- What an operation keeps: `clear_collection` the expiry times of the objects only under a
condition. -/
theorem Kept.onLmdb {now : ℕ} {op : StoreOp} (hk : s.Kept) (h : op.onLmdb now s = some s') :
    s'.Kept ∧ (s.Owned → (s'.Owned ↔ ∀ c, op = .clearCollection c → s.Spares c)) := by
  cases op with
  | call call =>
    obtain ⟨⟨s₁, answer⟩, hcall, rfl⟩ := map_eq_some_iff.mp h
    obtain ⟨hk', ho'⟩ := Preserves.onLmdb hcall hk
    exact ⟨hk', fun ho => iff_of_true (ho' ho) fun c hc => by cases hc⟩
  | clearCollection c =>
    obtain rfl := some.inj h
    refine ⟨hk.clearCollection c, fun ho => ?_⟩
    rw [owned_clearCollection_iff hk.toSane ho]
    exact ⟨fun hspares c' hc' => by cases hc'; exact hspares, fun hspares => hspares c rfl⟩

theorem Kept.runOps {ops : List (ℕ × StoreOp)} (h : LmdbStore.new.runOps ops = some s) : s.Kept :=
  exec_invariant (fun _ _ _ hk hstep => (hk.onLmdb hstep).1) Kept.new h

/-- All states on the way own their expiry times, as long as `clear_collection` spares them. -/
theorem owned_runOps_iff (ops : List (ℕ × StoreOp)) :
    (∀ pre, pre <+: ops → ∀ s : LmdbStore T, LmdbStore.new.runOps pre = some s → s.Owned) ↔
      ∀ pre now c, pre ++ [(now, .clearCollection c)] <+: ops → ∀ s : LmdbStore T,
        LmdbStore.new.runOps pre = some s → s.Spares c := by
  constructor
  · intro howned pre now c hpre s hs
    have ho := howned pre ((prefix_append ..).trans hpre) s hs
    have hclear : new.runOps (pre ++ [(now, .clearCollection c)])
        = some (s.clearCollection c) := exec_concat_eq_some.mpr ⟨s, hs, rfl⟩
    exact (owned_clearCollection_iff (Kept.runOps hs).toSane ho c).mp (howned _ hpre _ hclear)
  · intro hspares pre hpre s hs
    refine exec_induction (P := fun pre s => pre <+: ops → s.Owned) (fun _ => Owned.new) ?_ hs hpre
    intro pre s op s' hs ho hop hpre
    have ho := ho ((prefix_append ..).trans hpre)
    refine (((Kept.runOps hs).onLmdb hop).2 ho).mpr fun c hc => ?_
    obtain ⟨now, op⟩ := op
    cases hc
    exact hspares pre now c hpre s hs

/-! #### What the invariant gives -/

theorem Owned.expiryOf_eq_none (h : s.Owned) (hc : NulFree c)
    (hnone : s.disk.get (objDb c) k = none) : (s.expiryOf c k).2 = none := by
  have hget : s.disk.get expDb (expKey c k) = none := by
    by_contra hk
    obtain ⟨c', k', hsplit, hobj⟩ := h _ (isSome_iff_ne_none.mpr hk)
    rw [splitOnce_expKey hc] at hsplit
    obtain ⟨rfl, rfl⟩ := Prod.mk.inj (some.inj hsplit)
    rw [hnone] at hobj
    cases hobj
  unfold expiryOf readExpiry
  dsimp only
  rw [(readDb_opened s expDb).disk, hget]
  split_ifs <;> rfl

theorem of_mem_entries {name key : String} (h : (key, v) ∈ (s.entries name).2) :
    (s.disk.get name key).isSome := by
  unfold entries at h
  dsimp only at h
  rw [(readDb_opened s name).disk] at h
  split_ifs at h
  · obtain ⟨⟨key', x⟩, hmem, he⟩ := mem_filterMap.mp h
    obtain ⟨v', -, heq⟩ := map_eq_some_iff.mp he
    obtain rfl := congrArg fst heq
    rw [(mem_entries ..).mp hmem]
    rfl
  · cases h

/-- The objects of the dead entries are there, and each is that of one entry. -/
theorem Owned.dead (h : s.Owned) (now : ℕ) :
    let dead := deadEntries now (s.entries expDb).2
    (∀ d ∈ dead, (objDb d.2.1, d.2.2) ∈ s.objects) ∧
      (dead.map fun d => (objDb d.2.1, d.2.2)).Nodup := by
  intro dead
  have hsplit : ∀ d ∈ dead, splitOnce '\x00' d.1 = some d.2 ∧ (s.disk.get expDb d.1).isSome := by
    intro d hd
    obtain ⟨v, e, hmem, -, -, hsplit⟩ := mem_deadEntries_iff.mp hd
    exact ⟨hsplit, of_mem_entries hmem⟩
  constructor
  · intro d hd
    obtain ⟨hsplit, hkey⟩ := hsplit d hd
    obtain ⟨c, k, hsplit', hobj⟩ := h d.1 hkey
    rw [hsplit] at hsplit'
    rw [mem_objects, some.inj hsplit']
    exact ⟨objDb_ne_expDb c, hobj⟩
  · have hnd := List.Nodup.of_map _ (nodup_deadEntries now (s.nodup_entries expDb))
    refine List.Nodup.map_on (fun d hd d' hd' heq => ?_) hnd
    obtain ⟨hc, hk⟩ := Prod.mk.inj heq
    rw [objDb_inj] at hc
    refine Prod.ext ?_ (Prod.ext hc hk)
    rw [(splitOnce_eq_some (hsplit d hd).1).1, (splitOnce_eq_some (hsplit d' hd').1).1, hc, hk]

/-- A sweep counts the objects that it removes. -/
theorem Owned.sweepExpired_count (h : s.Owned) (hs : s.Sane) (hroom : s.disk.keys.length ≤ maxDbs)
    (now : ℕ) : (s.sweepExpired now).2 = (s.objects \ (s.sweepExpired now).1.objects).card := by
  have hsame : ∀ {s' : LmdbStore T}, Opened s s' → s'.objects = s.objects := by
    intro s' hopened
    rw [objects, hopened.disk, objects]
  have hopened := readDb_opened s expDb
  unfold sweepExpired
  dsimp only
  split_ifs
  · have hread : ((s.readDb expDb).1.entries expDb) = s.entries expDb := by
      unfold entries
      rw [readDb_readDb]
    rw [hread]
    have hentries : Opened s (s.entries expDb).1 := hopened
    have hsane := hs.opened hentries
    obtain ⟨hdead, hnd⟩ := h.dead now
    generalize deadEntries now (s.entries expDb).2 = dead at hdead hnd ⊢
    have hremoved : s.objects \ (dead.foldl sweepOne (s.entries expDb).1).objects
        = (dead.map fun d => (objDb d.2.1, d.2.2)).toFinset := by
      ext p
      have hN : (s.entries expDb).1.disk.keys.toFinset.card ≤ maxDbs := by
        refine (toFinset_card_le _).trans ?_
        rwa [hentries.disk]
      have hswept := mem_objects_sweep hN dead p (s.entries expDb).1
        (fun n hn => mem_toFinset.mpr (AList.mem_keys.mp hn))
        (fun n hn => mem_toFinset.mpr (AList.mem_keys.mp (hsane.dbs n hn)))
      rw [Finset.mem_sdiff, hswept, hsame hentries, mem_toFinset, mem_map]
      constructor
      · rintro ⟨hp, hnot⟩
        by_contra hno
        exact hnot ⟨hp, fun d hd he => hno ⟨d, hd, he.symm⟩⟩
      · rintro ⟨d, hd, rfl⟩
        exact ⟨hdead d hd, fun hall => hall.2 d hd rfl⟩
    rw [hremoved, toFinset_card_of_nodup hnd, length_map]
  · rw [hsame hopened, Finset.sdiff_self, Finset.card_empty]
  · rw [Finset.sdiff_self, Finset.card_empty]

end Calls

end LmdbStore

/-! ### Both stores -/

/-- **When expiry times have objects.**  In the in-memory store they do, after all operations.  In the
durable store it is so along a history if and only if `clear_collection` is never called on a
collection that has expiry times.  A store in that state finds no expiry time for an absent key of a
collection without NUL, and as long as it has handles for all sub-databases a sweep counts the objects
that it removes. -/
theorem expiries_owned_iff {T : Type} [Text T] (ops : List (ℕ × StoreOp)) :
    (let t := MemoryStore.new.runOps ops
     t.Owned ∧ (∀ c k, t.objects.get c k = none → expiryOf t c k = none) ∧
        ∀ nowMs, (sweepExpired t nowMs).2
          = (t.objects.cells \ (sweepExpired t nowMs).1.objects.cells).card) ∧
    ((∀ pre, pre <+: ops → ∀ s : LmdbStore T, LmdbStore.new.runOps pre = some s → s.Owned) ↔
      ∀ pre now c, pre ++ [(now, .clearCollection c)] <+: ops → ∀ s : LmdbStore T,
        LmdbStore.new.runOps pre = some s → s.Spares c) ∧
    ∀ s : LmdbStore T, LmdbStore.new.runOps ops = some s → s.Owned →
      (∀ c k, LmdbStore.NulFree c → s.disk.get (LmdbStore.objDb c) k = none →
        (s.expiryOf c k).2 = none) ∧
      (s.disk.keys.length ≤ LmdbStore.maxDbs → ∀ nowMs,
        (s.sweepExpired nowMs).2 = (s.objects \ (s.sweepExpired nowMs).1.objects).card) := by
  have hmemory := MemoryStore.Owned.runOps ops MemoryStore.Owned.new
  refine ⟨⟨hmemory, fun c k => hmemory.expiryOf_eq_none, hmemory.sweepExpired_count⟩,
    LmdbStore.owned_runOps_iff ops, fun s hs ho => ⟨fun c k hc => ho.expiryOf_eq_none hc, ?_⟩⟩
  exact ho.sweepExpired_count (LmdbStore.Kept.runOps hs).toSane

/-- An object that expires and is swept, before its collection is cleared. -/
def sweptThenCleared : List (ℕ × StoreOp) :=
  [(0, .call (.putObjectAt "kv" "x" (.int 1) 10)), (5, .call (.putObject "a" "b" .null)),
    (11, .call (.sweepExpired 11)), (12, .clearCollection "kv")]

theorem expiries_owned_swept : ∀ pre, pre <+: sweptThenCleared → ∀ s : LmdbStore Value,
    LmdbStore.new.runOps pre = some s → s.Owned := by
  refine (expiries_owned_iff sweptThenCleared).2.1.mpr fun pre now c hpre s hs _ k => ?_
  -- the only `clear_collection` comes last, when there is no expiry time left
  have hlast : pre = sweptThenCleared.take 3 := by
    obtain ⟨rest, hrest⟩ := hpre
    rcases pre with _ | ⟨op₁, _ | ⟨op₂, _ | ⟨op₃, _ | ⟨op₄, pre⟩⟩⟩⟩ <;>
      simp [sweptThenCleared] at hrest ⊢
    exact ⟨hrest.1, hrest.2.1, hrest.2.2.1⟩
  have hempty : ((LmdbStore.new : LmdbStore Value).runOps (sweptThenCleared.take 3)).map
      (fun s => s.disk.entries LmdbStore.expDb) = some [] := by decide +kernel
  rw [← hlast, hs] at hempty
  exact Nested.get_eq_none (Option.some.inj hempty) _

/-- `clear_collection` leaves the expiry time of an object that is gone, and the next sweep counts an
object although there is none to remove. -/
theorem clearCollection_leaves_expiry : ∃ s : LmdbStore Value, LmdbStore.new.runOps
      [(0, .call (.putObjectAt "kv" "x" (.int 1) 10)), (1, .clearCollection "kv")] = some s ∧
    ¬s.Owned ∧ s.objects = ∅ ∧ (s.expiryOf "kv" "x").2 = some 10 ∧ (s.sweepExpired 10).2 = 1 := by
  refine exists_of_map (f := fun s => (s.objects, (s.expiryOf "kv" "x").2, (s.sweepExpired 10).2))
    (a := (∅, some 10, 1)) (by decide +kernel) fun s _ heq => ?_
  obtain ⟨hobjects, heq⟩ := Prod.mk.inj heq
  obtain ⟨hexpiry, hcount⟩ := Prod.mk.inj heq
  refine ⟨fun howned => ?_, hobjects, hexpiry, hcount⟩
  have hnone : s.disk.get (LmdbStore.objDb "kv") "x" = none := by
    by_contra hsome
    have hmem : (LmdbStore.objDb "kv", "x") ∈ s.objects := LmdbStore.mem_objects.mpr
      ⟨LmdbStore.objDb_ne_expDb "kv", Option.isSome_iff_ne_none.mpr hsome⟩
    rw [hobjects] at hmem
    exact absurd hmem (Finset.notMem_empty _)
  rw [howned.expiryOf_eq_none (by decide) hnone] at hexpiry
  cases hexpiry

/-- An expiry key does not tell where the collection ends: the expiry time of `"b\0c"` in `"a"` is also
that of `"c"` in `"a\0b"`, where there is no object. -/
example : ((LmdbStore.new : LmdbStore Value).runOps
    [(0, .call (.putObjectAt "a" "b\x00c" (.int 1) 10))]).map (fun s =>
      (s.disk.get (LmdbStore.objDb "a\x00b") "c", (s.expiryOf "a\x00b" "c").2))
    = some (none, some 10) := by
  decide +kernel

end Stplr
