import Mathlib.Data.List.TakeWhile
import Stplr.Lmdb

/-!
# The sub-databases of the durable store

A read opens handles and leaves the rest (`Opened`); `db` may also create an empty sub-database
(`Created`).

`Fits` keeps the names of the sub-databases, on disk and in the handle table, within those of a set of
collections.  As long as the table has room for all of these, every handle that is needed can be had
(`Fits.db`, `Fits.readDb`), and the writes of the store come down to changes of the contents
(`Leaves`).
-/

namespace Stplr

open Lib List Option Finset Nested

/-! ### Names and keys -/

namespace LmdbStore

/-- The name has no NUL. -/
abbrev NulFree (c : String) : Prop := '\x00' ∉ c.toList

variable {name c : String} (s : LmdbStore T)

theorem objDb_inj {c' : String} : objDb c = objDb c' ↔ c = c' := by
  constructor
  · intro h
    have hl := congrArg String.toList h
    simp only [objDb, String.toList_append] at hl
    exact String.toList_inj.mp (append_cancel_left hl)
  · rintro rfl
    rfl

theorem objDb_ne_expDb (c : String) : objDb c ≠ expDb := by
  intro h
  have hl := congrArg (fun s => s.toList.head?) h
  simp [objDb, expDb] at hl

theorem splitOnce_expKey (hc : NulFree c) (k : String) :
    splitOnce '\x00' (expKey c k) = some (c, k) := by
  have hl : (expKey c k).toList = c.toList ++ '\x00' :: k.toList := by simp [expKey]
  have hpos : ∀ a ∈ c.toList, decide (a ≠ '\x00') = true := by
    intro a ha
    exact decide_eq_true fun he => hc (he ▸ ha)
  rw [splitOnce, hl, span_eq_takeWhile_dropWhile, takeWhile_append_of_pos hpos,
    dropWhile_append_of_pos hpos]
  simp

theorem expKey_inj {c' k k' : String} (hc : NulFree c) (hc' : NulFree c') :
    expKey c k = expKey c' k' ↔ c = c' ∧ k = k' := by
  constructor
  · intro h
    have hs := splitOnce_expKey hc k
    rw [h, splitOnce_expKey hc'] at hs
    obtain ⟨rfl, rfl⟩ := Prod.mk.inj (some.inj hs)
    exact ⟨rfl, rfl⟩
  · rintro ⟨rfl, rfl⟩
    rfl

theorem splitOnce_eq_some {key k : String} (h : splitOnce '\x00' key = some (c, k)) :
    key = expKey c k ∧ NulFree c := by
  rw [splitOnce, span_eq_takeWhile_dropWhile] at h
  cases hrest : key.toList.dropWhile (· ≠ '\x00') with
  | nil =>
    rw [hrest] at h
    cases h
  | cons a r =>
    rw [hrest] at h
    obtain ⟨rfl, rfl⟩ := Prod.mk.inj (some.inj h)
    have ha : a = '\x00' := by
      have hne : key.toList.dropWhile (· ≠ '\x00') ≠ [] := by
        rw [hrest]
        exact cons_ne_nil a r
      have hhead := head_dropWhile_not (fun x => decide (x ≠ '\x00')) hne
      simp only [hrest, head_cons] at hhead
      simpa using hhead
    subst ha
    have hkey : key.toList = key.toList.takeWhile (· ≠ '\x00') ++ '\x00' :: r := by
      rw [← hrest, takeWhile_append_dropWhile]
    refine ⟨String.toList_inj.mp (hkey.trans (by simp [expKey])), ?_⟩
    rw [NulFree, String.toList_ofList]
    intro hmem
    simpa using mem_takeWhile_imp hmem

theorem validName_expDb : ValidName expDb := by decide

/-- The limit on the expiry keys leaves room for the name of the sub-database. -/
theorem validName_objDb {k : String} (hc : NulFree c) (hk : ValidKey k) (he : ValidKey (expKey c k)) :
    ValidName (objDb c) := by
  have hsize : (expKey c k).utf8ByteSize = c.utf8ByteSize + 1 + k.utf8ByteSize := by
    simp only [expKey, String.utf8ByteSize_append]
    rfl
  have hname : (objDb c).utf8ByteSize = 2 + c.utf8ByteSize := by
    simp only [objDb, String.utf8ByteSize_append]
    rfl
  unfold ValidKey at hk he
  refine ⟨⟨by omega, by omega⟩, fun h => ?_⟩
  simp only [objDb, String.toList_append, mem_append] at h
  rcases h with h | h
  · exact absurd h (by decide)
  · exact hc h

variable {T : Type}

/-! ### What opening a handle leaves alone -/

/-- Opening a sub-database a second time changes nothing. -/
theorem readDb_readDb (name : String) : (s.readDb name).1.readDb name = s.readDb name := by
  unfold readDb
  by_cases hopen : name ∈ s.dbs
  · rw [if_pos hopen, if_pos hopen]
  rw [if_neg hopen]
  by_cases hroom : name ∈ s.disk ∧ s.dbs.card < maxDbs
  · rw [if_pos hroom, if_pos (Finset.mem_insert_self ..)]
  · rw [if_neg hroom, if_neg hopen, if_neg hroom]

/-- The stores differ in their handles only; a handle that is new is of a sub-database on disk. -/
structure Opened (s s' : LmdbStore T) : Prop where
  disk : s'.disk = s.disk
  flag : s'.hasAnyTtl = s.hasAnyTtl
  dbs : ∀ name ∈ s'.dbs, name ∈ s.dbs ∨ name ∈ s.disk

theorem Opened.refl : Opened s s := ⟨rfl, rfl, fun _ => .inl⟩

theorem Opened.trans {s s' s'' : LmdbStore T} (h : Opened s s') (h' : Opened s' s'') :
    Opened s s'' where
  disk := h'.disk.trans h.disk
  flag := h'.flag.trans h.flag
  dbs name hn := by
    rcases h'.dbs name hn with hn | hn
    · exact h.dbs name hn
    · exact .inr (h.disk ▸ hn)

theorem readDb_opened (name : String) : Opened s (s.readDb name).1 := by
  unfold readDb
  split_ifs with hopen hroom
  · exact .refl s
  · refine ⟨rfl, rfl, fun n hn => ?_⟩
    rcases mem_insert.mp hn with rfl | hn
    · exact .inr hroom.1
    · exact .inl hn
  · exact .refl s

theorem readDb_dbs (name : String) : s.dbs ⊆ (s.readDb name).1.dbs := by
  unfold readDb
  split_ifs
  · exact Finset.Subset.refl _
  · exact subset_insert ..
  · exact Finset.Subset.refl _

theorem readDb_of_mem {s : LmdbStore T} (h : name ∈ s.dbs) : s.readDb name = (s, true) := if_pos h

theorem mem_dbs_of_readDb {s : LmdbStore T} (h : (s.readDb name).2 = true) :
    name ∈ (s.readDb name).1.dbs := by
  unfold readDb at h ⊢
  split_ifs at h ⊢ with hopen
  · exact hopen
  · exact mem_insert_self ..

/-- While there is room in the table, a handle is missing only if there is no such sub-database. -/
theorem notMem_of_readDb {s : LmdbStore T}
    (hroom : name ∈ s.disk → name ∉ s.dbs → s.dbs.card < maxDbs) (h : (s.readDb name).2 = false) :
    name ∉ s.disk := by
  unfold readDb at h
  split_ifs at h with hopen hcan
  exact fun hdisk => hcan ⟨hdisk, hroom hdisk hopen⟩

/-- What a read finds through the handle is what is on disk. -/
theorem readDb_get {s : LmdbStore T} (hroom : name ∈ s.disk → name ∉ s.dbs → s.dbs.card < maxDbs)
    (key : String) {α : Type} (f : T → Option α) :
    (if (s.readDb name).2 then ((s.readDb name).1.disk.get name key).bind f else none)
      = (s.disk.get name key).bind f := by
  rw [(readDb_opened s name).disk]
  split_ifs with hr
  · rfl
  · cases hget : s.disk.get name key with
    | none => rfl
    | some x =>
      exact absurd (mem_of_get hget) (notMem_of_readDb hroom (Bool.eq_false_iff.mpr hr))

/-- A handle that `db` returns: its sub-database is there, perhaps new and then empty. -/
structure Created (s s' : LmdbStore T) (name : String) : Prop where
  get : s'.disk.get = s.disk.get
  flag : s'.hasAnyTtl = s.hasAnyTtl
  disk : ∀ n, n ∈ s'.disk ↔ n ∈ s.disk ∨ n = name ∧ name ∉ s.dbs
  dbs : s'.dbs = insert name s.dbs
  valid : name ∈ s.dbs ∨ ValidName name

theorem db_created {s s' : LmdbStore T} (h : s.db name = some s') : Created s s' name := by
  unfold db at h
  split_ifs at h with hopen hroom
  · obtain rfl := some.inj h
    exact ⟨rfl, rfl, fun n => by simp [hopen], (insert_eq_self.mpr hopen).symm, .inl hopen⟩
  · obtain rfl := some.inj h
    refine ⟨?_, rfl, fun n => ?_, rfl, .inr hroom.2⟩
    · funext n k
      exact get_create ..
    · rw [mem_create]
      simp [hopen, or_comm]

section Reads

variable [Text T] (now : ℕ) (s : LmdbStore T) (c : String) (k : String)

theorem isExpired_opened : Opened s (s.isExpired now c k).1 := by
  unfold isExpired
  split_ifs
  · exact readDb_opened ..
  · exact .refl s

theorem getObject_opened : Opened s (s.getObject now c k).1 := by
  unfold getObject
  dsimp only
  split_ifs
  · exact isExpired_opened ..
  · exact (isExpired_opened ..).trans (readDb_opened ..)
  · exact (isExpired_opened ..).trans (readDb_opened ..)

theorem mget_opened (ks : List String) : ∀ s : LmdbStore T, Opened s (mget now c s ks).1 := by
  induction ks with
  | nil => exact fun s => .refl s
  | cons k ks ih => exact fun s => (getObject_opened now s c k).trans (ih _)

theorem dropExpired_opened (es : List (String × Value)) :
    ∀ s : LmdbStore T, Opened s (dropExpired now c s es).1 := by
  induction es with
  | nil => exact fun s => .refl s
  | cons e es ih => exact fun s => (isExpired_opened now s c e.1).trans (ih _)

theorem scanEntries_opened : Opened s (s.scanEntries now c).1 := by
  have hentries : Opened s (s.entries (objDb c)).1 := readDb_opened ..
  unfold scanEntries
  dsimp only
  split_ifs
  · exact hentries.trans (dropExpired_opened ..)
  · exact hentries

end Reads

/-! ### Contents -/

/-- A table with one entry replaced. -/
def write (g : String → String → Option T) (name key : String) (x : Option T) :
    String → String → Option T :=
  fun n k => if n = name ∧ k = key then x else g n k

theorem write_eq_self {g : String → String → Option T} {key : String} {x : Option T}
    (h : g name key = x) : write g name key x = g := by
  funext n k
  rw [write]
  split_ifs with hn
  · rw [hn.1, hn.2, h]
  · rfl

variable (g : String → String → Option T) (m : Nested String T) (d : String × String × String)

theorem get_insert_eq_write (name key : String) (x : T) :
    (m.insert name key x).get = write m.get name key (some x) := by
  funext n k
  exact get_insert ..

theorem get_erase_eq_write (name key : String) :
    (m.erase name key).get = write m.get name key none := by
  funext n k
  exact get_erase ..

/-- A write to the objects leaves the expiry times. -/
theorem write_obj_expDb (c k key : String) (x : Option T) :
    write g (objDb c) k x expDb key = g expDb key := by
  rw [write, if_neg fun he => objDb_ne_expDb c he.1.symm]

/-- A write to the expiry times leaves the objects. -/
theorem write_expDb_obj (key c k : String) (x : Option T) :
    write g expDb key x (objDb c) k = g (objDb c) k := by
  rw [write, if_neg fun he => objDb_ne_expDb c he.1]

/-! ### One dead entry of a sweep -/

theorem mem_sweepOne (n : String) : n ∈ (s.sweepOne d).disk ↔ n ∈ s.disk := by
  have hopened := readDb_opened s (objDb d.2.1)
  unfold sweepOne
  dsimp only
  split_ifs
  · rw [Nested.mem_erase, Nested.mem_erase, hopened.disk]
  · rw [hopened.disk]

theorem sweepOne_dbs : (s.sweepOne d).dbs = (s.readDb (objDb d.2.1)).1.dbs := by
  unfold sweepOne
  dsimp only
  split_ifs <;> rfl

theorem sweepOne_flag : (s.sweepOne d).hasAnyTtl = s.hasAnyTtl := by
  have hopened := readDb_opened s (objDb d.2.1)
  unfold sweepOne
  dsimp only
  split_ifs <;> exact hopened.flag

theorem get_sweepOne :
    (s.sweepOne d).disk.get = if (s.readDb (objDb d.2.1)).2 then
      write (write s.disk.get (objDb d.2.1) d.2.2 none) expDb d.1 none else s.disk.get := by
  have hopened := readDb_opened s (objDb d.2.1)
  unfold sweepOne
  dsimp only
  split_ifs
  · dsimp only
    rw [get_erase_eq_write, get_erase_eq_write, hopened.disk]
  · rw [hopened.disk]

/-! ### Room for the handles -/

/-- The names on disk and the open handles are those of the expiry times and of the collections
`C`. -/
structure Fits (C : Finset String) (s : LmdbStore T) : Prop where
  names : ∀ name ∈ s.disk, name ∈ insert expDb (C.image objDb)
  dbs : s.dbs ⊆ insert expDb (C.image objDb)

/-- After some steps in a session the sub-databases hold `g`; handles stay open, and the guard is as
before. -/
structure Leaves (C : Finset String) (s s' : LmdbStore T) (g : String → String → Option T) :
    Prop where
  fits : Fits C s'
  get : s'.disk.get = g
  flag : s'.hasAnyTtl = s.hasAnyTtl
  dbs : s.dbs ⊆ s'.dbs

section Handles

variable {C : Finset String} {s s' s'' : LmdbStore T} {name : String}
  {g g' : String → String → Option T}

theorem Leaves.trans (h : Leaves C s s' g) (h' : Leaves C s' s'' g') : Leaves C s s'' g' :=
  ⟨h'.fits, h'.get, h'.flag.trans h.flag, h.dbs.trans h'.dbs⟩

theorem Fits.new (C : Finset String) : Fits C (LmdbStore.new : LmdbStore T) :=
  ⟨fun _ hn => absurd hn (AList.notMem_empty _), empty_subset _⟩

/-- There is room for a handle that is not open yet. -/
theorem Fits.card_lt (h : Fits C s) (hC : C.card < maxDbs)
    (hname : name ∈ insert expDb (C.image objDb)) (hnew : name ∉ s.dbs) : s.dbs.card < maxDbs := by
  have hlt : s.dbs.card < (insert expDb (C.image objDb)).card :=
    card_lt_card ⟨h.dbs, fun hsub => hnew (hsub hname)⟩
  have h1 := card_insert_le expDb (C.image objDb)
  have h2 : (C.image objDb).card ≤ C.card := card_image_le
  omega

theorem Fits.open_dbs (h : Fits C s) (hname : name ∈ insert expDb (C.image objDb)) :
    insert name s.dbs ⊆ insert expDb (C.image objDb) :=
  insert_subset hname h.dbs

theorem Fits.db (h : Fits C s) (hC : C.card < maxDbs)
    (hname : name ∈ insert expDb (C.image objDb)) (hvalid : ValidName name) :
    ∃ s', s.db name = some s' ∧ Leaves C s s' s.disk.get ∧ name ∈ s'.dbs := by
  by_cases hin : name ∈ s.dbs
  · refine ⟨s, ?_, ⟨h, rfl, rfl, Finset.Subset.refl _⟩, hin⟩
    rw [LmdbStore.db, if_pos hin]
  · refine ⟨{ s with disk := s.disk.create name, dbs := insert name s.dbs }, ?_, ⟨⟨?_, ?_⟩, ?_, rfl, ?_⟩,
      mem_insert_self ..⟩
    · rw [LmdbStore.db, if_neg hin, if_pos ⟨h.card_lt hC hname hin, hvalid⟩]
    · intro n hn
      rcases (mem_create _ _ _).mp hn with rfl | hn
      · exact hname
      · exact h.names n hn
    · exact h.open_dbs hname
    · funext n k
      exact get_create ..
    · exact subset_insert ..

theorem Fits.room (h : Fits C s) (hC : C.card < maxDbs) :
    name ∈ s.disk → name ∉ s.dbs → s.dbs.card < maxDbs :=
  fun hdisk => h.card_lt hC (h.names name hdisk)

theorem Fits.opened (h : Fits C s) (hopened : Opened s s') : Fits C s' where
  names := hopened.disk ▸ h.names
  dbs := fun n hn => (hopened.dbs n hn).elim (fun hn => h.dbs hn) (h.names n)

/-- A handle is missing only if there is no such sub-database. -/
theorem Fits.readDb (h : Fits C s) (hC : C.card < maxDbs) (name : String) :
    Leaves C s (s.readDb name).1 s.disk.get ∧ (s.readDb name).1.disk = s.disk ∧
      ((s.readDb name).2 = false → name ∉ s.disk) := by
  have hopened := readDb_opened s name
  refine ⟨⟨h.opened hopened, ?_, hopened.flag, ?_⟩, hopened.disk, notMem_of_readDb (h.room hC)⟩
  · rw [hopened.disk]
  · exact readDb_dbs s name

theorem Fits.putStr (h : Fits C s) (hC : C.card < maxDbs)
    (hname : name ∈ insert expDb (C.image objDb)) (hvalid : ValidName name) {key : String}
    (hkey : ValidKey key) (x : T) :
    ∃ s', s.putStr name key x = some s' ∧ Leaves C s s' (write s.disk.get name key (some x)) := by
  obtain ⟨s₁, hdb, hl, -⟩ := h.db hC hname hvalid
  refine ⟨{ s₁ with disk := s₁.disk.insert name key x }, ?_, ⟨⟨?_, hl.fits.dbs⟩, ?_, hl.flag, hl.dbs⟩⟩
  · simp [LmdbStore.putStr, hdb, hkey]
  · intro n hn
    rcases (mem_insert _ _ _ _ _).mp hn with rfl | hn
    · exact hname
    · exact hl.fits.names n hn
  · rw [← hl.get]
    exact get_insert_eq_write ..

theorem Fits.clearExpiry (h : Fits C s) (hC : C.card < maxDbs) (c k : String) :
    ∃ s', s.clearExpiry c k = some s' ∧
      Leaves C s s' (write s.disk.get expDb (expKey c k) none) := by
  obtain ⟨s₁, hdb, hl, -⟩ := h.db hC (mem_insert_self ..) validName_expDb
  refine ⟨{ s₁ with disk := s₁.disk.erase expDb (expKey c k) }, ?_,
    ⟨⟨fun n hn => ?_, hl.fits.dbs⟩, ?_, hl.flag, hl.dbs⟩⟩
  · simp [LmdbStore.clearExpiry, hdb]
  · exact hl.fits.names n ((mem_erase _ _ _ _).mp hn)
  · rw [← hl.get]
    exact get_erase_eq_write ..

theorem Fits.eraseObject (h : Fits C s) (hC : C.card < maxDbs) (c : String) {k : String}
    (hk : ValidKey k) :
    ∃ s', s.eraseObject c k = some s' ∧ Leaves C s s' (write s.disk.get (objDb c) k none) := by
  obtain ⟨hl, -, hno⟩ := h.readDb hC (objDb c)
  have hne : k ≠ "" := by
    rintro rfl
    exact absurd hk.1 (by decide)
  rw [LmdbStore.eraseObject]
  dsimp only
  by_cases hr : (s.readDb (objDb c)).2 = true
  · rw [if_pos hr, if_neg hne]
    refine ⟨_, rfl, ⟨⟨fun n hn => ?_, hl.fits.dbs⟩, ?_, hl.flag, hl.dbs⟩⟩
    · exact hl.fits.names n ((mem_erase _ _ _ _).mp hn)
    · rw [← hl.get]
      exact get_erase_eq_write ..
  · -- no such sub-database, so no such object
    have hnone : s.disk.get (objDb c) k = none := by
      cases hget : s.disk.get (objDb c) k with
      | none => rfl
      | some x => exact absurd (mem_of_get hget) (hno (by simpa using hr))
    rw [if_neg hr, write_eq_self hnone]
    exact ⟨_, rfl, hl⟩

/-- The handles of a batch. -/
theorem Fits.openAll (hC : C.card < maxDbs) {items : List (String × String × Value)} :
    ∀ {s : LmdbStore T}, Fits C s → (∀ item ∈ items, objDb item.1 ∈ insert expDb (C.image objDb) ∧
      ValidName (objDb item.1)) →
    ∃ s', items.foldlM (fun s item => s.db (objDb item.1)) s = some s' ∧
      Leaves C s s' s.disk.get ∧ ∀ item ∈ items, objDb item.1 ∈ s'.dbs := by
  induction items with
  | nil => exact fun h _ => ⟨_, rfl, ⟨h, rfl, rfl, Finset.Subset.refl _⟩, fun _ hi => by cases hi⟩
  | cons item items ih =>
    intro s h hitems
    obtain ⟨hname, hvalid⟩ := hitems item (mem_cons_self ..)
    obtain ⟨s₁, hdb, hl₁, hin⟩ := h.db hC hname hvalid
    obtain ⟨s₂, hrest, hl₂, hins⟩ := ih hl₁.fits fun i hi => hitems i (mem_cons_of_mem _ hi)
    rw [hl₁.get] at hl₂
    refine ⟨s₂, ?_, hl₁.trans hl₂, fun i hi => ?_⟩
    · simp [foldlM_cons, hdb, hrest]
    · rcases mem_cons.mp hi with rfl | hi
      · exact hl₂.dbs hin
      · exact hins i hi

end Handles

/-! ### Batches -/

section Batches

variable [Text T] {C : Finset String} {s : LmdbStore T} {item : String × String × Value}
  {items : List (String × String × Value)}

/-- What the put of an item does to the contents: while the guard is up it also clears the expiry. -/
def putContents (ttl : Bool) (g : String → String → Option T) (item : String × String × Value) :
    String → String → Option T :=
  let g := write g (objDb item.1) item.2.1 (some (Text.ofValue item.2.2))
  if ttl then write g expDb (expKey item.1 item.2.1) none else g

/-- LMDB takes the item: its key, and the name of its collection, which is one of `C`. -/
structure Takes (C : Finset String) (item : String × String × Value) : Prop where
  used : item.1 ∈ C
  name : ValidName (objDb item.1)
  key : ValidKey item.2.1

instance (C : Finset String) (item : String × String × Value) : Decidable (Takes C item) :=
  decidable_of_iff (item.1 ∈ C ∧ ValidName (objDb item.1) ∧ ValidKey item.2.1)
    ⟨fun h => ⟨h.1, h.2.1, h.2.2⟩, fun h => ⟨h.used, h.name, h.key⟩⟩

theorem Takes.obj_mem (h : Takes C item) : objDb item.1 ∈ insert expDb (C.image objDb) :=
  mem_insert_of_mem (mem_image_of_mem _ h.used)

theorem Fits.putItem (h : Fits C s) (hitem : Takes C item) (hdb : objDb item.1 ∈ s.dbs)
    (hexp : s.hasAnyTtl = true → expDb ∈ s.dbs) :
    ∃ s', s.putItem s.hasAnyTtl item = some s' ∧
      Leaves C s s' (putContents s.hasAnyTtl s.disk.get item) := by
  obtain ⟨c, k, v⟩ := item
  have hnames : ∀ name ∈ s.disk.insert (objDb c) k (Text.ofValue v),
      name ∈ insert expDb (C.image objDb) := by
    intro name hn
    rcases (mem_insert _ _ _ _ _).mp hn with rfl | hn
    · exact hitem.obj_mem
    · exact h.names name hn
  simp only [LmdbStore.putItem, putContents]
  rw [if_pos ⟨hdb, hitem.key⟩]
  by_cases hflag : s.hasAnyTtl = true
  · rw [if_pos hflag, if_pos (hexp hflag), if_pos hflag]
    refine ⟨_, rfl, ⟨⟨fun name hn => ?_, h.dbs⟩, ?_, rfl, Finset.Subset.refl _⟩⟩
    · exact hnames name ((mem_erase _ _ _ _).mp hn)
    · rw [← get_insert_eq_write]
      exact get_erase_eq_write ..
  · rw [if_neg hflag, if_neg hflag]
    exact ⟨_, rfl, ⟨⟨hnames, h.dbs⟩, get_insert_eq_write .., rfl, Finset.Subset.refl _⟩⟩

/-- The puts of a batch, one after the other. -/
theorem Fits.putItems {ttl : Bool} : ∀ {s : LmdbStore T}, Fits C s → s.hasAnyTtl = ttl →
    (∀ item ∈ items, Takes C item ∧ objDb item.1 ∈ s.dbs) → (ttl = true → expDb ∈ s.dbs) →
    ∃ s', items.foldlM (LmdbStore.putItem ttl) s = some s' ∧
      Leaves C s s' (items.foldl (putContents ttl) s.disk.get) := by
  induction items with
  | nil => exact fun h _ _ _ => ⟨_, rfl, ⟨h, rfl, rfl, Finset.Subset.refl _⟩⟩
  | cons item items ih =>
    rintro s h rfl hitems hexp
    obtain ⟨hitem, hdb⟩ := hitems item (mem_cons_self ..)
    obtain ⟨s₁, hput, hl₁⟩ := h.putItem hitem hdb hexp
    obtain ⟨s₂, hrest, hl₂⟩ := ih hl₁.fits hl₁.flag
      (fun i hi => ⟨(hitems i (mem_cons_of_mem _ hi)).1,
        hl₁.dbs (hitems i (mem_cons_of_mem _ hi)).2⟩) (fun he => hl₁.dbs (hexp he))
    rw [hl₁.get] at hl₂
    refine ⟨s₂, ?_, hl₁.trans hl₂⟩
    rw [foldlM_cons, hput]
    exact hrest

omit [Text T] in
theorem Fits.openExpiry (h : Fits C s) (hC : C.card < maxDbs) :
    ∃ s', s.openExpiry s.hasAnyTtl = some s' ∧ Leaves C s s' s.disk.get ∧
      (s.hasAnyTtl = true → expDb ∈ s'.dbs) := by
  unfold LmdbStore.openExpiry
  by_cases hflag : s.hasAnyTtl = true
  · obtain ⟨s₁, hdb, hl, hin⟩ := h.db hC (mem_insert_self ..) validName_expDb
    rw [if_pos hflag]
    exact ⟨s₁, hdb, hl, fun _ => hin⟩
  · rw [if_neg hflag]
    exact ⟨s, rfl, ⟨h, rfl, rfl, Finset.Subset.refl _⟩, fun hf => absurd hf hflag⟩

/-- **A batch that LMDB takes is committed**, and puts its items in order. -/
theorem Fits.putBatch (h : Fits C s) (hC : C.card < maxDbs) (hitems : ∀ item ∈ items, Takes C item) :
    ∃ s', s.putBatch items = some s' ∧
      Leaves C s s' (items.foldl (putContents s.hasAnyTtl) s.disk.get) := by
  rw [LmdbStore.putBatch]
  split_ifs with hnil
  · subst hnil
    exact ⟨s, rfl, ⟨h, rfl, rfl, Finset.Subset.refl _⟩⟩
  · obtain ⟨s₁, hopen, hl₁, hdbs⟩ := h.openAll hC fun item hi =>
      ⟨(hitems item hi).obj_mem, (hitems item hi).name⟩
    -- with the guard up, the handle of the expiry times is opened as well
    obtain ⟨s₂, hexp, hl₂, hin⟩ := hl₁.fits.openExpiry hC
    rw [hl₁.get] at hl₂
    obtain ⟨s₃, hputs, hl₃⟩ := hl₂.fits.putItems hl₂.flag
      (fun item hi => ⟨hitems item hi, hl₂.dbs (hdbs item hi)⟩) hin
    rw [hl₂.get, hl₁.flag] at hl₃
    refine ⟨s₃, ?_, (hl₁.trans hl₂).trans hl₃⟩
    simp only [hopen, hexp, bind_eq_bind, bind_some]
    exact hputs

end Batches

/-! ### Single objects -/

section Objects

variable [Text T] {C : Finset String} {s : LmdbStore T} {c k : String} {v : Value}
  (h : Fits C s) (hC : C.card < maxDbs)
include h hC

theorem Fits.putObject (hitem : Takes C (c, k, v)) (obj : Value) :
    ∃ s', s.putObject c k obj = some s' ∧ Fits C s' := by
  obtain ⟨s₁, hput, hl₁⟩ := h.putStr hC hitem.obj_mem hitem.name hitem.key (Text.ofValue obj)
  simp only [LmdbStore.putObject, hput, bind_eq_bind, bind_some]
  split_ifs with hflag
  · obtain ⟨s₂, hclear, hl₂⟩ := hl₁.fits.clearExpiry hC c k
    exact ⟨s₂, hclear, hl₂.fits⟩
  · exact ⟨s₁, rfl, hl₁.fits⟩

omit [Text T] in
theorem Fits.deleteObject (c : String) (hk : ValidKey k) :
    ∃ s', s.deleteObject c k = some s' ∧ Fits C s' := by
  obtain ⟨s₁, herase, hl₁⟩ := h.eraseObject hC c hk
  simp only [LmdbStore.deleteObject, herase, bind_eq_bind, bind_some]
  split_ifs with hflag
  · obtain ⟨s₂, hclear, hl₂⟩ := hl₁.fits.clearExpiry hC c k
    exact ⟨s₂, hclear, hl₂.fits⟩
  · exact ⟨s₁, rfl, hl₁.fits⟩

theorem Fits.update {α : Type} (hitem : Takes C (c, k, v)) (now : ℕ)
    (f : Option Value → Change × α) :
    ∃ s' a, s.update now c k f = some (s', a) ∧ Fits C s' := by
  have hread : Fits C (s.getObject now c k).1 := h.opened (getObject_opened ..)
  obtain ⟨s', hs', hfits⟩ : ∃ s', (s.getObject now c k).1.change c k
      (f (s.getObject now c k).2).1 = some s' ∧ Fits C s' := by
    cases (f (s.getObject now c k).2).1 with
    | keep => exact ⟨_, rfl, hread⟩
    | put obj => exact hread.putObject hC hitem obj
    | delete => exact hread.deleteObject hC c hitem.key
  exact ⟨s', _, congrArg (Option.map _) hs', hfits⟩

end Objects

end LmdbStore

end Stplr
