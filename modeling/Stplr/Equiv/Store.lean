import Stplr.Store

/-!
# What a store's operations do to one cell

A cell is a pair `(coll, id)`; what a reader sees of it is `getObject` and `expiryOf`.
`LawfulStore` says what the primitive operations of a backend, such as the in-memory store, do to the
cells: each changes exactly the cell it names, and `scanEntries` lists exactly the cells that read as
present.  Over any lawful store the read-modify-write operations act on their cell by a function of the
value it holds: `setAddValue`, `setRemoveValue`, `casValue`, `incrValue`.
-/

namespace Stplr

open Lib List Nested IndexStore
open IndexStore (cas getObject incr)

/-- The laws of the operations on single cells. -/
class LawfulCells (St : Type) [IndexStore St] : Prop where
  getObject_putObject (now : ℕ) (s : St) (c k : String) (v : Value) (c' k' : String) :
    getObject now (putObject s c k v) c' k'
      = if c' = c ∧ k' = k then some v else getObject now s c' k'
  getObject_deleteObject (now : ℕ) (s : St) (c k c' k' : String) :
    getObject now (deleteObject s c k) c' k'
      = if c' = c ∧ k' = k then none else getObject now s c' k'
  getObject_putObjectAt_ne (now : ℕ) (s : St) (c k : String) (v : Value) (e : ℕ) {c' k' : String} :
    ¬(c' = c ∧ k' = k) → getObject now (putObjectAt s c k v e) c' k' = getObject now s c' k'
  expiryOf_putObject (s : St) (c k : String) (v : Value) (c' k' : String) :
    expiryOf (putObject s c k v) c' k' = if c' = c ∧ k' = k then none else expiryOf s c' k'
  expiryOf_deleteObject (s : St) (c k c' k' : String) :
    expiryOf (deleteObject s c k) c' k' = if c' = c ∧ k' = k then none else expiryOf s c' k'
  expiryOf_putObjectAt_ne (s : St) (c k : String) (v : Value) (e : ℕ) {c' k' : String} :
    ¬(c' = c ∧ k' = k) → expiryOf (putObjectAt s c k v e) c' k' = expiryOf s c' k'
  mem_scanEntries (now : ℕ) (s : St) (c k : String) (v : Value) :
    (k, v) ∈ scanEntries now s c ↔ getObject now s c k = some v
  nodup_scanEntries (now : ℕ) (s : St) (c : String) :
    ((scanEntries now s c).map Prod.fst).Nodup
  /-- Without an expiry the clock does not matter. -/
  getObject_congr_now {s : St} {c k : String} (now now' : ℕ) :
    expiryOf s c k = none → getObject now s c k = getObject now' s c k

/-- The laws of a store backend: those of its cells, and that a sweep leaves the cells without an
expiry alone. -/
class LawfulStore (St : Type) [IndexStore St] : Prop extends LawfulCells St where
  sweepExpired_frame (now : ℕ) {s : St} {c k : String} (t : ℕ) :
    expiryOf s c k = none → getObject now (sweepExpired s t).1 c k = getObject now s c k ∧
        expiryOf (sweepExpired s t).1 c k = none

/-- The laws of a store backend, with what a put with an expiry writes. -/
class LawfulExpiry (St : Type) [IndexStore St] : Prop extends LawfulCells St where
  getObject_putObjectAt (now : ℕ) (s : St) (c k : String) (v : Value) (e : ℕ) :
    getObject now (putObjectAt s c k v e) c k = if e ≤ now then none else some v
  expiryOf_putObjectAt (s : St) (c k : String) (v : Value) (e : ℕ) :
    expiryOf (putObjectAt s c k v e) c k = some e

/-- Deleting a list of cells leaves every other cell as it was. -/
theorem LawfulCells.foldl_deleteObject_frame {St : Type} [IndexStore St]
    [LawfulCells St] (now : ℕ) (dead : List (String × String)) (s : St) {c k : String}
    (h : (c, k) ∉ dead) :
    let s' := dead.foldl (fun s d => deleteObject s d.1 d.2) s
    getObject now s' c k = getObject now s c k ∧ expiryOf s' c k = expiryOf s c k := by
  induction dead generalizing s with
  | nil => exact ⟨rfl, rfl⟩
  | cons d dead ih =>
    rw [mem_cons, not_or] at h
    have hne : ¬(c = d.1 ∧ k = d.2) := fun hd => h.1 (Prod.ext hd.1 hd.2)
    obtain ⟨h1, h2⟩ := ih (deleteObject s d.1 d.2) h.2
    refine ⟨h1.trans ?_, h2.trans ?_⟩
    · rw [LawfulCells.getObject_deleteObject, if_neg hne]
    · rw [LawfulCells.expiryOf_deleteObject, if_neg hne]

/-! ### The in-memory store -/

namespace MemoryStore

variable (now : ℕ) (s : MemoryStore) (c k : String)

theorem isExpired_of_expiryOf_none {s : MemoryStore} {c k : String}
    (h : expiryOf s c k = none) : s.isExpired now c k = false := by
  have h' : s.expiry.get c k = none := h
  rw [isExpired, h']

/-- Without an expiry the clock does not matter. -/
theorem getObject_of_expiryOf_none {s : MemoryStore} {c k : String}
    (h : IndexStore.expiryOf s c k = none) :
    IndexStore.getObject now s c k = s.objects.get c k := by
  change getObject now s c k = _
  rw [getObject, isExpired_of_expiryOf_none now h]
  rfl

variable (v : Value) (e : ℕ)

theorem expiryOf_putObject (c' k' : String) :
    expiryOf (putObject s c k v) c' k' = if c' = c ∧ k' = k then none else expiryOf s c' k' :=
  get_erase s.expiry c k c' k'

theorem expiryOf_deleteObject (c' k' : String) :
    expiryOf (deleteObject s c k) c' k' = if c' = c ∧ k' = k then none else expiryOf s c' k' :=
  get_erase s.expiry c k c' k'

theorem getObject_putObject (c' k' : String) :
    getObject now (putObject s c k v) c' k'
      = if c' = c ∧ k' = k then some v else getObject now s c' k' := by
  change getObject now (putObject s c k v) c' k' = if _ then _ else getObject now s c' k'
  have hexp : (putObject s c k v).expiry.get c' k'
      = if c' = c ∧ k' = k then none else s.expiry.get c' k' := get_erase ..
  have hobj : (putObject s c k v).objects.get c' k'
      = if c' = c ∧ k' = k then some v else s.objects.get c' k' := get_insert ..
  unfold getObject isExpired
  rw [hexp, hobj]
  split_ifs <;> simp_all

theorem getObject_deleteObject (c' k' : String) :
    getObject now (deleteObject s c k) c' k'
      = if c' = c ∧ k' = k then none else getObject now s c' k' := by
  change getObject now (deleteObject s c k) c' k' = if _ then _ else getObject now s c' k'
  have hexp : (deleteObject s c k).expiry.get c' k'
      = if c' = c ∧ k' = k then none else s.expiry.get c' k' := get_erase ..
  have hobj : (deleteObject s c k).objects.get c' k'
      = if c' = c ∧ k' = k then none else s.objects.get c' k' := get_erase ..
  unfold getObject isExpired
  rw [hexp, hobj]
  split_ifs <;> simp_all

/-- A timed write leaves the other cells alone. -/
theorem getObject_putObjectAt_ne {c' k' : String} (h : ¬(c' = c ∧ k' = k)) :
    IndexStore.getObject now (IndexStore.putObjectAt s c k v e) c' k'
      = IndexStore.getObject now s c' k' := by
  change getObject now (putObjectAt s c k v e) c' k' = getObject now s c' k'
  have hexp : (putObjectAt s c k v e).expiry.get c' k' = s.expiry.get c' k' := by
    rw [putObjectAt, get_insert, if_neg h]
  have hobj : (putObjectAt s c k v e).objects.get c' k' = s.objects.get c' k' := by
    rw [putObjectAt, get_insert, if_neg h]
  unfold getObject isExpired
  rw [hexp, hobj]

theorem expiryOf_putObjectAt_ne {c' k' : String} (h : ¬(c' = c ∧ k' = k)) :
    expiryOf (putObjectAt s c k v e) c' k' = expiryOf s c' k' := by
  change (s.expiry.insert c k e).get c' k' = s.expiry.get c' k'
  rw [get_insert, if_neg h]

theorem expiryOf_putObjectAt :
    expiryOf (putObjectAt s c k v e) c k = some e := by
  change (s.expiry.insert c k e).get c k = some e
  rw [get_insert, if_pos ⟨rfl, rfl⟩]

theorem getObject_putObjectAt :
    getObject now (putObjectAt s c k v e) c k = if e ≤ now then none else some v := by
  have hexp : (s.putObjectAt c k v e).expiry.get c k = some e := expiryOf_putObjectAt s c k v e
  have hobj : (s.putObjectAt c k v e).objects.get c k = some v := by
    rw [putObjectAt, get_insert, if_pos ⟨rfl, rfl⟩]
  change getObject now (s.putObjectAt c k v e) c k = _
  rw [getObject, isExpired, hexp, hobj]
  simp only [decide_eq_true_eq]

theorem mem_scanEntries :
    (k, v) ∈ IndexStore.scanEntries now s c ↔ IndexStore.getObject now s c k = some v := by
  change (k, v) ∈ scanEntries now s c ↔ getObject now s c k = some v
  rw [scanEntries, mem_filter, mem_entries, getObject]
  cases s.isExpired now c k <;> simp

theorem nodup_scanEntries : ((scanEntries now s c).map Prod.fst).Nodup :=
  (nodup_entries s.objects c).sublist (filter_sublist.map _)

instance : LawfulCells MemoryStore where
  getObject_putObject := getObject_putObject
  getObject_deleteObject := getObject_deleteObject
  getObject_putObjectAt_ne := fun now s c k v e => getObject_putObjectAt_ne now s c k v e
  expiryOf_putObject := expiryOf_putObject
  expiryOf_deleteObject := expiryOf_deleteObject
  expiryOf_putObjectAt_ne := fun s c k v e => expiryOf_putObjectAt_ne s c k v e
  mem_scanEntries := mem_scanEntries
  nodup_scanEntries := nodup_scanEntries
  getObject_congr_now := fun now now' h =>
    (getObject_of_expiryOf_none now h).trans (getObject_of_expiryOf_none now' h).symm

instance : LawfulExpiry MemoryStore where
  getObject_putObjectAt := getObject_putObjectAt
  expiryOf_putObjectAt := expiryOf_putObjectAt

/-! ### Expired cells -/

theorem mem_deadKeys {s : MemoryStore} {now : ℕ} {c k : String} :
    (c, k) ∈ s.deadKeys now ↔ ∃ e, s.expiry.get c k = some e ∧ e ≤ now := by
  rw [deadKeys, mem_flatMap]
  constructor
  · rintro ⟨coll, -, h⟩
    obtain ⟨⟨id, e⟩, he, heq⟩ := mem_map.mp h
    obtain ⟨rfl, rfl⟩ := Prod.mk.inj heq
    obtain ⟨hmem, hle⟩ := mem_filter.mp he
    exact ⟨e, (mem_entries ..).mp hmem, of_decide_eq_true hle⟩
  · rintro ⟨e, he, hle⟩
    refine ⟨c, AList.mem_keys.mp (mem_of_get he), mem_map.mpr ⟨(k, e), ?_, rfl⟩⟩
    exact mem_filter.mpr ⟨(mem_entries ..).mpr he, decide_eq_true hle⟩

theorem nodup_deadKeys (s : MemoryStore) (now : ℕ) : (s.deadKeys now).Nodup := by
  refine nodup_flatMap.mpr ⟨fun c _ => ?_, ?_⟩
  · have hkeys : (((s.expiry.entries c).filter fun e => e.2 ≤ now).map Prod.fst).Nodup :=
      (nodup_entries ..).sublist (filter_sublist.map _)
    have hmap := hkeys.map fun _ _ h => (Prod.mk.inj (h : (c, _) = (c, _))).2
    rwa [map_map] at hmap
  · refine List.Pairwise.imp (fun {c c'} hne => ?_) s.expiry.keys_nodup
    intro p hp hp'
    obtain ⟨e, -, rfl⟩ := mem_map.mp hp
    obtain ⟨e', -, heq⟩ := mem_map.mp hp'
    exact hne (Prod.mk.inj heq).1.symm

theorem sweepExpired_of_no_expiry {s : MemoryStore} (h : ∀ c k, s.expiry.get c k = none) (now : ℕ) :
    s.sweepExpired now = (s, 0) := by
  have hnil : s.deadKeys now = [] := by
    refine eq_nil_iff_forall_not_mem.mpr fun p hp => ?_
    obtain ⟨e, he, -⟩ := mem_deadKeys.mp hp
    rw [h] at he
    cases he
  rw [sweepExpired, hnil]
  rfl

theorem get_foldl_deleteObject (dead : List (String × String)) (c k : String) : ∀ s : MemoryStore,
    let s' := dead.foldl (fun s d => s.deleteObject d.1 d.2) s
    s'.objects.get c k = (if (c, k) ∈ dead then none else s.objects.get c k) ∧
      s'.expiry.get c k = if (c, k) ∈ dead then none else s.expiry.get c k := by
  induction dead with
  | nil => exact fun _ => ⟨rfl, rfl⟩
  | cons d dead ih =>
    intro s
    obtain ⟨h1, h2⟩ := ih (s.deleteObject d.1 d.2)
    have hmem : (c, k) ∈ d :: dead ↔ (c, k) ∈ dead ∨ (c = d.1 ∧ k = d.2) := by
      rw [mem_cons, or_comm, Prod.ext_iff]
    have hobj : (s.deleteObject d.1 d.2).objects.get c k
        = if c = d.1 ∧ k = d.2 then none else s.objects.get c k :=
      get_erase ..
    have hexp : (s.deleteObject d.1 d.2).expiry.get c k
        = if c = d.1 ∧ k = d.2 then none else s.expiry.get c k :=
      get_erase ..
    simp only [foldl_cons, hmem]
    rw [h1, h2, hobj, hexp, ite_or, ite_or]
    exact ⟨rfl, rfl⟩

/-- A sweep leaves the cells without an expiry alone. -/
theorem sweepExpired_frame {s : MemoryStore} {c k : String} (t : ℕ) (h : expiryOf s c k = none) :
    getObject now (sweepExpired s t).1 c k = getObject now s c k ∧
      expiryOf (sweepExpired s t).1 c k = none := by
  have hlive : (c, k) ∉ s.deadKeys t := by
    intro hm
    obtain ⟨e, he, -⟩ := mem_deadKeys.mp hm
    have hnone : s.expiry.get c k = none := h
    rw [hnone] at he
    cases he
  obtain ⟨h1, h2⟩ := LawfulCells.foldl_deleteObject_frame now (s.deadKeys t) s hlive
  exact ⟨h1, h2.trans h⟩

instance : LawfulStore MemoryStore where
  sweepExpired_frame := fun now _ _ _ t h => sweepExpired_frame now t h

end MemoryStore

/-! ### Read-modify-write operations on their own cell -/

open IndexStore

/-- What `setAdd` makes of a stored value. -/
def setAddValue (member : String) (cur : Option Value) : Option Value :=
  if member ∈ membersOf cur then cur else some (Value.ofStrings (membersOf cur ++ [member]))

/-- What `setRemove` makes of a stored value. -/
def setRemoveValue (member : String) (cur : Option Value) : Option Value :=
  let kept := (membersOf cur).filter fun m => m ≠ member
  if kept.length = (membersOf cur).length then cur
  else if kept = [] then none
  else some (Value.ofStrings kept)

/-- The value a successful `cas` writes. -/
def casValue (expect : Option Value) (new : Value) (cur : Option Value) : Option Value :=
  if cur = expect then some new else none

/-- The value a successful `incr` writes. -/
def incrValue (delta : ℤ) (cur : Option Value) : Option Value :=
  (counterOf cur).map fun n => .int (wrappingAdd n delta)

namespace Change

/-- The value of the key after the change. -/
def result (cur : Option Value) : Change → Option Value
  | .keep => cur
  | .put v => some v
  | .delete => none

variable (member : String) (cur : Option Value)

theorem result_setAdd : (setAdd member cur).1.result cur = setAddValue member cur := by
  unfold setAdd setAddValue
  dsimp only
  split_ifs <;> rfl

theorem result_setRemove : (setRemove member cur).1.result cur = setRemoveValue member cur := by
  unfold setRemove setRemoveValue
  dsimp only
  split_ifs <;> rfl

theorem result_cas (expect : Option Value) (new : Value) :
    (cas expect new cur).1.result cur = (casValue expect new cur).or cur := by
  unfold cas casValue
  split_ifs <;> rfl

theorem result_incr (delta : ℤ) :
    (incr delta cur).1.result cur = (incrValue delta cur).or cur := by
  unfold incr incrValue
  cases counterOf cur <;> rfl

end Change

namespace LawfulCells

variable {St : Type} [IndexStore St] [LawfulCells St] (now : ℕ) (s : St) (c k : String)

variable (member : String) (expect : Option Value) (delta : ℤ) (new : Value)

theorem getObject_update {α : Type} (f : Option Value → Change × α) (c' k' : String) :
    getObject now (update now s c k f).1 c' k' = if c' = c ∧ k' = k then
          (f (getObject now s c k)).1.result (getObject now s c k)
        else getObject now s c' k' := by
  unfold update
  dsimp only
  cases (f (getObject now s c k)).1 with
  | keep =>
    split_ifs with h
    · rw [h.1, h.2]
      rfl
    · rfl
  | put v => exact getObject_putObject ..
  | delete => exact getObject_deleteObject ..

theorem getObject_setAdd (c' k' : String) :
    getObject now (setAdd now s c k member).1 c' k'
      = if c' = c ∧ k' = k then setAddValue member (getObject now s c k)
        else getObject now s c' k' := by
  rw [setAdd, getObject_update, Change.result_setAdd]

theorem getObject_setRemove (c' k' : String) :
    getObject now (setRemove now s c k member).1 c' k'
      = if c' = c ∧ k' = k then setRemoveValue member (getObject now s c k)
        else getObject now s c' k' := by
  rw [setRemove, getObject_update, Change.result_setRemove]

omit [LawfulCells St] in
theorem cas_snd :
    (cas now s c k expect new).2 = (casValue expect new (getObject now s c k)).isSome := by
  change (Change.cas ..).2 = _
  unfold Change.cas casValue
  split_ifs <;> rfl

theorem getObject_cas (c' k' : String) :
    getObject now (cas now s c k expect new).1 c' k' = if c' = c ∧ k' = k then
          (casValue expect new (getObject now s c k)).or (getObject now s c k)
        else getObject now s c' k' := by
  rw [cas, getObject_update, Change.result_cas]

omit [LawfulCells St] in
theorem incr_snd :
    (incr now s c k delta).2.map Value.int = incrValue delta (getObject now s c k) := by
  change (Change.incr ..).2.map _ = _
  unfold Change.incr incrValue
  cases counterOf (getObject now s c k) <;> rfl

theorem getObject_incr (c' k' : String) :
    getObject now (incr now s c k delta).1 c' k' = if c' = c ∧ k' = k then
          (incrValue delta (getObject now s c k)).or (getObject now s c k)
        else getObject now s c' k' := by
  rw [incr, getObject_update, Change.result_incr]

/-- A read-modify-write on `(c, k)` either leaves the store alone, writes the cell or deletes it. -/
def Touches (s s' : St) (c k : String) : Prop :=
  s' = s ∨ (∃ v, s' = putObject s c k v) ∨ s' = deleteObject s c k

omit [LawfulCells St] in
theorem touches_update {α : Type} (f : Option Value → Change × α) :
    Touches s (update now s c k f).1 c k := by
  unfold update
  dsimp only
  cases (f (getObject now s c k)).1 with
  | keep => exact .inl rfl
  | put v => exact .inr (.inl ⟨v, rfl⟩)
  | delete => exact .inr (.inr rfl)

/-- No such operation gives a cell an expiry. -/
theorem Touches.expiryOf_none {s s' : St} {c k : String} (h : Touches s s' c k)
    {c' k' : String} (hn : expiryOf s c' k' = none) :
    expiryOf s' c' k' = none := by
  rcases h with rfl | ⟨v, rfl⟩ | rfl
  · exact hn
  · rw [expiryOf_putObject, hn]; split_ifs <;> rfl
  · rw [expiryOf_deleteObject, hn]; split_ifs <;> rfl

/-- ... nor reads differently at any other cell. -/
theorem Touches.getObject_ne {s s' : St} {c k : String} (h : Touches s s' c k)
    {c' k' : String} (hne : ¬(c' = c ∧ k' = k)) :
    getObject now s' c' k' = getObject now s c' k' := by
  rcases h with rfl | ⟨v, rfl⟩ | rfl
  · rfl
  · rw [getObject_putObject, if_neg hne]
  · rw [getObject_deleteObject, if_neg hne]

theorem Touches.expiryOf_ne {s s' : St} {c k : String} (h : Touches s s' c k)
    {c' k' : String} (hne : ¬(c' = c ∧ k' = k)) :
    expiryOf s' c' k' = expiryOf s c' k' := by
  rcases h with rfl | ⟨v, rfl⟩ | rfl
  · rfl
  · rw [expiryOf_putObject, if_neg hne]
  · rw [expiryOf_deleteObject, if_neg hne]

end LawfulCells

end Stplr
