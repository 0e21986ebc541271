import Stplr.Crash
import Stplr.Equiv.Lmdb

/-!
# A key after a crash

The transactions of a call, run to the end, are the call (`StoreCall.runTxns_txns`).  A write of one
key first changes the value and then, in another transaction, the expiry time (`atomic_putTxns_iff`
and its like), so a crash in between leaves the new value with the old expiry time, unless one of
the two does not change, which can be told from the store before the call (`LeavesOne`).  A batch and
a sweep change both at once (`atomic_batchTxns`, `atomic_sweepTxns`).  `crash_atomic_iff` puts the
calls together.
-/

namespace Stplr

open Lib List
open Prod (fst snd)
open AtomicFrom (of_keeps of_once)
open Option (bind_congr bind_fun_some bind_some some)

namespace LmdbStore

variable {T : Type}

/-! ### What the transactions write -/

section Writes

variable {s s' : LmdbStore T} {name key c k : String} {x : T}

theorem get_putTxn (h : putTxn name key x s = some s') :
    s'.disk.get = write s.disk.get name key (some x) := by
  unfold putTxn at h
  split_ifs at h
  rw [← some.inj h]
  exact get_insert_eq_write ..

theorem get_putStr (h : s.putStr name key x = some s') :
    s'.disk.get = write s.disk.get name key (some x) := by
  obtain ⟨s₁, hs₁, h⟩ := Option.bind_eq_some_iff.mp h
  rw [get_putTxn h, (db_created hs₁).get]

theorem get_eraseObject (h : s.eraseObject c k = some s') : s'.disk.get
    = write s.disk.get (objDb c) k (if (s.readDb (objDb c)).2 then none else s.disk.get (objDb c) k) := by
  have hdisk := (readDb_opened s (objDb c)).disk
  unfold eraseObject at h
  dsimp only at h
  split_ifs at h with hopen
  · rw [← some.inj h, if_pos hopen, ← hdisk]
    exact get_erase_eq_write ..
  · rw [← some.inj h, if_neg hopen, hdisk, write_eq_self rfl]

theorem get_clearExpiry (h : (if s.hasAnyTtl then s.clearExpiry c k else some s) = some s') :
    s'.disk.get = write s.disk.get expDb (expKey c k)
      (if s.hasAnyTtl then none else s.disk.get expDb (expKey c k)) := by
  split_ifs at h ⊢
  · obtain ⟨s₁, hs₁, h⟩ := Option.bind_eq_some_iff.mp h
    rw [← some.inj h, ← (db_created hs₁).get]
    exact get_erase_eq_write ..
  · rw [← some.inj h, write_eq_self rfl]

theorem putStr_hasAnyTtl (h : s.putStr name key x = some s') :
    s'.hasAnyTtl = s.hasAnyTtl := by
  obtain ⟨s₁, hs₁, h⟩ := Option.bind_eq_some_iff.mp h
  split_ifs at h
  rw [← some.inj h, ← (db_created hs₁).flag]

theorem eraseObject_hasAnyTtl (h : s.eraseObject c k = some s') :
    s'.hasAnyTtl = s.hasAnyTtl := by
  have hflag := (readDb_opened s (objDb c)).flag
  unfold eraseObject at h
  dsimp only at h
  split_ifs at h
  · rw [← some.inj h, ← hflag]
  · rw [← some.inj h, ← hflag]

theorem runTxns_putStr (s : LmdbStore T) (name key : String) (x : T) :
    runTxns [createTxn name, putTxn name key x] s = s.putStr name key x := by
  simp only [runTxns, bind_fun_some]
  rfl

theorem runTxns_clearTxns (s : LmdbStore T) (ttl : Bool) (c k : String) :
    runTxns (clearTxns ttl c k) s = if ttl then s.clearExpiry c k else some s := by
  cases ttl with
  | false => rfl
  | true =>
    simp only [clearTxns, if_true, runTxns, bind_fun_some]
    rfl

theorem runTxns_deleteTxns (s : LmdbStore T) (c k : String) :
    runTxns (deleteTxns s.hasAnyTtl c k) s = s.deleteObject c k := by
  rw [deleteTxns, singleton_append, runTxns]
  refine bind_congr fun s₁ hs₁ => ?_
  rw [runTxns_clearTxns, eraseObject_hasAnyTtl hs₁]

theorem runTxns_creates (items : List (String × String × Value)) : ∀ s : LmdbStore T,
    runTxns (items.map fun item => createTxn (objDb item.1)) s
      = items.foldlM (fun s item => s.db (objDb item.1)) s := by
  induction items with
  | nil => exact fun _ => rfl
  | cons item items ih =>
    intro s
    rw [map_cons, runTxns, foldlM_cons]
    exact bind_congr fun s₁ _ => ih s₁

theorem foldlM_db_hasAnyTtl (items : List (String × String × Value)) : ∀ {s : LmdbStore T},
    items.foldlM (fun s item => s.db (objDb item.1)) s = some s' → s'.hasAnyTtl = s.hasAnyTtl := by
  induction items with
  | nil =>
    intro s h
    rw [some.inj h]
  | cons item items ih =>
    intro s h
    rw [foldlM_cons] at h
    obtain ⟨s₁, hs₁, h⟩ := Option.bind_eq_some_iff.mp h
    exact (ih h).trans (db_created hs₁).flag

theorem runTxns_sweeps (dead : List (String × String × String)) : ∀ s : LmdbStore T,
    runTxns (dead.map fun d (s : LmdbStore T) => some (s.sweepOne d)) s
      = some (dead.foldl sweepOne s) := by
  induction dead with
  | nil => exact fun _ => rfl
  | cons d dead ih => exact fun s => ih _

end Writes

variable [Text T]

/-! ### What the transactions leave alone -/

section Frames

variable {name key c k : String}

theorem stored_of_get {s s' : LmdbStore T} (h : s'.disk.get = s.disk.get) (c k : String) :
    s'.stored c k = s.stored c k := by
  rw [stored, stored, h]

theorem keeps_createTxn (name c k : String) :
    (createTxn name : Txn (LmdbStore T)).Keeps fun s => s.stored c k :=
  fun _ _ h => stored_of_get (db_created h).get c k

theorem keeps_readTxn (now : ℕ) (c' k' c k : String) :
    (readTxn now c' k' : Txn (LmdbStore T)).Keeps fun s => s.stored c k := by
  intro s s' h
  obtain rfl := some.inj h
  exact stored_of_get (congrArg Nested.get (getObject_opened now s c' k').disk) c k

/-- A put of an object leaves the expiry times. -/
theorem keeps_putTxn_obj (c' k' : String) (x : T) (c k : String) :
    (putTxn (objDb c') k' x).Keeps fun s => (s.stored c k).2 := by
  intro s s' h
  simp only [stored, get_putTxn h, write_obj_expDb]

theorem keeps_eraseObject (c' k' c k : String) :
    Txn.Keeps (fun s : LmdbStore T => (s.stored c k).2) fun s => s.eraseObject c' k' := by
  intro s s' h
  simp only [stored, get_eraseObject h, write_obj_expDb]

/-- The sub-database of the expiry times holds no values. -/
theorem keeps_eraseTxn_exp (c k : String) :
    (eraseTxn expDb key : Txn (LmdbStore T)).Keeps fun s => (s.stored c k).1 := by
  intro s s' h
  obtain rfl := some.inj h
  change ((s.disk.erase expDb key).get (objDb c) k).bind _ = _
  rw [get_erase_eq_write, write_expDb_obj]
  rfl

theorem keeps_putTxn_exp (key : String) (x : T) (c k : String) : Txn.Keeps (fun s => (s.stored c k).1)
    fun s => (putTxn expDb key x s).map fun s => { s with hasAnyTtl := true } := by
  intro s s' h
  obtain ⟨s₁, hs₁, rfl⟩ := Option.map_eq_some_iff.mp h
  simp only [stored, get_putTxn hs₁, write_expDb_obj]

/-- A sweep of another expiry key. -/
theorem stored_sweepOne {s : LmdbStore T} {d : String × String × String}
    (hkey : d.1 = expKey d.2.1 d.2.2) (h : d.1 ≠ expKey c k) :
    (s.sweepOne d).stored c k = s.stored c k := by
  rw [stored, stored, get_sweepOne]
  split_ifs
  · have hobj : ¬(objDb c = objDb d.2.1 ∧ k = d.2.2) := by
      rintro ⟨hc, hk⟩
      rw [hkey, ← objDb_inj.mp hc, ← hk] at h
      exact h rfl
    rw [write_expDb_obj, write, if_neg hobj, write, if_neg fun he => h he.2.symm, write_obj_expDb]
  · rfl

end Frames

/-! ### Cuts of the writes -/

section Cuts

variable {s s' : LmdbStore T}

/-- From `s` to `s'` the value or the expiry time of the key stays as it is. -/
def OneChanges (s s' : LmdbStore T) (c k : String) : Prop :=
  (s'.stored c k).1 = (s.stored c k).1 ∨ (s'.stored c k).2 = (s.stored c k).2

variable {t : Txn (LmdbStore T)} {ttl : Bool} {v : Value}

/-- The last of the transactions `ts ++ [t]` writes the object, those of `ts'` change the expiry time
once. -/
theorem atomic_writes_iff {c k : String} (ts : List (Txn (LmdbStore T)))
    {ts' : List (Txn (LmdbStore T))} (hts : ∀ u ∈ ts, u.Keeps fun s => s.stored c k)
    (ht : t.Keeps fun s => (s.stored c k).2) (hts' : ∀ u ∈ ts', u.Keeps fun s => (s.stored c k).1)
    (honce : ∀ s, AtomicFrom (fun s => (s.stored c k).2) ts' s)
    (hrun : runTxns ((ts ++ [t]) ++ ts') s = some s') :
    AtomicFrom (fun s => s.stored c k) ((ts ++ [t]) ++ ts') s ↔ OneChanges s s' c k := by
  refine atomicFrom_pair_iff (f := fun s => (s.stored c k).1) (g := fun s => (s.stored c k).2)
    (fun s => of_once ts ?_ fun u hu => absurd hu not_mem_nil) ?_ honce hts' hrun
  · exact fun u hu s s' h => congrArg fst (hts u hu s s' h)
  · intro u hu
    rcases mem_append.mp hu with hu | hu
    · exact fun s s' h => congrArg snd (hts u hu s s' h)
    · rw [mem_singleton.mp hu]
      exact ht

/-- The handle of the expiry times, and one change there. -/
theorem once_expiry {c k : String} (ht : t.Keeps fun s => (s.stored c k).1) :
    (∀ u ∈ [createTxn expDb, t], u.Keeps fun s => (s.stored c k).1) ∧
      ∀ s, AtomicFrom (fun s => (s.stored c k).2) [createTxn expDb, t] s := by
  have hcreate := keeps_createTxn (T := T) expDb c k
  refine ⟨fun u hu => ?_, fun s => ?_⟩
  · rcases mem_pair.mp hu with rfl | rfl
    · exact fun s s' h => congrArg fst (hcreate s s' h)
    · exact ht
  · refine of_once [createTxn expDb] ?_ nofun
    intro u hu
    rw [mem_singleton.mp hu]
    exact fun s s' h => congrArg snd (hcreate s s' h)

theorem once_clearTxns (ttl : Bool) (c' k' c k : String) :
    (∀ u ∈ (clearTxns ttl c' k' : List (Txn (LmdbStore T))), u.Keeps fun s => (s.stored c k).1) ∧
      ∀ s : LmdbStore T, AtomicFrom (fun s => (s.stored c k).2) (clearTxns ttl c' k') s := by
  cases ttl with
  | false =>
    exact ⟨nofun, fun s => of_keeps nofun⟩
  | true => exact once_expiry (keeps_eraseTxn_exp c k)

theorem atomic_putTxns_iff {c' k' : String} (hrun : runTxns (putTxns ttl c' k' v) s = some s')
    (c k : String) :
    AtomicFrom (fun s => s.stored c k) (putTxns ttl c' k' v) s ↔ OneChanges s s' c k := by
  obtain ⟨hvalue, honce⟩ := once_clearTxns (T := T) ttl c' k' c k
  refine atomic_writes_iff [createTxn (objDb c')] (fun u hu => ?_)
    (keeps_putTxn_obj c' k' _ c k) hvalue honce hrun
  rw [mem_singleton.mp hu]
  exact keeps_createTxn _ c k

theorem atomic_deleteTxns_iff {c' k' : String} (hrun : runTxns (deleteTxns ttl c' k') s = some s')
    (c k : String) :
    AtomicFrom (fun s => s.stored c k) (deleteTxns ttl c' k') s ↔ OneChanges s s' c k := by
  obtain ⟨hvalue, honce⟩ := once_clearTxns (T := T) ttl c' k' c k
  exact atomic_writes_iff [] nofun
    (keeps_eraseObject c' k' c k) hvalue honce hrun

theorem atomic_changeTxns_iff {c' k' : String} {change : Change}
    (hrun : runTxns (changeTxns ttl c' k' change) s = some s') {c k : String} :
    AtomicFrom (fun s => s.stored c k) (changeTxns ttl c' k' change) s ↔ OneChanges s s' c k := by
  cases change with
  | keep =>
    obtain rfl := some.inj hrun
    exact iff_of_true (of_keeps nofun) (.inl rfl)
  | put v => exact atomic_putTxns_iff hrun c k
  | delete => exact atomic_deleteTxns_iff hrun c k

theorem atomic_putAtTxns_iff {c' k' : String} {e : UInt64}
    (hrun : runTxns (putAtTxns c' k' v e) s = some s') (c k : String) :
    AtomicFrom (fun s => s.stored c k) (putAtTxns c' k' v e) s ↔ OneChanges s s' c k := by
  obtain ⟨hvalue, honce⟩ := once_expiry (keeps_putTxn_exp (expKey c' k')
    (Text.ofNat e.toNat : T) c k)
  refine atomic_writes_iff [createTxn (objDb c')] (fun u hu => ?_)
    (keeps_putTxn_obj c' k' _ c k) hvalue honce hrun
  rw [mem_singleton.mp hu]
  exact keeps_createTxn _ c k

/-- All the puts of a batch are in one transaction. -/
theorem atomic_batchTxns (ttl : Bool) (items : List (String × String × Value)) (c k : String) :
    AtomicFrom (fun s => s.stored c k) (batchTxns ttl items) s := by
  unfold batchTxns
  split_ifs
  · exact of_keeps nofun
  all_goals
    refine of_once _ (fun u hu => ?_) nofun
    simp only [mem_append, mem_map, mem_singleton, not_mem_nil, or_false] at hu
  · rcases hu with ⟨item, -, rfl⟩ | rfl
    · exact keeps_createTxn _ c k
    · exact keeps_createTxn _ c k
  · obtain ⟨item, -, rfl⟩ := hu
    exact keeps_createTxn _ c k

/-- A sweep deletes a value with its expiry time, and no two of its transactions are about the same
expiry key. -/
theorem atomic_sweepTxns (now : ℕ) (c k : String) :
    AtomicFrom (fun s => s.stored c k) (sweepTxns s now) s := by
  have hfirst : Txn.Keeps (fun s : LmdbStore T => s.stored c k)
      fun s => some ((s.readDb expDb).1.entries expDb).1 := by
    intro s s' h
    obtain rfl := some.inj h
    exact stored_of_get (congrArg Nested.get
      ((readDb_opened s expDb).trans (readDb_opened _ expDb)).disk) c k
  unfold sweepTxns
  split_ifs with hup
  · set dead := deadEntries now ((s.readDb expDb).1.entries expDb).2 with hdead
    have hnd : (dead.map fst).Nodup := nodup_deadEntries now (nodup_entries ..)
    have hkey : ∀ d ∈ dead, d.1 = expKey d.2.1 d.2.2 := by
      intro d hd
      obtain ⟨v, e, -, -, -, hsplit⟩ := mem_deadEntries_iff.mp hd
      exact (splitOnce_eq_some hsplit).1
    have hkeeps : ∀ l : List (String × String × String), (∀ d ∈ l, d ∈ dead ∧ d.1 ≠ expKey c k) →
        ∀ u ∈ l.map (fun d (s : LmdbStore T) => some (s.sweepOne d)), Txn.Keeps
          (fun s : LmdbStore T => s.stored c k) u := by
      intro l hl u hu s s' h
      obtain ⟨d, hd, rfl⟩ := mem_map.mp hu
      obtain rfl := some.inj h
      exact stored_sweepOne (hkey d (hl d hd).1) (hl d hd).2
    by_cases hmem : expKey c k ∈ dead.map fst
    · obtain ⟨d, hd, hdk⟩ := mem_map.mp hmem
      obtain ⟨l, l', hl⟩ := append_of_mem hd
      have hother : ∀ d' ∈ l ++ l', d' ∈ dead ∧ d'.1 ≠ expKey c k := by
        intro d' hd'
        have hperm : dead.Perm (d :: (l ++ l')) := hl ▸ perm_middle
        rw [(hperm.map fst).nodup_iff, map_cons, nodup_cons] at hnd
        refine ⟨hperm.mem_iff.mpr (mem_cons_of_mem _ hd'), fun heq => hnd.1 ?_⟩
        exact mem_map.mpr ⟨d', hd', heq.trans hdk.symm⟩
      rw [hl, map_append, map_cons]
      refine of_once (_ :: l.map _) (fun u hu => ?_)
        (hkeeps l' fun d' hd' => hother d' (mem_append_right _ hd'))
      rcases mem_cons.mp hu with rfl | hu
      · exact hfirst
      · exact hkeeps l (fun d' hd' => hother d' (mem_append_left _ hd')) u hu
    · refine of_keeps fun u hu => ?_
      rcases mem_cons.mp hu with rfl | hu
      · exact hfirst
      · exact hkeeps dead (fun d hd => ⟨hd, fun heq => hmem (mem_map.mpr ⟨d, hd, heq⟩)⟩) u hu
  · refine of_keeps fun u hu s s' h => ?_
    rw [mem_singleton.mp hu] at h
    obtain rfl := some.inj h
    split_ifs
    · exact stored_of_get (congrArg Nested.get (readDb_opened s expDb).disk) c k
    · rfl

end Cuts

/-! ### The transactions of a call are the call -/

section Runs

variable {s s' : LmdbStore T}

theorem runTxns_putTxns (s : LmdbStore T) (c k : String) (v : Value) :
    runTxns (putTxns s.hasAnyTtl c k v) s = s.putObject c k v := by
  rw [putTxns, runTxns_append, runTxns_putStr]
  refine bind_congr fun s₁ hs₁ => ?_
  rw [runTxns_clearTxns, putStr_hasAnyTtl hs₁]

theorem runTxns_putAtTxns (s : LmdbStore T) (c k : String) (v : Value) (e : UInt64) :
    runTxns (putAtTxns c k v e) s = s.putObjectAt c k v e := by
  rw [putAtTxns, runTxns_append, runTxns_putStr]
  refine bind_congr fun s₁ _ => ?_
  simp only [runTxns, bind_fun_some, createTxn, putTxn, putStr, bind, Option.bind_assoc]
  refine bind_congr fun s₂ _ => ?_
  split_ifs <;> rfl

theorem runTxns_batchTxns (s : LmdbStore T) (items : List (String × String × Value)) :
    runTxns (batchTxns s.hasAnyTtl items) s = s.putBatch items := by
  unfold batchTxns putBatch
  split_ifs with hnil hup
  · rfl
  all_goals
    rw [runTxns_append, runTxns_append, runTxns_creates, Option.bind_assoc]
    refine bind_congr fun s₁ hs₁ => ?_
    rw [foldlM_db_hasAnyTtl items hs₁]
  · simp only [hup, runTxns, bind_fun_some, openExpiry, if_true, createTxn]
    rfl
  · simp only [hup, runTxns, bind_some, bind_fun_some, openExpiry]
    rfl

theorem runTxns_changeTxns (s : LmdbStore T) (c k : String) (change : Change) :
    runTxns (changeTxns s.hasAnyTtl c k change) s = s.change c k change := by
  cases change with
  | keep => rfl
  | put v => exact runTxns_putTxns s c k v
  | delete => exact runTxns_deleteTxns s c k

theorem runTxns_sweepTxns (s : LmdbStore T) (now : ℕ) :
    runTxns (sweepTxns s now) s = some (s.sweepExpired now).1 := by
  unfold sweepTxns sweepExpired
  dsimp only
  by_cases hup : s.hasAnyTtl = true
  · by_cases hopen : (s.readDb expDb).2 = true
    · rw [if_pos ⟨hup, hopen⟩, if_pos hup, if_pos hopen, runTxns, bind_some]
      exact runTxns_sweeps _ _
    · rw [if_neg fun h => hopen h.2, if_pos hup, if_neg hopen, runTxns, if_pos hup]
      rfl
  · rw [if_neg fun h => hup h.1, if_neg hup, runTxns, if_neg hup]
    rfl

end Runs

/-! ### What changes, from the store before -/

section Before

variable {s s' : LmdbStore T} {c k : String}

/-- A write of the value `x` and the expiry time `y` of one key. -/
theorem oneChanges_iff {x y : Option T}
    (h : s'.disk.get = write (write s.disk.get (objDb c) k x) expDb (expKey c k) y) :
    (∀ c' k', OneChanges s s' c' k') ↔
      x.bind Text.toValue = (s.stored c k).1 ∨ y.bind Text.toNat = (s.stored c k).2 := by
  have hvalue : ∀ c' k', (s'.stored c' k').1
      = if objDb c' = objDb c ∧ k' = k then x.bind Text.toValue else (s.stored c' k').1 := by
    intro c' k'
    rw [stored, h, write_expDb_obj, write]
    split_ifs <;> rfl
  have hexpiry : (s'.stored c k).2 = y.bind Text.toNat := by
    change (s'.disk.get expDb (expKey c k)).bind Text.toNat = _
    rw [h, write, if_pos ⟨rfl, rfl⟩]
  constructor
  · intro hall
    have hone := hall c k
    rwa [OneChanges, hvalue, if_pos ⟨rfl, rfl⟩, hexpiry] at hone
  · intro hone c' k'
    by_cases hk : objDb c' = objDb c ∧ k' = k
    · obtain ⟨hc, rfl⟩ := hk
      obtain rfl := objDb_inj.mp hc
      rwa [OneChanges, hvalue, if_pos ⟨rfl, rfl⟩, hexpiry]
    · exact .inl (by rw [hvalue, if_neg hk])

/-- The change leaves the stored value of the key or its stored expiry time as it is. -/
def LeavesOne (s : LmdbStore T) (c k : String) : Change → Prop
  | .keep => True
  | .put v => Text.toValue (Text.ofValue v : T) = (s.stored c k).1 ∨
      s.hasAnyTtl = false ∨ (s.stored c k).2 = none
  | .delete => (s.stored c k).1 = none ∨ (s.readDb (objDb c)).2 = false ∨
      s.hasAnyTtl = false ∨ (s.stored c k).2 = none

theorem oneChanges_change_iff {change : Change} (h : s.change c k change = some s') :
    (∀ c' k', OneChanges s s' c' k') ↔ s.LeavesOne c k change := by
  -- the expiry time that a cleared key is left with
  have hclear : (if s.hasAnyTtl then none else s.disk.get expDb (expKey c k)).bind Text.toNat
      = (s.stored c k).2 ↔ s.hasAnyTtl = false ∨ (s.stored c k).2 = none := by
    cases s.hasAnyTtl with
    | true => simp [eq_comm]
    | false => simp [stored]
  cases change with
  | keep =>
    obtain rfl := some.inj h
    exact iff_of_true (fun _ _ => .inl rfl) trivial
  | put v =>
    obtain ⟨s₁, hs₁, h⟩ := Option.bind_eq_some_iff.mp h
    have hget := get_clearExpiry h
    rw [get_putStr hs₁, write_obj_expDb, putStr_hasAnyTtl hs₁] at hget
    rw [oneChanges_iff hget, hclear]
    rfl
  | delete =>
    obtain ⟨s₁, hs₁, h⟩ := Option.bind_eq_some_iff.mp h
    have hget := get_clearExpiry h
    rw [get_eraseObject hs₁, write_obj_expDb, eraseObject_hasAnyTtl hs₁] at hget
    have herase : (if (s.readDb (objDb c)).2 then none else s.disk.get (objDb c) k).bind Text.toValue
        = (s.stored c k).1 ↔ (s.stored c k).1 = none ∨ (s.readDb (objDb c)).2 = false := by
      cases (s.readDb (objDb c)).2 with
      | true => simp [eq_comm]
      | false => simp [stored]
    rw [oneChanges_iff hget, hclear, herase, or_assoc]
    rfl

end Before

end LmdbStore

namespace StoreCall

open LmdbStore

variable {T : Type} [Text T]

/-- The transactions of a call, all of them, leave what the call leaves. -/
theorem runTxns_txns (now : ℕ) (s : LmdbStore T) (call : StoreCall) :
    runTxns (call.txns now s) s = (call.onLmdb now s).map Prod.fst := by
  have hupdate : ∀ {α : Type} (c k : String) (f : Option Value → Change × α) (g : α → StoreAnswer),
      runTxns (updateTxns now s c k f) s
        = ((s.update now c k f).map fun r => r.map id g).map fst := by
    intro α c k f g
    rw [updateTxns, LmdbStore.update, runTxns, readTxn, bind_some, ← runTxns_changeTxns,
      (getObject_opened now s c k).flag]
    cases runTxns (changeTxns s.hasAnyTtl c k (f (s.getObject now c k).2).1)
      (s.getObject now c k).1 <;> rfl
  have hdone : ∀ (o : Option (LmdbStore T)) (a : StoreAnswer),
      o = (o.map fun s => (s, a)).map fst := by
    intro o a
    cases o <;> rfl
  cases call with
  | putObject c k v => exact (runTxns_putTxns s c k v).trans (hdone _ _)
  | putObjectAt c k v e => exact (runTxns_putAtTxns s c k v e).trans (hdone _ _)
  | putBatch items => exact (runTxns_batchTxns s items).trans (hdone _ _)
  | deleteObject c k => exact (runTxns_deleteTxns s c k).trans (hdone _ _)
  | sweepExpired nowMs => exact runTxns_sweepTxns s nowMs
  | cas | incr | setAdd | setRemove => exact hupdate ..
  | getObject | mget | scanEntries | expiryOf | setMembers | reopen => rfl

/-- What holds before a call that is not cut between a value and its expiry time: it writes at most one
of them anew, or both at once. -/
def LeavesOne (now : ℕ) (s : LmdbStore T) : StoreCall → Prop
  | .putObject c k v => s.LeavesOne c k (.put v)
  | .putObjectAt c k v e => Text.toValue (Text.ofValue v : T) = (s.stored c k).1 ∨
      Text.toNat (Text.ofNat e.toNat : T) = (s.stored c k).2
  | .deleteObject c k => s.LeavesOne c k .delete
  | .cas c k expect new => updated c k (Change.cas expect new)
  | .incr c k delta => updated c k (Change.incr delta)
  | .setAdd c k m => updated c k (Change.setAdd m)
  | .setRemove c k m => updated c k (Change.setRemove m)
  | _ => True
where
  updated {α : Type} (c k : String) (f : Option Value → Change × α) : Prop :=
    (s.getObject now c k).1.LeavesOne c k (f (s.getObject now c k).2).1

variable {call : StoreCall} {now : ℕ}

/-- A call can be cut anywhere just if it leaves a value or its expiry time as it is, or writes both
at once. -/
theorem atomic_txns_iff {s s' : LmdbStore T} (hrun : runTxns (call.txns now s) s = some s') :
    (∀ c k, AtomicFrom (fun s => s.stored c k) (call.txns now s) s) ↔ call.LeavesOne now s := by
  have hupdate : ∀ {α : Type} {c' k' : String} {f : Option Value → Change × α},
      runTxns (updateTxns now s c' k' f) s = some s' →
      ((∀ c k, AtomicFrom (fun s => s.stored c k) (updateTxns now s c' k' f) s) ↔
        LeavesOne.updated now s c' k' f) := by
    intro α c' k' f hrun
    have hflag : s.hasAnyTtl = (s.getObject now c' k').1.hasAnyTtl :=
      (getObject_opened now s c' k').flag.symm
    rw [updateTxns, hflag] at hrun ⊢
    rw [LeavesOne.updated, ← oneChanges_change_iff ((runTxns_changeTxns ..).symm.trans hrun)]
    refine forall₂_congr fun c k => ?_
    rw [atomicFrom_cons_iff (keeps_readTxn now c' k' c k) rfl]
    exact atomic_changeTxns_iff hrun
  have hopens : ∀ f : LmdbStore T → LmdbStore T, (∀ s, (f s).disk = s.disk) → ∀ c k,
      AtomicFrom (fun s => s.stored c k) [fun s => some (f s)] s := by
    intro f hf c k
    refine of_keeps fun u hu s₁ s₂ h => ?_
    rw [mem_singleton.mp hu] at h
    obtain rfl := some.inj h
    exact stored_of_get (congrArg Nested.get (hf s₁)) c k
  cases call with
  | putObject c' k' v =>
    exact (forall₂_congr fun c k => atomic_putTxns_iff hrun c k).trans
      (oneChanges_change_iff (show s.change c' k' (.put v) = some s' from
        (runTxns_putTxns ..).symm.trans hrun))
  | deleteObject c' k' =>
    exact (forall₂_congr fun c k => atomic_deleteTxns_iff hrun c k).trans
      (oneChanges_change_iff (show s.change c' k' .delete = some s' from
        (runTxns_deleteTxns ..).symm.trans hrun))
  | putObjectAt c' k' v e =>
    obtain ⟨s₁, hs₁, h⟩ := Option.bind_eq_some_iff.mp ((runTxns_putAtTxns ..).symm.trans hrun)
    obtain ⟨s₂, hs₂, h⟩ := Option.bind_eq_some_iff.mp h
    have hget : s'.disk.get = _ := (congrArg (fun s => s.disk.get) (some.inj h).symm).trans
      (get_putStr hs₂)
    rw [get_putStr hs₁] at hget
    exact (forall₂_congr fun c k => atomic_putAtTxns_iff hrun c k).trans (oneChanges_iff hget)
  | putBatch items => exact iff_of_true (atomic_batchTxns s.hasAnyTtl items) trivial
  | sweepExpired nowMs => exact iff_of_true (atomic_sweepTxns nowMs) trivial
  | cas | incr | setAdd | setRemove => exact hupdate hrun
  | getObject c' k' | setMembers c' k' =>
    exact iff_of_true (hopens _ fun s => (getObject_opened now s c' k').disk) trivial
  | mget c' ks => exact iff_of_true (hopens _ fun s => (mget_opened now c' ks s).disk) trivial
  | scanEntries c' => exact iff_of_true (hopens _ fun s => (scanEntries_opened now s c').disk) trivial
  | expiryOf c' k' => exact iff_of_true (hopens _ fun s => (readDb_opened s expDb).disk) trivial
  | reopen => exact iff_of_true (hopens _ fun _ => rfl) trivial

end StoreCall

/-- **Crashes between the transactions of a call.**  The call is cut after any number of its
transactions and the store is opened again.  Every key then has the value and the expiry time from
before the call or those from after it, iff the call is a batch or a sweep, or the store has the value
or the expiry time that the call leaves in the key it writes. -/
theorem crash_atomic_iff {T : Type} [Text T] {now : ℕ} {s s' : LmdbStore T} {call : StoreCall}
    {answer : StoreAnswer} (hcall : call.onLmdb now s = some (s', answer)) :
    (∀ n s₁, runTxns ((call.txns now s).take n) s = some s₁ → ∀ c k,
      s₁.reopen.stored c k = s.stored c k ∨ s₁.reopen.stored c k = s'.stored c k) ↔
    call.LeavesOne now s := by
  have hrun : runTxns (call.txns now s) s = some s' := by
    rw [StoreCall.runTxns_txns, hcall]
    rfl
  have hatomic : (∀ n s₁, runTxns ((call.txns now s).take n) s = some s₁ → ∀ c k,
      s₁.reopen.stored c k = s.stored c k ∨ s₁.reopen.stored c k = s'.stored c k) ↔
        ∀ c k, AtomicFrom (fun s => s.stored c k) (call.txns now s) s := by
    constructor
    · intro h c k s'' hs'' n s₁ hcut
      obtain rfl := Option.some.inj (hrun.symm.trans hs'')
      exact h n s₁ hcut c k
    · exact fun h n s₁ hcut c k => h c k s' hrun n s₁ hcut
  rw [hatomic, StoreCall.atomic_txns_iff hrun]

/-- The key `x` holds `1` until time `10`. -/
def timedStore : LmdbStore Value :=
  (LmdbStore.new.putObjectAt "kv" "x" (.int 1) 10).getD LmdbStore.new

/-- A sweep that finds `x` dead. -/
theorem crash_atomic_sweep : timedStore.stored "kv" "x" = (some (.int 1), some 10) ∧
    (timedStore.sweepExpired 10).1.stored "kv" "x" = (none, none) ∧
    ∀ n s₁, runTxns (((StoreCall.sweepExpired 10).txns 11 timedStore).take n) timedStore = some s₁ →
      ∀ c k, s₁.reopen.stored c k = timedStore.stored c k ∨
        s₁.reopen.stored c k = (timedStore.sweepExpired 10).1.stored c k :=
  ⟨by decide +kernel, by decide +kernel, (crash_atomic_iff rfl).mpr trivial⟩

/-- A plain put over `x`, cut after the value is written: the new value has the old expiry time. -/
theorem put_cut_between : ∃ s' s₁ : LmdbStore Value,
    LmdbStore.new.putObjectAt "kv" "x" (.int 1) 10 = some timedStore ∧
    (StoreCall.putObject "kv" "x" (.int 2)).onLmdb 5 timedStore = some (s', .done) ∧
    runTxns (((StoreCall.putObject "kv" "x" (.int 2)).txns 5 timedStore).take 2) timedStore
      = some s₁ ∧
    timedStore.stored "kv" "x" = (some (.int 1), some 10) ∧
    s'.stored "kv" "x" = (some (.int 2), none) ∧
    s₁.reopen.stored "kv" "x" = (some (.int 2), some 10) ∧
    (s₁.reopen.getObject 10 "kv" "x").2 = none :=
  ⟨_, _, rfl, rfl, rfl, by decide +kernel, by decide +kernel, by decide +kernel, by decide +kernel⟩

end Stplr
