import Stplr.Equiv.Lmdb
import Stplr.Equiv.Scan
import Stplr.ShardCall

/-!
# The cursor scan of the durable store

The durable store walks a cursor from the tighter of two lower bounds and stops at the first key past
the range.  Keys with a prefix stand together in the order of strings (`startsWith_of_between`), so the
walk meets the stored keys of the range.  It leaves none of them out because it has expired, and so it
lists what the default of the trait lists only where none of them has (`scanRange_eq_default_iff`).
What a scan returns is said once, for every store and after any other scans (`scanRange_spec`), and
the bucket scan follows from it (`scanBuckets_spec`, `scanBuckets_first_keys_iff`).
-/

namespace Stplr

open Lib List IndexStore

/-! ### Prefixes in the order of strings -/

theorem not_append_lt (l r : List Char) : ¬l ++ r < l := by
  induction l with
  | nil => exact not_lt_nil _
  | cons a l ih =>
    rw [cons_append, cons_lt_cons_iff]
    simp [ih]

theorem startsWith_iff {k p : String} : startsWith k p = true ↔ ∃ r, k.toList = p.toList ++ r := by
  rw [startsWith, isPrefixOf_iff_prefix]
  exact ⟨fun ⟨r, hr⟩ => ⟨r, hr.symm⟩, fun ⟨r, hr⟩ => ⟨r, hr.symm⟩⟩

theorem le_of_startsWith {k p : String} (h : startsWith k p = true) : p ≤ k := by
  obtain ⟨r, hr⟩ := startsWith_iff.mp h
  rw [← not_lt, String.lt_iff_toList_lt, hr]
  exact not_append_lt _ _

theorem append_between (p : List Char) : ∀ {k r : List Char}, ¬k < p → ¬p ++ r < k →
    ∃ r', k = p ++ r' := by
  induction p with
  | nil => exact fun {k} {r} _ _ => ⟨k, rfl⟩
  | cons a p ih =>
    intro k r hlo hhi
    cases k with
    | nil => exact absurd (nil_lt_cons a p) hlo
    | cons b k =>
      rw [cons_lt_cons_iff, not_or, not_and] at hlo
      rw [cons_append, cons_lt_cons_iff, not_or, not_and] at hhi
      obtain rfl : a = b := le_antisymm (not_lt.mp hlo.1) (not_lt.mp hhi.1)
      obtain ⟨r', rfl⟩ := ih (hlo.2 rfl) (hhi.2 rfl)
      exact ⟨r', rfl⟩

/-- The keys with a prefix stand together. -/
theorem startsWith_of_between {p k k' : String} (h : startsWith k' p = true) (hlo : p ≤ k)
    (hhi : k ≤ k') : startsWith k p = true := by
  obtain ⟨r, hr⟩ := startsWith_iff.mp h
  rw [← not_lt, String.lt_iff_toList_lt] at hlo hhi
  rw [hr] at hhi
  exact startsWith_iff.mpr (append_between _ hlo hhi)

namespace LmdbStore

/-! ### The walk of the cursor -/

theorem passes_mono {b : Lower} {k k' : String} (hk : k < k') (h : b.passes k' = true) :
    b.passes k = true := by
  cases b with
  | excluded a => exact decide_eq_true (hk.le.trans (of_decide_eq_true h))
  | included p => exact decide_eq_true (hk.trans (of_decide_eq_true h))
  | unbounded => cases h

/-- Among the keys with the prefix, the bound leaves those after the cursor. -/
theorem passes_lower {after start : Option String} {k : String}
    (hk : start.all (startsWith k) = true) :
    (lower after start).passes k = !after.all (· < k) := by
  have hge : ∀ p, start = some p → p ≤ k := fun p hp => by
    rw [hp] at hk
    exact le_of_startsWith hk
  cases after with
  | none =>
    cases start with
    | none => rfl
    | some p => exact decide_eq_false (not_lt.mpr (hge p rfl))
  | some a =>
    cases start with
    | none => simp [lower, Lower.passes, ← not_lt]
    | some p =>
      rw [lower]
      split_ifs with hpa
      · simp [Lower.passes, ← not_lt]
      · have hak : a < k := (not_le.mp hpa).trans_le (hge p rfl)
        change decide (k < p) = !decide (a < k)
        rw [decide_eq_false (not_lt.mpr (hge p rfl)), decide_eq_true hak]
        rfl

/-- A key inside the range of a walk. -/
def within (start stop : Option String) (k : String) : Bool :=
  stop.all (k < ·) && start.all (startsWith k)

/-- Past the lower bound, the keys of the range come first. -/
theorem within_mono {after start stop : Option String} {k k' : String} (hk : k < k')
    (hpast : (lower after start).passes k = false) (h : within start stop k' = true) :
    within start stop k = true := by
  rw [within, Bool.and_eq_true] at h ⊢
  constructor
  · rw [Option.all_eq_true] at h ⊢
    exact fun e he => decide_eq_true (hk.trans (of_decide_eq_true (h.1 e he)))
  · cases start with
    | none => rfl
    | some p =>
      refine startsWith_of_between h.2 ?_ hk.le
      cases after with
      | none => exact not_lt.mp (of_decide_eq_false hpast)
      | some a =>
        rw [lower] at hpast
        split_ifs at hpast with hpa
        · exact hpa.trans (not_le.mp (of_decide_eq_false hpast)).le
        · exact not_lt.mp (of_decide_eq_false hpast)

variable {keys : List String}

/-- The keys that a cursor from the lower bound to the end of the range meets. -/
theorem walk_eq (h : keys.Pairwise (· < ·)) (after start stop : Option String) :
    (keys.dropWhile (lower after start).passes).takeWhile (within start stop)
      = (above after keys).filter (within start stop) := by
  rw [dropWhile_eq_filter h fun a _ b _ hab hb => passes_mono hab hb,
    takeWhile_eq_filter (h.filter _), filter_filter, above, filter_filter]
  · refine filter_congr fun k _ => ?_
    cases hw : within start stop k with
    | false => rfl
    | true =>
      rw [within, Bool.and_eq_true] at hw
      rw [passes_lower hw.2, Bool.not_not]
  · intro a ha b _ hab hb
    exact within_mono hab (by simpa using (mem_filter.mp ha).2) hb

theorem within_eq (start stop : Option String) (k : String) : within start stop k
    = (!stop.any (· ≤ k) && !start.any fun p => !startsWith k p) := by
  have hstop : stop.all (k < ·) = !stop.any (· ≤ k) := by
    cases stop with
    | none => rfl
    | some e =>
      change decide (k < e) = !decide (e ≤ k)
      rw [← decide_not]
      exact decide_eq_decide.mpr not_le.symm
  have hstart : start.all (startsWith k) = !start.any fun p => !startsWith k p := by
    cases start with
    | none => rfl
    | some p => exact (Bool.not_not _).symm
  rw [within, hstop, hstart]

variable {T : Type} {c : String}

theorem isExpiredInside_snd (s : LmdbStore T) : s.isExpiredInside.2 = false := by
  unfold isExpiredInside
  split_ifs <;> rfl

/-- The walk lists the keys of the range, up to the limit.  `P` is kept when the expiry times are
opened. -/
theorem scanLoop_spec {P : LmdbStore T → Prop} {checkTtl : Bool}
    (hread : ∀ s, P s → P s.isExpiredInside.1) (start stop : Option String) (limit : ℕ)
    (ks : List String) : ∀ {s : LmdbStore T} {out : List String}, P s → out.length ≤ limit →
    P (scanLoop start stop limit checkTtl s ks out).1 ∧
      (scanLoop start stop limit checkTtl s ks out).2
        = (out ++ ks.takeWhile (within start stop)).take limit := by
  induction ks with
  | nil =>
    intro s out h hout
    rw [scanLoop, takeWhile_nil, append_nil, take_of_length_le hout]
    exact ⟨h, rfl⟩
  | cons k ks ih =>
    intro s out h hout
    have hstopped : within start stop k = false →
        (out ++ (k :: ks).takeWhile (within start stop)).take limit = out := by
      intro hw
      rw [takeWhile_cons_of_neg (by simp [hw]), append_nil, take_of_length_le hout]
    rw [scanLoop]
    by_cases hfull : limit ≤ out.length
    · rw [if_pos hfull, take_append_of_le_length hfull, take_of_length_le hout]
      exact ⟨h, rfl⟩
    rw [if_neg hfull]
    by_cases hstop : stop.any (· ≤ k) = true
    · rw [if_pos hstop, hstopped (by rw [within_eq, hstop]; rfl)]
      exact ⟨h, rfl⟩
    rw [if_neg hstop]
    by_cases hstart : (start.any fun p => !startsWith k p) = true
    · rw [if_pos hstart, hstopped (by rw [within_eq, hstart, Bool.not_true, Bool.and_false])]
      exact ⟨h, rfl⟩
    rw [if_neg hstart]
    have hw : within start stop k = true := by
      rw [within_eq, Bool.eq_false_of_not_eq_true hstop, Bool.eq_false_of_not_eq_true hstart]
      rfl
    obtain ⟨r, hr, hP, hexp⟩ : ∃ r, (if checkTtl then s.isExpiredInside else (s, false)) = r ∧
        P r.1 ∧ r.2 = false := by
      cases checkTtl with
      | true => exact ⟨_, rfl, hread s h, isExpiredInside_snd s⟩
      | false => exact ⟨_, rfl, h, rfl⟩
    dsimp only
    rw [hr, hexp, if_neg Bool.false_ne_true, takeWhile_cons_of_pos hw,
      append_cons out k (takeWhile _ _)]
    refine ih hP ?_
    rw [length_append, length_singleton]
    omega

/-- The keys of a sub-database in order. -/
def diskKeys (s : LmdbStore T) (c : String) : List String :=
  ((s.disk.entries (objDb c)).map Prod.fst).insertionSort (· ≤ ·)

variable (s : LmdbStore T) (now : ℕ)

theorem pairwise_diskKeys (c : String) : (diskKeys s c).Pairwise (· < ·) :=
  pairwise_lt_insertionSort (Nested.nodup_entries ..)

theorem mem_diskKeys {k : String} : k ∈ diskKeys s c ↔ (s.disk.get (objDb c) k).isSome := by
  rw [diskKeys, (perm_insertionSort _ _).mem_iff, mem_map, Option.isSome_iff_exists]
  constructor
  · rintro ⟨⟨k', x⟩, hmem, rfl⟩
    exact ⟨x, (Nested.mem_entries ..).mp hmem⟩
  · rintro ⟨x, hx⟩
    exact ⟨(k, x), (Nested.mem_entries ..).mpr hx, rfl⟩

/-- With the handles `opened` open as well, that of `name` is open or there is room for it. -/
def Opens (s : LmdbStore T) (opened : Finset String) (name : String) : Prop :=
  name ∈ s.dbs ∨ (opened ∪ s.dbs).card < maxDbs

instance (s : LmdbStore T) (opened : Finset String) (name : String) : Decidable (s.Opens opened name) :=
  inferInstanceAs (Decidable (_ ∨ _))

theorem readDb_snd_iff {name : String} (h : name ∈ s.disk) :
    (s.readDb name).2 = true ↔ s.Opens ∅ name := by
  unfold readDb Opens
  rw [Finset.empty_union]
  split_ifs with hopen hroom
  · exact iff_of_true rfl (.inl hopen)
  · exact iff_of_true rfl (.inr hroom.2)
  · exact iff_of_false (by simp) fun hor => hor.elim hopen fun hcard => hroom ⟨h, hcard⟩

/-- Where a key is found, the handle is found. -/
theorem readDb_of_diskKeys {k : String} (h : k ∈ diskKeys s c) :
    (s.readDb (objDb c)).2 = true ↔ s.Opens ∅ (objDb c) := by
  obtain ⟨x, hx⟩ := Option.isSome_iff_exists.mp ((mem_diskKeys s).mp h)
  exact readDb_snd_iff s (Nested.mem_of_get hx)

/-- The check inside a walk may open the sub-database of the expiry times as well. -/
theorem isExpiredInside_fst {s s' : LmdbStore T} (h : s' = s ∨ s' = (s.readDb expDb).1) :
    s'.isExpiredInside.1 = s ∨ s'.isExpiredInside.1 = (s.readDb expDb).1 := by
  unfold isExpiredInside
  obtain rfl | rfl := h
  · split_ifs
    · exact .inr rfl
    · exact .inl rfl
  · rw [readDb_readDb]
    split_ifs <;> exact .inr rfl

/-- Sorting and leaving out keys commute. -/
theorem insertionSort_filter (hnd : keys.Nodup) (f : String → Bool) :
    (keys.filter f).insertionSort (· ≤ ·) = (keys.insertionSort (· ≤ ·)).filter f := by
  refine List.Pairwise.eq_of_mem_iff (pairwise_lt_insertionSort (hnd.filter f))
    ((pairwise_lt_insertionSort hnd).filter f) fun k => ?_
  rw [(perm_insertionSort ..).mem_iff, mem_filter, mem_filter, (perm_insertionSort ..).mem_iff]

/-! ### Scans one after another -/

/-- The keys that a scan lists: all that are on disk, and none when the sub-database cannot be
opened. -/
def listed (s : LmdbStore T) (c : String) : List String :=
  if (s.readDb (objDb c)).2 then diskKeys s c else []

theorem mem_listed {k : String} : k ∈ s.listed c ↔ s.Opens ∅ (objDb c) ∧ k ∈ diskKeys s c := by
  unfold listed
  split_ifs with hopen
  · exact ⟨fun hk => ⟨(readDb_of_diskKeys s hk).mp hopen, hk⟩, And.right⟩
  · exact iff_of_false not_mem_nil fun h => hopen ((readDb_of_diskKeys s h.2).mpr h.1)

theorem pairwise_listed (c : String) : (s.listed c).Pairwise (· < ·) := by
  unfold listed
  split_ifs
  · exact pairwise_diskKeys s c
  · exact List.Pairwise.nil

theorem length_listed_le (c : String) :
    (s.listed c).length ≤ (s.disk.entries (objDb c)).length := by
  unfold listed
  split_ifs
  · rw [diskKeys, length_insertionSort, length_map]
  · exact Nat.zero_le _

/-- A store after scans of a collection: they open the sub-database of the collection, and then maybe
that of the expiry times. -/
def Scanned (s : LmdbStore T) (c : String) (s' : LmdbStore T) : Prop :=
  s' = s ∨ s' = (s.readDb (objDb c)).1 ∨
    (s.readDb (objDb c)).2 = true ∧ s' = ((s.readDb (objDb c)).1.readDb expDb).1

/-- The next scan finds the same handle, or finds again that there is none. -/
theorem Scanned.readDb {s s' : LmdbStore T} (h : Scanned s c s') :
    (s'.readDb (objDb c)).2 = (s.readDb (objDb c)).2 ∧
    ((s'.readDb (objDb c)).1 = (s.readDb (objDb c)).1 ∨ (s.readDb (objDb c)).2 = true ∧
      (s'.readDb (objDb c)).1 = ((s.readDb (objDb c)).1.readDb expDb).1) := by
  obtain rfl | rfl | ⟨hopen, rfl⟩ := h
  · exact ⟨rfl, .inl rfl⟩
  · rw [readDb_readDb]
    exact ⟨rfl, .inl rfl⟩
  · rw [readDb_of_mem (readDb_dbs _ expDb (mem_dbs_of_readDb hopen))]
    exact ⟨hopen.symm, .inr ⟨hopen, rfl⟩⟩

/-- **What a scan returns**, whatever the store is and whatever was scanned before. -/
theorem scanRange_spec {s s' : LmdbStore T} (h : Scanned s c s') (after start stop : Option String)
    (limit : ℕ) : Scanned s c (s'.scanRange c after start stop limit).1 ∧
      (s'.scanRange c after start stop limit).2
        = page limit ((s.listed c).filter (within start stop)) after := by
  obtain ⟨hflag, hstate⟩ := h.readDb
  have hdisk : (s'.readDb (objDb c)).1.disk = s.disk := by
    obtain heq | ⟨-, heq⟩ := hstate
    · rw [heq, (readDb_opened ..).disk]
    · rw [heq, (readDb_opened ..).disk, (readDb_opened ..).disk]
  rw [scanRange, listed, page]
  dsimp only
  rw [hflag, hdisk]
  cases hopen : (s.readDb (objDb c)).2 with
  | false =>
    rw [if_neg Bool.false_ne_true, if_neg Bool.false_ne_true]
    refine ⟨.inr (.inl (hstate.resolve_right fun hread => ?_)), by simp [above]⟩
    rw [hopen] at hread
    exact Bool.false_ne_true hread.1
  | true =>
    rw [if_pos rfl, if_pos rfl]
    set s₀ := (s.readDb (objDb c)).1
    have hstate' : (s'.readDb (objDb c)).1 = s₀ ∨ (s'.readDb (objDb c)).1 = (s₀.readDb expDb).1 :=
      hstate.imp id And.right
    have hempty : ([] : List String).length ≤ limit := Nat.zero_le limit
    obtain ⟨hend, hout⟩ := scanLoop_spec (P := fun s' => s' = s₀ ∨ s' = (s₀.readDb expDb).1)
      (fun s' hs' => isExpiredInside_fst hs') start stop limit
      ((diskKeys s c).dropWhile (lower after start).passes) hstate' hempty
    refine ⟨.inr (hend.imp id fun heq => ⟨hopen, heq⟩), hout.trans (congrArg (take limit) ?_)⟩
    rw [nil_append, walk_eq (pairwise_diskKeys s c), above_filter]

/-- A page of the loop over all the keys. -/
theorem page_of_scanned (c : String) (s' : LmdbStore T) (cursor : Option String)
    (h : Scanned s c s') :
    Scanned s c (s'.scanRange c cursor none none scanChunk).1 ∧
      (s'.scanRange c cursor none none scanChunk).2 = page scanChunk (s.listed c) cursor := by
  obtain ⟨hend, hpage⟩ := scanRange_spec h cursor none none scanChunk
  have hall : (s.listed c).filter (within none none) = s.listed c :=
    filter_eq_self.mpr fun _ _ => rfl
  exact ⟨hend, by rw [hpage, hall]⟩

/-- The scan of some buckets lists their keys after the cursor, and one when the limit is `0`. -/
theorem scanBuckets_spec (c : String) (buckets : List ℕ) (after : Option String) (limit : ℕ) :
    Scanned s c (s.scanBuckets c buckets after limit).1 ∧ (s.scanBuckets c buckets after limit).2
      = page (max limit 1) ((s.listed c).filter fun k => bucketOf k ∈ buckets) after := by
  have hpages : (above after (s.listed c)).length < (s.disk.entries (objDb c)).length + 1 :=
    Nat.lt_succ_of_le ((length_filter_le ..).trans (length_listed_le s c))
  obtain ⟨hend, hout⟩ := gatherPages_eq (pairwise_listed s c) (show 0 < scanChunk by decide)
    (page_of_scanned s c) (fun k => bucketOf k ∈ buckets) limit _ s after [] (.inl rfl) hpages
    (by simp)
  rw [nil_append, ← above_filter] at hout
  exact ⟨hend, hout⟩

/-! ### The default of the trait -/

variable [Text T]

/-- The expiry on disk is due. -/
def expired (now : ℕ) (s : LmdbStore T) (c k : String) : Bool :=
  ((s.disk.get expDb (expKey c k)).bind Text.toNat).any (· ≤ now)

/-- The keys of a collection on disk that have not expired. -/
def liveKeys (now : ℕ) (s : LmdbStore T) (c : String) : List String :=
  (diskKeys s c).filter fun k => !s.expired now c k

/-- A read of an expiry time may open the sub-database of these; it finds the same before and after. -/
theorem isExpired_reopened {s s' : LmdbStore T} (h : s' = s ∨ s' = (s.readDb expDb).1) (now : ℕ)
    (c k : String) : ((s'.isExpired now c k).1 = s ∨ (s'.isExpired now c k).1 = (s.readDb expDb).1) ∧
      (s'.isExpired now c k).2 = (s.isExpired now c k).2 := by
  rcases h with rfl | rfl
  · refine ⟨?_, rfl⟩
    unfold isExpired readExpiry
    split_ifs
    · exact .inr rfl
    · exact .inl rfl
  · unfold isExpired readExpiry
    rw [readDb_readDb, (readDb_opened s expDb).flag]
    split_ifs
    · exact ⟨.inr rfl, rfl⟩
    · exact ⟨.inr rfl, rfl⟩

/-- The keys that `scan_entries` lists, when every value can be read. -/
theorem map_fst_scanEntries {s : LmdbStore T} (hopen : (s.readDb (objDb c)).2 = true)
    (hread : ∀ e ∈ s.disk.entries (objDb c), (Text.toValue e.2).isSome = true) :
    (s.scanEntries now c).2.map Prod.fst = ((s.disk.entries (objDb c)).map Prod.fst).filter fun k =>
      !((s.readDb (objDb c)).1.isExpired now c k).2 := by
  set s₀ := (s.readDb (objDb c)).1 with hs₀
  have hkeys : (s.entries (objDb c)).2.map Prod.fst = (s.disk.entries (objDb c)).map Prod.fst := by
    have hmap : ∀ es : List (String × T), (∀ e ∈ es, (Text.toValue e.2).isSome = true) →
        (es.filterMap fun e => (Text.toValue e.2).map fun v => (e.1, v)).map Prod.fst
          = es.map Prod.fst := by
      intro es hes
      induction es with
      | nil => rfl
      | cons e es ih =>
        obtain ⟨v, hv⟩ := Option.isSome_iff_exists.mp (hes e (mem_cons_self ..))
        rw [filterMap_cons_some (by rw [hv]; rfl), map_cons, map_cons,
          ih fun e' he' => hes e' (mem_cons_of_mem _ he')]
    rw [entries]
    dsimp only
    rw [if_pos hopen, (readDb_opened ..).disk]
    exact hmap _ hread
  have hscan : (s.scanEntries now c).2
      = (s.entries (objDb c)).2.filter fun e => !(s₀.isExpired now c e.1).2 := by
    have hfirst : (s.entries (objDb c)).1 = s₀ := rfl
    rw [scanEntries]
    split_ifs with hup
    · rw [hfirst]
      exact (dropExpired_spec (P := fun s' => s' = s₀ ∨ s' = (s₀.readDb expDb).1)
        (fun s' hs' k => isExpired_reopened hs' now c k) _ (.inl rfl)).2
    · refine (filter_eq_self.mpr fun e _ => ?_).symm
      rw [hfirst] at hup
      rw [isExpired, if_neg hup]
      rfl
  rw [hscan, ← hkeys, filter_map]
  rfl

/-- `scan_entries` looks at the expiry times of the collection. -/
structure Checks (s : LmdbStore T) (c : String) : Prop where
  up : s.hasAnyTtl = true
  objects : s.Opens ∅ (objDb c)
  expiry : s.Opens {objDb c} expDb

/-- With the objects open, an expiry is found if it is on disk and its sub-database can be opened. -/
theorem isExpired_opened_iff {s : LmdbStore T} {k : String} (hk : k ∈ diskKeys s c)
    (hopen : (s.readDb (objDb c)).2 = true) :
    ((s.readDb (objDb c)).1.isExpired now c k).2 = true ↔ s.Checks c ∧ s.expired now c k = true := by
  have hopened := readDb_opened s (objDb c)
  have hobj := (readDb_of_diskKeys s hk).mp hopen
  have hdbs : (s.readDb (objDb c)).1.dbs = {objDb c} ∪ s.dbs := by
    refine Finset.Subset.antisymm ?_ (Finset.union_subset
      (Finset.singleton_subset_iff.mpr (mem_dbs_of_readDb hopen)) (readDb_dbs s _))
    unfold readDb
    split_ifs
    · exact Finset.subset_union_right
    · exact (Finset.insert_eq ..).subset
    · exact Finset.subset_union_right
  rw [isExpired, hopened.flag]
  by_cases hup : s.hasAnyTtl = true
  swap
  · rw [if_neg hup]
    exact iff_of_false Bool.false_ne_true fun h => hup h.1.up
  rw [if_pos hup, readExpiry]
  dsimp only
  rw [(readDb_opened ..).disk, hopened.disk]
  cases hexp : s.disk.get expDb (expKey c k) with
  | none => simp [expired, hexp]
  | some x =>
    have hdisk : expDb ∈ (s.readDb (objDb c)).1.disk := hopened.disk ▸ Nested.mem_of_get hexp
    have hfound : (((s.readDb (objDb c)).1).readDb expDb).2 = true ↔ s.Opens {objDb c} expDb := by
      rw [readDb_snd_iff _ hdisk, Opens, Opens, hdbs, Finset.empty_union, Finset.mem_union,
        Finset.mem_singleton, or_iff_right (objDb_ne_expDb c).symm]
    have hchecks : s.Checks c ↔ s.Opens {objDb c} expDb := ⟨fun h => h.expiry, fun h => ⟨hup, hobj, h⟩⟩
    rw [hchecks, ← hfound, expired, hexp]
    split_ifs with hr
    · simp [hr]
    · simp [hr]

/-! ### The cursor scan and the default -/

section Default

variable (hread : ∀ e ∈ s.disk.entries (objDb c), (Text.toValue e.2).isSome = true)
include hread

/-- The keys that `scan_entries` lists, in order. -/
theorem sort_scanEntries : ((s.scanEntries now c).2.map Prod.fst).insertionSort (· ≤ ·)
      = (s.listed c).filter fun k => !((s.readDb (objDb c)).1.isExpired now c k).2 := by
  rw [listed]
  split_ifs with hopen
  · rw [map_fst_scanEntries now hopen hread, insertionSort_filter (Nested.nodup_entries ..)]
    rfl
  · -- the collection does not exist, or its sub-database cannot be opened
    have hentries : (s.entries (objDb c)).2 = [] := by
      rw [entries]
      dsimp only
      rw [if_neg hopen]
    have hnil : (s.scanEntries now c).2 = [] := by
      rw [scanEntries]
      split_ifs
      · rw [hentries]
        rfl
      · exact hentries
    rw [hnil]
    rfl

theorem scanRangeDefault_eq (after start stop : Option String) (limit : ℕ) :
    (s.scanRangeDefault now c after start stop limit).2
      = ((above after ((s.listed c).filter (within start stop))).filter fun k =>
          !((s.readDb (objDb c)).1.isExpired now c k).2).take limit := by
  rw [scanRangeDefault]
  dsimp only
  rw [sort_scanEntries s now hread, above_filter, above_filter, filter_filter, filter_filter,
    filter_filter]
  refine congrArg (take limit) (filter_congr fun k _ => ?_)
  rw [within, Bool.and_comm]

end Default

/-- **When the cursor scan lists what the default of the trait lists**, for every content of the
collection whose values can be read, every expiry time and all bounds: none of the keys that it lists
has expired, unless the default does not look.  The default lists the keys of the range that have not
expired, as long as it finds the sub-databases, and the guard is up for the keys that expire. -/
theorem scanRange_eq_default_iff (s : LmdbStore T) (now : ℕ) (c : String)
    (hread : ∀ e ∈ s.disk.entries (objDb c), (Text.toValue e.2).isSome = true)
    (after start stop : Option String) (limit : ℕ) :
    ((s.scanRange c after start stop limit).2 = (s.scanRangeDefault now c after start stop limit).2 ↔
      (s.Checks c → ∀ k ∈ page limit ((diskKeys s c).filter (within start stop)) after,
        s.expired now c k = false)) ∧
    (s.Opens ∅ (objDb c) → s.Opens {objDb c} expDb →
      (s.hasAnyTtl = false → ∀ k, s.disk.get expDb (expKey c k) = none) →
      (s.scanRangeDefault now c after start stop limit).2
        = page limit ((s.liveKeys now c).filter (within start stop)) after) := by
  have hdead : ∀ {k}, k ∈ s.listed c → (((s.readDb (objDb c)).1.isExpired now c k).2 = true ↔
      s.Checks c ∧ s.expired now c k = true) := by
    intro k hk
    obtain ⟨hopen, hk⟩ := (mem_listed s).mp hk
    exact isExpired_opened_iff now hk ((readDb_of_diskKeys s hk).mpr hopen)
  have hof : ∀ {k}, k ∈ above after ((s.listed c).filter (within start stop)) → k ∈ s.listed c :=
    fun hk => (mem_filter.mp (mem_above.mp hk).1).1
  have hall : s.Opens ∅ (objDb c) → s.listed c = diskKeys s c := fun hopens =>
    List.Pairwise.eq_of_mem_iff (pairwise_listed s c) (pairwise_diskKeys s c) fun k =>
      (mem_listed s).trans (and_iff_right hopens)
  rw [scanRangeDefault_eq s now hread]
  constructor
  · rw [(scanRange_spec (Or.inl rfl) after start stop limit).2, page, eq_comm, take_filter_eq_take_iff]
    constructor
    · intro hlive hchecks k hk
      rw [← hall hchecks.objects] at hk
      have hnot := hlive k hk
      rw [Bool.not_eq_true', ← Bool.not_eq_true, hdead (hof (mem_of_mem_take hk)), not_and] at hnot
      exact Bool.eq_false_of_not_eq_true (hnot hchecks)
    · intro hlive k hk
      rw [Bool.not_eq_true', ← Bool.not_eq_true, hdead (hof (mem_of_mem_take hk))]
      rintro ⟨hchecks, hexp⟩
      rw [hall hchecks.objects] at hk
      rw [hlive hchecks k hk] at hexp
      exact Bool.false_ne_true hexp
  · intro hopens hexp hguard
    rw [page, liveKeys, ← hall hopens, filter_filter, above_filter, above_filter, filter_filter]
    refine congrArg (take limit) (filter_congr fun k hk => ?_)
    rw [Bool.and_comm, Bool.eq_iff_iff.mpr (hdead (mem_filter.mp hk).1 |>.trans ?_)]
    refine and_iff_right_of_imp fun hdue => ⟨?_, hopens, hexp⟩
    by_contra hdown
    rw [expired, hguard (Bool.eq_false_of_not_eq_true hdown)] at hdue
    exact Bool.false_ne_true hdue

/-- Three keys with a common start, one of them expired at time 5. -/
def threeKeys : LmdbStore Value where
  disk := ((((∅ : Nested String Value).insert (objDb "kv") "ab" .null).insert (objDb "kv") "ac"
    .null).insert (objDb "kv") "b" .null).insert expDb (expKey "kv" "ab") (.int 5)
  dbs := ∅
  hasAnyTtl := true

/-- A range without the expired key. -/
theorem scanRange_eq_default_iff_threeKeys :
    (∀ e ∈ threeKeys.disk.entries (objDb "kv"), (Text.toValue e.2).isSome = true) ∧
      (threeKeys.scanRange "kv" none (some "b") none 10).2
        = (threeKeys.scanRangeDefault 5 "kv" none (some "b") none 10).2 ∧
      (threeKeys.scanRangeDefault 5 "kv" none (some "a") none 10).2
        = page 10 ((threeKeys.liveKeys 5 "kv").filter (within (some "a") none)) none := by
  have hread : ∀ e ∈ threeKeys.disk.entries (objDb "kv"), (Text.toValue e.2).isSome = true :=
    fun e _ => rfl
  exact ⟨hread, (threeKeys.scanRange_eq_default_iff 5 "kv" hread none (some "b") none 10).1.mpr
      fun _ => by decide +kernel,
    (threeKeys.scanRange_eq_default_iff 5 "kv" hread none (some "a") none 10).2 (by decide) (by decide)
      fun hdown => by cases hdown⟩

/-- **The cursor scan lists an expired key.** -/
theorem threeKeys_lists_expired : (threeKeys.scanRange "kv" none (some "a") none 10).2 = ["ab", "ac"] ∧
    (threeKeys.scanRangeDefault 5 "kv" none (some "a") none 10).2 = ["ac"] := by
  decide +kernel

/-! ### Scans of a store without handles -/

end LmdbStore

/-- The keys of a collection in order, whether they have expired or not. -/
def TextStore.storedKeys {T : Type} (t : TextStore T) (c : String) : List String :=
  ((t.mem.objects.entries c).map Prod.fst).insertionSort (· ≤ ·)

theorem TextStore.mem_storedKeys {T : Type} {t : TextStore T} {c k : String} :
    k ∈ t.storedKeys c ↔ (t.mem.objects.get c k).isSome := by
  rw [storedKeys, (perm_insertionSort _ _).mem_iff, mem_map, Option.isSome_iff_exists]
  constructor
  · rintro ⟨⟨k', v⟩, hmem, rfl⟩
    exact ⟨v, (Nested.mem_entries ..).mp hmem⟩
  · rintro ⟨v, hv⟩
    exact ⟨(k, v), (Nested.mem_entries ..).mpr hv, rfl⟩

theorem TextStore.pairwise_storedKeys {T : Type} (t : TextStore T) (c : String) :
    (t.storedKeys c).Pairwise (· < ·) :=
  pairwise_lt_insertionSort (Nested.nodup_entries ..)

namespace LmdbStore.Sim

variable {T : Type} [Text T] {C : Finset String} {s s' : LmdbStore T} {t : TextStore T} {c : String}

theorem diskKeys_eq (h : Sim C s t) (c : String) : diskKeys s c = t.storedKeys c := by
  refine List.Pairwise.eq_of_mem_iff (pairwise_diskKeys s c) (t.pairwise_storedKeys c) fun k => ?_
  rw [mem_diskKeys, TextStore.mem_storedKeys, h.mirrors.objects, Option.isSome_map]

/-- The handle is missing only if there is no such collection. -/
theorem listed_eq (h : Sim C s t) (c : String) : s.listed c = t.storedKeys c := by
  rw [← h.diskKeys_eq, listed]
  split_ifs with hopen
  · rfl
  · rw [diskKeys, Nested.entries_of_notMem
      ((h.fits.readDb h.room (objDb c)).2.2 (Bool.eq_false_of_not_eq_true hopen))]
    rfl

theorem scanned (h : Sim C s t) (hs : Scanned s c s') : Sim C s' t := by
  have hobj := h.of_leaves (h.fits.readDb h.room (objDb c)).1
  obtain rfl | rfl | ⟨-, rfl⟩ := hs
  · exact h
  · exact hobj
  · exact hobj.of_leaves (hobj.fits.readDb hobj.room expDb).1

end LmdbStore.Sim

/-! ### The bucket scan is the filtered scan -/

/-- The first `limit` keys after the cursor, of those that are there and whose bucket is in the list. -/
def FirstKeys (live : String → Prop) (buckets : List ℕ) (after : Option String) (limit : ℕ)
    (keys : List String) : Prop :=
  ∃ all : List String, all.Pairwise (· < ·) ∧
    (∀ k, k ∈ all ↔ live k ∧ (∀ a ∈ after, a < k) ∧ bucketOf k ∈ buckets) ∧ keys = all.take limit

theorem firstKeys_iff {l : List String} (h : l.Pairwise (· < ·)) {live : String → Prop}
    (hl : ∀ k, k ∈ l ↔ live k) {buckets : List ℕ} {after : Option String} {limit : ℕ}
    {keys : List String} : FirstKeys live buckets after limit keys ↔
      keys = page limit (l.filter fun k => bucketOf k ∈ buckets) after := by
  have hmem : ∀ k, k ∈ above after (l.filter fun k => bucketOf k ∈ buckets) ↔
      live k ∧ (∀ a ∈ after, a < k) ∧ bucketOf k ∈ buckets := by
    intro k
    rw [mem_above, mem_filter, hl, decide_eq_true_eq]
    tauto
  have hsorted : (above after (l.filter fun k => bucketOf k ∈ buckets)).Pairwise (· < ·) :=
    (h.filter _).filter _
  constructor
  · rintro ⟨all, hall, hkeys, rfl⟩
    rw [page, List.Pairwise.eq_of_mem_iff hall hsorted fun k => (hkeys k).trans (hmem k).symm]
  · rintro rfl
    exact ⟨_, hsorted, hmem, rfl⟩

/-- How many pages the loop of `scan_buckets` reads if it stops after `pages` of them at the latest. -/
def IndexStore.pagesRead {St : Type} [IndexStore St] (now : ℕ) (s : St) (coll : String)
    (buckets : List ℕ) (after : Option String) (limit pages : ℕ) : ℕ :=
  (gatherPages (counted fun s cursor => (s, scanRange now s coll cursor none none scanChunk)) scanChunk
    (fun k => bucketOf k ∈ buckets) limit pages (s, 0) after []).1.2

def LmdbStore.pagesRead {T : Type} [Text T] (s : LmdbStore T) (coll : String)
    (buckets : List ℕ) (after : Option String) (limit pages : ℕ) : ℕ :=
  (gatherPages (counted fun s cursor => s.scanRange coll cursor none none scanChunk) scanChunk
    (fun k => bucketOf k ∈ buckets) limit pages (s, 0) after []).1.2

/-- The filtered scan of a durable store: what its bucket scan lists are the first live keys if none of
these keys has expired, or, when the collection cannot be opened, if there are no live keys to list. -/
theorem LmdbStore.firstKeys_scanBuckets_iff {T : Type} [Text T] (s : LmdbStore T) {limit : ℕ}
    (hlimit : 1 ≤ limit) (now : ℕ) (coll : String) (buckets : List ℕ) (after : Option String) :
    FirstKeys (· ∈ s.liveKeys now coll) buckets after limit (s.scanBuckets coll buckets after limit).2 ↔
      if s.Opens ∅ (objDb coll) then
        ∀ k ∈ page limit ((diskKeys s coll).filter fun k => bucketOf k ∈ buckets) after,
          s.expired now coll k = false
      else ∀ k ∈ s.liveKeys now coll, bucketOf k ∈ buckets → ¬∀ a ∈ after, a < k := by
  have hsorted : (s.liveKeys now coll).Pairwise (· < ·) := (pairwise_diskKeys s coll).filter _
  rw [firstKeys_iff hsorted fun k => Iff.rfl, (scanBuckets_spec ..).2, max_eq_left hlimit, page, page]
  split_ifs with hopens
  · have hall : s.listed coll = diskKeys s coll :=
      List.Pairwise.eq_of_mem_iff (pairwise_listed s coll) (pairwise_diskKeys s coll) fun k =>
        (mem_listed s).trans (and_iff_right hopens)
    have hlive : above after ((s.liveKeys now coll).filter fun k => bucketOf k ∈ buckets)
        = (above after ((diskKeys s coll).filter fun k => bucketOf k ∈ buckets)).filter fun k =>
          !s.expired now coll k := by
      rw [liveKeys, above_filter, above_filter, above_filter, filter_filter, filter_filter]
      exact filter_congr fun k _ => Bool.and_comm ..
    rw [hall, hlive, eq_comm, take_filter_eq_take_iff]
    simp only [Bool.not_eq_true']
    rfl
  · have hnil : s.listed coll = [] := eq_nil_iff_forall_not_mem.mpr fun k hk =>
      hopens ((mem_listed s).mp hk).1
    have hpos : limit ≠ 0 := by omega
    rw [hnil, filter_nil, above, filter_nil, take_nil, eq_comm, take_eq_nil_iff, or_iff_right hpos,
      eq_nil_iff_forall_not_mem]
    simp only [mem_above, mem_filter, decide_eq_true_eq, not_and]
    exact forall_congr' fun k => ⟨fun h hk hb => h ⟨hk, hb⟩, fun h hk => h hk.1 hk.2⟩

/-- **When `scan_buckets` is the filtered scan.**  Over every store with the scan of the trait it returns
the first `limit` keys of the buckets, wherever they fall in the pages; the durable store does so if none
of the first `limit` stored keys of the buckets has expired.  The loop ends by itself, with the page after
the last full one. -/
theorem scanBuckets_first_keys_iff {limit : ℕ} (hlimit : 1 ≤ limit) (now : ℕ) (coll : String)
    (buckets : List ℕ) (after : Option String) :
    (∀ {St : Type} [IndexStore St] [LawfulCells St] (s : St),
      FirstKeys (fun k => (getObject now s coll k).isSome) buckets after limit
        (scanBuckets now s coll buckets after limit) ∧
      ∀ pages, pagesRead now s coll buckets after limit pages
        ≤ 1 + (scanEntries now s coll).length / scanChunk) ∧
    ∀ {T : Type} [Text T] (s : LmdbStore T),
      (FirstKeys (· ∈ s.liveKeys now coll) buckets after limit
        (s.scanBuckets coll buckets after limit).2 ↔
        if s.Opens ∅ (LmdbStore.objDb coll) then
          ∀ k ∈ page limit ((s.diskKeys coll).filter fun k => bucketOf k ∈ buckets) after,
            s.expired now coll k = false
        else ∀ k ∈ s.liveKeys now coll, bucketOf k ∈ buckets → ¬∀ a ∈ after, a < k) ∧
      ∀ pages, s.pagesRead coll buckets after limit pages
        ≤ 1 + (s.disk.entries (LmdbStore.objDb coll)).length / scanChunk := by
  have hchunk : 0 < scanChunk := by decide
  constructor
  · intro St _ _ s
    have hsorted := pairwise_sortedKeys now s coll
    refine ⟨?_, fun pages => ?_⟩
    · rw [scanBuckets_eq, max_eq_left hlimit]
      exact (firstKeys_iff hsorted fun k => mem_sortedKeys now s coll).mpr rfl
    · have hlen : (sortedKeys now s coll).length = (scanEntries now s coll).length := by
        rw [sortedKeys, length_insertionSort, length_map]
      refine (gatherPages_counted_le (I := fun s' => s' = s) hsorted hchunk ?_ _ limit pages s 0 after []
        rfl).trans (Nat.add_le_add_left (Nat.div_le_div_right ?_) _)
      · rintro s' cursor rfl
        exact ⟨rfl, by rw [scanRange_eq, keysIn_none]⟩
      · exact (length_filter_le ..).trans hlen.le
  · intro T _ s
    refine ⟨s.firstKeys_scanBuckets_iff hlimit now coll buckets after, fun pages => ?_⟩
    refine (gatherPages_counted_le (s.pairwise_listed coll) hchunk (s.page_of_scanned coll) _ limit pages
      s 0 after [] (Or.inl rfl)).trans (Nat.add_le_add_left (Nat.div_le_div_right ?_) _)
    exact (length_filter_le ..).trans (s.length_listed_le coll)

/-- The bucket of `b`, in a durable store and in an empty one in memory. -/
theorem scanBuckets_first_keys_iff_threeKeys :
    FirstKeys (· ∈ LmdbStore.threeKeys.liveKeys 6 "kv") [bucketOf "b"] none 1
      (LmdbStore.threeKeys.scanBuckets "kv" [bucketOf "b"] none 1).2 ∧
    FirstKeys (fun k => (getObject 6 MemoryStore.new "kv" k).isSome) [bucketOf "b"] none 1
      (scanBuckets 6 MemoryStore.new "kv" [bucketOf "b"] none 1) :=
  have h := scanBuckets_first_keys_iff (le_refl 1) 6 "kv" [bucketOf "b"] none
  ⟨(h.2 LmdbStore.threeKeys).1.mpr (by decide +kernel), (h.1 MemoryStore.new).1⟩

/-- **The bucket scan lists an expired key**, which is not one of the live keys. -/
theorem threeKeys_bucket_expired :
    (LmdbStore.threeKeys.scanBuckets "kv" [bucketOf "ab"] none 1).2 = ["ab"] ∧
      "ab" ∉ LmdbStore.threeKeys.liveKeys 5 "kv" := by
  decide +kernel

end Stplr
