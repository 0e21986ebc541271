import Stplr.ChangeFeed

/-!
# Sequence numbers and consumer groups of the change feed

While a log is open its counter only grows, so the numbers are new and an event that is appended after
a commit is past the committed offset (`Feed.Inv`).  Opening recovers the counter from the last key.
That is the counter that was there before as long as the newest event is still stored, and then every
group can read what was appended after its last commit (`feed_complete`).  But `compact` may have
removed it, and the next event gets an old number, which the group never sees (`numbers_reused`).
-/

namespace Stplr

open Lib List Option LmdbChangeLog

namespace LmdbChangeLog

variable {log : LmdbChangeLog}

/-! ### Reading and compacting -/

theorem read_eq (log : LmdbChangeLog) (since limit : ℕ) :
    log.read since limit = (log.disk.db.entries.filterMap fun e =>
      if since < e.2.seq then some e.2 else none).take (max limit 1) :=
  collect_eq _ _ _

theorem read_eq_take (log : LmdbChangeLog) (since limit : ℕ) :
    log.read since limit =
      ((log.disk.db.entries.map Prod.snd).filter fun e => since < e.seq).take (max limit 1) := by
  rw [read_eq, ← filterMap_eq_filter, filterMap_map]
  congr 1
  refine filterMap_congr fun e _ => ?_
  simp [Option.guard]

variable {ev : ChangeEvent} (group : String) (seq : ℕ)

/-- An event that is read is stored and after the offset. -/
theorem stored_of_mem_read {since limit : ℕ} (h : ev ∈ log.read since limit) :
    since < ev.seq ∧ ∃ k, (k, ev) ∈ log.disk.db.entries := by
  rw [read_eq] at h
  obtain ⟨e, he, hev⟩ := mem_filterMap.mp (mem_of_mem_take h)
  split_ifs at hev with hlt
  obtain rfl := some.inj hev
  exact ⟨hlt, e.1, he⟩

/-- With a limit that is large enough, every stored event after the offset is read. -/
theorem mem_read {since limit k : ℕ} (hlim : log.disk.db.entries.length ≤ limit)
    (hev : (k, ev) ∈ log.disk.db.entries) (hlt : since < ev.seq) : ev ∈ log.read since limit := by
  rw [read_eq, take_of_length_le]
  · exact mem_filterMap.mpr ⟨(k, ev), hev, if_pos hlt⟩
  · exact (length_filterMap_le _ _).trans (hlim.trans (le_max_left _ _))

theorem mem_compact {before : ℕ} {e : ℕ × ChangeEvent} :
    e ∈ (log.compact before).1.disk.db.entries ↔
      e ∈ log.disk.db.entries ∧ e.1 ∉ log.compacted before := by
  unfold compact
  by_cases h : log.compacted before = []
  · simp [h]
  · simp only [h, if_false]
    exact SortedMap.mem_eraseAll

@[simp] theorem next_compact (log : LmdbChangeLog) (before : ℕ) :
    (log.compact before).1.next = log.next := by
  unfold compact
  dsimp only
  split_ifs <;> rfl

@[simp] theorem committedOffset_compact (log : LmdbChangeLog) (before : ℕ) (g : String) :
    (log.compact before).1.committedOffset g = log.committedOffset g := by
  unfold compact
  dsimp only
  split_ifs <;> rfl

/-- A commit moves the offset of its group, if it moves anything. -/
theorem committedOffset_commitOffset (log : LmdbChangeLog) (group : String) (seq : ℕ) (g : String) :
    (log.commitOffset group seq).committedOffset g = log.committedOffset g ∨
      (g = group ∧ (log.commitOffset group seq).committedOffset g = seq) := by
  unfold commitOffset
  split_ifs with hk
  · by_cases hg : g = group
    · subst hg
      exact .inr ⟨rfl, by simp [committedOffset]⟩
    · exact .inl (by simp [committedOffset, hg])
  · exact .inl rfl

@[simp] theorem db_commitOffset : (log.commitOffset group seq).disk.db = log.disk.db := by
  unfold commitOffset
  split_ifs <;> rfl

@[simp] theorem next_commitOffset : (log.commitOffset group seq).next = log.next := by
  unfold commitOffset
  split_ifs <;> rfl

end LmdbChangeLog

/-! ### The invariant -/

namespace Feed

structure Inv (s : Feed) : Prop where
  next_pos : 0 < s.log.next
  /-- The stored numbers are below the counter. -/
  stored : ∀ e ∈ s.log.disk.db.entries, 0 < e.1 ∧ e.1 < s.log.next ∧ e.2.seq = e.1
  sorted : s.returned.Pairwise (· < ·)
  returned : ∀ n ∈ s.returned, n < s.log.next
  read : ∀ p ∈ s.read, p.2 < s.log.next
  offset : ∀ g, s.log.committedOffset g < s.log.next
  /-- What a group has to see is stored and after its offset. -/
  pending : ∀ g, ∀ ev ∈ s.pending g,
    (ev.seq, ev) ∈ s.log.disk.db.entries ∧ s.log.committedOffset g < ev.seq

variable {s : Feed}

theorem inv_new : Inv new where
  next_pos := Nat.succ_pos _
  stored e he := by cases he
  sorted := List.Pairwise.nil
  returned n hn := by cases hn
  read p hp := by cases hp
  offset g := Nat.succ_pos _
  pending g ev hev := by cases hev

variable {s' : Feed}

theorem Inv.append (h : s.Inv) {op value set docId : String}
    (hs : s.step (.append op value set docId) = some s') : s'.Inv := by
  obtain rfl := some.inj hs
  have hlt : ∀ {n}, n < s.log.next → n < s.log.next + 1 := fun hn => hn.trans (Nat.lt_succ_self _)
  refine ⟨Nat.succ_pos _, fun e he => ?_, ?_, fun n hn => ?_, fun p hp => hlt (h.read p hp),
    fun g => hlt (h.offset g), fun g ev hev => ?_⟩
  · obtain rfl | ⟨-, he⟩ := SortedMap.mem_put.mp he
    · exact ⟨h.next_pos, Nat.lt_succ_self _, rfl⟩
    · exact ⟨(h.stored e he).1, hlt (h.stored e he).2.1, (h.stored e he).2.2⟩
  · refine pairwise_append.mpr ⟨h.sorted, pairwise_singleton _ _, fun n hn m hm => ?_⟩
    rw [mem_singleton.mp hm]
    exact h.returned n hn
  · obtain hn | hn := mem_append.mp hn
    · exact hlt (h.returned n hn)
    · rw [mem_singleton.mp hn]
      exact Nat.lt_succ_self _
  · obtain hev | hev := mem_append.mp hev
    · obtain ⟨hst, hoff⟩ := h.pending g ev hev
      -- the counter is past every stored number, so nothing is overwritten
      exact ⟨SortedMap.mem_put.mpr (.inr ⟨(h.stored _ hst).2.1.ne, hst⟩), hoff⟩
    · rw [mem_singleton.mp hev]
      exact ⟨SortedMap.mem_put.mpr (.inl rfl), h.offset g⟩

theorem Inv.compact (h : s.Inv) (before : ℕ) : (s.compact before).Inv := by
  refine ⟨?_, fun e he => ?_, h.sorted, ?_, ?_, fun g => ?_, fun g ev hev => ?_⟩
  · simpa [Feed.compact] using h.next_pos
  · simpa [Feed.compact] using h.stored e (mem_compact.mp he).1
  · simpa [Feed.compact] using h.returned
  · simpa [Feed.compact] using h.read
  · simpa [Feed.compact] using h.offset g
  · obtain ⟨hev, hkept⟩ := mem_filter.mp hev
    obtain ⟨hst, hoff⟩ := h.pending g ev hev
    refine ⟨mem_compact.mpr ⟨hst, by simpa using hkept⟩, ?_⟩
    simpa [Feed.compact] using hoff

/-- A group commits the number of an event that it has read, which is below the counter. -/
theorem Inv.commit (h : s.Inv) {group : String} {seq : ℕ} (hread : (group, seq) ∈ s.read) :
    Inv { s with
      log := s.log.commitOffset group seq
      pending := Function.update s.pending group [] } := by
  refine ⟨by simpa using h.next_pos, by simpa using h.stored, h.sorted, by simpa using h.returned,
    by simpa using h.read, fun g => ?_, fun g ev hev => ?_⟩
  · rw [next_commitOffset]
    obtain heq | ⟨-, heq⟩ := s.log.committedOffset_commitOffset group seq g
    · exact heq.trans_lt (h.offset g)
    · exact heq.trans_lt (h.read _ hread)
  · have hne : g ≠ group := by
      rintro rfl
      simp at hev
    obtain heq | ⟨hg, -⟩ := s.log.committedOffset_commitOffset group seq g
    · rw [heq, db_commitOffset]
      exact h.pending g ev (by simpa [hne] using hev)
    · exact absurd hg hne

/-- The counter that opening recovers. -/
theorem Inv.openLog_next (h : s.Inv) (hok : s.keepsNewest .reopen = true) :
    (LmdbChangeLog.openLog s.log.disk).next = s.log.next := by
  show s.log.disk.db.lastKey.getD 0 + 1 = s.log.next
  have hpos := h.next_pos
  cases hlast : s.log.disk.db.lastKey with
  | none =>
    have hnil := SortedMap.lastKey_eq_none.mp hlast
    obtain h0 | ⟨e, he, -⟩ := of_decide_eq_true hok
    · show 0 + 1 = s.log.next
      unfold latestSeq at h0
      omega
    · rw [hnil] at he
      cases he
  | some k =>
    obtain ⟨⟨ev, hk⟩, hmax⟩ := SortedMap.lastKey_spec hlast
    obtain ⟨hk0, hkn, -⟩ := h.stored _ hk
    show k + 1 = s.log.next
    obtain h0 | ⟨e, he, hnew⟩ := of_decide_eq_true hok
    · unfold latestSeq at h0
      dsimp only at hk0 hkn
      omega
    · have hle := hmax e he
      unfold latestSeq at hnew
      dsimp only at hkn
      omega

theorem Inv.step (h : s.Inv) {l : FeedLabel} (hok : s.keepsNewest l = true)
    (hs : s.step l = some s') : s'.Inv := by
  cases l with
  | append op value set docId => exact h.append hs
  | compact before =>
    obtain rfl := some.inj hs
    exact h.compact before
  | retainLatest max =>
    simp only [Feed.step] at hs
    split at hs
    next before _ =>
      obtain rfl := some.inj hs
      exact h.compact before
    next =>
      obtain rfl := some.inj hs
      exact h
  | readGroup group limit =>
    obtain rfl := some.inj hs
    refine { h with read := fun p hp => ?_ }
    obtain hp | hp := mem_append.mp hp
    · exact h.read p hp
    · obtain ⟨ev, hev, rfl⟩ := mem_map.mp hp
      obtain ⟨-, k, hk⟩ := stored_of_mem_read hev
      obtain ⟨-, hlt, heq⟩ := h.stored _ hk
      exact heq ▸ hlt
  | commit group seq =>
    simp only [Feed.step] at hs
    split_ifs at hs with hread
    obtain rfl := some.inj hs
    exact h.commit hread
  | reopen =>
    obtain rfl := some.inj hs
    have hnext := h.openLog_next hok
    exact ⟨hnext ▸ h.next_pos, hnext ▸ h.stored, h.sorted, hnext ▸ h.returned, hnext ▸ h.read,
      hnext ▸ h.offset, h.pending⟩

/-! ### The feed is complete -/

/-- **Numbers are not reused and no group skips an event**, in every run in which the log is reopened
only while its newest event is stored or before the first append. -/
theorem feed_complete {ls : List FeedLabel} {s : Feed}
    (h : exec (guarded step fun s l => s.keepsNewest l = true) new ls = some s) :
    s.returned.Pairwise (· < ·) ∧
    ∀ g, ∀ ev ∈ s.pending g, ∀ limit, s.log.disk.db.entries.length ≤ limit →
      ev ∈ s.log.readGroup g limit := by
  have hinv : s.Inv := exec_guarded_invariant (fun _ _ _ hi => hi.step) inv_new h
  refine ⟨hinv.sorted, fun g ev hev limit hlim => ?_⟩
  obtain ⟨hst, hoff⟩ := hinv.pending g ev hev
  exact LmdbChangeLog.mem_read hlim hst hoff

/-- Three events, of which a group has committed the first; the log is compacted and reopened. -/
def keptRun : List FeedLabel :=
  [.append "add" "a" "s" "d", .append "add" "b" "s" "d", .readGroup "g" 1, .commit "g" 1,
    .append "remove" "a" "s" "d", .retainLatest 1, .reopen, .append "add" "c" "s" "d"]

theorem feed_complete_keptRun :
    ∃ s, exec (guarded step fun s l => s.keepsNewest l = true) new keptRun = some s ∧
      s.returned = [1, 2, 3, 4] ∧ (⟨3, "remove", "a", "s", "d"⟩ : ChangeEvent) ∈ s.pending "g" ∧
      (⟨3, "remove", "a", "s", "d"⟩ : ChangeEvent) ∈ s.log.readGroup "g" 10 := by
  have hrun : (exec (guarded step fun s l => s.keepsNewest l = true) new keptRun).map
      (fun s => (s.returned, s.pending "g", s.log.disk.db.entries.length))
        = some ([1, 2, 3, 4], [⟨3, "remove", "a", "s", "d"⟩, ⟨4, "add", "c", "s", "d"⟩], 2) := by
    decide
  obtain ⟨s, hs, heq⟩ := map_eq_some_iff.mp hrun
  simp only [Prod.mk.injEq] at heq
  obtain ⟨h1, h2, h3⟩ := heq
  have hmem : (⟨3, "remove", "a", "s", "d"⟩ : ChangeEvent) ∈ s.pending "g" := by simp [h2]
  exact ⟨s, hs, h1, hmem, (feed_complete hs).2 "g" _ hmem 10 (by omega)⟩

/-- The only event is read, committed and compacted away before the log is reopened. -/
def reusedRun : List FeedLabel :=
  [.append "add" "a" "s" "d", .readGroup "g" 10, .commit "g" 1, .compact 2, .reopen,
    .append "add" "b" "s" "d"]

/-- The second event of `reusedRun` has the number of the first one, and the group, which has not
committed since, does not read it, whatever the limit. -/
theorem numbers_reused :
    ∃ s, exec step new reusedRun = some s ∧ s.returned = [1, 1] ∧
      s.pending "g" = [⟨1, "add", "b", "s", "d"⟩] ∧ ∀ limit, s.log.readGroup "g" limit = [] := by
  have hrun : (exec step new reusedRun).map
      (fun s => (s.returned, s.pending "g", s.log.disk.db.entries, s.log.committedOffset "g"))
        = some ([1, 1], [⟨1, "add", "b", "s", "d"⟩], [(1, ⟨1, "add", "b", "s", "d"⟩)], 1) := by
    decide
  obtain ⟨s, hs, heq⟩ := map_eq_some_iff.mp hrun
  simp only [Prod.mk.injEq] at heq
  obtain ⟨h1, h2, h3, h4⟩ := heq
  refine ⟨s, hs, h1, h2, fun limit => ?_⟩
  rw [LmdbChangeLog.readGroup, LmdbChangeLog.read_eq, h3, h4]
  simp

end Feed

end Stplr
