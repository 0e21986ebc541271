import Stplr.Equiv.ChangeFeed
import Stplr.Lib.Mealy
import Stplr.Lib.Paging

/-!
# Both change logs meet one specification

`LogSpec` says what a change log is for: it remembers all events in the order in which they were
appended, and which of them it still retains.  The log in memory keeps a vector and a counter
(`MemoryChangeLog.Meets`), the durable one a table that is cut off at its front
(`LmdbChangeLog.Meets`).  Both answer every list of calls as the specification does (`logs_agree`), as
long as limits are positive and offsets are committed for groups that LMDB takes as keys: the durable
log loses the offset of the group with the empty name (`commit_lost`).
-/

namespace Stplr

open Lib
open LogAnswer (events number)

/-! ### The specification -/

/-- All the events of a log, those that are retained, and the offsets. -/
structure LogSpec where
  appended : List ChangeEvent
  retained : List ChangeEvent
  offsets : String → Option ℕ

namespace LogSpec

def new : LogSpec := ⟨[], [], fun _ => none⟩

/-- Retains what `p` says, and counts the others. -/
def retain (s : LogSpec) (p : ChangeEvent → Bool) : LogSpec × ℕ :=
  ({ s with retained := s.retained.filter p }, (s.retained.filter fun e => !p e).length)

/-- The last `max` events that were appended. -/
def lastAppended (s : LogSpec) (max : ℕ) : List ChangeEvent :=
  s.appended.drop (s.appended.length - max)

/-- The first `limit` retained events after `since`. -/
def read (s : LogSpec) (since limit : ℕ) : List ChangeEvent :=
  (s.retained.filter fun e => since < e.seq).take limit

def committedOffset (s : LogSpec) (group : String) : ℕ := (s.offsets group).getD 0

def call (s : LogSpec) : LogCall → LogSpec × LogAnswer
  | .append op value set docId =>
    let ev : ChangeEvent := ⟨s.appended.length + 1, op, value, set, docId⟩
    ({ s with appended := s.appended ++ [ev], retained := s.retained ++ [ev] }, .number ev.seq)
  | .read since limit => (s, .events (s.read since limit))
  | .compact before => (s.retain fun e => before ≤ e.seq).map id .number
  | .retainLatest max => (s.retain fun e => e ∈ s.lastAppended max).map id .number
  | .latestSeq => (s, .number s.appended.length)
  | .commitOffset group seq =>
    ({ s with offsets := Function.update s.offsets group (some seq) }, .done)
  | .committedOffset group => (s, .number (s.committedOffset group))
  | .readGroup group limit => (s, .events (s.read (s.committedOffset group) limit))

/-- Events are numbered from `1` as they are appended, and the retained ones are in that order. -/
structure Numbered (s : LogSpec) : Prop where
  numbers : s.appended.map ChangeEvent.seq = List.range' 1 s.appended.length
  sublist : s.retained.Sublist s.appended

variable {s : LogSpec}

theorem numbered_new : new.Numbered := ⟨rfl, List.Sublist.slnil⟩

theorem Numbered.retain (h : s.Numbered) (p : ChangeEvent → Bool) : (s.retain p).1.Numbered :=
  ⟨h.numbers, List.filter_sublist.trans h.sublist⟩

theorem Numbered.append (h : s.Numbered) (op value set docId : String) :
    (s.call (.append op value set docId)).1.Numbered where
  numbers := by
    simp only [call, List.map_append, h.numbers, List.map_cons, List.map_nil, List.length_append,
      List.length_singleton]
    rw [List.range'_1_concat, Nat.add_comm]
  sublist := h.sublist.append_right _

/-- The numbers of the retained events ascend. -/
theorem Numbered.pairwise (h : s.Numbered) : s.retained.Pairwise fun a b => a.seq < b.seq := by
  have hall : (s.appended.map ChangeEvent.seq).Pairwise (· < ·) := by
    rw [h.numbers]
    exact List.pairwise_lt_range'
  exact (List.pairwise_map.mp hall).sublist h.sublist

variable {e : ChangeEvent}

theorem Numbered.seq_bounds (h : s.Numbered) (he : e ∈ s.retained) :
    0 < e.seq ∧ e.seq ≤ s.appended.length := by
  have hmem : e.seq ∈ s.appended.map ChangeEvent.seq := List.mem_map_of_mem (h.sublist.subset he)
  rw [h.numbers, List.mem_range'_1] at hmem
  omega

/-- An event is among the last `max` iff its number is. -/
theorem Numbered.mem_lastAppended (h : s.Numbered) (he : e ∈ s.appended) (max : ℕ) :
    e ∈ s.lastAppended max ↔ s.appended.length - max < e.seq := by
  have hseq : ∀ i (hi : i < s.appended.length), s.appended[i].seq = i + 1 := by
    intro i hi
    have hget : (s.appended.map ChangeEvent.seq)[i]? = (List.range' 1 s.appended.length)[i]? := by
      rw [h.numbers]
    rw [List.getElem?_map, List.getElem?_eq_getElem hi, List.getElem?_range' hi] at hget
    have := Option.some.inj hget
    omega
  rw [lastAppended, List.mem_drop_iff_getElem]
  constructor
  · rintro ⟨i, hi, rfl⟩
    rw [hseq]
    omega
  · intro hlt
    obtain ⟨i, hi, rfl⟩ := List.mem_iff_getElem.mp he
    rw [hseq] at hlt
    refine ⟨i - (s.appended.length - max), by omega, ?_⟩
    congr 1
    omega

theorem retain_congr {p q : ChangeEvent → Bool} (h : ∀ e ∈ s.retained, p e = q e) :
    s.retain p = s.retain q := by
  have hnot : s.retained.filter (fun e => !p e) = s.retained.filter fun e => !q e :=
    List.filter_congr fun e he => by rw [h e he]
  rw [retain, retain, List.filter_congr h, hnot]

theorem retain_eq_self {p : ChangeEvent → Bool} (h : ∀ e ∈ s.retained, p e = true) :
    s.retain p = (s, 0) := by
  have hnone : s.retained.filter (fun e => !p e) = [] :=
    List.filter_eq_nil_iff.mpr fun e he => by simp [h e he]
  rw [retain, List.filter_eq_self.mpr h, hnone]
  rfl

/-- What `retain_latest` of the trait does: a compaction, unless the log is short. -/
theorem Numbered.retain_lastAppended (h : s.Numbered) (max : ℕ) :
    s.retain (fun e => e ∈ s.lastAppended max) = if max < s.appended.length then
      s.retain fun e => s.appended.length - max + 1 ≤ e.seq else (s, 0) := by
  have hmem : ∀ e ∈ s.retained, (e ∈ s.lastAppended max ↔ s.appended.length - max < e.seq) :=
    fun e he => h.mem_lastAppended (h.sublist.subset he) max
  split_ifs with hlt
  · exact retain_congr fun e he => decide_eq_decide.mpr (hmem e he)
  · refine retain_eq_self fun e he => decide_eq_true ((hmem e he).mpr ?_)
    have := (h.seq_bounds he).1
    omega

theorem Numbered.call (h : s.Numbered) (c : LogCall) : (s.call c).1.Numbered := by
  cases c with
  | append op value set docId => exact h.append op value set docId
  | compact before => exact h.retain _
  | retainLatest max => exact h.retain _
  | commitOffset group seq => exact ⟨h.numbers, h.sublist⟩
  | read | latestSeq | committedOffset | readGroup => exact h

theorem Numbered.pairwise_read (h : s.Numbered) (since limit : ℕ) :
    (s.read since limit).Pairwise fun a b => a.seq < b.seq :=
  (h.pairwise.filter _).sublist (List.take_sublist ..)

end LogSpec

/-- The events of an answer ascend. -/
def LogAnswer.Ascending : LogAnswer → Prop
  | .events es => es.Pairwise fun a b => a.seq < b.seq
  | _ => True

variable {s : LogSpec}

theorem LogSpec.Numbered.ascending (h : s.Numbered) (c : LogCall) : (s.call c).2.Ascending := by
  cases c with
  | read since limit => exact h.pairwise_read since limit
  | readGroup group limit => exact h.pairwise_read _ limit
  | append | compact | retainLatest | latestSeq | commitOffset | committedOffset => trivial

/-! ### The log in memory -/

namespace MemoryChangeLog

structure Meets (log : MemoryChangeLog) (s : LogSpec) : Prop where
  numbered : s.Numbered
  inner : log.inner = s.retained
  next : log.next = s.appended.length
  offsets : log.offsets = s.offsets

variable {log : MemoryChangeLog} {s : LogSpec}

theorem meets_new : Meets new LogSpec.new := ⟨LogSpec.numbered_new, rfl, rfl, rfl⟩

theorem Meets.compact (h : Meets log s) (before : ℕ) :
    (log.compact before).2 = (s.retain fun e => before ≤ e.seq).2 ∧
      Meets (log.compact before).1 (s.retain fun e => before ≤ e.seq).1 := by
  refine ⟨?_, h.numbered.retain _, ?_, h.next, h.offsets⟩
  · have hlen := List.length_eq_length_filter_add (l := log.inner) fun e => decide (before ≤ e.seq)
    rw [MemoryChangeLog.compact, LogSpec.retain, ← h.inner]
    dsimp only
    omega
  · rw [MemoryChangeLog.compact, LogSpec.retain, h.inner]

theorem Meets.retainLatest (h : Meets log s) (max : ℕ) :
    (log.retainLatest max).2 = (s.retain fun e => e ∈ s.lastAppended max).2 ∧
      Meets (log.retainLatest max).1 (s.retain fun e => e ∈ s.lastAppended max).1 := by
  rw [h.numbered.retain_lastAppended, MemoryChangeLog.retainLatest, latestSeq, h.next]
  split_ifs
  · exact h.compact _
  · exact ⟨rfl, h⟩

theorem Meets.read (h : Meets log s) (since limit : ℕ) : log.read since limit = s.read since limit := by
  rw [MemoryChangeLog.read, LogSpec.read, h.inner]

theorem Meets.committedOffset (h : Meets log s) (group : String) :
    log.committedOffset group = s.committedOffset group := by
  rw [MemoryChangeLog.committedOffset, LogSpec.committedOffset, h.offsets]

theorem Meets.call (h : Meets log s) (c : LogCall) :
    (log.call c).2 = (s.call c).2 ∧ Meets (log.call c).1 (s.call c).1 := by
  cases c with
  | append op value set docId =>
    refine ⟨congrArg (fun n => number (n + 1)) h.next, h.numbered.append op value set docId,
      ?_, ?_, h.offsets⟩
    · simp only [MemoryChangeLog.call, append, LogSpec.call, Prod.map, id_eq, h.inner, h.next]
    · simp only [MemoryChangeLog.call, append, LogSpec.call, Prod.map, id_eq, h.next,
        List.length_append, List.length_singleton]
  | read since limit => exact ⟨congrArg events (h.read since limit), h⟩
  | compact before =>
    obtain ⟨hcount, hmeets⟩ := h.compact before
    exact ⟨congrArg number hcount, hmeets⟩
  | retainLatest max =>
    obtain ⟨hcount, hmeets⟩ := h.retainLatest max
    exact ⟨congrArg number hcount, hmeets⟩
  | latestSeq => exact ⟨congrArg number h.next, h⟩
  | commitOffset group seq =>
    refine ⟨rfl, ⟨h.numbered.numbers, h.numbered.sublist⟩, h.inner, h.next, ?_⟩
    simp only [MemoryChangeLog.call, commitOffset, LogSpec.call, h.offsets]
  | committedOffset group => exact ⟨congrArg number (h.committedOffset group), h⟩
  | readGroup group limit =>
    refine ⟨congrArg events ?_, h⟩
    rw [readGroup, h.read, h.committedOffset]

end MemoryChangeLog

/-! ### The durable log -/

namespace LmdbChangeLog

structure Meets (log : LmdbChangeLog) (s : LogSpec) : Prop where
  numbered : s.Numbered
  stored : log.disk.db.entries = s.retained.map fun e => (e.seq, e)
  next : log.next = s.appended.length + 1
  offsets : log.disk.offsets = s.offsets

variable {log : LmdbChangeLog} {s : LogSpec}

theorem meets_new : Meets (openLog ⟨SortedMap.empty, fun _ => none⟩) LogSpec.new :=
  ⟨LogSpec.numbered_new, rfl, rfl, rfl⟩

/-- The new event is stored behind all others. -/
theorem Meets.append (h : Meets log s) (op value set docId : String) :
    Meets (log.append op value set docId).1 (s.call (.append op value set docId)).1 := by
  refine ⟨h.numbered.append op value set docId, ?_, ?_, h.offsets⟩
  swap
  · simp only [LmdbChangeLog.append, LogSpec.call, h.next, List.length_append, List.length_singleton]
  have hbelow : ∀ e ∈ log.disk.db.entries, e.1 < log.next := by
    intro e he
    rw [h.stored] at he
    obtain ⟨ev, hev, rfl⟩ := List.mem_map.mp he
    have := (h.numbered.seq_bounds hev).2
    rw [h.next]
    dsimp only
    omega
  simp only [LmdbChangeLog.append, SortedMap.entries_put_of_lt hbelow, LogSpec.call, List.map_append]
  simp only [h.stored, h.next, List.map_cons, List.map_nil]

theorem Meets.compacted (h : Meets log s) (before : ℕ) : log.compacted before
    = (s.retained.filter fun e => !decide (before ≤ e.seq)).map ChangeEvent.seq := by
  have hkeys : log.keysBelow before
      = (s.retained.filter fun e => !decide (before ≤ e.seq)).map ChangeEvent.seq := by
    rw [keysBelow, takeWhile_eq_filter log.disk.db.sorted, h.stored, List.filter_map, List.map_map]
    · have hcond : s.retained.filter ((fun e : ℕ × ChangeEvent => decide (e.1 < before)) ∘
          fun e => (e.seq, e)) = s.retained.filter fun e => !decide (before ≤ e.seq) :=
        List.filter_congr fun e _ => by
          rw [← decide_not]
          exact decide_eq_decide.mpr not_le.symm
      rw [hcond]
      rfl
    · intro a _ b _ hab hb
      exact decide_eq_true (hab.trans (of_decide_eq_true hb))
  rw [LmdbChangeLog.compacted]
  split_ifs with hone
  · -- the numbers start at `1`
    rw [List.filter_eq_nil_iff.mpr]
    · rfl
    · intro e he
      have := (h.numbered.seq_bounds he).1
      have hle : before ≤ e.seq := by omega
      simp [hle]
  · exact hkeys

theorem Meets.compact (h : Meets log s) (before : ℕ) :
    (log.compact before).2 = (s.retain fun e => before ≤ e.seq).2 ∧
      Meets (log.compact before).1 (s.retain fun e => before ≤ e.seq).1 := by
  have hkeys := h.compacted before
  rw [LmdbChangeLog.compact]
  dsimp only
  by_cases hnil : log.compacted before = []
  · -- nothing is below `before`
    have hall : ∀ e ∈ s.retained, decide (before ≤ e.seq) = true := by
      rw [hkeys, List.map_eq_nil_iff, List.filter_eq_nil_iff] at hnil
      simpa using hnil
    rw [if_pos hnil, LogSpec.retain_eq_self hall]
    exact ⟨rfl, h⟩
  · rw [if_neg hnil]
    refine ⟨?_, h.numbered.retain _, ?_, h.next, h.offsets⟩
    · rw [hkeys, List.length_map]
      rfl
    · have hkept : ∀ e ∈ s.retained, decide (e.seq ∉ log.compacted before) = decide (before ≤ e.seq) := by
        intro e he
        refine decide_eq_decide.mpr ?_
        rw [hkeys, List.mem_map]
        constructor
        · intro hnot
          by_contra hlt
          exact hnot ⟨e, List.mem_filter.mpr ⟨he, by simpa using hlt⟩, rfl⟩
        · rintro hle ⟨e', he', heq⟩
          have : ¬before ≤ e'.seq := by simpa using (List.mem_filter.mp he').2
          omega
      rw [SortedMap.eraseAll, LogSpec.retain]
      dsimp only
      rw [h.stored, List.filter_map, ← List.filter_congr hkept]
      rfl

theorem Meets.retainLatest (h : Meets log s) (max : ℕ) :
    (log.retainLatest max).2 = (s.retain fun e => e ∈ s.lastAppended max).2 ∧
      Meets (log.retainLatest max).1 (s.retain fun e => e ∈ s.lastAppended max).1 := by
  have hlatest : log.latestSeq = s.appended.length := by rw [latestSeq, h.next]; rfl
  rw [h.numbered.retain_lastAppended, LmdbChangeLog.retainLatest, retainBefore, hlatest]
  by_cases hlt : max < s.appended.length
  · rw [if_pos hlt, if_pos hlt]
    exact h.compact _
  · rw [if_neg hlt, if_neg hlt]
    exact ⟨rfl, h⟩

/-- A positive limit, which is checked after an event has been taken. -/
theorem Meets.read (h : Meets log s) (since : ℕ) {limit : ℕ} (hlimit : 0 < limit) :
    log.read since limit = s.read since limit := by
  have hevents : (s.retained.map fun e => (e.seq, e)).map Prod.snd = s.retained := by
    rw [List.map_map]
    exact List.map_id' _
  rw [read_eq_take, h.stored, hevents, max_eq_left hlimit, LogSpec.read]

theorem Meets.committedOffset (h : Meets log s) (group : String) :
    log.committedOffset group = s.committedOffset group := by
  rw [LmdbChangeLog.committedOffset, LogSpec.committedOffset, h.offsets]

end LmdbChangeLog

/-- The limit of a read is positive. -/
def LogCall.LimitPos : LogCall → Prop
  | .read _ limit | .readGroup _ limit => 0 < limit
  | _ => True

/-- The group of a commit is a key that LMDB takes. -/
def LogCall.GroupValid : LogCall → Prop
  | .commitOffset group _ => LmdbStore.ValidKey group
  | _ => True

theorem LmdbChangeLog.Meets.call {log : LmdbChangeLog} (h : Meets log s) {c : LogCall}
    (hlimit : c.LimitPos) (hgroup : c.GroupValid) :
    (log.call c).2 = (s.call c).2 ∧ Meets (log.call c).1 (s.call c).1 := by
  cases c with
  | append op value set docId =>
    exact ⟨congrArg number h.next, h.append op value set docId⟩
  | read since limit => exact ⟨congrArg events (h.read since hlimit), h⟩
  | compact before =>
    obtain ⟨hcount, hmeets⟩ := h.compact before
    exact ⟨congrArg number hcount, hmeets⟩
  | retainLatest max =>
    obtain ⟨hcount, hmeets⟩ := h.retainLatest max
    exact ⟨congrArg number hcount, hmeets⟩
  | latestSeq =>
    refine ⟨congrArg number ?_, h⟩
    rw [latestSeq, h.next]
    rfl
  | commitOffset group seq =>
    have hkey : LmdbStore.ValidKey group := hgroup
    refine ⟨rfl, ?_⟩
    simp only [LmdbChangeLog.call, commitOffset, if_pos hkey]
    refine ⟨⟨h.numbered.numbers, h.numbered.sublist⟩, h.stored, h.next, ?_⟩
    simp only [LogSpec.call, h.offsets]
  | committedOffset group => exact ⟨congrArg number (h.committedOffset group), h⟩
  | readGroup group limit =>
    refine ⟨congrArg events ?_, h⟩
    rw [readGroup, h.read _ hlimit, h.committedOffset]

/-- **The change logs implement one specification**: the answers to every list of calls with positive
limits are those of `LogSpec`, provided that offsets are committed for groups that LMDB takes. -/
theorem logs_agree (calls : List LogCall) (hlimits : ∀ c ∈ calls, c.LimitPos)
    (hgroups : ∀ c ∈ calls, c.GroupValid) :
    answers MemoryChangeLog.call MemoryChangeLog.new calls = answers LogSpec.call LogSpec.new calls ∧
    answers LmdbChangeLog.call (LmdbChangeLog.openLog ⟨SortedMap.empty, fun _ => none⟩) calls
      = answers LogSpec.call LogSpec.new calls ∧
    ∀ a ∈ answers LogSpec.call LogSpec.new calls, a.Ascending := by
  refine ⟨?_, ?_, ?_⟩
  · exact answers_eq_of_sim (A := fun _ => True) (fun log s c h _ => h.call c)
      MemoryChangeLog.meets_new fun _ _ => trivial
  · exact answers_eq_of_sim (A := fun c => c.LimitPos ∧ c.GroupValid)
      (fun log s c h hc => h.call hc.1 hc.2) LmdbChangeLog.meets_new
      fun c hc => ⟨hlimits c hc, hgroups c hc⟩
  · exact forall_answers_of_inv (fun s c h => ⟨h.call c, h.ascending c⟩) LogSpec.numbered_new calls

/-- Two events, of which the last is kept and read by a group that has committed the first. -/
def LogCall.keepLast : List LogCall :=
  [.append "add" "v" "s" "d", .append "remove" "v" "s" "d", .retainLatest 1, .commitOffset "g" 1,
    .readGroup "g" 5]

theorem logs_agree_keepLast :
    answers LmdbChangeLog.call (LmdbChangeLog.openLog ⟨SortedMap.empty, fun _ => none⟩)
        LogCall.keepLast
      = [.number 1, .number 2, .number 1, .done, .events [⟨2, "remove", "v", "s", "d"⟩]] :=
  (logs_agree LogCall.keepLast (by simp [LogCall.keepLast, LogCall.LimitPos])
    (by simp [LogCall.keepLast, LogCall.GroupValid]; decide)).2.1.trans (by decide)

/-- The offset of the group with the empty name is kept in memory and lost on disk. -/
theorem commit_lost :
    answers MemoryChangeLog.call MemoryChangeLog.new [.commitOffset "" 1, .committedOffset ""]
      = [.done, .number 1] ∧
    answers LmdbChangeLog.call (LmdbChangeLog.openLog ⟨SortedMap.empty, fun _ => none⟩)
        [.commitOffset "" 1, .committedOffset ""]
      = [.done, .number 0] := by
  decide

end Stplr
