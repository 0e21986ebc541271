import Stplr.Ingest
import Stplr.Lib.Collect
import Stplr.Lib.Paging

/-!
# The ingest queue loses nothing that it can still reach

An accepted operation is safe when it has been applied, or is stored above the committed cursor.
The invariant `IngestState.Inv` carries this through every step of overlapping calls: each number
that is or may become a cursor is `Below` every operation still to be applied, and a stored log
that is not empty ends just under the next sequence number (`top_stored`).  Opening the queue relies on
the latter, which says nothing about an empty log: `compact` may have removed the very entries that
`next` is recovered from (`not_safe_after_empty_reopen`).  As long as no reopen finds such a log, every
accepted operation is safe (`safe_of_reopen_nonempty`).
-/

namespace Stplr

open Lib List IngestQueue
open Option (map_eq_some_iff some)

namespace IngestQueue

/-! ### Reading the uncommitted tail -/

/-- The readable operations above `start`, in key order. -/
def candidates (codec : Codec) (es : List (ℕ × String)) (start : ℕ) : List (ℕ × IngestOp) :=
  es.filterMap fun e => if start < e.1 then (codec.fromText e.2).map (Prod.mk e.1) else none

variable {es : List (ℕ × String)} (codec : Codec)

theorem readLoop_eq_collect (start limit : ℕ) (es : List (ℕ × String)) (out : List (ℕ × IngestOp)) :
    readLoop codec start limit es out = collect (fun e : ℕ × String =>
      if start < e.1 then (codec.fromText e.2).map (Prod.mk e.1) else none) limit es out := by
  induction es generalizing out with
  | nil => rfl
  | cons e es ih =>
    obtain ⟨seq, text⟩ := e
    rw [readLoop, collect]
    by_cases hs : start < seq
    · rw [if_pos hs, if_pos hs]
      cases hop : codec.fromText text with
      | none => exact ih out
      | some op =>
        dsimp only [Option.map_some]
        rw [ih]
    · rw [if_neg hs, if_neg hs]
      exact ih out

/-- `read_uncommitted` returns the first `limit` candidates, and one when `limit` is `0`. -/
theorem readUncommitted_eq (d : IngestDisk) (start limit : ℕ) :
    readUncommitted codec d start limit
      = (candidates codec d.queue.entries start).take (max limit 1) := by
  rw [readUncommitted, readLoop_eq_collect, collect_eq]
  rfl

theorem mem_candidates {codec : Codec} {start : ℕ} {o : ℕ × IngestOp} :
    o ∈ candidates codec es start ↔
      start < o.1 ∧ ∃ text, (o.1, text) ∈ es ∧ codec.fromText text = some o.2 := by
  rw [candidates, mem_filterMap]
  constructor
  · rintro ⟨⟨seq, text⟩, he, ho⟩
    dsimp only at ho
    split_ifs at ho with hs
    obtain ⟨op, hop, rfl⟩ := map_eq_some_iff.mp ho
    exact ⟨hs, text, he, hop⟩
  · rintro ⟨hs, text, he, hop⟩
    refine ⟨(o.1, text), he, ?_⟩
    rw [if_pos hs, hop]
    rfl

theorem pairwise_candidates (h : es.Pairwise fun a b => a.1 < b.1) (start : ℕ) :
    (candidates codec es start).Pairwise fun a b => a.1 < b.1 := by
  refine h.filterMap _ ?_
  intro a a' haa b hb b' hb'
  split_ifs at hb hb'
  obtain ⟨_, _, rfl⟩ := map_eq_some_iff.mp hb
  obtain ⟨_, _, rfl⟩ := map_eq_some_iff.mp hb'
  exact haa

/-- A prefix of an ascending list contains everything up to any of its elements. -/
theorem mem_take_of_le {α : Type} {l : List (ℕ × α)} (h : l.Pairwise fun a b => a.1 < b.1) {n : ℕ}
    {e o : ℕ × α} (he : e ∈ l) (ho : o ∈ l.take n) (hle : e.1 ≤ o.1) : e ∈ l.take n := by
  rw [← take_append_drop n l] at he h
  rcases mem_append.mp he with he | he
  · exact he
  · have := (pairwise_append.mp h).2.2 o ho e he
    omega

theorem mem_takeWhile_le (h : es.Pairwise fun a b => a.1 < b.1) {c k : ℕ} :
    k ∈ (es.takeWhile fun e => e.1 ≤ c).map Prod.fst ↔ k ≤ c ∧ ∃ text, (k, text) ∈ es := by
  have hdown : ∀ a ∈ es, ∀ b ∈ es, a.1 < b.1 → decide (b.1 ≤ c) = true → decide (a.1 ≤ c) = true := by
    intro a _ b _ hlt hle
    simp only [decide_eq_true_eq] at hle ⊢
    omega
  rw [takeWhile_eq_filter h hdown]
  simp only [mem_map, mem_filter, decide_eq_true_eq, Prod.exists]
  constructor
  · rintro ⟨seq, text, ⟨hmem, hle⟩, rfl⟩
    exact ⟨hle, text, hmem⟩
  · rintro ⟨hle, text, hmem⟩
    exact ⟨k, text, ⟨hmem, hle⟩, rfl⟩

/-- `compact` collects the stored keys that are not past the cursor. -/
theorem mem_appliedKeys {d : IngestDisk} {c k : ℕ} :
    k ∈ appliedKeys d c ↔ k ≤ c ∧ ∃ text, (k, text) ∈ d.queue.entries :=
  mem_takeWhile_le d.queue.sorted

end IngestQueue

/-! ### The invariant -/

namespace IngestState

/-- The operations that count: those accepted and the one whose `enqueue` has committed. -/
def items (s : IngestState) : List (ℕ × IngestOp) := s.accepted ++ s.enqueuing.toList

/-- One past the greatest sequence number handed out. -/
def top (s : IngestState) : ℕ := s.q.next + s.enqueuing.toList.length

/-- The number is below `top` and below everything that is still to be applied. -/
def Below (s : IngestState) (v : ℕ) : Prop := v < s.top ∧ ∀ e ∈ s.items, e ∉ s.applied → v < e.1

/-- What a call in progress may rely on. -/
def TaskInv (s : IngestState) : IngestTask → Prop
  | .reading start _ => s.Below start
  | .applying start ops lastOk =>
    s.Below start ∧ s.Below lastOk ∧ (ops.Pairwise fun a b => a.1 < b.1) ∧
      (∀ o ∈ ops, o.1 < s.top) ∧
      ∀ e ∈ s.items, e ∉ s.applied → ∀ o ∈ ops, e.1 ≤ o.1 → e ∈ ops
  | .persisted seq => s.Below seq ∧ 0 < s.q.disk.cursor
  | .compacting => True
  | .scanning cursor => s.Below cursor ∧ 0 < s.q.disk.cursor
  | .deleting keys =>
    (∀ k ∈ keys, s.Below k) ∧
      (∀ x ∈ s.q.disk.queue.entries, x.1 ∈ keys ∨ ∀ k ∈ keys, k < x.1) ∧ 0 < s.q.disk.cursor

/-- The invariant of the queue. -/
structure Inv (codec : Codec) (s : IngestState) : Prop where
  pending : ∀ e, s.enqueuing = some e → e.1 = s.q.next
  accepted_lt : ∀ e ∈ s.accepted, e.1 < s.q.next
  accepted_sorted : s.accepted.Pairwise fun a b => a.1 < b.1
  readable : ∀ e ∈ s.items, codec.fromText (codec.toText e.2) = some e.2
  live : ∀ e ∈ s.items, e ∉ s.applied → (e.1, codec.toText e.2) ∈ s.q.disk.queue.entries
  stored_lt : ∀ x ∈ s.q.disk.queue.entries, x.1 < s.top
  top_stored : s.q.disk.queue.entries = [] ∨ ∃ x ∈ s.q.disk.queue.entries, x.1 + 1 = s.top
  empty_pos : s.q.disk.queue.entries = [] → s.top = 1 ∨ 0 < s.q.disk.cursor
  disk_below : s.Below s.q.disk.cursor
  mem_below : s.Below s.q.committed
  mem_pos : 0 < s.q.committed → 0 < s.q.disk.cursor
  tasks : ∀ t ∈ s.tasks, s.TaskInv t

/-- What every step does to the data that the invariant of a call in progress reads: numbers
handed out later are not below `top`. -/
structure Ext (s s' : IngestState) : Prop where
  top_le : s.top ≤ s'.top
  items : ∀ e ∈ s'.items, e ∉ s'.applied → (e ∈ s.items ∧ e ∉ s.applied) ∨ s.top ≤ e.1
  stored : ∀ x ∈ s'.q.disk.queue.entries, x ∈ s.q.disk.queue.entries ∨ s.top ≤ x.1
  pos : 0 < s.q.disk.cursor → 0 < s'.q.disk.cursor

theorem Below.mono {s s' : IngestState} (h : Ext s s') {v : ℕ} (hv : s.Below v) : s'.Below v := by
  refine ⟨hv.1.trans_le h.top_le, fun e he ha => ?_⟩
  rcases h.items e he ha with ⟨hi, hn⟩ | hle
  · exact hv.2 e hi hn
  · exact hv.1.trans_le hle

theorem TaskInv.mono {s s' : IngestState} (h : Ext s s') {t : IngestTask} (ht : s.TaskInv t) :
    s'.TaskInv t := by
  cases t with
  | reading start limit => exact Below.mono h ht
  | applying start ops lastOk =>
    obtain ⟨h1, h2, h3, h4, h5⟩ := ht
    refine ⟨h1.mono h, h2.mono h, h3, fun o ho => (h4 o ho).trans_le h.top_le, ?_⟩
    intro e he ha o ho hle
    rcases h.items e he ha with ⟨hi, hn⟩ | htop
    · exact h5 e hi hn o ho hle
    · exact absurd (h4 o ho) (by omega)
  | persisted seq | scanning cursor => exact ⟨ht.1.mono h, h.pos ht.2⟩
  | compacting => exact trivial
  | deleting keys =>
    obtain ⟨h1, h2, h3⟩ := ht
    refine ⟨fun k hk => (h1 k hk).mono h, ?_, h.pos h3⟩
    intro x hx
    rcases h.stored x hx with hx | htop
    · exact h2 x hx
    · exact .inr fun k hk => (h1 k hk).1.trans_le htop

variable {codec : Codec} {s : IngestState}

/-- The start of the invariant. -/
theorem inv_init : Inv codec init where
  pending := by simp [init]
  accepted_lt := by simp [init]
  accepted_sorted := by simp [init]
  readable := by simp [init, items]
  live := by simp [init, items]
  stored_lt := by simp [init, openQueue, SortedMap.empty]
  top_stored := .inl rfl
  empty_pos := fun _ => .inl rfl
  disk_below := ⟨Nat.one_pos, by simp [init, items]⟩
  mem_below := ⟨Nat.one_pos, by simp [init, items]⟩
  mem_pos := fun h => h
  tasks := by simp [init]

/-- A step that changes only the calls in progress keeps the invariant when the calls keep
theirs. -/
theorem Inv.withTasks (h : Inv codec s) {ts : List IngestTask} (hts : ∀ t ∈ ts, s.TaskInv t) :
    Inv codec { s with tasks := ts } where
  pending := h.pending
  accepted_lt := h.accepted_lt
  accepted_sorted := h.accepted_sorted
  readable := h.readable
  live := h.live
  stored_lt := h.stored_lt
  top_stored := h.top_stored
  empty_pos := h.empty_pos
  disk_below := h.disk_below
  mem_below := h.mem_below
  mem_pos := h.mem_pos
  tasks := fun t ht => TaskInv.mono ⟨le_rfl, fun _ he ha => .inl ⟨he, ha⟩, fun _ hx => .inl hx, id⟩
    (hts t ht)

variable {s' : IngestState} {start : ℕ} {t : IngestTask}

theorem Inv.setTask (h : Inv codec s) (i : ℕ) (ht : s.TaskInv t) : Inv codec (s.setTask i t) := by
  refine h.withTasks fun t' ht' => ?_
  rcases mem_or_eq_of_mem_set ht' with hm | rfl
  · exact h.tasks t' hm
  · exact ht

theorem Inv.endTask (h : Inv codec s) (i : ℕ) : Inv codec (s.endTask i) :=
  h.withTasks fun t' ht' => h.tasks t' (mem_of_mem_eraseIdx ht')

/-! ### The steps -/

/-- A step that keeps what is handed out, stored and on disk, and applies no less. -/
theorem Ext.of_eq {s' : IngestState} (hq : s'.q.disk = s.q.disk) (htop : s'.top = s.top)
    (hitems : ∀ e ∈ s'.items, e ∈ s.items) (happ : ∀ e ∈ s.applied, e ∈ s'.applied) :
    Ext s s' where
  top_le := htop.ge
  items := fun e he ha => .inl ⟨hitems e he, fun h => ha (happ e h)⟩
  stored := fun _ hx => .inl (hq ▸ hx)
  pos := fun h => hq ▸ h

theorem Inv.enqueuePut (h : Inv codec s) (hfree : s.enqueuing = none) {op : IngestOp}
    (hop : codec.fromText (codec.toText op) = some op) :
    Inv codec { s with q := s.q.enqueuePut codec op, enqueuing := some (s.q.next, op) } := by
  have htop : s.top = s.q.next := by rw [top, hfree]; rfl
  have hitems : s.items = s.accepted := by rw [items, hfree]; exact append_nil _
  set s' : IngestState := { s with q := s.q.enqueuePut codec op, enqueuing := some (s.q.next, op) }
    with hs'
  have htop' : s'.top = s.top + 1 := by rw [htop]; rfl
  have hmem : ∀ e, e ∈ s'.items ↔ e ∈ s.items ∨ e = (s.q.next, op) := by
    intro e
    rw [hitems]
    exact mem_append.trans (or_congr_right mem_singleton)
  have hstored : ∀ x, x ∈ s'.q.disk.queue.entries ↔
      x = (s.q.next, codec.toText op) ∨ (x.1 ≠ s.q.next ∧ x ∈ s.q.disk.queue.entries) :=
    fun x => SortedMap.mem_put
  have hext : Ext s s' := by
    refine ⟨by omega, fun e he ha => ?_, fun x hx => ?_, id⟩
    · rcases (hmem e).mp he with he | rfl
      · exact .inl ⟨he, ha⟩
      · exact .inr htop.le
    · rcases (hstored x).mp hx with rfl | ⟨_, hx⟩
      · exact .inr htop.le
      · exact .inl hx
  refine ⟨?_, h.accepted_lt, h.accepted_sorted, ?_, ?_, ?_, ?_, ?_, h.disk_below.mono hext,
    h.mem_below.mono hext, h.mem_pos, fun t ht => (h.tasks t ht).mono hext⟩
  · rintro e he
    rw [← some.inj he]
    rfl
  · intro e he
    rcases (hmem e).mp he with he | rfl
    · exact h.readable e he
    · exact hop
  · intro e he ha
    rcases (hmem e).mp he with he | rfl
    · refine (hstored _).mpr (.inr ⟨?_, h.live e he ha⟩)
      exact (h.accepted_lt e (hitems ▸ he)).ne
    · exact (hstored _).mpr (.inl rfl)
  · intro x hx
    rcases (hstored x).mp hx with rfl | ⟨_, hx⟩
    · dsimp only
      omega
    · have := h.stored_lt x hx
      omega
  · exact .inr ⟨(s.q.next, codec.toText op), (hstored _).mpr (.inl rfl), by rw [htop', htop]⟩
  · intro hnil
    have := (hstored (s.q.next, codec.toText op)).mpr (.inl rfl)
    rw [hnil] at this
    exact absurd this (not_mem_nil)

theorem Inv.enqueueReturn (h : Inv codec s) {e : ℕ × IngestOp} (he : s.enqueuing = some e) :
    Inv codec
      { s with q := s.q.enqueueReturn, enqueuing := none, accepted := s.accepted ++ [e] } := by
  set s' : IngestState :=
    { s with q := s.q.enqueueReturn, enqueuing := none, accepted := s.accepted ++ [e] } with hs'
  have hnext : e.1 = s.q.next := h.pending e he
  have htop : s'.top = s.top := by simp [hs', top, he, IngestQueue.enqueueReturn]
  have hitems : s'.items = s.items := by simp [hs', items, he]
  have hext : Ext s s' := Ext.of_eq rfl htop (fun e he => hitems ▸ he) fun _ => id
  refine ⟨by simp [hs'], ?_, ?_, hitems ▸ h.readable, hitems ▸ h.live, htop ▸ h.stored_lt,
    htop ▸ h.top_stored, htop ▸ h.empty_pos, h.disk_below.mono hext, h.mem_below.mono hext,
    h.mem_pos, fun t ht => (h.tasks t ht).mono hext⟩
  · intro a ha
    have hn : s'.q.next = s.q.next + 1 := rfl
    rcases mem_append.mp ha with ha | ha
    · have := h.accepted_lt a ha
      omega
    · rw [mem_singleton.mp ha]
      omega
  · rw [pairwise_append]
    refine ⟨h.accepted_sorted, pairwise_singleton _ _, ?_⟩
    intro a ha b hb
    rw [mem_singleton.mp hb, hnext]
    exact h.accepted_lt a ha

/-- Opening the queue again finds the old `top` when the log is not empty, and when nothing was
ever enqueued. -/
theorem Inv.openQueue_next (h : Inv codec s)
    (hok : s.q.disk.queue.entries ≠ [] ∨ s.q.disk.cursor = 0) :
    (IngestQueue.openQueue s.q.disk).next = s.top := by
  rcases h.top_stored with hnil | ⟨x, hx, hxt⟩
  · have hlast := SortedMap.lastKey_eq_none.mpr hnil
    have htop : s.top = 1 := by
      rcases h.empty_pos hnil with h1 | hpos
      · exact h1
      · rcases hok with h1 | h1
        · exact absurd hnil h1
        · omega
    rw [openQueue, hlast, htop]
    rfl
  · cases hlast : s.q.disk.queue.lastKey with
    | none =>
      rw [SortedMap.lastKey_eq_none] at hlast
      rw [hlast] at hx
      exact absurd hx not_mem_nil
    | some k =>
      obtain ⟨⟨b, hb⟩, hmax⟩ := SortedMap.lastKey_spec hlast
      have h1 := hmax x hx
      have h2 := h.stored_lt (k, b) hb
      rw [openQueue, hlast]
      simp only [Option.getD_some]
      dsimp only at h2
      omega

theorem Inv.crash (h : Inv codec s) (hok : s.q.disk.queue.entries ≠ [] ∨ s.q.disk.cursor = 0) :
    Inv codec { s with q := IngestQueue.openQueue s.q.disk, enqueuing := none, tasks := [] } := by
  set s' : IngestState :=
    { s with q := openQueue s.q.disk, enqueuing := none, tasks := [] } with hs'
  have hnext : s'.q.next = s.top := h.openQueue_next hok
  have htop : s'.top = s.top := by rw [← hnext]; rfl
  have hitems : s'.items = s.accepted := append_nil _
  have hsub : ∀ e ∈ s'.items, e ∈ s.items := fun e he =>
    mem_append_left _ (hitems ▸ he)
  have hext : Ext s s' := Ext.of_eq rfl htop hsub fun _ => id
  refine ⟨by simp [hs'], ?_, h.accepted_sorted, fun e he => h.readable e (hsub e he),
    fun e he => h.live e (hsub e he), htop ▸ h.stored_lt, htop ▸ h.top_stored,
    htop ▸ h.empty_pos, h.disk_below.mono hext, h.disk_below.mono hext, id, by simp [hs']⟩
  intro e he
  have h1 := h.accepted_lt e he
  have h2 : s.q.next ≤ s.top := Nat.le_add_right _ _
  omega

theorem Below.of_le {v w : ℕ} (h : s.Below w) (hle : v ≤ w) : s.Below v :=
  ⟨hle.trans_lt h.1, fun e he ha => hle.trans_lt (h.2 e he ha)⟩

/-- The batch that `drain` reads is ascending, and a prefix of what is still to be applied. -/
theorem Inv.taskInv_read (h : Inv codec s) (hstart : s.Below start) (limit : ℕ) :
    s.TaskInv (.applying start (IngestQueue.readUncommitted codec s.q.disk start limit) start) := by
  rw [readUncommitted_eq]
  have hsorted := pairwise_candidates codec s.q.disk.queue.sorted start
  refine ⟨hstart, hstart, hsorted.sublist (take_sublist _ _), ?_, ?_⟩
  · intro o ho
    obtain ⟨_, text, htext, _⟩ := mem_candidates.mp (mem_of_mem_take ho)
    exact h.stored_lt _ htext
  · intro e he ha o ho hle
    refine mem_take_of_le hsorted ?_ ho hle
    exact mem_candidates.mpr ⟨hstart.2 e he ha, codec.toText e.2, h.live e he ha, h.readable e he⟩

variable {lastOk : ℕ}

/-- A successful application moves `lastOk` to a number below everything still to be applied. -/
theorem Inv.apply (h : Inv codec s) (i : ℕ) {o : ℕ × IngestOp} {ops : List (ℕ × IngestOp)}
    (ht : s.TaskInv (.applying start (o :: ops) lastOk)) :
    Inv codec ({ s with applied := s.applied ++ [o] }.setTask i (.applying start ops o.1)) := by
  set s' : IngestState := { s with applied := s.applied ++ [o] } with hs'
  have happ : ∀ e, e ∉ s'.applied → e ∉ s.applied ∧ e ≠ o := by
    intro e he
    rw [hs', mem_append, mem_singleton, not_or] at he
    exact he
  have hext : Ext s s' := Ext.of_eq rfl rfl (fun _ => id) fun _ he => mem_append_left _ he
  obtain ⟨hstart, -, hsorted, hlt, hupto⟩ := ht
  rw [pairwise_cons] at hsorted
  have hinv : Inv codec s' := ⟨h.pending, h.accepted_lt, h.accepted_sorted, h.readable,
      fun e he ha => h.live e he (happ e ha).1, h.stored_lt, h.top_stored, h.empty_pos,
      h.disk_below.mono hext, h.mem_below.mono hext, h.mem_pos, fun t ht => (h.tasks t ht).mono hext⟩
  refine hinv.setTask i ⟨hstart.mono hext, ⟨hlt o (mem_cons_self ..), ?_⟩, hsorted.2,
    fun o' ho' => hlt o' (mem_cons_of_mem _ ho'), ?_⟩
  · intro e he ha
    by_contra hle
    have hmem := hupto e he (happ e ha).1 o (mem_cons_self ..) (by omega)
    rcases mem_cons.mp hmem with heq | hmem
    · exact (happ e ha).2 heq
    · exact hle (hsorted.1 e hmem)
  · intro e he ha o' ho' hle
    have hmem := hupto e he (happ e ha).1 o' (mem_cons_of_mem _ ho') hle
    exact (mem_cons.mp hmem).resolve_left (happ e ha).2

theorem Inv.persist (h : Inv codec s) (i : ℕ) (hlast : s.Below lastOk) (hlt : start < lastOk) :
    Inv codec ({ s with q := s.q.persist lastOk }.setTask i (.persisted lastOk)) := by
  set s' : IngestState := { s with q := s.q.persist lastOk } with hs'
  have hpos : 0 < s'.q.disk.cursor := (Nat.zero_le start).trans_lt hlt
  have hext : Ext s s' := ⟨le_rfl, fun _ he ha => .inl ⟨he, ha⟩, fun _ hx => .inl hx, fun _ => hpos⟩
  have hinv : Inv codec s' :=
    ⟨h.pending, h.accepted_lt, h.accepted_sorted, h.readable, h.live, h.stored_lt, h.top_stored,
      fun _ => .inr hpos, hlast.mono hext, h.mem_below.mono hext, fun _ => hpos,
      fun t ht => (h.tasks t ht).mono hext⟩
  exact hinv.setTask i ⟨hlast.mono hext, hpos⟩

theorem Inv.commitMem (h : Inv codec s) (i : ℕ) {seq : ℕ} (hseq : s.Below seq)
    (hpos : 0 < s.q.disk.cursor) :
    Inv codec ({ s with q := { s.q with committed := seq } }.setTask i .compacting) := by
  set s' : IngestState := { s with q := { s.q with committed := seq } } with hs'
  have hext : Ext s s' := Ext.of_eq rfl rfl (fun _ => id) fun _ => id
  have hinv : Inv codec s' :=
    ⟨h.pending, h.accepted_lt, h.accepted_sorted, h.readable, h.live, h.stored_lt, h.top_stored,
      h.empty_pos, h.disk_below.mono hext, hseq.mono hext, fun _ => hpos,
      fun t ht => (h.tasks t ht).mono hext⟩
  exact hinv.setTask i trivial

theorem Inv.taskInv_scan (_ : Inv codec s) {cursor : ℕ} (hc : s.Below cursor)
    (hpos : 0 < s.q.disk.cursor) :
    s.TaskInv (.deleting (IngestQueue.appliedKeys s.q.disk cursor)) := by
  refine ⟨fun k hk => hc.of_le (mem_appliedKeys.mp hk).1, fun x hx => ?_, hpos⟩
  by_cases hle : x.1 ≤ cursor
  · exact .inl (mem_appliedKeys.mpr ⟨hle, x.2, hx⟩)
  · refine .inr fun k hk => ?_
    have := (mem_appliedKeys.mp hk).1
    omega

/-- The deleting transaction removes nothing that is still to be applied; when it removes the
greatest key it empties the log. -/
theorem Inv.deleteKeys (h : Inv codec s) (i : ℕ) {keys : List ℕ} (ht : s.TaskInv (.deleting keys)) :
    Inv codec ({ s with q := s.q.deleteKeys keys }.endTask i) := by
  obtain ⟨hkeys, hcover, hpos⟩ := ht
  set s' : IngestState := { s with q := s.q.deleteKeys keys } with hs'
  have hstored : ∀ x, x ∈ s'.q.disk.queue.entries ↔
      x ∈ s.q.disk.queue.entries ∧ x.1 ∉ keys := fun x => SortedMap.mem_eraseAll
  have hext : Ext s s' :=
    ⟨le_rfl, fun _ he ha => .inl ⟨he, ha⟩, fun x hx => .inl ((hstored x).mp hx).1, id⟩
  have hlive : ∀ e ∈ s'.items, e ∉ s'.applied →
      (e.1, codec.toText e.2) ∈ s'.q.disk.queue.entries := by
    intro e he ha
    refine (hstored _).mpr ⟨h.live e he ha, fun hk => ?_⟩
    exact lt_irrefl _ ((hkeys _ hk).2 e he ha)
  have htop : s'.q.disk.queue.entries = [] ∨ ∃ x ∈ s'.q.disk.queue.entries, x.1 + 1 = s'.top := by
    rcases h.top_stored with hnil | ⟨x, hx, hxt⟩
    · refine .inl (eq_nil_iff_forall_not_mem.mpr fun y hy => ?_)
      have := ((hstored y).mp hy).1
      rw [hnil] at this
      exact absurd this not_mem_nil
    · by_cases hk : x.1 ∈ keys
      · refine .inl (eq_nil_iff_forall_not_mem.mpr fun y hy => ?_)
        obtain ⟨hy, hyk⟩ := (hstored y).mp hy
        have h1 := (hcover y hy).resolve_left hyk x.1 hk
        have h2 := h.stored_lt y hy
        omega
      · exact .inr ⟨x, (hstored x).mpr ⟨hx, hk⟩, hxt⟩
  have hinv : Inv codec s' := ⟨h.pending, h.accepted_lt, h.accepted_sorted, h.readable, hlive,
      fun x hx => h.stored_lt x ((hstored x).mp hx).1, htop, fun _ => .inr hpos,
      h.disk_below.mono hext, h.mem_below.mono hext, h.mem_pos,
      fun t ht => (h.tasks t ht).mono hext⟩
  exact hinv.endTask i

theorem Inv.taskStep (h : Inv codec s) (i : ℕ) (ok : Bool) (ht : s.TaskInv t) :
    Inv codec (s.taskStep codec i ok t) := by
  cases t with
  | reading start limit => exact h.setTask i (h.taskInv_read ht limit)
  | applying start ops lastOk =>
    cases ops with
    | nil =>
      rw [IngestState.taskStep]
      split_ifs with hlt
      · exact h.persist i ht.2.1 hlt
      · exact h.endTask i
    | cons o ops =>
      rw [IngestState.taskStep]
      split_ifs
      · exact h.apply i ht
      · exact h.setTask i ⟨ht.1, ht.2.1, List.Pairwise.nil, by simp, by simp⟩
  | persisted seq => exact h.commitMem i ht.1 ht.2
  | compacting =>
    rw [IngestState.taskStep]
    split_ifs with hc
    · exact h.endTask i
    · exact h.setTask i ⟨h.mem_below, h.mem_pos (Nat.pos_of_ne_zero hc)⟩
  | scanning cursor =>
    rw [IngestState.taskStep]
    split_ifs
    · exact h.endTask i
    · exact h.setTask i (h.taskInv_scan ht.1 ht.2)
  | deleting keys => exact h.deleteKeys i ht

/-! ### Runs -/

/-- The steps that keep the queue safe: an accepted operation's JSON text reads back, and a reopen
does not find an empty log behind a positive cursor. -/
def ReopenOk (codec : Codec) (s : IngestState) : IngestLabel → Prop
  | .enqueuePut op => codec.fromText (codec.toText op) = some op
  | .crash => s.q.disk.queue.entries ≠ [] ∨ s.q.disk.cursor = 0
  | _ => True

instance (codec : Codec) (s : IngestState) (l : IngestLabel) : Decidable (ReopenOk codec s l) := by
  cases l <;> unfold ReopenOk <;> infer_instance

/-- Every accepted operation has been applied, or is stored above the cursor that a drain or a
reopen starts from. -/
def Safe (codec : Codec) (s : IngestState) : Prop := ∀ e ∈ s.accepted, e ∈ s.applied ∨
    ((e.1, codec.toText e.2) ∈ s.q.disk.queue.entries ∧ s.q.committed < e.1 ∧ s.q.disk.cursor < e.1)

theorem Inv.step (h : Inv codec s) {l : IngestLabel} (hok : ReopenOk codec s l)
    (hs : s.step codec l = some s') : Inv codec s' := by
  cases l with
  | enqueuePut op =>
    rw [IngestState.step] at hs
    split_ifs at hs with hfree
    obtain rfl := some.inj hs
    exact h.enqueuePut hfree hok
  | enqueueReturn =>
    obtain ⟨e, he, rfl⟩ := map_eq_some_iff.mp hs
    exact h.enqueueReturn he
  | drain limit =>
    obtain rfl := some.inj hs
    refine h.withTasks fun t ht => ?_
    rcases mem_append.mp ht with ht | ht
    · exact h.tasks t ht
    · rw [mem_singleton.mp ht]
      exact h.mem_below
  | compact =>
    obtain rfl := some.inj hs
    refine h.withTasks fun t ht => ?_
    rcases mem_append.mp ht with ht | ht
    · exact h.tasks t ht
    · rw [mem_singleton.mp ht]
      exact trivial
  | task i ok =>
    obtain ⟨t, ht, rfl⟩ := map_eq_some_iff.mp hs
    exact h.taskStep i ok (h.tasks t (mem_of_getElem? ht))
  | crash =>
    obtain rfl := some.inj hs
    exact h.crash hok

theorem inv_exec {ls : List IngestLabel}
    (h : exec (guarded (IngestState.step codec) (ReopenOk codec)) init ls = some s) :
    Inv codec s :=
  exec_guarded_invariant (fun _ _ _ hI => hI.step) inv_init h

theorem Inv.safe (h : Inv codec s) : Safe codec s := by
  intro e he
  have hi : e ∈ s.items := mem_append_left _ he
  by_cases ha : e ∈ s.applied
  · exact .inl ha
  · exact .inr ⟨h.live e hi ha, h.mem_below.2 e hi ha, h.disk_below.2 e hi ha⟩

end IngestState

/-! ### Draining -/

namespace IngestQueue

variable {codec : Codec}

variable {q : IngestQueue} {e : ℕ × IngestOp} (sink : ℕ × IngestOp → Bool)
  (ops : List (ℕ × IngestOp)) (limit lastOk : ℕ)

/-- With a sink that succeeds, the loop of `drain` applies the whole batch. -/
theorem applyLoop_true (applied : List (ℕ × IngestOp)) :
    applyLoop (fun _ => true) ops lastOk applied
      = ((ops.getLast?.map Prod.fst).getD lastOk, applied ++ ops) := by
  induction ops generalizing lastOk applied with
  | nil => simp [applyLoop]
  | cons o ops ih =>
    rw [applyLoop, if_pos rfl, ih]
    cases ops with
    | nil => simp
    | cons o' ops' => simp [getLast?_cons]

theorem applyLoop_acc (acc : List (ℕ × IngestOp)) :
    applyLoop sink ops lastOk acc
      = ((applyLoop sink ops lastOk []).1, acc ++ (applyLoop sink ops lastOk []).2) := by
  induction ops generalizing lastOk acc with
  | nil => simp [applyLoop]
  | cons o ops ih =>
    rw [applyLoop, applyLoop]
    split_ifs
    · rw [ih, ih o.1 ([] ++ [o]), nil_append, append_assoc]
    · rw [append_nil]

theorem applyLoop_snd : (applyLoop sink ops lastOk []).2 = ops.takeWhile sink := by
  induction ops generalizing lastOk with
  | nil => rfl
  | cons o ops ih =>
    rw [applyLoop]
    split_ifs with hs
    · rw [applyLoop_acc, ih, takeWhile_cons_of_pos hs]
      rfl
    · rw [takeWhile_cons_of_neg hs]

/-- A drain applies what it has read, up to the first failure. -/
theorem drain_snd (q : IngestQueue) (sink : ℕ × IngestOp → Bool) (limit : ℕ) :
    (q.drain codec sink limit).2
      = ((candidates codec q.disk.queue.entries q.committed).take (max limit 1)).takeWhile sink := by
  rw [← readUncommitted_eq, ← applyLoop_snd sink _ q.committed, drain]
  split_ifs <;> rfl

theorem compact_committed (q : IngestQueue) : q.compact.1.committed = q.committed := by
  rw [compact]
  dsimp only
  split_ifs <;> rfl

theorem mem_compact_of_lt {x : ℕ × String} (hx : x ∈ q.disk.queue.entries) (hlt : q.committed < x.1) :
    x ∈ q.compact.1.disk.queue.entries := by
  rw [compact]
  dsimp only
  split_ifs
  · exact hx
  · exact hx
  · refine SortedMap.mem_eraseAll.mpr ⟨hx, fun hk => ?_⟩
    have := (mem_appliedKeys.mp hk).1
    omega

/-- A drain with a succeeding sink applies a stored operation above the cursor, or leaves it
stored above a greater cursor. -/
theorem drain_progress (hread : codec.fromText (codec.toText e.2) = some e.2)
    (hst : (e.1, codec.toText e.2) ∈ q.disk.queue.entries) (hlt : q.committed < e.1) :
    e ∈ (q.drain codec (fun _ => true) limit).2 ∨
      ((e.1, codec.toText e.2) ∈ (q.drain codec (fun _ => true) limit).1.disk.queue.entries ∧
        q.committed < (q.drain codec (fun _ => true) limit).1.committed ∧
        (q.drain codec (fun _ => true) limit).1.committed < e.1) := by
  have hsorted := pairwise_candidates codec q.disk.queue.sorted q.committed
  have hcand : e ∈ candidates codec q.disk.queue.entries q.committed :=
    mem_candidates.mpr ⟨hlt, _, hst, hread⟩
  have hops := readUncommitted_eq codec q.disk q.committed limit
  set ops := readUncommitted codec q.disk q.committed limit with hopsdef
  have hne : ops ≠ [] := by
    rw [hops]
    intro hnil
    rcases take_eq_nil_iff.mp hnil with h0 | h0
    · omega
    · rw [h0] at hcand
      exact absurd hcand not_mem_nil
  obtain ⟨o, hlast⟩ : ∃ o, ops.getLast? = some o := ⟨ops.getLast hne, getLast?_eq_some_getLast hne⟩
  have hmem : o ∈ ops := mem_of_getLast? hlast
  have hpos : q.committed < o.1 := (mem_candidates.mp (mem_of_mem_take (hops ▸ hmem))).1
  rw [drain, ← hopsdef, applyLoop_true, hlast]
  simp only [Option.map_some, Option.getD_some, nil_append]
  rw [if_pos hpos]
  by_cases he : e ∈ ops
  · exact .inl he
  · have hoe : o.1 < e.1 := by
      by_contra hle
      exact he (hops ▸ mem_take_of_le hsorted hcand (hops ▸ hmem) (by omega))
    refine .inr ⟨mem_compact_of_lt hst hoe, ?_, ?_⟩
    · rw [compact_committed]
      exact hpos
    · rw [compact_committed]
      exact hoe

/-- What `n` successive drains apply when the sink succeeds. -/
def drains (codec : Codec) (limit : ℕ) : ℕ → IngestQueue → List (ℕ × IngestOp)
  | 0, _ => []
  | n + 1, q =>
    (q.drain codec (fun _ => true) limit).2 ++
      drains codec limit n (q.drain codec (fun _ => true) limit).1

theorem exists_mem_drains (hread : codec.fromText (codec.toText e.2) = some e.2) (q : IngestQueue)
    (hst : (e.1, codec.toText e.2) ∈ q.disk.queue.entries) (hlt : q.committed < e.1) :
    ∃ n, e ∈ drains codec limit n q := by
  -- each drain that does not reach the operation moves the cursor closer to it
  induction hd : e.1 - q.committed using Nat.strong_induction_on generalizing q with
  | _ d ih =>
    rcases drain_progress limit hread hst hlt with hmem | ⟨hst', hmore, hlt'⟩
    · exact ⟨1, mem_append_left _ hmem⟩
    · obtain ⟨n, hn⟩ := ih _ (by omega) _ hst' hlt' rfl
      exact ⟨n + 1, mem_append_right _ hn⟩

/-- With nothing readable above the cursor, a drain does nothing, and so do all later ones. -/
theorem drains_eq_nil (h : candidates codec q.disk.queue.entries q.committed = []) (limit n : ℕ) :
    drains codec limit n q = [] := by
  have hdrain : q.drain codec (fun _ => true) limit = (q, []) := by
    rw [drain, readUncommitted_eq, h, take_nil, applyLoop, if_neg (lt_irrefl _)]
  induction n with
  | zero => rfl
  | succ n ih => rw [drains, hdrain, nil_append, ih]

end IngestQueue

namespace IngestState

variable {codec : Codec} {s : IngestState}

/-! ### No accepted write is lost -/

/-- In every run in which no reopen finds an empty log behind a positive cursor, sequence numbers
are not reused, every accepted operation is applied or stored above the cursor, and one that is
not applied yet is applied by enough drains of any size. -/
theorem safe_of_reopen_nonempty (codec : Codec) {ls : List IngestLabel} {s : IngestState}
    (h : exec (guarded (step codec) (ReopenOk codec)) init ls = some s) :
    (s.accepted.Pairwise fun a b => a.1 < b.1) ∧ Safe codec s ∧
      ∀ e ∈ s.accepted, e ∉ s.applied → ∀ limit, 1 ≤ limit →
        ∃ n, e ∈ IngestQueue.drains codec limit n s.q := by
  have hinv := inv_exec h
  refine ⟨hinv.accepted_sorted, hinv.safe, fun e he ha limit _ => ?_⟩
  obtain ⟨hst, hlt, -⟩ := (hinv.safe e he).resolve_left ha
  exact IngestQueue.exists_mem_drains limit (hinv.readable e (mem_append_left _ he)) s.q hst hlt

/-- A put as the unit tests of the queue use it, and its JSON text. -/
def samplePut (k : String) : IngestOp := .put "kv" k (.str k)

def sampleText (k : String) : String :=
  "\x7b\"kind\":\"put\",\"coll\":\"kv\",\"key\":\"" ++ k ++ "\",\"value\":\"" ++ k ++ "\"\x7d"

/-- The JSON codec on the puts of `"a"` and `"b"`. -/
def sampleCodec : Codec where
  toText
    | .put _ k _ => sampleText k
    | _ => ""
  fromText t := ["a", "b"].findSome? fun k => if t = sampleText k then some (samplePut k) else none

/-- Two accepted puts; the sink fails on the second one, the cursor record is written, and the
process dies before the compaction. -/
def crashRun : List IngestLabel :=
  [.enqueuePut (samplePut "a"), .enqueueReturn, .enqueuePut (samplePut "b"), .enqueueReturn,
    .drain 2, .task 0 true, .task 0 true, .task 0 false, .task 0 true, .crash]

theorem safe_after_crashRun :
    ∃ s, exec (guarded (step sampleCodec) (ReopenOk sampleCodec)) init crashRun = some s ∧
      (2, samplePut "b") ∈ s.accepted ∧ (2, samplePut "b") ∉ s.applied ∧
      ∃ n, (2, samplePut "b") ∈ IngestQueue.drains sampleCodec 1 n s.q := by
  have hrun : (exec (guarded (step sampleCodec) (ReopenOk sampleCodec)) init crashRun).isSome := by
    decide
  obtain ⟨s, hs⟩ := Option.isSome_iff_exists.mp hrun
  have hacc : (exec (guarded (step sampleCodec) (ReopenOk sampleCodec)) init crashRun).map
      (fun s => (s.accepted, s.applied))
        = some ([(1, samplePut "a"), (2, samplePut "b")], [(1, samplePut "a")]) := by
    decide
  rw [hs] at hacc
  obtain ⟨h1, h2⟩ := Prod.mk.inj (Option.some.inj hacc)
  have hmem : (2, samplePut "b") ∈ s.accepted := by rw [h1]; decide
  have hnot : (2, samplePut "b") ∉ s.applied := by rw [h2]; decide
  exact ⟨s, hs, hmem, hnot, (safe_of_reopen_nonempty sampleCodec hs).2.2 _ hmem hnot 1 le_rfl⟩

/-- One put is accepted, drained and compacted away; the queue is reopened and accepts another. -/
def emptyReopenRun : List IngestLabel :=
  [.enqueuePut (samplePut "a"), .enqueueReturn, .drain 1, .task 0 true, .task 0 true, .task 0 true,
    .task 0 true, .task 0 true, .task 0 true, .task 0 true, .crash,
    .enqueuePut (samplePut "b"), .enqueueReturn]

/-- The second put of `emptyReopenRun` is stored under sequence number `1`, which is not above the
cursor, and no drain ever applies it. -/
theorem not_safe_after_empty_reopen :
    ∃ s, exec (step sampleCodec) init emptyReopenRun = some s ∧
      (1, samplePut "b") ∈ s.accepted ∧ s.q.committed = 1 ∧ ¬ Safe sampleCodec s ∧
      ∀ limit n, IngestQueue.drains sampleCodec limit n s.q = [] := by
  have hrun : (exec (step sampleCodec) init emptyReopenRun).map
      (fun s => (s.accepted, s.applied, s.q.committed, s.q.disk.queue.entries))
        = some ([(1, samplePut "a"), (1, samplePut "b")], [(1, samplePut "a")], 1,
            [(1, sampleText "b")]) := by
    decide
  obtain ⟨s, hs, heq⟩ := Option.map_eq_some_iff.mp hrun
  simp only [Prod.mk.injEq] at heq
  obtain ⟨h1, h2, h3, h4⟩ := heq
  have hmem : (1, samplePut "b") ∈ s.accepted := by rw [h1]; decide
  refine ⟨s, hs, hmem, h3, fun hsafe => ?_, fun limit n => ?_⟩
  · rcases hsafe _ hmem with happ | ⟨_, hlt, _⟩
    · rw [h2] at happ
      exact absurd happ (by decide)
    · rw [h3] at hlt
      exact lt_irrefl _ hlt
  · refine IngestQueue.drains_eq_nil ?_ limit n
    rw [h3, h4]
    rfl

end IngestState

end Stplr
