import Stplr.Equiv.Json
import Stplr.Equiv.Lmdb
import Stplr.Writer

/-!
# Acknowledged writes

As long as LMDB takes all items, no commit panics (`Fits.putBatch`).  Then the oneshots are sent only
after the commit, so an acknowledged write is among the first `committed` requests, and the contents of
the store are those requests applied in the order of the channel (`acked_committed`).  One item that
LMDB does not take ends the task, and the connections acknowledge what it never wrote
(`acked_not_committed`).
-/

namespace Stplr

open Lib LmdbStore List Option

theorem filter_zipIdx_lt {α : Type} (l : List α) (k m : ℕ) :
    (l.zipIdx k).filter (fun e => e.2 < k + m) = (l.zipIdx k).take m := by
  induction l generalizing k m with
  | nil => simp
  | cons a l ih =>
    cases m with
    | zero =>
      rw [take_zero, filter_eq_nil_iff]
      intro e he
      have hmem := mem_zipIdx he
      simp only [decide_eq_true_eq]
      omega
    | succ m =>
      rw [zipIdx_cons, filter_cons_of_pos (by simp), take_succ_cons, ← ih (k + 1) m,
        show k + 1 + m = k + (m + 1) by omega]

namespace Writer

variable {T : Type} [Text T] {codec : JsonCodec} {C : Finset String} {s₀ : LmdbStore T}

/-- The requests applied to the contents of the store, in order. -/
def apply (s₀ : LmdbStore T) (reqs : List WriteReq) : String → String → Option T :=
  (reqs.map WriteReq.item).foldl (putContents s₀.hasAnyTtl) s₀.disk.get

theorem apply_append (reqs reqs' : List WriteReq) : apply s₀ (reqs ++ reqs')
    = (reqs'.map WriteReq.item).foldl (putContents s₀.hasAnyTtl) (apply s₀ reqs) := by
  rw [apply, map_append, foldl_append]
  rfl

/-- While the task lives: the contents are the committed requests, and oneshots are sent for these
only. -/
structure Inv (C : Finset String) (s₀ : LmdbStore T) (s : Writer T) : Prop where
  fits : Fits C s.store
  flag : s.store.hasAnyTtl = s₀.hasAnyTtl
  contents : s.store.disk.get = apply s₀ (s.log.take s.committed)
  takes : ∀ r ∈ s.log, Takes C r.item
  committed_le : s.committed ≤ s.received
  received_le : s.received ≤ s.log.length
  alive : s.pc ≠ .gone
  sent : ∀ i, s.replies[i]? = some .sent → i < s.committed
  kept : .dropped ∉ s.replies
  acked : ∀ i ∈ s.acked, s.replies[i]? = some .sent

theorem Inv.new (h : Fits C s₀) : Inv C s₀ (Writer.new s₀) where
  fits := h
  flag := rfl
  contents := rfl
  takes := fun _ hr => by cases hr
  committed_le := le_refl 0
  received_le := le_refl 0
  alive := by simp [Writer.new]
  sent := fun i hi => by simp [Writer.new] at hi
  kept := by simp [Writer.new]
  acked := fun i hi => by cases hi

variable {s s' : Writer T}

theorem Inv.conns (h : Inv C s₀ s) (conns : List ConnPc) : Inv C s₀ { s with conns } :=
  ⟨h.fits, h.flag, h.contents, h.takes, h.committed_le, h.received_le, h.alive, h.sent, h.kept,
    h.acked⟩

/-- A request at the end of the channel. -/
theorem Inv.push (h : Inv C s₀ s) {r : WriteReq} (hr : Takes C r.item) :
    Inv C s₀ { s with log := s.log ++ [r], replies := s.replies ++ [.waiting] } where
  fits := h.fits
  flag := h.flag
  contents := by
    show s.store.disk.get = apply s₀ ((s.log ++ [r]).take s.committed)
    rw [take_append_of_le_length (h.committed_le.trans h.received_le)]
    exact h.contents
  takes := fun r' hr' => by
    rcases mem_append.mp hr' with hr' | hr'
    · exact h.takes r' hr'
    · rw [mem_singleton.mp hr']
      exact hr
  committed_le := h.committed_le
  received_le := by
    have := h.received_le
    show s.received ≤ (s.log ++ [r]).length
    rw [length_append]
    omega
  alive := h.alive
  sent := fun i hi => by
    rw [getElem?_append] at hi
    split_ifs at hi
    · exact h.sent i hi
    · rw [getElem?_singleton] at hi
      split_ifs at hi
      cases hi
  kept := by
    simp [h.kept]
  acked := fun i hi => by
    have hsent := h.acked i hi
    rw [List.getElem?_append_left (List.getElem?_eq_some_iff.mp hsent).1]
    exact hsent

/-- The commit of the batch: LMDB takes all of it. -/
theorem Inv.commit (h : Inv C s₀ s) (hC : C.card < maxDbs) :
    ∃ store, s.store.putBatch (s.batch.map WriteReq.item) = some store ∧
      Inv C s₀ { s with store, committed := s.received, pc := .replying s.committed } := by
  have hbatch : ∀ item ∈ s.batch.map WriteReq.item, Takes C item := by
    intro item hitem
    obtain ⟨r, hr, rfl⟩ := mem_map.mp hitem
    exact h.takes r (mem_of_mem_take (mem_of_mem_drop hr))
  obtain ⟨store, hput, hl⟩ := h.fits.putBatch hC hbatch
  refine ⟨store, hput, ?_⟩
  constructor
  case fits => exact hl.fits
  case flag => exact hl.flag.trans h.flag
  case contents =>
    -- the batch comes right after what was committed before
    have hsplit : s.log.take s.received = s.log.take s.committed ++ s.batch := by
      have happend := take_append_drop s.committed (s.log.take s.received)
      rw [take_take, Nat.min_eq_left h.committed_le] at happend
      exact happend.symm
    show store.disk.get = apply s₀ (s.log.take s.received)
    rw [hl.get, hsplit, apply_append, ← h.contents, h.flag]
  case takes => exact h.takes
  case committed_le => exact le_refl _
  case received_le => exact h.received_le
  case alive => simp
  case sent => exact fun i hi => (h.sent i hi).trans_le h.committed_le
  case kept => exact h.kept
  case acked => exact h.acked

theorem Inv.reply (h : Inv C s₀ s) {i : ℕ} (hi : i < s.committed) (pc : WriterPc)
    (hpc : pc ≠ .gone) : Inv C s₀ { s with replies := s.replies.set i .sent, pc } where
  fits := h.fits
  flag := h.flag
  contents := h.contents
  takes := h.takes
  committed_le := h.committed_le
  received_le := h.received_le
  alive := hpc
  sent := fun j hj => by
    rcases getElem?_set_cases hj with ⟨rfl, -⟩ | ⟨-, hj⟩
    · exact hi
    · exact h.sent j hj
  kept := fun hmem => by
    rcases mem_or_eq_of_mem_set hmem with hmem | heq
    · exact h.kept hmem
    · cases heq
  acked := fun j hj => by
    have hsent := h.acked j hj
    rw [getElem?_set]
    split_ifs with hij hlt
    · rfl
    · rw [← hij] at hsent
      exact absurd (List.getElem?_eq_some_iff.mp hsent).1 hlt
    · exact hsent

theorem Inv.ack (h : Inv C s₀ s) {i : ℕ} (hi : s.replies[i]? = some .sent) :
    Inv C s₀ { s with acked := s.acked ++ [i] } where
  fits := h.fits
  flag := h.flag
  contents := h.contents
  takes := h.takes
  committed_le := h.committed_le
  received_le := h.received_le
  alive := h.alive
  sent := h.sent
  kept := h.kept
  acked := fun j hj => by
    rcases mem_append.mp hj with hj | hj
    · exact h.acked j hj
    · rw [mem_singleton.mp hj]
      exact hi

end Writer

/-- A `SET` that LMDB takes, in one of the collections `C`. -/
def WriterLabel.Taken (codec : JsonCodec) (C : Finset String) : WriterLabel → Prop
  | .send _ coll key val => Takes C (WriteReq.ofBytes codec coll key val).item
  | _ => True

instance (codec : JsonCodec) (C : Finset String) (l : WriterLabel) : Decidable (l.Taken codec C) :=
  match l with
  | .send _ _ _ _ => inferInstanceAs (Decidable (Takes C _))
  | .connect | .hangUp _ | .receive | .commit | .reply | .ack _ => inferInstanceAs (Decidable True)

namespace Writer

variable {T : Type} [Text T] {codec : JsonCodec} {C : Finset String} {s₀ : LmdbStore T}
  {s s' : Writer T}

theorem Inv.step (hC : C.card < maxDbs) {l : WriterLabel} (h : Inv C s₀ s) (hl : l.Taken codec C)
    (hstep : s.step codec l = some s') : Inv C s₀ s' := by
  cases l with
  | connect =>
    obtain rfl := some.inj hstep
    exact h.conns _
  | hangUp c =>
    simp only [Writer.step, ite_none_right_eq_some] at hstep
    obtain ⟨-, hs'⟩ := hstep
    obtain rfl := some.inj hs'
    exact h.conns _
  | send c coll key val =>
    simp only [Writer.step, if_neg h.alive, ite_none_right_eq_some] at hstep
    obtain ⟨-, -, hs'⟩ := hstep
    obtain rfl := some.inj hs'
    exact (h.push hl).conns _
  | receive =>
    simp only [Writer.step, ite_none_right_eq_some] at hstep
    obtain ⟨⟨-, hlt, -⟩, hs'⟩ := hstep
    obtain rfl := some.inj hs'
    exact ⟨h.fits, h.flag, h.contents, h.takes, Nat.le_succ_of_le h.committed_le, hlt, h.alive,
      h.sent, h.kept, h.acked⟩
  | commit =>
    obtain ⟨store, hput, hinv⟩ := h.commit hC
    simp only [Writer.step, hput, ite_none_right_eq_some] at hstep
    obtain ⟨-, hs'⟩ := hstep
    obtain rfl := some.inj hs'
    exact hinv
  | reply =>
    simp only [Writer.step] at hstep
    split at hstep
    · split_ifs at hstep with hi
      · obtain rfl := some.inj hstep
        exact h.reply hi _ (by simp)
      · obtain rfl := some.inj hstep
        exact ⟨h.fits, h.flag, h.contents, h.takes, h.committed_le, h.received_le, by simp, h.sent,
          h.kept, h.acked⟩
    · cases hstep
  | ack c =>
    simp only [Writer.step] at hstep
    split at hstep
    · split at hstep
      · rename_i hsent
        obtain rfl := some.inj hstep
        exact (h.ack hsent).conns _
      · rename_i hdropped
        exact absurd (mem_of_getElem? hdropped) h.kept
      · cases hstep
    · cases hstep

omit [Text T] in
theorem ackedWrites_eq (h : ∀ i < s.log.length, i ∈ s.acked ↔ i < s.committed) :
    s.ackedWrites = s.log.take s.committed := by
  have hfilter : s.log.zipIdx.filter (fun e => e.2 ∈ s.acked)
      = s.log.zipIdx.filter fun e => e.2 < 0 + s.committed := by
    apply filter_congr
    intro e he
    have hlt : e.2 < s.log.length := by
      have hmem := mem_zipIdx he
      omega
    rw [Nat.zero_add, decide_eq_decide]
    exact h e.2 hlt
  rw [ackedWrites, hfilter, filter_zipIdx_lt, map_take, zipIdx_map_fst]

/-- **A `SET` is acknowledged only after it is committed**, in every run in which LMDB takes all
items: an acknowledged write is one of the committed ones, these are the contents of the store, and
once all of them are acknowledged the contents are the acknowledged writes. -/
theorem acked_committed (hC : C.card < maxDbs) (hfits : Fits C s₀) {ls : List WriterLabel}
    (h : exec (guarded (Writer.step codec) fun _ l => l.Taken codec C) (Writer.new s₀) ls = some s) :
    (∀ i ∈ s.acked, i < s.committed) ∧ s.committed ≤ s.log.length ∧
      s.store.disk.get = apply s₀ (s.log.take s.committed) ∧
      ((∀ i < s.committed, i ∈ s.acked) → s.store.disk.get = apply s₀ s.ackedWrites) := by
  have hinv : Inv C s₀ s := exec_guarded_invariant (fun _ _ _ ht => ht.step hC) (Inv.new hfits) h
  have hacked : ∀ i ∈ s.acked, i < s.committed := fun i hi => hinv.sent i (hinv.acked i hi)
  refine ⟨hacked, hinv.committed_le.trans hinv.received_le, hinv.contents, fun hall => ?_⟩
  rw [ackedWrites_eq fun i _ => ⟨hacked i, hall i⟩]
  exact hinv.contents

/-- Two connections set the keys `a` and `b` in one batch. -/
def twoSets : List WriterLabel :=
  [.connect, .connect, .send 0 [107, 118] [97] [49], .send 1 [107, 118] [98] [50], .receive,
    .receive, .commit, .reply, .reply, .ack 1, .ack 0]

theorem acked_committed_twoSets : ∃ s : Writer Value,
    exec (guarded (Writer.step sampleJson) fun _ l => l.Taken sampleJson {"kv"})
      (Writer.new LmdbStore.new) twoSets = some s ∧
      s.acked = [1, 0] ∧ s.store.disk.get = apply LmdbStore.new s.ackedWrites := by
  obtain ⟨s, hrun, hacked, hcommitted⟩ : ∃ s : Writer Value,
      exec (guarded (Writer.step sampleJson) fun _ l => l.Taken sampleJson {"kv"})
        (Writer.new LmdbStore.new) twoSets = some s ∧ s.acked = [1, 0] ∧ s.committed = 2 :=
    ⟨_, rfl, rfl, rfl⟩
  refine ⟨s, hrun, hacked, (acked_committed (by decide) (Fits.new _) hrun).2.2.2 ?_⟩
  rw [hacked, hcommitted]
  decide

/-- LMDB does not take the empty key of the second connection.  Both connections acknowledge, and
nothing is written. -/
theorem acked_not_committed : ∃ s : Writer Value,
    exec (Writer.step sampleJson) (Writer.new LmdbStore.new)
      [.connect, .connect, .send 0 [107, 118] [97] [49], .send 1 [107, 118] [] [50], .receive,
        .receive, .commit, .ack 0, .ack 1] = some s ∧
      s.acked = [0, 1] ∧ s.committed = 0 ∧ s.store.disk.get (objDb "kv") "a" = none :=
  ⟨_, rfl, rfl, rfl, rfl⟩

end Writer

end Stplr
