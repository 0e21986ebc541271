import Stplr.Elector
import Stplr.Equiv.Lease

/-!
# At most one leader

A coordinator believes that it is the leader from the moment the shard grants it the lease until it
hears otherwise.  `Election.Inv` says that the lease record is on the name of every coordinator that
does, so that there is only one.  The invariant is kept as long as the shard processes no request
when the lease of another coordinator has expired that still believes (`Election.Timely`); nothing in
the loop ensures that, since a coordinator does not look at its own clock
(`two_leaders_of_late_renewal`).
-/

namespace Stplr

open Lib List Option

namespace Election

variable {St : Type} [IndexStore St] {s s' : Election St} {holders : List String}

/-- Elector `j`, which is `e`, takes itself for the leader, or will when the reply on its way
arrives. -/
def Believes (s : Election St) (j : ℕ) (e : Elector) : Prop := e.leadership.isLeader = true ∨
    e.waiting = true ∧ ∃ r ∈ s.replies, r.elector = j ∧ r.attempt = e.attempts ∧
      r.outcome.granted = true

instance (s : Election St) (j : ℕ) (e : Elector) : Decidable (s.Believes j e) :=
  inferInstanceAs (Decidable (_ ∨ _))

/-- The lease of every other elector that believes to be the leader is still running. -/
def TimelyRequest (s : Election St) (q : LeaseRequest) : Prop :=
  ∀ j < s.electors.length, ∀ e ∈ s.electors[j]?, j ≠ q.elector → s.Believes j e →
    ∀ l ∈ storedLease s.now s.shard leaderKey, l.holder = e.leadership.holder → s.now < l.expiresMs

instance (s : Election St) (q : LeaseRequest) : Decidable (s.TimelyRequest q) :=
  inferInstanceAs (Decidable (∀ j < s.electors.length, ∀ e ∈ s.electors[j]?, _))

/-- No request is processed after the lease of another believer has expired. -/
def Timely (s : Election St) : ElectionLabel → Prop
  | .process k => ∀ q ∈ s.requests[k]?, s.TimelyRequest q
  | _ => True

instance (s : Election St) : (l : ElectionLabel) → Decidable (s.Timely l)
  | .process k => inferInstanceAs (Decidable (∀ q ∈ s.requests[k]?, s.TimelyRequest q))
  | .send _ | .deliver _ | .fail _ | .tick _ => inferInstanceAs (Decidable True)

/-- The lease record is on the name of every elector that believes to be the leader. -/
structure Inv (holders : List String) (s : Election St) : Prop where
  holders : s.electors.map (·.leadership.holder) = holders
  expiry : s.shard.expiryAt leaseColl leaderKey = none
  requests : ∀ q ∈ s.requests, ∀ e ∈ s.electors[q.elector]?, q.attempt ≤ e.attempts
  replies : ∀ r ∈ s.replies, ∀ e ∈ s.electors[r.elector]?, r.attempt ≤ e.attempts
  record : ∀ j, ∀ e ∈ s.electors[j]?, s.Believes j e →
    ∃ l ∈ storedLease s.now s.shard leaderKey, l.holder = e.leadership.holder

theorem Inv.start {ttlMs now : ℕ} {shard : Shard St}
    (hexp : shard.expiryAt leaseColl leaderKey = none) :
    Inv holders (Election.start holders ttlMs shard now) where
  holders := by simp [Election.start, Elector.new, Leadership.new, Function.comp_def]
  expiry := hexp
  requests := nofun
  replies := nofun
  record := by
    intro j e he hb
    obtain ⟨h, _, rfl⟩ := mem_map.mp (mem_of_getElem? he)
    rcases hb with hb | ⟨hb, _⟩ <;> cases hb

variable {i j : ℕ} {e : Elector}

/-- Two electors of one name are one. -/
theorem Inv.eq_of_holder (h : Inv holders s) (hnd : holders.Nodup) {a b : Elector}
    (hi : s.electors[i]? = some a) (hj : s.electors[j]? = some b)
    (hab : a.leadership.holder = b.leadership.holder) : i = j := by
  have hget : ∀ {k : ℕ} {e : Elector}, s.electors[k]? = some e →
      holders[k]? = some e.leadership.holder := by
    intro k e hk
    rw [← h.holders, getElem?_map, hk, map_some]
  obtain ⟨hlt, _⟩ := List.getElem?_eq_some_iff.mp (hget hi)
  exact (List.getElem?_inj hlt hnd).mp ((hget hi).trans (hab ▸ (hget hj).symm))

/-! ### Steps -/

omit [IndexStore St] in
theorem Believes.of_subset {replies : List LeaseReply} (h : Believes { s with replies } j e)
    (hsub : ∀ r ∈ replies, r.elector = j → r ∈ s.replies) : s.Believes j e := by
  refine h.imp_right ?_
  rintro ⟨hw, r, hr, hj, hrest⟩
  exact ⟨hw, r, hsub r hr hj, hj, hrest⟩

/-- Elector `i` moves on from `e` to `e'`. -/
theorem Inv.set (h : Inv holders s) {i : ℕ} {e : Elector} (e' : Elector)
    (he : s.electors[i]? = some e) (hholder : e'.leadership.holder = e.leadership.holder)
    (hatt : e.attempts ≤ e'.attempts)
    {requests : List LeaseRequest} {replies : List LeaseReply}
    (hrequests : ∀ q ∈ requests, q ∈ s.requests ∨ q = ⟨i, e'.attempts⟩)
    (hreplies : ∀ r ∈ replies, r ∈ s.replies)
    (hbelieves : Believes { s with replies } i e' → s.Believes i e) :
    Inv holders { s with electors := s.electors.set i e', requests, replies } where
  holders := by
    obtain ⟨hi, hei⟩ := List.getElem?_eq_some_iff.mp he
    dsimp only
    rw [← h.holders, List.map_set, hholder, ← hei]
    conv_rhs => rw [← set_getElem_self hi, map_set]
  expiry := h.expiry
  requests := by
    intro q hq x hx
    rcases getElem?_set_cases hx with ⟨hqi, rfl⟩ | ⟨hqi, hx⟩
    · rcases hrequests q hq with hq | rfl
      · exact (h.requests q hq e (hqi ▸ he)).trans hatt
      · exact le_rfl
    · rcases hrequests q hq with hq | rfl
      · exact h.requests q hq x hx
      · exact absurd rfl hqi
  replies := by
    intro r hr x hx
    rcases getElem?_set_cases hx with ⟨hri, rfl⟩ | ⟨_, hx⟩
    · exact (h.replies r (hreplies r hr) e (hri ▸ he)).trans hatt
    · exact h.replies r (hreplies r hr) x hx
  record := by
    intro j x hx hb
    rcases getElem?_set_cases hx with ⟨rfl, rfl⟩ | ⟨_, hx⟩
    · rw [hholder]
      exact h.record j e he (hbelieves hb)
    · exact h.record j x hx (Believes.of_subset hb fun r hr _ => hreplies r hr)

/-- An attempt starts: no reply to it is on its way. -/
theorem Inv.send (h : Inv holders s) (hs : s.step (.send i) = some s') : Inv holders s' := by
  obtain ⟨e, he, hs⟩ := bind_eq_some_iff.mp hs
  split_ifs at hs with hw
  obtain rfl := some.inj hs
  refine h.set { e with attempts := e.attempts + 1, waiting := true } he rfl (Nat.le_succ _) ?_
    (fun _ hr => hr) ?_
  · intro q hq
    exact (mem_append.mp hq).imp_right mem_singleton.mp
  · rintro (hl | ⟨_, r, hr, rfl, hatt, _⟩)
    · exact .inl hl
    · have hle := h.replies r hr e he
      dsimp only at hatt
      omega

theorem Inv.deliver (h : Inv holders s) {k : ℕ} (hs : s.step (.deliver k) = some s') :
    Inv holders s' := by
  obtain ⟨r, hr, hs⟩ := bind_eq_some_iff.mp hs
  obtain ⟨e, he, hs⟩ := bind_eq_some_iff.mp hs
  have hsub : ∀ x ∈ s.replies.eraseIdx k, x ∈ s.replies := fun x hx => mem_of_mem_eraseIdx hx
  split_ifs at hs with hw
  · obtain rfl := some.inj hs
    refine h.set { e with leadership := e.leadership.store (some r.outcome), waiting := false } he rfl
      le_rfl (fun _ hq => .inl hq) hsub ?_
    -- it believes from now on because of the reply it was waiting for
    rintro (hl | ⟨hfalse, _⟩)
    · exact .inr ⟨hw.1, r, mem_of_getElem? hr, rfl, hw.2.symm, hl⟩
    · cases hfalse
  · obtain rfl := some.inj hs
    exact ⟨h.holders, h.expiry, h.requests, fun x hx => h.replies x (hsub x hx),
      fun j x hx hb => h.record j x hx (Believes.of_subset hb fun y hy _ => hsub y hy)⟩

theorem Inv.fail (h : Inv holders s) (hs : s.step (.fail i) = some s') : Inv holders s' := by
  obtain ⟨e, he, hs⟩ := bind_eq_some_iff.mp hs
  split_ifs at hs with hw
  obtain rfl := some.inj hs
  refine h.set { e with leadership := e.leadership.store none, waiting := false } he rfl le_rfl
    (fun _ hq => .inl hq) (fun _ hr => hr) ?_
  rintro (hl | ⟨hfalse, _⟩)
  · cases hl
  · cases hfalse

/-- A timely request is granted only if no other elector believes. -/
theorem Inv.not_believes_of_granted (h : Inv holders s) (hnd : holders.Nodup) {q : LeaseRequest}
    (hok : s.TimelyRequest q) (he : s.electors[q.elector]? = some e)
    (hg : (evaluate (storedLease s.now s.shard leaderKey) e.leadership.holder s.ttlMs s.now).granted
      = true) {x : Elector} (hx : s.electors[j]? = some x) (hne : j ≠ q.elector) :
    ¬s.Believes j x := by
  intro hb
  obtain ⟨l, hl, hlx⟩ := h.record j x hx hb
  obtain ⟨hj, _⟩ := List.getElem?_eq_some_iff.mp hx
  have hlt : s.now < l.expiresMs := hok j hj x hx hne hb l hl hlx
  -- the record of `j` is still valid, so that it denies the request of another elector
  rw [mem_def.mp hl] at hg
  rcases evaluate_cases (some l) e.leadership.holder s.ttlMs s.now with
    ⟨l', _, _, _, heq⟩ | ⟨l', hl', hle, _, _⟩ | ⟨l', hl', hexp, _⟩ | ⟨hl', _⟩
  · rw [heq] at hg
    cases hg
  · obtain rfl := some.inj hl'
    exact hne (h.eq_of_holder hnd hx he (hlx.symm.trans hle))
  · obtain rfl := some.inj hl'
    omega
  · exact absurd hl' (some_ne_none l)

section Lawful

variable [LawfulStore St]

theorem Inv.process (h : Inv holders s) (hnd : holders.Nodup) {k : ℕ}
    (hok : s.Timely (.process k)) (hs : s.step (.process k) = some s') : Inv holders s' := by
  obtain ⟨q, hq, hs⟩ := bind_eq_some_iff.mp hs
  obtain ⟨e, he, hs⟩ := bind_eq_some_iff.mp hs
  obtain rfl := some.inj hs
  obtain ⟨hst, hexp⟩ := leaseAcquire_self h.expiry
  have hout : (s.shard.leaseAcquire s.now leaderKey e.leadership.holder s.ttlMs).2
      = evaluate (storedLease s.now s.shard leaderKey) e.leadership.holder s.ttlMs s.now := by
    rw [leaseAcquire_eq]
  refine ⟨h.holders, hexp, fun x hx => h.requests x (mem_of_mem_eraseIdx hx), ?_, ?_⟩
  · intro r hr x hx
    rcases mem_append.mp hr with hr | hr
    · exact h.replies r hr x hx
    · rw [mem_singleton.mp hr] at hx ⊢
      exact h.requests q (mem_of_getElem? hq) x hx
  · intro j x hx hb
    dsimp only at hb ⊢
    rw [hst s.now]
    by_cases hg : (evaluate (storedLease s.now s.shard leaderKey) e.leadership.holder s.ttlMs
        s.now).granted = true
    · -- granted: nobody else believes, and the record is on the name of the caller
      rw [if_pos hg]
      have hj : j = q.elector := by
        by_contra hne
        refine h.not_believes_of_granted hnd (hok q hq) he hg hx hne (Believes.of_subset hb ?_)
        intro r hr hrj
        rcases mem_append.mp hr with hr | hr
        · exact hr
        · rw [mem_singleton.mp hr] at hrj
          exact absurd hrj.symm hne
      subst hj
      obtain rfl := some.inj (he.symm.trans hx)
      exact ⟨_, rfl, evaluate_holder hg⟩
    · -- denied: the record stays, and the reply makes nobody believe
      rw [if_neg hg]
      refine h.record j x hx (hb.imp_right ?_)
      rintro ⟨hw, r, hr, hrest⟩
      rcases mem_append.mp hr with hr | hr
      · exact ⟨hw, r, hr, hrest⟩
      · rw [mem_singleton.mp hr, hout] at hrest
        exact absurd hrest.2.2 hg

/-- In every step that is timely the invariant is kept. -/
theorem Inv.step (h : Inv holders s) (hnd : holders.Nodup) {l : ElectionLabel} (hok : s.Timely l)
    (hs : s.step l = some s') : Inv holders s' := by
  cases l with
  | send i => exact h.send hs
  | process k => exact h.process hnd hok hs
  | deliver k => exact h.deliver hs
  | fail i => exact h.fail hs
  | tick ms =>
    obtain rfl := some.inj hs
    refine ⟨h.holders, h.expiry, h.requests, h.replies, fun j e he hb => ?_⟩
    dsimp only
    rw [storedLease_congr_now h.expiry _ s.now]
    exact h.record j e he hb

end Lawful

end Election

/-- **At most one leader.**  In every run of electors with different names against one lease shard,
with any order of sending, processing and delivery, lost calls and any clock, in which no request is
processed after the lease of another coordinator has expired that still believes to be the leader,
at most one coordinator passes the leader check. -/
theorem leader_unique_of_timely {St : Type} [IndexStore St] [LawfulStore St] {holders : List String}
    (hnd : holders.Nodup) {ttlMs now : ℕ} {shard : Shard St}
    (hexp : shard.expiryAt leaseColl leaderKey = none) {ls : List ElectionLabel} {s : Election St}
    (hrun : exec (guarded Election.step Election.Timely) (Election.start holders ttlMs shard now) ls
      = some s) {i j : ℕ} {a b : Elector} (hi : s.electors[i]? = some a)
    (hj : s.electors[j]? = some b) (ha : notLeader a.leadership = none)
    (hb : notLeader b.leadership = none) : i = j := by
  have hinv : Election.Inv holders s :=
    exec_guarded_invariant (fun _ _ _ h => h.step hnd) (Election.Inv.start hexp) hrun
  have hflag : ∀ {l : Leadership}, notLeader l = none → l.isLeader = true := by
    intro l hl
    unfold notLeader at hl
    split_ifs at hl with hlead
    exact hlead
  obtain ⟨l, hl, hla⟩ := hinv.record i a hi (Or.inl (hflag ha))
  obtain ⟨l', hl', hlb⟩ := hinv.record j b hj (Or.inl (hflag hb))
  obtain rfl := some.inj (hl.symm.trans hl')
  exact hinv.eq_of_holder hnd hi hj (hla.symm.trans hlb)

/-- Two electors and a lease shard without a record. -/
def twoElectors : Election MemoryStore := Election.start ["A", "B"] 10000 ⟨"s0", MemoryStore.new⟩ 0

/-- `A` is granted the lease and renews it, `B` is denied it; then `A` loses touch with the shard and
`B` takes over. -/
def handoverRun : List ElectionLabel :=
  [.send 0, .process 0, .deliver 0, .tick 3333, .send 0, .send 1, .process 0, .process 0, .deliver 1,
    .deliver 0, .tick 3333, .send 0, .fail 0, .tick 6667, .send 1, .process 1, .deliver 0]

theorem leader_unique_of_handoverRun : ∃ s,
    exec (guarded Election.step Election.Timely) twoElectors handoverRun = some s ∧
    s.electors.map (fun e => (notLeader e.leadership).isNone) = [false, true] ∧
    ∀ (i j : ℕ) (a b : Elector), s.electors[i]? = some a → s.electors[j]? = some b →
      notLeader a.leadership = none → notLeader b.leadership = none → i = j := by
  refine exists_of_map (f := fun s => s.electors.map fun e => (notLeader e.leadership).isNone) ?_
    fun s hs hflags =>
      ⟨hflags, fun i j a b => leader_unique_of_timely (by decide) (by decide) hs⟩
  decide +kernel

/-- `A`'s renewal is delayed until its lease has expired.  `B` is granted the lease and learns of it
before `A` hears anything. -/
theorem two_leaders_of_late_renewal : ∃ s,
    exec Election.step twoElectors [.send 0, .process 0, .deliver 0, .tick 3333, .send 0, .tick 6667,
      .send 1, .process 1, .deliver 0] = some s ∧
    ∃ a b, s.electors = [a, b] ∧ notLeader a.leadership = none ∧ notLeader b.leadership = none := by
  refine ⟨_, rfl, _, _, rfl, ?_, ?_⟩ <;> decide +kernel

end Stplr
