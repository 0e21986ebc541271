import Stplr.Fleet
import Stplr.Equiv.Contents
import Stplr.Equiv.Lease
import Stplr.Equiv.Membership

/-!
# Leases across membership changes

Seen from one shard, a run of a fleet is a sequence of lease attempts and of imports and drops of
managed collections (`Fleet.Traced`).  The lease collection is not managed, so the attempts form a
chain, and what one shard grants is fenced.  Nothing connects the records of two shards:
`fenced_of_steady` needs all requests to end up at one of them, and in `lease_lost_by_rebalance` they
do not.
-/

namespace Stplr

open Lib List Option

/-! ### What a migration does to a collection that it does not manage -/

def CopyJob.coll? : CopyJob → Option String
  | .pair .. => none
  | .transfer _ _ _ _ coll | .deliver _ _ _ _ coll _ => some coll

def DropJob.coll? : DropJob → Option String
  | .node .. => none
  | .drop _ _ _ coll => some coll

/-- Jobs on the managed collections do not name another one. -/
theorem not_mem_of_zipIdx {α : Type} {g : α → Option String} {f : String × ℕ → α}
    (hf : ∀ ci, g (f ci) = some ci.1) {colls : List String} {c : String} (hc : c ∉ colls) {p : Prop}
    [Decidable p] {jobs : List α} (h : ∀ j ∈ jobs, c ∉ g j) :
    ∀ j ∈ (if p then colls.zipIdx.map f else []) ++ jobs, c ∉ g j := by
  intro j hj
  rcases mem_append.mp hj with hj | hj
  · split_ifs at hj
    · obtain ⟨ci, hci, rfl⟩ := mem_map.mp hj
      rw [hf]
      intro heq
      obtain rfl := some.inj heq
      exact hc (fst_mem_of_mem_zipIdx hci)
    · cases hj
  · exact h j hj

/-- No job of the phase names the collection. -/
def MigPhase.Spares (c : String) : MigPhase → Prop
  | .copying _ jobs => ∀ j ∈ jobs, c ∉ j.coll?
  | .dropping _ jobs => ∀ j ∈ jobs, c ∉ j.coll?
  | _ => True

/-- The state of a shard after at most one operation, which does not name the collection. -/
def Shard.Spared {St : Type} [IndexStore St] (now : ℕ) (c : String) (sh sh' : Shard St) : Prop :=
  sh' = sh ∨ ∃ op : ShardOp, c ∉ op.colls ∧ sh' = op.exec now sh

namespace Migration

variable {St : Type} [IndexStore St] {net : MigCall → Outcome} {w : World St} {m : Migration}
  {r : World St × Migration} {c : String}

/-- A migration never comes to name a collection that it does not manage. -/
theorem Trans.spares (hs : m.Trans net w r) (hc : c ∉ w.cluster.colls) (h : m.phase.Spares c) :
    r.2.phase.Spares c := by
  cases hs with
  | drain | cutover =>
    intro j hj
    obtain ⟨e, _, rfl⟩ := mem_map.mp hj
    exact not_mem_none c
  | pair hp =>
    rw [hp] at h
    exact not_mem_of_zipIdx (g := CopyJob.coll?) (fun _ => rfl) hc fun j hj =>
      h j (mem_cons_of_mem _ hj)
  | @transfer ch src dst bs i coll jobs hp =>
    rw [hp] at h
    intro j hj
    rcases mem_append.mp hj with hj | hj
    · split_ifs at hj
      · cases hj
      · rw [mem_singleton.mp hj]
        exact h (.transfer src dst bs i coll) (mem_cons_self ..)
    · exact h j (mem_cons_of_mem _ hj)
  | node hp =>
    rw [hp] at h
    exact not_mem_of_zipIdx (g := DropJob.coll?) (fun _ => rfl) hc fun j hj =>
      h j (mem_cons_of_mem _ hj)
  | deliver hp | drop hp =>
    rw [hp] at h
    exact fun j hj => h j (mem_cons_of_mem _ hj)
  | _ => trivial

/-- A step of a migration is at most one operation on each shard. -/
theorem Trans.spared (hs : m.Trans net w r) (h : m.phase.Spares c) (n : NodeId) :
    Shard.Spared w.now c (w.shards n) (r.1.shards n) := by
  cases hs with
  | @deliver ch src dst bs i coll es jobs hp =>
    rw [hp] at h
    have hcoll : c ≠ coll := fun heq => h _ (mem_cons_self ..) (congrArg some heq.symm)
    rw [importCall]
    split_ifs
    · by_cases hn : n = dst
      · subst hn
        refine .inr ⟨.importEntries coll es, by simpa [ShardOp.colls] using hcoll, ?_⟩
        exact Function.update_self ..
      · exact .inl (Function.update_of_ne hn ..)
    · exact .inl rfl
  | @drop ch n₀ bs i coll jobs hp =>
    rw [hp] at h
    have hcoll : c ≠ coll := fun heq => h _ (mem_cons_self ..) (congrArg some heq.symm)
    rw [dropCall]
    dsimp only
    split_ifs
    · by_cases hn : n = n₀
      · subst hn
        refine .inr ⟨.dropBuckets coll bs, by simpa [ShardOp.colls] using hcoll, ?_⟩
        exact Function.update_self ..
      · exact .inl (Function.update_of_ne hn ..)
    · exact .inl rfl
  | _ => exact .inl rfl

end Migration

/-! ### Coordinators -/

/-- The lease collection is not managed, and no migration under way names it. -/
structure Process.Unaware (p : Process) : Prop where
  colls : leaseColl ∉ p.cluster.colls
  jobs : ∀ c ∈ p.callers, ∀ m, c.pc = .running m → m.phase.Spares leaseColl

/-- The coordinator without the shards. -/
def Coordinator.process {St : Type} (s : Coordinator St) : Process := ⟨s.world.cluster, s.callers⟩

section Coordinator

variable {St : Type} [IndexStore St] {net : MigCall → Outcome} {s s' : Coordinator St} {i : ℕ}
  {c : Caller}

omit [IndexStore St] in
theorem Process.Unaware.put (h : s.process.Unaware) {r : MemberRequest} {w : World St}
    {pc : CallerPc} (hcolls : w.cluster.colls = s.world.cluster.colls)
    (hpc : ∀ m, pc = .running m → m.phase.Spares leaseColl) : (s.put i r w pc).process.Unaware := by
  refine ⟨?_, ?_⟩
  · change leaseColl ∉ w.cluster.colls
    rw [hcolls]
    exact h.colls
  · intro d hd m hm
    rcases mem_or_eq_of_mem_set hd with hd | rfl
    · exact h.jobs d hd m hm
    · exact hpc m hm

theorem Coordinator.Trans.unaware (hs : s.Trans net i c s') (hc : s.callers[i]? = some c)
    (h : s.process.Unaware) : s'.process.Unaware := by
  cases hs with
  | prepare hp =>
    refine h.put ?_ (by simp)
    unfold target
    split <;> rfl
  | read hp | leave hp hfin => exact h.put rfl (by simp)
  | lock hp hl =>
    refine h.put rfl fun m hm => ?_
    obtain rfl := CallerPc.running.inj hm
    trivial
  | @migrate m r hp hr =>
    have hs := Migration.trans_of_step hr
    have hspares := h.jobs c (mem_of_getElem? hc) m hp
    refine h.put hs.colls_eq fun m' hm => ?_
    obtain rfl := CallerPc.running.inj hm
    exact hs.spares h.colls hspares

theorem Coordinator.Trans.now_eq (hs : s.Trans net i c s') : s'.world.now = s.world.now := by
  cases hs with
  | prepare hp =>
    change (target s.world c.request).1.now = _
    unfold target
    split <;> rfl
  | migrate hp hr => exact (Migration.trans_of_step hr).now_eq
  | _ => rfl

theorem Coordinator.Trans.spared (hs : s.Trans net i c s') (hc : s.callers[i]? = some c)
    (h : s.process.Unaware) (n : NodeId) :
    Shard.Spared s.world.now leaseColl (s.world.shards n) (s'.world.shards n) := by
  cases hs with
  | prepare hp =>
    left
    unfold target
    split <;> rfl
  | @migrate m r hp hr =>
    exact (Migration.trans_of_step hr).spared (h.jobs c (mem_of_getElem? hc) m hp) n
  | _ => exact .inl rfl

end Coordinator

/-! ### A run, as one shard sees it -/

/-- The decision of an attempt at the node. -/
def Attempt.decision (p : NodeId) (a : Attempt) : LeaseDecision :=
  ⟨p, a.time, a.holder, a.ttlMs, a.outcome⟩

/-- Of two decisions in order, both grants: the token does not decrease, and the lease of another
holder has expired. -/
def LeaseDecision.Fences (a b : LeaseDecision) : Prop :=
  a.outcome.granted = true → b.outcome.granted = true →
    a.outcome.lease.token ≤ b.outcome.lease.token ∧
      (a.holder ≠ b.holder → a.outcome.lease.expiresMs ≤ b.time)

namespace Fleet

variable {St : Type} [IndexStore St] {p : NodeId} {s₀ s s' : Fleet St} {evs : List (ℕ × LeaseEvent)}

/-- What a step of a lease call can do: it moves towards a shard, or a shard decides it. -/
theorem leaseStep_cases {i : ℕ} (h : s.leaseStep i = some s') :
    (∃ calls, s' = { s with calls }) ∨
    ∃ q n calls, s.calls[i]? = some q ∧ q.pc = .sent n ∧ s' = { s with
        calls
        shards := Function.update s.shards n
          ((s.shards n).leaseAcquire s.now leaderKey q.holder q.ttlMs).1
        decisions := s.decisions ++ [⟨n, s.now, q.holder, q.ttlMs,
          ((s.shards n).leaseAcquire s.now leaderKey q.holder q.ttlMs).2⟩] } := by
  obtain ⟨q, hq, h⟩ := bind_eq_some_iff.mp h
  obtain ⟨p, _, h⟩ := bind_eq_some_iff.mp h
  split at h
  next =>
    split at h <;> obtain rfl := some.inj h <;> exact .inl ⟨_, rfl⟩
  next =>
    obtain rfl := some.inj h
    exact .inl ⟨_, rfl⟩
  next =>
    obtain rfl := some.inj h
    exact .inl ⟨_, rfl⟩
  next n hp =>
    obtain rfl := some.inj h
    exact .inr ⟨q, n, _, hq, hp, rfl⟩
  next => cases h

/-- The run from `s₀` to `s`, as shard `p` has seen it: the decisions are its own, no renewal has
moved an expiry back, and its other operations stay off the lease collection. -/
structure Traced (p : NodeId) (s₀ s : Fleet St) (evs : List (ℕ × LeaseEvent)) : Prop where
  shard : s.shards p = leaseExec (s₀.shards p) evs
  decisions : s.decisions = (leaseLog leaderKey (s₀.shards p) evs).map (Attempt.decision p)
  off : OffLease evs
  times : (evs.map Prod.fst).Pairwise (· ≤ ·)
  past : ∀ e ∈ evs, e.1 ≤ s.now
  fit : NoOverflow (leaseLog leaderKey (s₀.shards p) evs)
  extend : ∀ a ∈ leaseLog leaderKey (s₀.shards p) evs, a.Extends
  unaware : ∀ q ∈ s.coords, q.Unaware

/-- Steps that the shard does not see. -/
theorem Traced.unseen (h : Traced p s₀ s evs) (hshard : s'.shards p = s.shards p)
    (hdec : s'.decisions = s.decisions) (hnow : s.now ≤ s'.now)
    (hun : ∀ q ∈ s'.coords, q.Unaware) : Traced p s₀ s' evs where
  shard := hshard.trans h.shard
  decisions := hdec.trans h.decisions
  off := h.off
  times := h.times
  past := fun e he => (h.past e he).trans hnow
  fit := h.fit
  extend := h.extend
  unaware := hun

/-- An event at the shard. -/
theorem Traced.concat (h : Traced p s₀ s evs) {ev : LeaseEvent}
    (hshard : s'.shards p = ev.exec s.now (s.shards p))
    (hdec : s'.decisions = s.decisions
      ++ (leaseLog leaderKey (s.shards p) [(s.now, ev)]).map (Attempt.decision p))
    (hnow : s.now ≤ s'.now) (hoff : OffLease [(s.now, ev)])
    (hfit : NoOverflow (leaseLog leaderKey (s.shards p) [(s.now, ev)]))
    (hext : ∀ a ∈ leaseLog leaderKey (s.shards p) [(s.now, ev)], a.Extends)
    (hun : ∀ q ∈ s'.coords, q.Unaware) : Traced p s₀ s' (evs ++ [(s.now, ev)]) := by
  have hlog : leaseLog leaderKey (s₀.shards p) (evs ++ [(s.now, ev)])
      = leaseLog leaderKey (s₀.shards p) evs ++ leaseLog leaderKey (s.shards p) [(s.now, ev)] := by
    rw [leaseLog_append, h.shard]
  refine ⟨?_, ?_, ?_, ?_, ?_, ?_, ?_, hun⟩
  · rw [hshard, h.shard, leaseExec, leaseExec, foldl_append]
    rfl
  · rw [hlog, hdec, h.decisions, map_append]
  · intro e he
    exact (mem_append.mp he).elim (h.off e) (hoff e)
  · rw [map_append]
    refine pairwise_append.mpr ⟨h.times, pairwise_singleton _ _, ?_⟩
    intro t ht t' ht'
    obtain ⟨e, he, rfl⟩ := mem_map.mp ht
    rw [mem_singleton.mp ht']
    exact h.past e he
  · intro e he
    rcases mem_append.mp he with he | he
    · exact (h.past e he).trans hnow
    · rw [mem_singleton.mp he]
      exact hnow
  · intro a ha
    rw [hlog] at ha
    exact (mem_append.mp ha).elim (h.fit a) (hfit a)
  · intro a ha
    rw [hlog] at ha
    exact (mem_append.mp ha).elim (h.extend a) (hext a)

end Fleet

/-! ### Fencing -/

/-- The node that is about to decide the call. -/
def LeasePc.node? : LeasePc → Option NodeId
  | .sent n => some n
  | _ => none

namespace Fleet

variable {St : Type} [IndexStore St] {p : NodeId} {s₀ s s' : Fleet St} {evs : List (ℕ × LeaseEvent)}

/-- If the call is decided next, then by `p`; it does not shorten the lease that it renews, and its
numbers fit in a `u64`. -/
def SteadyCall (p : NodeId) (s : Fleet St) (q : LeaseCall) : Prop := ∀ n ∈ q.pc.node?, n = p ∧
    (∀ l ∈ storedLease s.now (s.shards p) leaderKey, l.holder = q.holder → s.now < l.expiresMs →
      l.expiresMs ≤ s.now + q.ttlMs) ∧
    (((s.shards p).leaseAcquire s.now leaderKey q.holder q.ttlMs).2.granted = true →
      s.now + q.ttlMs < 2 ^ 64) ∧
    ∀ l ∈ storedLease s.now (s.shards p) leaderKey, l.expiresMs ≤ s.now → l.token + 1 < 2 ^ 64

instance (s : Fleet St) (q : LeaseCall) : Decidable (SteadyCall p s q) :=
  inferInstanceAs (Decidable (∀ n ∈ q.pc.node?, _))

/-- The step decides no lease call other than by `p`. -/
def Steady (p : NodeId) (s : Fleet St) : FleetLabel → Prop
  | .lease i => ∀ q ∈ s.calls[i]?, SteadyCall p s q
  | _ => True

instance (s : Fleet St) : (l : FleetLabel) → Decidable (Steady p s l)
  | .lease i => inferInstanceAs (Decidable (∀ q ∈ s.calls[i]?, SteadyCall p s q))
  | .change .. | .move .. | .acquire .. | .tick _ => inferInstanceAs (Decidable True)

/-- Coordinators without any call under way. -/
structure Fresh (s : Fleet St) : Prop where
  callers : ∀ q ∈ s.coords, q.callers = []
  calls : s.calls = []
  decisions : s.decisions = []

theorem Traced.start (h : s.Fresh) (hcolls : ∀ q ∈ s.coords, leaseColl ∉ q.cluster.colls) :
    Traced p s s [] where
  shard := rfl
  decisions := h.decisions
  off := nofun
  times := List.Pairwise.nil
  past := nofun
  fit := nofun
  extend := nofun
  unaware := fun q hq => ⟨hcolls q hq, fun _ hc => absurd (h.callers q hq ▸ hc) not_mem_nil⟩

omit [IndexStore St] in
theorem unaware_set {qs : List Process} {i : ℕ} {q' : Process} (h : ∀ q ∈ qs, q.Unaware)
    (hq' : q'.Unaware) : ∀ q ∈ qs.set i q', q.Unaware := by
  intro q hq
  rcases mem_or_eq_of_mem_set hq with hq | rfl
  · exact h q hq
  · exact hq'

/-- A step of a membership change is at most one operation on the shard. -/
theorem Traced.move (h : Traced p s₀ s evs) {i j : ℕ} (hs : s.step (.move i j) = some s') :
    ∃ evs', Traced p s₀ s' evs' := by
  obtain ⟨q, hq, hs⟩ := bind_eq_some_iff.mp hs
  obtain ⟨c, hc, hs⟩ := bind_eq_some_iff.mp hs
  obtain rfl := some.inj hs
  obtain ⟨d, hd, htrans⟩ := Coordinator.trans_of_step hc
  have hun : (s.view q).process.Unaware := h.unaware q (mem_of_getElem? hq)
  have hset := unaware_set (i := i) h.unaware (htrans.unaware hd hun)
  rcases htrans.spared hd hun p with heq | ⟨op, hop, heq⟩
  · exact ⟨evs, h.unseen heq rfl le_rfl hset⟩
  · have hexec : c.world.shards p = LeaseEvent.exec s.now (s.shards p) (.other op) := heq
    refine ⟨_, h.concat hexec (append_nil _).symm le_rfl ?_ ?_ ?_ hset⟩
    · intro e he op' hop'
      rw [mem_singleton.mp he] at hop'
      obtain rfl := LeaseEvent.other.inj hop'
      exact hop
    · exact nofun
    · exact nofun

/-- A lease step is an attempt at the shard or nothing to it. -/
theorem Traced.lease (h : Traced p s₀ s evs) {i : ℕ} (hok : Steady p s (.lease i))
    (hs : s.leaseStep i = some s') : ∃ evs', Traced p s₀ s' evs' := by
  rcases leaseStep_cases hs with ⟨calls, rfl⟩ | ⟨q, n, calls, hq, hpc, rfl⟩
  · exact ⟨evs, h.unseen rfl rfl le_rfl h.unaware⟩
  · obtain ⟨rfl, hext, hfit⟩ := hok q hq n (by rw [hpc]; rfl)
    have hlog : leaseLog leaderKey (s.shards n) [(s.now, .acquire leaderKey q.holder q.ttlMs)]
        = [⟨s.now, q.holder, q.ttlMs, storedLease s.now (s.shards n) leaderKey,
            ((s.shards n).leaseAcquire s.now leaderKey q.holder q.ttlMs).2,
            storedLease s.now ((s.shards n).leaseAcquire s.now leaderKey q.holder q.ttlMs).1
              leaderKey⟩] := by
      rw [leaseLog, if_pos rfl]
      rfl
    refine ⟨evs ++ [(s.now, .acquire leaderKey q.holder q.ttlMs)],
      h.concat (Function.update_self ..) ?_ le_rfl ?_ ?_ ?_ h.unaware⟩
    · rw [hlog]
      rfl
    · intro e he op hop
      rw [mem_singleton.mp he] at hop
      cases hop
    · intro a ha
      rw [hlog] at ha
      rw [mem_singleton.mp ha]
      exact hfit
    · intro a ha
      rw [hlog] at ha
      rw [mem_singleton.mp ha]
      exact hext

theorem Traced.step (h : Traced p s₀ s evs) {l : FleetLabel} (hok : Steady p s l)
    (hs : s.step l = some s') : ∃ evs', Traced p s₀ s' evs' := by
  cases l with
  | change i request =>
    obtain ⟨q, hq, hs⟩ := bind_eq_some_iff.mp hs
    obtain rfl := some.inj hs
    have hun := h.unaware q (mem_of_getElem? hq)
    refine ⟨evs, h.unseen rfl rfl le_rfl (unaware_set h.unaware ⟨hun.colls, fun c hc m hm => ?_⟩)⟩
    rcases mem_append.mp hc with hc | hc
    · exact hun.jobs c hc m hm
    · rw [mem_singleton.mp hc] at hm
      cases hm
  | move i j => exact h.move hs
  | acquire coord holder ttlMs =>
    obtain rfl := some.inj hs
    exact ⟨evs, h.unseen rfl rfl le_rfl h.unaware⟩
  | lease i => exact h.lease hok hs
  | tick ms =>
    obtain rfl := some.inj hs
    exact ⟨evs, h.unseen rfl rfl (Nat.le_add_right ..) h.unaware⟩

end Fleet

/-- **The leader lease is fenced while one shard decides it.**  In every run of coordinators that do
not manage the lease collection, with any interleaving of lease calls, membership changes and the
clock, in which all lease requests are decided by one shard, no holder shortens its own lease and
no number overflows: the tokens of successive grants never decrease, and nobody is granted the lease
before the lease of another holder has expired. -/
theorem fenced_of_steady {St : Type} [IndexStore St] [LawfulStore St] {p : NodeId} {s₀ s : Fleet St}
    (h₀ : s₀.Fresh) (hcolls : ∀ q ∈ s₀.coords, leaseColl ∉ q.cluster.colls)
    (hexp : (s₀.shards p).expiryAt leaseColl leaderKey = none) {ls : List FleetLabel}
    (hrun : exec (guarded Fleet.step (Fleet.Steady p)) s₀ ls = some s) :
    s.decisions.Pairwise LeaseDecision.Fences := by
  have htraced : ∃ evs, Fleet.Traced p s₀ s evs := by
    refine exec_guarded_invariant (I := fun s => ∃ evs, Fleet.Traced p s₀ s evs) ?_
      ⟨[], Fleet.Traced.start h₀ hcolls⟩ hrun
    rintro t l t' ⟨evs, h⟩ hok hs
    exact h.step hok hs
  obtain ⟨evs, h⟩ := htraced
  have hchain := chain_leaseLog leaderKey evs (s₀.shards p) 0 hexp h.off
  have htimes := h.times.sublist (leaseLog_times leaderKey evs (s₀.shards p))
  rw [h.decisions, pairwise_map]
  exact hchain.fences h.fit h.extend (pairwise_map.mp htimes)

/-- A coordinator of `s0` with a client for `s1`. -/
def soloFleet : Fleet MemoryStore :=
  ⟨[⟨clusterWith ["s0"] "s1", []⟩], fun n => ⟨n, MemoryStore.new⟩, 0, [], []⟩

/-- The steps of a lease call that nothing interrupts. -/
def leaseLabels (call : ℕ) : List FleetLabel := List.replicate 4 (.lease call)

theorem fresh_soloFleet : soloFleet.Fresh where
  callers := by simp [soloFleet]
  calls := rfl
  decisions := rfl

/-- `A` is granted the lease, `B` is denied it during a rebalance to the same members and granted it
after `A`'s lease has expired. -/
def soloRun : List FleetLabel :=
  .acquire 0 "A" 100 :: leaseLabels 0 ++ [.change 0 (.rebalance ["s0"]), .acquire 0 "B" 100] ++
    List.replicate 6 (.move 0 0) ++ leaseLabels 1 ++ List.replicate 5 (.move 0 0) ++
    [.tick 100, .acquire 0 "B" 100] ++ leaseLabels 2

theorem fenced_of_steady_soloRun : ∃ s,
    exec (guarded Fleet.step (Fleet.Steady "s0")) soloFleet soloRun = some s ∧
    s.decisions = [⟨"s0", 0, "A", 100, ⟨true, ⟨"A", 100, 1⟩⟩⟩,
      ⟨"s0", 0, "B", 100, ⟨false, ⟨"A", 100, 1⟩⟩⟩, ⟨"s0", 100, "B", 100, ⟨true, ⟨"B", 200, 2⟩⟩⟩] ∧
    s.decisions.Pairwise LeaseDecision.Fences := by
  refine exists_of_map (f := Fleet.decisions) ?_ fun s hs hdec =>
    ⟨hdec, fenced_of_steady fresh_soloFleet (by decide) (by decide) hs⟩
  decide +kernel

namespace Fleet

variable {St : Type} [IndexStore St] {s : Fleet St} {i : ℕ} {q : Process}

/-- The fleet once coordinator `i` has come to `c`. -/
def setView (s : Fleet St) (i : ℕ) (c : Coordinator St) : Fleet St :=
  { s with coords := s.coords.set i c.process, shards := c.world.shards }

/-- The steps of a coordinator are steps of the fleet. -/
theorem exec_move (hq : s.coords[i]? = some q) {js : List ℕ} {c : Coordinator St}
    (h : exec (Coordinator.step fun _ => .ok) (s.view q) js = some c) :
    exec step s (js.map (.move i)) = some (s.setView i c) := by
  obtain ⟨hi, hqi⟩ := List.getElem?_eq_some_iff.mp hq
  suffices hboth : exec step s (js.map (.move i)) = some (s.setView i c) ∧ c.world.now = s.now from
    hboth.1
  refine exec_induction (P := fun js c => exec step s (js.map (.move i)) = some (s.setView i c) ∧
    c.world.now = s.now) ?_ ?_ h
  · refine ⟨?_, rfl⟩
    have hself : s.coords.set i (s.view q).process = s.coords := by
      change s.coords.set i q = _
      rw [← hqi, set_getElem_self]
    rw [setView, hself]
    rfl
  · rintro js c j c' - ⟨hexec, hnow⟩ hc'
    obtain ⟨d, hd, htrans⟩ := Coordinator.trans_of_step hc'
    refine ⟨?_, htrans.now_eq.trans hnow⟩
    rw [map_append]
    refine exec_concat_eq_some.mpr ⟨_, hexec, ?_⟩
    have hself : (s.setView i c).coords[i]? = some c.process := getElem?_set_self hi
    have hview : (s.setView i c).view c.process = c := by
      change Coordinator.mk ⟨c.world.cluster, c.world.shards, s.now⟩ c.callers = c
      rw [← hnow]
    rw [step, hself]
    dsimp only [bind_eq_bind, bind_some]
    rw [hview, hc', bind_some, setView, setView, set_set]
    rfl

/-- A membership change that can take the lock runs to its end when nothing else moves. -/
theorem exec_migration {cl : Cluster} {request : MemberRequest} {old new : List NodeId}
    (hq : s.coords[i]? = some ⟨cl, [⟨request, .waiting old new⟩]⟩) (hfree : cl.gates = Gates.new) :
    ∃ ls, exec step s ls = some (s.setView i
      ⟨runMigration (fun _ => .ok) ⟨cl, s.shards, s.now⟩ old new ∅, [⟨request, .returned⟩]⟩) := by
  obtain ⟨js, hjs⟩ := Coordinator.exec_returned (Coordinator.step fun _ => .ok) (i := 0)
    (s := s.view ⟨cl, [⟨request, .waiting old new⟩]⟩) (fun _ _ _ _ => rfl) rfl rfl hfree
  exact ⟨js.map (.move i), exec_move hq hjs⟩

/-- A lease call that nothing interrupts is decided by the first owner of the leader key. -/
theorem exec_lease (hq : s.coords[i]? = some q) (h : q.cluster.Sound) {n : NodeId}
    (hn : (q.cluster.owners leaderKey).head? = some n) (holder : String) (ttlMs : ℕ) :
    ∃ ls s', exec step s ls = some s' ∧ s'.decisions = s.decisions ++ [⟨n, s.now, holder, ttlMs,
      ((s.shards n).leaseAcquire s.now leaderKey holder ttlMs).2⟩] := by
  have hov : q.cluster.overlayOwners leaderKey = none := by
    rw [Cluster.overlayOwners, h.overlay, map_none]
  have hring : (q.cluster.ringOwners leaderKey).head? = some n := by
    rwa [Cluster.owners, hov, getD_none] at hn
  have hmem : n ∈ q.cluster.owners leaderKey := mem_of_mem_head? hn
  have hlook : lookup q.cluster (some n) = .sent n := by
    rw [lookup, if_neg]
    exact fun hskip => h.not_skips hmem hskip
  let r := (s.shards n).leaseAcquire s.now leaderKey holder ttlMs
  refine ⟨.acquire i holder ttlMs :: leaseLabels s.calls.length, { s with
    calls := s.calls ++ [⟨i, holder, ttlMs, .answered (some r.2)⟩]
    shards := Function.update s.shards n r.1
    decisions := s.decisions ++ [⟨n, s.now, holder, ttlMs, r.2⟩] }, ?_, rfl⟩
  simp only [leaseLabels, replicate, exec_cons, step, leaseStep, bind_some,
    bind_eq_bind, getElem?_concat_length, hq, hov, set_append_right,
    le_refl, Nat.sub_self, set_cons_zero, hring, hlook, exec_nil, r]

end Fleet

/-- The lease has gone from `A` to `B`, and the coordinator is about to migrate from `s0` to `s1`. -/
theorem exec_soloFleet : ∃ ls s, exec Fleet.step soloFleet ls = some s ∧
    s.coords = [⟨clusterWith ["s0"] "s1", [⟨.rebalance ["s1"], .waiting ["s0"] ["s1"]⟩]⟩] ∧
    s.now = 100 ∧
    s.decisions = [⟨"s0", 0, "A", 100, ⟨true, ⟨"A", 100, 1⟩⟩⟩,
      ⟨"s0", 100, "B", 100, ⟨true, ⟨"B", 200, 2⟩⟩⟩] ∧
    s.shards "s1" = ⟨"s1", MemoryStore.new⟩ :=
  ⟨.acquire 0 "A" 100 :: leaseLabels 0 ++ [.tick 100, .acquire 0 "B" 100] ++ leaseLabels 1 ++
    [.change 0 (.rebalance ["s1"]), .move 0 0, .move 0 0], _, rfl, rfl, rfl, by decide +kernel, rfl⟩

/-- A rebalance from `s0` to `s1` makes `s1` decide the lease and brings it no record. -/
theorem rebalance_soloFleet {w : World MemoryStore} (hcl : w.cluster = clusterWith ["s0"] "s1") :
    ∃ w', w' = runMigration (fun _ => .ok) w ["s0"] ["s1"] ∅ ∧ w'.cluster.Sound ∧
      w'.cluster.owners leaderKey = ["s1"] ∧
      (w'.shards "s1").object w.now leaseColl leaderKey
        = (w.shards "s1").object w.now leaseColl leaderKey := by
  have hreb : runMigration (fun _ => .ok) w ["s0"] ["s1"] ∅ = rebalance (fun _ => .ok) w ["s1"] := by
    rw [rebalance, hcl]
    rfl
  have hsound : w.cluster.Sound := hcl ▸ sound_clusterWith (by decide) "s1"
  have hnd : ["s1"].Nodup := by decide
  have hclients : ∀ n ∈ ["s1"], n ∈ w.cluster.clients := by
    rw [hcl]
    decide
  obtain ⟨hsound', howners⟩ := sound_rebalance (fun _ => .ok) hsound hnd hclients
  specialize howners leaderKey
  have hcell := (cell_rebalance_owner onlySilent_ok hsound hnd hclients leaseColl leaderKey
    (g := "s1") (by decide) (by rw [hcl]; decide +kernel)).2
    fun src hsend => absurd hsend.1 (by rw [hcl]; decide)
  have hnow := (base_runMigration (fun _ => .ok) w w.cluster.memberIds ["s1"] ∅).2.1
  rw [hcl] at howners
  rw [← rebalance] at hnow
  refine ⟨_, rfl, ?_⟩
  rw [hreb]
  refine ⟨hsound', howners, ?_⟩
  rw [World.cell, World.cell, hnow] at hcell
  exact hcell

/-- A rebalance leaves the record behind: `A` is granted the lease with token 1 while `B` holds it
with token 2. -/
theorem lease_lost_by_rebalance : soloFleet.Fresh ∧
    (∀ q ∈ soloFleet.coords, q.cluster.Sound ∧ leaseColl ∉ q.cluster.colls) ∧
    (∀ n, (soloFleet.shards n).expiryAt leaseColl leaderKey = none) ∧
    ∃ ls s, exec Fleet.step soloFleet ls = some s ∧
      s.decisions = [⟨"s0", 0, "A", 100, ⟨true, ⟨"A", 100, 1⟩⟩⟩,
        ⟨"s0", 100, "B", 100, ⟨true, ⟨"B", 200, 2⟩⟩⟩, ⟨"s1", 100, "A", 100, ⟨true, ⟨"A", 200, 1⟩⟩⟩] ∧
      ¬s.decisions.Pairwise LeaseDecision.Fences := by
  refine ⟨fresh_soloFleet,
    by simpa [soloFleet] using ⟨sound_clusterWith (by decide) "s1", by decide⟩, fun _ => rfl, ?_⟩
  obtain ⟨ls₁, s₁, h₁, hcoords, hnow, hdec, hblank⟩ := exec_soloFleet
  obtain ⟨ls₂, h₂⟩ := Fleet.exec_migration (s := s₁) (i := 0) (by rw [hcoords]; rfl) rfl
  obtain ⟨w', hw', hsound, howner, hcell⟩ := rebalance_soloFleet
    (w := ⟨clusterWith ["s0"] "s1", s₁.shards, s₁.now⟩) rfl
  rw [← hw'] at h₂
  -- `A` asks again
  have hself : (s₁.setView 0 ⟨w', [⟨.rebalance ["s1"], .returned⟩]⟩).coords[0]?
      = some ⟨w'.cluster, [⟨.rebalance ["s1"], .returned⟩]⟩ := by
    rw [Fleet.setView, hcoords]
    rfl
  obtain ⟨ls₃, s₃, h₃, hdec₃⟩ := Fleet.exec_lease hself hsound (n := "s1") (by rw [howner]; rfl)
    "A" 100
  change s₃.decisions = s₁.decisions
    ++ [⟨"s1", s₁.now, "A", 100, ((w'.shards "s1").leaseAcquire s₁.now leaderKey "A" 100).2⟩] at hdec₃
  have hnone : storedLease s₁.now (w'.shards "s1") leaderKey = none := by
    rw [storedLease, hcell]
    change ((s₁.shards "s1").object s₁.now leaseColl leaderKey).bind _ = none
    rw [hblank]
    rfl
  rw [leaseAcquire_eq, hnone, hdec, hnow] at hdec₃
  have hthree : s₃.decisions = [⟨"s0", 0, "A", 100, ⟨true, ⟨"A", 100, 1⟩⟩⟩,
      ⟨"s0", 100, "B", 100, ⟨true, ⟨"B", 200, 2⟩⟩⟩, ⟨"s1", 100, "A", 100, ⟨true, ⟨"A", 200, 1⟩⟩⟩] :=
    hdec₃
  refine ⟨ls₁ ++ (ls₂ ++ ls₃), s₃, ?_, hthree, ?_⟩
  · rw [exec_append, h₁, bind_some, exec_append, h₂, bind_some, h₃]
  · rw [hthree]
    unfold LeaseDecision.Fences
    decide

end Stplr
