import Stplr.Equiv.Finish
import Stplr.Equiv.Rebalance
import Stplr.Membership

/-!
# Concurrent membership changes are serialised

`run_migration` holds the `migrating` lock, but the member list it migrates from, the target of a
`drain` and the clients of an `apply_membership` were settled before it had the lock.  When they
still are what the call relies on at that moment (`Current`), two overlapping calls leave what the
two calls leave one after the other (`serial_of_current`); otherwise a call can strand entries on nodes
that no longer own them (`stale_members_strand_entry`).

The proof follows a second world, in which the calls run one after the other: it differs from the
real one only in the clients that waiting `apply_membership` calls have already added.
-/

namespace Stplr

open Lib Move List
open Option (bind_some map_some some)

variable {St : Type} [IndexStore St]

/-! ### Worlds that differ in their clients -/

def World.withClients (w : World St) (clients : Finset NodeId) : World St :=
  w.setCluster { w.cluster with clients }

/-- What a step of the migration leaves of a client table. -/
def Migration.keptClients (m : Migration) (clients : Finset NodeId) : Finset NodeId :=
  match m.phase with
  | .committing (.dropClients :: _) => clients.filter (· ∈ m.new)
  | _ => clients

/-- The clients that the next step of the migration looks up are there. -/
def Migration.FindsClients (c : Cluster) (m : Migration) : Prop := match m.phase with
  | .copying _ (.pair src dst _ :: _) => src ∈ c.clients ∧ dst ∈ c.clients
  | .dropping _ (.node n _ :: _) => n ∈ c.clients
  | _ => True

namespace Migration

variable {net : MigCall → Outcome} {w : World St} {m : Migration} {X : Finset NodeId}

theorem keptClients_mono {Y : Finset NodeId} (m : Migration) (h : X ⊆ Y) :
    m.keptClients X ⊆ m.keptClients Y := by
  unfold keptClients
  split
  · exact Finset.filter_subset_filter _ h
  · exact h

theorem mem_keptClients {n : NodeId} (h : n ∈ m.keptClients X) :
    n ∈ X ∧ ∀ Y : Finset NodeId, n ∈ Y → n ∈ m.keptClients Y := by
  unfold keptClients at h ⊢
  split at h
  · obtain ⟨hX, hnew⟩ := Finset.mem_filter.mp h
    exact ⟨hX, fun Y hY => Finset.mem_filter.mpr ⟨hY, hnew⟩⟩
  · exact ⟨h, fun Y hY => hY⟩

theorem dropCall_withClients (n : NodeId) (bs : List ℕ) (i : ℕ) (coll : String) :
    dropCall net (w.withClients X) n bs i coll
      = ((dropCall net w n bs i coll).1.withClients X, (dropCall net w n bs i coll).2) := by
  unfold dropCall
  dsimp only
  split_ifs <;> rfl

/-- More clients do not change what a step does. -/
theorem step_withClients (hdown : w.cluster.down = ∅) (hfind : m.FindsClients w.cluster)
    (hsub : w.cluster.clients ⊆ X) :
    m.step net (w.withClients X)
      = (m.step net w).map fun r => (r.1.withClients (m.keptClients X), r.2) := by
  unfold FindsClients at hfind
  unfold keptClients
  cases hp : m.phase with
  | locked =>
    rw [step, step, hp]
    dsimp only [map_some]
    rw [planStep, planStep]
    dsimp only
    split_ifs <;> rfl
  | planned | thawed ch | finished => rw [step, step, hp]; rfl
  | looping =>
    rw [step, step, hp]
    dsimp only [map_some]
    rw [loopStep, loopStep]
    split
    · rfl
    · split_ifs <;> rfl
  | draining ch =>
    rw [step, step, hp]
    dsimp only
    by_cases hd : w.cluster.gates.drained ch
    · rw [if_pos hd]
      exact if_pos hd
    · rw [if_neg hd]
      exact if_neg hd
  | copying ch jobs =>
    rw [hp] at hfind
    rw [step, step, hp]
    rcases jobs with _ | ⟨⟨src, dst, bs⟩ | _ | _, jobs⟩
    · rfl
    · have hX : src ∈ X ∧ dst ∈ X := ⟨hsub hfind.1, hsub hfind.2⟩
      dsimp only [copyStep, World.withClients, World.setCluster, map_some]
      rw [if_pos hX, if_pos hfind]
    · rfl
    · dsimp only [copyStep, map_some, importCall]
      split_ifs <;> rfl
  | dropping ch jobs =>
    rw [hp] at hfind
    rw [step, step, hp]
    rcases jobs with _ | ⟨⟨n, bs⟩ | _, jobs⟩
    · rfl
    · have hX : n ∈ X := hsub hfind
      dsimp only [dropStep, World.withClients, World.setCluster, map_some]
      rw [if_pos hX, if_pos hfind]
    · dsimp only [dropStep, map_some]
      rw [dropCall_withClients]
  | committing steps =>
    rw [step, step, hp]
    cases steps with
    | nil => rfl
    | cons s steps =>
      cases s with
      | clearJournal | bumpEpoch | setNodes | setReplication | removeOverlay => rfl
      | dropClients =>
        dsimp only [CommitStep.exec, Cluster.dropClients, World.withClients, World.setCluster,
          map_some]
        rw [hdown, Finset.empty_sdiff, Finset.empty_sdiff]

theorem clients_step {r : World St × Migration} (hs : m.Trans net w r) :
    r.1.cluster.clients = m.keptClients w.cluster.clients := by
  unfold keptClients
  cases hs with
  | deliver hp | drop hp =>
    rw [hp]
    simp
  | @commit s steps hp =>
    rw [hp]
    cases s <;> rfl
  | same hp | last hp | stop hp | drain hp | finish hp => rw [hp]
  | _ hp =>
    rw [hp]
    rfl

end Migration

variable {val : String → String → Option Value} {colls : List String} {m : Migration}
  {j : Option MigrationRecord} {mv : Move} {w : World St} {i : ℕ}

/-- A migration finds the clients of its jobs. -/
theorem SysInv.findsClients {s : System St} (hv : mv.Valid) (h : SysInv mv colls val j s m) :
    m.FindsClients s.world.cluster := by
  have hjobs := h.move.jobs
  have hph := h.phase
  unfold Migration.FindsClients
  unfold PhaseInv at hph
  cases hp : m.phase with
  | copying ch jobs =>
    rw [hp] at hph hjobs
    rcases jobs with _ | ⟨⟨src, dst, bs⟩ | _ | _, jobs⟩
    · trivial
    · obtain ⟨hne, hgain⟩ := hjobs _ (mem_cons_self ..)
      obtain ⟨b, hb⟩ := exists_mem_of_ne_nil bs hne
      obtain ⟨-, hsrc, hdst, -⟩ := hgain b hb
      exact ⟨hph.1.clients _ (.inl (hv.mem_old hsrc)), hph.1.clients _ (.inr (hv.mem_new hdst))⟩
    · trivial
    · trivial
  | dropping ch jobs =>
    rw [hp] at hph hjobs
    rcases jobs with _ | ⟨⟨n, bs⟩ | _, jobs⟩
    · trivial
    · obtain ⟨hne, hlose⟩ := hjobs _ (mem_cons_self ..)
      obtain ⟨b, hb⟩ := exists_mem_of_ne_nil bs hne
      exact hph.1.clients _ (.inl (hv.mem_old (hlose b hb).2.1))
    · trivial
  | _ => trivial

/-- A finished migration leaves the cluster at rest. -/
theorem SysInv.atRest (hv : mv.Valid) (h : SysInv mv colls val j ⟨w, [], some m, []⟩ m)
    (hstop : m.stopAfter = none) (hfin : m.phase = .finished) : AtRest val w := by
  have hc : Committing mv w.cluster m [] := h.committing hstop hfin
  have hnodes : w.cluster.partitioner.nodes = mv.new := hc.nodes
  constructor
  · exact h.complete hstop hfin
  · have hcount : w.cluster.gates.inFlight = fun _ => 0 := funext h.count
    cases hg : w.cluster.gates with
    | mk frozen inFlight =>
      have hfr := hc.frozen
      rw [hg] at hfr hcount
      exact congrArg₂ Gates.mk hfr hcount
  · exact h.fixed.down
  · rw [hc.replication, hnodes]
    exact congrArg (clamp · _) h.fixed.target.symm
  · exact h.fixed.ringTopology.trans h.fixed.topology.symm
  · exact hnodes ▸ hv.new_nodup
  · exact fun n hn => hc.clients n (hnodes ▸ hn)
  · intro c hcoll k n
    obtain ⟨howners, hout, hin⟩ := h.handedOver hv hstop hfin (h.fixed.colls ▸ hcoll) k
    split_ifs with hn
    · rcases hin n ((howners n).mp hn) with hval | ⟨i, call, hm, -⟩
      · exact hval
      · cases hm
    · exact hout n fun hn' => hn ((howners n).mpr hn')
  · exact h.fixed.colls.symm ▸ h.noTtl

/-! ### What a membership change asks for -/

namespace MemberRequest

/-- The clients that a request brings along. -/
def own : MemberRequest → List NodeId
  | .applyMembership target => target
  | _ => []

/-- The target of a request when these are the members. -/
def goal (members : List NodeId) : MemberRequest → List NodeId
  | .rebalance new => new
  | .drain node => members.filter (· ≠ node)
  | .applyMembership target => target

/-- The target is among the nodes that have a client. -/
def Backed (w : World St) (r : MemberRequest) : Prop :=
  ∀ n ∈ r.goal w.cluster.memberIds, n ∈ w.cluster.clients ∨ n ∈ r.own

/-- The world in which a request that runs alone takes the lock. -/
def enter (w : World St) (r : MemberRequest) : World St :=
  w.withClients (w.cluster.clients ∪ r.own.toFinset)

theorem run_eq (net : MigCall → Outcome) (w : World St) (r : MemberRequest) :
    r.run net w = Stplr.rebalance net (r.enter w) (r.goal w.cluster.memberIds) := by
  have hsame : w.withClients (w.cluster.clients ∪ ∅) = w := by
    rw [Finset.union_empty]
    rfl
  cases r with
  | rebalance new => exact congrArg (Stplr.rebalance net · new) hsame.symm
  | drain node => exact congrArg (Stplr.rebalance net · _) hsame.symm
  | applyMembership target => rfl

end MemberRequest

/-! ### The steps of the coordinator -/

/-- The transitions of call `i`, which is `c`. -/
inductive Coordinator.Trans (net : MigCall → Outcome) (s : Coordinator St) (i : ℕ) (c : Caller) :
    Coordinator St → Prop
  | prepare (hp : c.pc = .idle) : Trans net s i c
      (s.put i c.request (target s.world c.request).1 (.targeted (target s.world c.request).2))
  | read {new : List NodeId} (hp : c.pc = .targeted new) : Trans net s i c
      (s.put i c.request s.world (.waiting s.world.cluster.memberIds new))
  | lock {old new : List NodeId} (hp : c.pc = .waiting old new) (hl : s.locked = false) :
      Trans net s i c (s.put i c.request s.world (.running (Migration.start old new ∅ none)))
  | migrate {m : Migration} {r : World St × Migration} (hp : c.pc = .running m)
      (hr : m.step net s.world = some r) : Trans net s i c (s.put i c.request r.1 (.running r.2))
  | leave {m : Migration} (hp : c.pc = .running m) (hfin : m.phase = .finished) :
      Trans net s i c (s.put i c.request s.world .returned)

theorem Coordinator.trans_of_step {net : MigCall → Outcome} {s s' : Coordinator St}
    (h : s.step net i = some s') : ∃ c, s.callers[i]? = some c ∧ s.Trans net i c s' := by
  obtain ⟨c, hc, h⟩ := Option.bind_eq_some_iff.mp h
  refine ⟨c, hc, ?_⟩
  split at h
  next hp =>
    obtain rfl := some.inj h
    exact .prepare hp
  next new hp =>
    obtain rfl := some.inj h
    exact .read hp
  next old new hp =>
    split_ifs at h with hl
    obtain rfl := some.inj h
    exact .lock hp (by simpa using hl)
  next m hp =>
    split at h
    next hfin =>
      obtain rfl := some.inj h
      exact .leave hp hfin
    next =>
      obtain ⟨r, hr, rfl⟩ := Option.map_eq_some_iff.mp h
      exact .migrate hp hr
  next => cases h

/-! ### The calls one after the other -/

/-- What a call relies on when it takes the lock: the member list that it has read is the current
one, its target is what its request asks for now, and that is a proper target. -/
def Caller.Current (w : World St) (c : Caller) : Prop := match c.pc with
  | .waiting old new => old = w.cluster.memberIds ∧ new = c.request.goal w.cluster.memberIds ∧
      new ≠ [] ∧ new.Nodup ∧ (∀ n ∈ new, n ∈ w.cluster.clients) ∧
      DistinctHashes (w.cluster.partitioner.nodes ++ new)
  | _ => True

instance (w : World St) : (c : Caller) → Decidable (c.Current w)
  | ⟨_, .waiting _ _⟩ => inferInstanceAs (Decidable (_ ∧ _))
  | ⟨_, .idle⟩ | ⟨_, .targeted _⟩ | ⟨_, .running _⟩ | ⟨_, .returned⟩ =>
    inferInstanceAs (Decidable True)

def Coordinator.Current (s : Coordinator St) (i : ℕ) : Prop :=
  ∀ c ∈ s.callers[i]?, c.Current s.world

instance (s : Coordinator St) (i : ℕ) : Decidable (s.Current i) :=
  inferInstanceAs (Decidable (∀ c ∈ s.callers[i]?, c.Current s.world))

/-- The call has taken the lock. -/
def CallerPc.hasLocked : CallerPc → Bool
  | .running _ | .returned => true
  | _ => false

/-- The requests with the given numbers, one after the other. -/
def serial (w : World St) (rs : List MemberRequest) (order : List ℕ) : World St :=
  (order.filterMap (rs[·]?)).foldl (fun w r => r.run (fun _ => .ok) w) w

theorem filterMap_getElem?_range {α : Type} (l : List α) :
    (List.range l.length).filterMap (l[·]?) = l := by
  induction l using reverseRecOn with
  | nil => rfl
  | append_singleton l a ih =>
    rw [length_append, length_singleton, range_succ, filterMap_append]
    conv_rhs => rw [← ih]
    congr 1
    · exact filterMap_congr fun i hi => getElem?_append_left (mem_range.mp hi)
    · simp

/-- The calls have locked in the order `order`; `g` is where they would be if each had begun when
it took the lock. -/
structure Serialised (val : String → String → Option Value) (w₀ : World St)
    (rs : List MemberRequest) (order : List ℕ) (g : World St) (s : Coordinator St) : Prop where
  requests : s.callers.map Caller.request = rs
  nodup : order.Nodup
  mem_order : ∀ (i : ℕ) c, s.callers[i]? = some c → (i ∈ order ↔ c.pc.hasLocked = true)
  lt_length : ∀ i ∈ order, i < rs.length
  colls : g.cluster.colls = w₀.cluster.colls
  world : s.world = g.withClients s.world.cluster.clients
  clients : g.cluster.clients ⊆ s.world.cluster.clients
  /-- More clients come from calls that have not locked yet. -/
  extra : ∀ n ∈ s.world.cluster.clients, n ∈ g.cluster.clients ∨
    ∃ (i : ℕ) (c : Caller), s.callers[i]? = some c ∧ i ∉ order ∧ n ∈ c.request.own
  single : ∀ (i j : ℕ) (c d : Caller), s.callers[i]? = some c → s.callers[j]? = some d →
    c.pc.isRunning = true → d.pc.isRunning = true → i = j
  rest : s.locked = false → AtRest val g ∧ g.cluster.partitioner.nodes ≠ [] ∧ g = serial w₀ rs order
  running : ∀ (i : ℕ) c m, s.callers[i]? = some c → c.pc = .running m →
    m.stopAfter = none ∧ Migration.finish (fun _ => .ok) g m = serial w₀ rs order ∧
    ∃ mv colls j, mv.Valid ∧ SysInv mv colls val j ⟨g, [], some m, []⟩ m

namespace Coordinator

section

variable {s : Coordinator St} {i : ℕ} {c : Caller}

omit [IndexStore St]

theorem locked_eq_false : s.locked = false ↔
    ∀ (j : ℕ) (d : Caller), s.callers[j]? = some d → d.pc.isRunning = false := by
  rw [locked, any_eq_false]
  constructor
  · intro h j d hd
    simpa using h d (mem_of_getElem? hd)
  · intro h d hd
    obtain ⟨j, hj⟩ := mem_iff_getElem?.mp hd
    simpa using h j d hj

theorem requests_put (hc : s.callers[i]? = some c) (w : World St) (pc : CallerPc) :
    (s.put i c.request w pc).callers.map Caller.request = s.callers.map Caller.request := by
  refine ext_getElem? fun j => ?_
  rw [put, getElem?_map, getElem?_map, getElem?_set]
  split_ifs with hij hlt
  · rw [← hij, hc]
    rfl
  · rw [getElem?_eq_none (by omega)]
  · rfl

theorem getElem?_put_self (hc : s.callers[i]? = some c) (r : MemberRequest) (w : World St)
    (pc : CallerPc) : (s.put i r w pc).callers[i]? = some ⟨r, pc⟩ := by
  rw [put, List.getElem?_set_self (List.getElem?_eq_some_iff.mp hc).1]

/-- Every call keeps its request. -/
theorem exists_put (hc : s.callers[i]? = some c) (w : World St) (pc : CallerPc) {j : ℕ} {d : Caller}
    (hd : s.callers[j]? = some d) :
    ∃ d', (s.put i c.request w pc).callers[j]? = some d' ∧ d'.request = d.request := by
  by_cases hij : i = j
  · subst hij
    obtain rfl := some.inj (hc.symm.trans hd)
    exact ⟨_, getElem?_put_self hc .., rfl⟩
  · exact ⟨d, by rw [put, getElem?_set_ne hij, hd], rfl⟩

end

end Coordinator

namespace Serialised

variable {val : String → String → Option Value} {w₀ : World St} {rs : List MemberRequest}
  {order : List ℕ} {g : World St} {s : Coordinator St} {i : ℕ} {c : Caller}

section Step

variable (h : Serialised val w₀ rs order g s) (hc : s.callers[i]? = some c)
include h hc

theorem request_eq :
    rs[i]? = some c.request := by
  rw [← h.requests, getElem?_map, hc]
  rfl

/-- A call that has not locked yet moves on. -/
theorem wait_step (hp : c.pc.hasLocked = false) {w : World St} {pc : CallerPc} (hpc : pc.hasLocked = false)
    (hrun : pc.isRunning = false) (hworld : w = g.withClients w.cluster.clients)
    (hclients : s.world.cluster.clients ⊆ w.cluster.clients)
    (hown : ∀ n ∈ w.cluster.clients, n ∈ s.world.cluster.clients ∨ n ∈ c.request.own) :
    Serialised val w₀ rs order g (s.put i c.request w pc) where
  requests := (Coordinator.requests_put hc w pc).trans h.requests
  nodup := h.nodup
  mem_order := by
    intro j d hd
    rcases getElem?_set_cases hd with ⟨rfl, rfl⟩ | ⟨-, hd⟩
    · rw [h.mem_order j c hc, hp, hpc]
    · exact h.mem_order j d hd
  lt_length := h.lt_length
  colls := h.colls
  world := hworld
  clients := fun n hn => hclients (h.clients hn)
  extra := by
    have hi : i ∉ order := fun hi => by
      rw [h.mem_order i c hc, hp] at hi
      cases hi
    intro n hn
    rcases hown n hn with hn | hn
    · refine (h.extra n hn).imp_right ?_
      rintro ⟨j, d, hd, hj, hn⟩
      obtain ⟨d', hd', hreq⟩ := Coordinator.exists_put hc w pc hd
      exact ⟨j, d', hd', hj, hreq ▸ hn⟩
    · exact .inr ⟨i, _, Coordinator.getElem?_put_self hc .., hi, hn⟩
  single := by
    intro j k d e hd he hdr her
    rcases getElem?_set_cases hd with ⟨rfl, rfl⟩ | ⟨-, hd⟩
    · exact absurd hdr (by simp [hrun])
    · rcases getElem?_set_cases he with ⟨rfl, rfl⟩ | ⟨-, he⟩
      · exact absurd her (by simp [hrun])
      · exact h.single j k d e hd he hdr her
  rest := by
    intro hl
    refine h.rest (Coordinator.locked_eq_false.mpr fun j d hd => ?_)
    by_cases hij : i = j
    · subst hij
      obtain rfl := some.inj (hc.symm.trans hd)
      cases hq : c.pc with
      | running m => rw [hq] at hp; cases hp
      | _ => rfl
    · exact Coordinator.locked_eq_false.mp hl j d ((getElem?_set_ne hij).trans hd)
  running := by
    intro j d m hd hm
    rcases getElem?_set_cases hd with ⟨rfl, rfl⟩ | ⟨-, hd⟩
    · dsimp only at hm
      rw [hm] at hrun
      cases hrun
    · exact h.running j d m hd hm

/-- A call takes the lock. -/
theorem lock_step {old new : List NodeId} (hp : c.pc = .waiting old new) (hl : s.locked = false)
    (hcur : s.Current i) (hback : ∀ n ∈ new, n ∈ g.cluster.clients ∨ n ∈ c.request.own) :
    Serialised val w₀ rs (order ++ [i]) (c.request.enter g)
      (s.put i c.request s.world (.running (Migration.start old new ∅ none))) := by
  obtain ⟨hrest, hne, hg⟩ := h.rest hl
  have hcur := hcur c hc
  unfold Caller.Current at hcur
  rw [hp] at hcur
  obtain ⟨rfl, hnew, hnewne, hnd, hcl, hh⟩ := hcur
  have hmembers : s.world.cluster.partitioner = g.cluster.partitioner := by
    rw [h.world]
    rfl
  have hids : s.world.cluster.memberIds = g.cluster.memberIds := by
    rw [Cluster.memberIds, hmembers]
    rfl
  have hi : i ∉ order := fun hi => by
    rw [h.mem_order i c hc, hp] at hi
    cases hi
  have hlen : i < rs.length := by
    rw [← h.requests, length_map]
    exact (List.getElem?_eq_some_iff.mp hc).1
  have hown : ∀ n ∈ c.request.own, n ∈ new := by
    intro n hn
    rw [hnew]
    cases hr : c.request with
    | applyMembership target => rwa [hr] at hn
    | rebalance _ | drain _ => rw [hr] at hn; cases hn
  have hready : Rebalanceable val (c.request.enter g) new := by
    refine ⟨⟨hrest.overlay, hrest.gates, hrest.down, hrest.replication, hrest.topology,
      hrest.nodes_nodup, fun n hn => Finset.mem_union_left _ (hrest.clients n hn), hrest.cells,
      hrest.noTtl⟩, hnewne, hnd, fun n hn => ?_, hmembers ▸ hh⟩
    rcases hback n hn with hn | hn
    · exact Finset.mem_union_left _ hn
    · exact Finset.mem_union_right _ (mem_toFinset.mpr hn)
  constructor
  · exact (Coordinator.requests_put hc _ _).trans h.requests
  · exact nodup_append.mpr ⟨h.nodup, nodup_singleton i, fun a ha b hb hab =>
      hi (mem_singleton.mp hb ▸ hab ▸ ha)⟩
  · intro j d hd
    rcases getElem?_set_cases hd with ⟨rfl, rfl⟩ | ⟨hj, hd⟩
    · simp [CallerPc.hasLocked]
    · simpa [hj] using h.mem_order j d hd
  · intro j hj
    rcases mem_append.mp hj with hj | hj
    · exact h.lt_length j hj
    · exact mem_singleton.mp hj ▸ hlen
  · exact h.colls
  · exact h.world
  · intro n hn
    rcases Finset.mem_union.mp hn with hn | hn
    · exact h.clients hn
    · exact hcl n (hown n (mem_toFinset.mp hn))
  · intro n hn
    rcases h.extra n hn with hn | ⟨j, d, hd, hj, hn⟩
    · exact .inl (Finset.mem_union_left _ hn)
    · by_cases hij : i = j
      · subst hij
        obtain rfl := some.inj (hc.symm.trans hd)
        exact .inl (Finset.mem_union_right _ (mem_toFinset.mpr hn))
      · refine .inr ⟨j, d, (getElem?_set_ne hij).trans hd, ?_, hn⟩
        simpa [hj] using fun hji => hij hji.symm
  · intro j k d e hd he hdr her
    have hfree := Coordinator.locked_eq_false.mp hl
    rcases getElem?_set_cases hd with ⟨rfl, rfl⟩ | ⟨-, hd⟩
    · rcases getElem?_set_cases he with ⟨rfl, rfl⟩ | ⟨-, he⟩
      · rfl
      · rw [hfree k e he] at her
        cases her
    · rw [hfree j d hd] at hdr
      cases hdr
  · intro hl'
    have := Coordinator.locked_eq_false.mp hl' i _ (Coordinator.getElem?_put_self hc ..)
    cases this
  · intro j d m hd hm
    rcases getElem?_set_cases hd with ⟨rfl, rfl⟩ | ⟨-, hd⟩
    · obtain rfl := CallerPc.running.inj hm
      refine ⟨rfl, ?_, _, (c.request.enter g).cluster.colls, (c.request.enter g).cluster.journal,
        hready.valid hne, ?_⟩
      · rw [serial, filterMap_append, foldl_append, filterMap_cons_some (h.request_eq hc),
          filterMap_nil, foldl_cons, foldl_nil, ← serial, ← hg, MemberRequest.run_eq, ← hids, ← hnew,
          hids]
        rfl
      · rw [hids]
        exact hready.sysInv none
    · have := Coordinator.locked_eq_false.mp hl j d hd
      rw [hm] at this
      cases this

variable {m : Migration} (hp : c.pc = .running m)
include hp

/-- While a call holds the lock, no other does. -/
theorem eq_of_isRunning {a : Caller} {k : ℕ} {d : Caller}
    (hd : (s.callers.set i a)[k]? = some d) (hdr : d.pc.isRunning = true) : k = i := by
  rcases getElem?_set_cases hd with ⟨rfl, -⟩ | ⟨-, hd⟩
  · rfl
  · exact h.single k i d c hd hc hdr (by rw [hp]; rfl)

variable [LawfulStore St]

/-- The call that holds the lock moves on. -/
theorem migrate_step {r : World St × Migration} (hr : m.step (fun _ => .ok) s.world = some r) :
    ∃ g', Serialised val w₀ rs order g' (s.put i c.request r.1 (.running r.2)) := by
  obtain ⟨hstop, hserial, mv, colls, j, hv, hinv⟩ := h.running i c m hc hp
  -- the same step in the world where the calls run one after the other
  rw [h.world, Migration.step_withClients hinv.fixed.down (hinv.findsClients hv) h.clients] at hr
  obtain ⟨q, hq, rfl⟩ := Option.map_eq_some_iff.mp hr
  have hs := Migration.trans_of_step hq
  have hkept := Migration.clients_step hs
  refine ⟨q.1, ?_⟩
  constructor
  · exact (Coordinator.requests_put hc _ _).trans h.requests
  · exact h.nodup
  · intro k d hd
    rcases getElem?_set_cases hd with ⟨rfl, rfl⟩ | ⟨-, hd⟩
    · rw [h.mem_order k c hc, hp]
      rfl
    · exact h.mem_order k d hd
  · exact h.lt_length
  · exact hs.colls_eq.trans h.colls
  · rfl
  · rw [hkept]
    exact m.keptClients_mono h.clients
  · intro n hn
    obtain ⟨hn, hkeep⟩ := Migration.mem_keptClients hn
    rw [hkept]
    refine (h.extra n hn).imp (hkeep _) ?_
    rintro ⟨k, d, hd, hk, hn⟩
    obtain ⟨d', hd', hreq⟩ := Coordinator.exists_put hc _ _ hd
    exact ⟨k, d', hd', hk, hreq ▸ hn⟩
  · intro k l d e hd he hdr her
    exact (h.eq_of_isRunning hc hp hd hdr).trans (h.eq_of_isRunning hc hp he her).symm
  · intro hl
    have := Coordinator.locked_eq_false.mp hl i _ (Coordinator.getElem?_put_self hc ..)
    cases this
  · intro k d m' hd hm'
    rcases getElem?_set_cases hd with ⟨rfl, rfl⟩ | ⟨hk, hd⟩
    · obtain rfl := CallerPc.running.inj hm'
      exact ⟨hs.stopAfter_eq.trans hstop, (Migration.finish_step hs).trans hserial, mv, colls,
        j, hv, hinv.migrate_step hv hs⟩
    · exact absurd (h.single k i d c hd hc (by rw [hm']; rfl) (by rw [hp]; rfl)) hk

omit [LawfulStore St] in
/-- The call that holds the lock returns. -/
theorem leave_step (hfin : m.phase = .finished) :
    Serialised val w₀ rs order g (s.put i c.request s.world .returned) := by
  obtain ⟨hstop, hserial, mv, colls, j, hv, hinv⟩ := h.running i c m hc hp
  have hrun : ∀ {k : ℕ} {d : Caller}, (s.put i c.request s.world .returned).callers[k]? = some d →
      d.pc.isRunning = false := by
    intro k d hd
    rcases getElem?_set_cases hd with ⟨-, rfl⟩ | ⟨hk, hd⟩
    · rfl
    · by_contra hdr
      exact hk (h.single k i d c hd hc (by simpa using hdr) (by rw [hp]; rfl))
  constructor
  · exact (Coordinator.requests_put hc _ _).trans h.requests
  · exact h.nodup
  · intro k d hd
    rcases getElem?_set_cases hd with ⟨rfl, rfl⟩ | ⟨-, hd⟩
    · rw [h.mem_order k c hc, hp]
      rfl
    · exact h.mem_order k d hd
  · exact h.lt_length
  · exact h.colls
  · exact h.world
  · exact h.clients
  · intro n hn
    refine (h.extra n hn).imp_right ?_
    rintro ⟨k, d, hd, hk, hn⟩
    obtain ⟨d', hd', hreq⟩ := Coordinator.exists_put hc _ _ hd
    exact ⟨k, d', hd', hk, hreq ▸ hn⟩
  · intro k l d e hd _ hdr
    rw [hrun hd] at hdr
    cases hdr
  · intro _
    refine ⟨hinv.atRest hv hstop hfin, ?_, ?_⟩
    · have hnodes : g.cluster.partitioner.nodes = mv.new := (hinv.committing hstop hfin).nodes
      exact hnodes ▸ hv.new_ne
    · rwa [Migration.finish, hfin] at hserial
  · intro k d m' hd hm'
    have := hrun hd
    rw [hm'] at this
    cases this

end Step

/-- Every step that meets the condition keeps the invariant. -/
theorem step [LawfulStore St] (hlen : rs.length = 2) (hback : ∀ r ∈ rs, r.Backed w₀)
    (h : Serialised val w₀ rs order g s) (hcur : s.Current i) {s' : Coordinator St}
    (hs : s.step (fun _ => .ok) i = some s') :
    ∃ order' g', Serialised val w₀ rs order' g' s' := by
  obtain ⟨c, hc, hs⟩ := Coordinator.trans_of_step hs
  cases hs with
  | prepare hp =>
    refine ⟨order, g, h.wait_step hc (by rw [hp]; rfl) rfl rfl ?_ ?_ ?_⟩
    · cases c.request with
      | rebalance _ | drain _ => exact h.world
      | applyMembership target =>
        change s.world.withClients _ = _
        rw [h.world]
        rfl
    · cases c.request with
      | rebalance _ | drain _ => exact Finset.Subset.refl _
      | applyMembership target => exact Finset.subset_union_left
    · intro n hn
      cases hr : c.request with
      | rebalance _ | drain _ => exact .inl (by rwa [hr] at hn)
      | applyMembership target =>
        rw [hr] at hn
        exact (Finset.mem_union.mp hn).imp_right mem_toFinset.mp
  | read hp =>
    exact ⟨order, g, h.wait_step hc (by rw [hp]; rfl) rfl rfl h.world (Finset.Subset.refl _)
      fun _ hn => .inl hn⟩
  | @lock old new hp hl =>
    refine ⟨order ++ [i], _, h.lock_step hc hp hl hcur fun n hn => ?_⟩
    have hcur := hcur c hc
    unfold Caller.Current at hcur
    rw [hp] at hcur
    obtain ⟨-, hnew, -, -, hcl, -⟩ := hcur
    rcases h.extra n (hcl n hn) with hn' | ⟨j, d, hd, hj, hn'⟩
    · exact .inl hn'
    · by_cases hij : j = i
      · subst hij
        obtain rfl := some.inj (hc.symm.trans hd)
        exact .inr hn'
      · -- neither of the two calls has locked yet
        have hi : i ∉ order := fun hi => by
          rw [h.mem_order i c hc, hp] at hi
          cases hi
        have hbound : ∀ {k : ℕ} {e : Caller}, s.callers[k]? = some e → k < 2 := by
          intro k e he
          have := (List.getElem?_eq_some_iff.mp he).1
          rwa [← List.length_map Caller.request, h.requests, hlen] at this
        have hnil : order = [] := by
          refine eq_nil_iff_forall_not_mem.mpr fun k hk => ?_
          have h1 := hbound hc
          have h2 := hbound hd
          have h3 := h.lt_length k hk
          have h4 : k ≠ i := fun hki => hi (hki ▸ hk)
          have h5 : k ≠ j := fun hkj => hj (hkj ▸ hk)
          omega
        have hg : g = w₀ := by
          rw [(h.rest hl).2.2, hnil]
          rfl
        have hids : s.world.cluster.memberIds = w₀.cluster.memberIds := by
          rw [h.world, hg]
          rfl
        rw [hg]
        refine hback c.request (mem_of_getElem? (h.request_eq hc)) n ?_
        rwa [← hids, ← hnew]
  | migrate hp hr =>
    obtain ⟨g', hg'⟩ := h.migrate_step hc hp hr
    exact ⟨order, g', hg'⟩
  | leave hp hfin => exact ⟨order, g, h.leave_step hc hp hfin⟩

/-- Two calls that have just been issued. -/
theorem start (hrest : AtRest val w₀) (hne : w₀.cluster.partitioner.nodes ≠ [])
    (r₁ r₂ : MemberRequest) :
    Serialised val w₀ [r₁, r₂] [] w₀ ⟨w₀, [⟨r₁, .idle⟩, ⟨r₂, .idle⟩]⟩ := by
  have hidle : ∀ {j : ℕ} {d : Caller},
      ([⟨r₁, .idle⟩, ⟨r₂, .idle⟩] : List Caller)[j]? = some d → d.pc = .idle := by
    intro j d hd
    have := mem_of_getElem? hd
    simp only [mem_cons, not_mem_nil, or_false] at this
    rcases this with rfl | rfl <;> rfl
  constructor
  · rfl
  · exact nodup_nil
  · intro j d hd
    simp [hidle hd, CallerPc.hasLocked]
  · simp
  · rfl
  · rfl
  · exact Finset.Subset.refl _
  · exact fun n hn => .inl hn
  · intro j k d e hd _ hdr
    rw [hidle hd] at hdr
    cases hdr
  · exact fun _ => ⟨hrest, hne, rfl⟩
  · intro j d m hd hm
    rw [hidle hd] at hm
    cases hm

/-- When every call has returned, the two worlds are the same. -/
theorem world_eq (h : Serialised val w₀ rs order g s) (hret : ∀ c ∈ s.callers, c.pc = .returned) :
    s.world = g ∧ AtRest val g ∧ g = serial w₀ rs order ∧ (order.filterMap (rs[·]?)).Perm rs := by
  have hlocked : ∀ {j : ℕ} {d : Caller}, s.callers[j]? = some d → j ∈ order := by
    intro j d hd
    rw [h.mem_order j d hd, hret d (mem_of_getElem? hd)]
    rfl
  have hfree : s.locked = false := by
    refine Coordinator.locked_eq_false.mpr fun j d hd => ?_
    rw [hret d (mem_of_getElem? hd)]
    rfl
  obtain ⟨hrest, -, hg⟩ := h.rest hfree
  have hclients : s.world.cluster.clients = g.cluster.clients := by
    refine Finset.Subset.antisymm (fun n hn => ?_) h.clients
    rcases h.extra n hn with hn | ⟨j, d, hd, hj, -⟩
    · exact hn
    · exact absurd (hlocked hd) hj
  refine ⟨?_, hrest, hg, ?_⟩
  · rw [h.world, hclients]
    rfl
  · have hlen : s.callers.length = rs.length := by
      rw [← h.requests, length_map]
    have hperm : order.Perm (range rs.length) := by
      refine (perm_ext_iff_of_nodup h.nodup nodup_range).mpr fun j => ?_
      rw [mem_range]
      refine ⟨h.lt_length j, fun hj => ?_⟩
      exact hlocked (getElem?_eq_getElem (hlen ▸ hj))
    refine (hperm.filterMap _).trans (List.Perm.of_eq ?_)
    exact filterMap_getElem?_range rs

end Serialised

/-- **Concurrent membership changes are serialised** when each call still finds, as it takes the
lock, the members and the clients that it relies on: the final state is that of the two calls one
after the other, and the owners of every key hold its value. -/
theorem serial_of_current [LawfulStore St] {val : String → String → Option Value} {w : World St}
    (h : AtRest val w) (hne : w.cluster.partitioner.nodes ≠ []) {r₁ r₂ : MemberRequest}
    (h₁ : r₁.Backed w) (h₂ : r₂.Backed w) {ls : List ℕ} {s : Coordinator St}
    (hrun : exec (guarded (Coordinator.step fun _ => .ok) Coordinator.Current)
      ⟨w, [⟨r₁, .idle⟩, ⟨r₂, .idle⟩]⟩ ls = some s)
    (hret : ∀ c ∈ s.callers, c.pc = .returned) :
    (∃ rs : List MemberRequest, rs.Perm [r₁, r₂] ∧
      s.world = rs.foldl (fun w r => r.run (fun _ => .ok) w) w) ∧
    ∀ c ∈ w.cluster.colls, ∀ k n,
      s.world.cell c k n = if n ∈ s.world.cluster.owners k then val c k else none := by
  have hback : ∀ r ∈ [r₁, r₂], r.Backed w := by
    intro r hr
    rcases mem_pair.mp hr with rfl | rfl
    · exact h₁
    · exact h₂
  have hinv : ∃ order g, Serialised val w [r₁, r₂] order g s := by
    refine exec_guarded_invariant (I := fun s => ∃ order g, Serialised val w [r₁, r₂] order g s) ?_
      ⟨_, _, Serialised.start h hne r₁ r₂⟩ hrun
    rintro t i t' ⟨order, g, ht⟩ hcur hs
    exact ht.step rfl hback hcur hs
  obtain ⟨order, g, hser⟩ := hinv
  obtain ⟨hworld, hrest, hg, hperm⟩ := hser.world_eq hret
  rw [hworld]
  exact ⟨⟨_, hperm, hg⟩, fun c hc k n => hrest.cells c (hser.colls ▸ hc) k n⟩

/-! ### Complete runs -/

namespace Coordinator

variable {s : Coordinator St} {i : ℕ} {c : Caller} {m : Migration}
  (next : Coordinator St → ℕ → Option (Coordinator St))

omit [IndexStore St] in
theorem put_put (r : MemberRequest) (w w' : World St) (pc pc' : CallerPc) :
    (s.put i r w pc).put i r w' pc' = s.put i r w' pc' := by
  simp [put]

variable {r : World St × Migration}

theorem step_migrate (hc : s.callers[i]? = some c) (hp : c.pc = .running m)
    (hr : m.step (fun _ => .ok) s.world = some r) :
    s.step (fun _ => .ok) i = some (s.put i c.request r.1 (.running r.2)) := by
  rw [step, hc]
  dsimp only [Option.bind_eq_bind, bind_some]
  rw [hp]
  dsimp only
  split
  next hfin =>
    rw [Migration.step, hfin] at hr
    cases hr
  next => rw [hr]; rfl

theorem step_leave (hc : s.callers[i]? = some c) (hp : c.pc = .running m)
    (hfin : m.phase = .finished) :
    s.step (fun _ => .ok) i = some (s.put i c.request s.world .returned) := by
  rw [step, hc]
  dsimp only [Option.bind_eq_bind, bind_some]
  rw [hp]
  dsimp only
  rw [hfin]

/-- The steps of a migration are steps of the call that runs it. -/
theorem exec_steps (hnext : ∀ (t : Coordinator St) (d : Caller), t.callers[i]? = some d →
      d.pc.isRunning = true → next t i = t.step (fun _ => .ok) i) (hc : s.callers[i]? = some c)
    (hp : c.pc = .running m) (hs : Migration.Steps (fun _ => .ok) (s.world, m) r) :
    ∃ ls, exec next s ls = some (s.put i c.request r.1 (.running r.2)) := by
  induction hs with
  | refl =>
    refine ⟨[], ?_⟩
    rw [exec_nil, put, ← hp]
    obtain ⟨hi, rfl⟩ := List.getElem?_eq_some_iff.mp hc
    exact congrArg (fun l => some (mk s.world l)) (List.set_getElem_self hi).symm
  | @tail q r _ hq ih =>
    obtain ⟨ls, hls⟩ := ih
    have hself := getElem?_put_self hc c.request q.1 (.running q.2)
    refine ⟨ls ++ [i], exec_concat_eq_some.mpr ⟨_, hls, ?_⟩⟩
    rw [hnext _ _ hself rfl, step_migrate hself rfl hq, put_put]

/-- A call that can take the lock runs to its end when nothing else moves. -/
theorem exec_returned (hnext : ∀ (t : Coordinator St) (d : Caller), t.callers[i]? = some d →
      d.pc.isRunning = true → next t i = t.step (fun _ => .ok) i)
    (hc : s.callers[i]? = some c) {old new : List NodeId}
    (hlock : next s i
      = some (s.put i c.request s.world (.running (Migration.start old new ∅ none))))
    (hfree : s.world.cluster.gates = Gates.new) :
    ∃ ls, exec next s ls
      = some (s.put i c.request (runMigration (fun _ => .ok) s.world old new ∅) .returned) := by
  obtain ⟨m, hsteps, hfin⟩ := Migration.exists_finished (fun _ => .ok) s.world
    (Migration.start old new ∅ none) fun b => by rw [hfree]; rfl
  rw [Migration.finish_start] at hsteps
  have hself := getElem?_put_self hc c.request s.world (.running (Migration.start old new ∅ none))
  obtain ⟨ls, hls⟩ := exec_steps next hnext hself rfl hsteps
  rw [put_put] at hls
  have hdone := getElem?_put_self hc c.request
    (runMigration (fun _ => .ok) s.world old new ∅) (.running m)
  refine ⟨i :: (ls ++ [i]), ?_⟩
  rw [exec_cons, hlock, bind_some]
  refine exec_concat_eq_some.mpr ⟨_, hls, ?_⟩
  rw [hnext _ _ hdone rfl, step_leave hdone rfl hfin, put_put]
  rfl

end Coordinator

/-- A rebalance in one go ends as a migration does. -/
theorem Rebalanceable.exists_sysInv [LawfulStore St] {new : List NodeId}
    (h : Rebalanceable val w new) (hne : w.cluster.partitioner.nodes ≠ []) :
    ∃ m, SysInv (w.moveTo new) w.cluster.colls val w.cluster.journal
        ⟨rebalance (fun _ => .ok) w new, [], some m, []⟩ m ∧
      m.stopAfter = none ∧ m.phase = .finished := by
  obtain ⟨m, hsteps, hfin⟩ := Migration.exists_finished (fun _ => .ok) w
    (Migration.start w.cluster.memberIds new ∅ none) fun b => by rw [h.gates]; rfl
  rw [Migration.finish_start] at hsteps
  have hinv : ∀ {r : World St × Migration}, Migration.Steps (fun _ => .ok)
      (w, Migration.start w.cluster.memberIds new ∅ none) r →
      SysInv (w.moveTo new) w.cluster.colls val w.cluster.journal ⟨r.1, [], some r.2, []⟩ r.2 ∧
        r.2.stopAfter = none := by
    intro r hr
    induction hr with
    | refl => exact ⟨h.sysInv none, rfl⟩
    | tail _ hs ih =>
      have hs := Migration.trans_of_step hs
      exact ⟨ih.1.migrate_step (h.valid hne) hs, hs.stopAfter_eq.trans ih.2⟩
  exact ⟨m, (hinv hsteps).1, (hinv hsteps).2, hfin⟩

/-! ### Growing to two nodes and shrinking back -/

/-- One call grows the cluster to `a` and `b`, another one asks for `a` alone. -/
def growShrink (pc₁ pc₂ : CallerPc) (w : World MemoryStore) : Coordinator MemoryStore :=
  ⟨w, [⟨.rebalance ["a", "b"], pc₁⟩, ⟨.rebalance ["a"], pc₂⟩]⟩

/-- The first call, run to its end. -/
@[irreducible] def grown : World MemoryStore := rebalance (fun _ => .ok) oneEntry ["a", "b"]

theorem exists_sysInv_grown : ∃ m, SysInv (oneEntry.moveTo ["a", "b"]) oneEntry.cluster.colls
    oneEntryVal oneEntry.cluster.journal ⟨grown, [], some m, []⟩ m ∧
    m.stopAfter = none ∧ m.phase = .finished := by
  rw [grown]
  exact rebalanceable_oneEntry.exists_sysInv (by decide)

theorem grown_atRest : AtRest oneEntryVal grown := by
  obtain ⟨m, hm, hstop, hfin⟩ := exists_sysInv_grown
  exact hm.atRest (rebalanceable_oneEntry.valid (by decide)) hstop hfin

theorem grown_nodes : grown.cluster.partitioner.nodes = ["a", "b"] := by
  obtain ⟨m, hm, hstop, hfin⟩ := exists_sysInv_grown
  exact (hm.committing hstop hfin).nodes

/-- The entry has moved to `b`. -/
theorem grown_cell : grown.cell "kv" "x" "a" = none := by
  obtain ⟨m, hm, hstop, hfin⟩ := exists_sysInv_grown
  refine (hm.handedOver (rebalanceable_oneEntry.valid (by decide)) hstop hfin
    (mem_singleton.mpr rfl) "x").2.1 "a" ?_
  have howner : (oneEntry.moveTo ["a", "b"]).newOwners (bucketOf "x") = ["b"] := by decide +kernel
  rw [howner]
  decide

/-- Committing one node, without a migration, makes it the owner of every key. -/
theorem owners_commit_singleton {c : Cluster} (hov : c.overlay = none) (n : NodeId) (k : String) :
    (c.commit [n]).owners k = [n] := by
  have hov : (c.commit [n]).overlay = none := hov
  rw [Cluster.owners_eq, Cluster.routes_of_overlay_none hov]
  have hnd : (c.commit [n]).partitioner.nodes.Nodup := nodup_singleton n
  have hlen := (c.commit [n]).partitioner.length_ownersOfBucket (bucketOf k)
    (c.commit [n]).replication hnd
  have hone : min (clamp c.replicationTarget 1) 1 = 1 := min_eq_right (le_max_right _ _)
  obtain ⟨o, ho⟩ := length_eq_one_iff.mp (hlen.trans hone)
  have hmem := Partitioner.ownersOfBucket_subset _ _ _ hnd (ho ▸ mem_singleton_self o)
  rw [ho, mem_singleton.mp hmem]

theorem grown_eq : runMigration (fun _ => .ok) oneEntry ["a"] ["a", "b"] ∅ = grown := by
  rw [grown]
  rfl

theorem exec_growShrink (next : Coordinator MemoryStore → ℕ → Option (Coordinator MemoryStore))
    (hnext : ∀ t i (d : Caller), t.callers[i]? = some d → d.pc.isRunning = true →
      next t i = t.step (fun _ => .ok) i) (pc : CallerPc)
    (hlock : next (growShrink (.waiting ["a"] ["a", "b"]) pc oneEntry) 0
      = some (growShrink (.running (Migration.start ["a"] ["a", "b"] ∅ none)) pc oneEntry)) :
    ∃ ls, exec next (growShrink (.waiting ["a"] ["a", "b"]) pc oneEntry) ls
      = some (growShrink .returned pc grown) :=
  grown_eq ▸ Coordinator.exec_returned next (s := growShrink (.waiting ["a"] ["a", "b"]) pc oneEntry)
    (hnext · 0) rfl hlock rfl

/-- A call that holds the lock meets the condition. -/
theorem guarded_of_isRunning (t : Coordinator St) (i : ℕ) (d : Caller)
    (hd : t.callers[i]? = some d) (hrun : d.pc.isRunning = true) :
    guarded (Coordinator.step fun _ => .ok) Coordinator.Current t i = t.step (fun _ => .ok) i := by
  refine if_pos fun d' hd' => ?_
  obtain rfl := some.inj (hd.symm.trans hd')
  cases hpc : d.pc with
  | running m => rw [Caller.Current, hpc]; trivial
  | _ => rw [hpc] at hrun; cases hrun

/-- The second call waits with its target, reads the members that the first one has committed, and
then shrinks the cluster again. -/
theorem exists_growShrink : ∃ ls w, exec (guarded (Coordinator.step fun _ => .ok) Coordinator.Current)
    (growShrink .idle .idle oneEntry) ls = some (growShrink .returned .returned w) := by
  have hlock₁ : (growShrink (.waiting ["a"] ["a", "b"]) (.targeted ["a"]) oneEntry).Current 0 := by
    decide +kernel
  obtain ⟨ls₁, h₁⟩ := exec_growShrink _ guarded_of_isRunning (.targeted ["a"]) (if_pos hlock₁)
  have hlock₂ : (growShrink .returned (.waiting grown.cluster.memberIds ["a"]) grown).Current 1 := by
    intro d hd
    obtain rfl := some.inj hd
    refine ⟨rfl, rfl, by decide, by decide, fun n hn => grown_atRest.clients n ?_, ?_⟩
    · rw [grown_nodes, mem_singleton.mp hn]
      decide
    · change DistinctHashes (grown.cluster.partitioner.nodes ++ ["a"])
      rw [grown_nodes]
      decide +kernel
  obtain ⟨ls₂, h₂⟩ := Coordinator.exec_returned
    (guarded (Coordinator.step fun _ => .ok) Coordinator.Current) (i := 1)
    (s := growShrink .returned (.waiting grown.cluster.memberIds ["a"]) grown)
    (guarded_of_isRunning · 1) rfl (if_pos hlock₂) grown_atRest.gates
  have h₀ : exec (guarded (Coordinator.step fun _ => .ok) Coordinator.Current)
      (growShrink .idle .idle oneEntry) [0, 0, 1]
      = some (growShrink (.waiting ["a"] ["a", "b"]) (.targeted ["a"]) oneEntry) := rfl
  have hread : exec (guarded (Coordinator.step fun _ => .ok) Coordinator.Current)
      (growShrink .returned (.targeted ["a"]) grown) [1]
      = some (growShrink .returned (.waiting grown.cluster.memberIds ["a"]) grown) := rfl
  refine ⟨[0, 0, 1] ++ (ls₁ ++ ([1] ++ ls₂)),
    runMigration (fun _ => .ok) grown grown.cluster.memberIds ["a"] ∅, ?_⟩
  rw [exec_append, h₀, bind_some, exec_append, h₁, bind_some, exec_append, hread, bind_some, h₂]
  rfl

theorem serial_of_current_growShrink : ∃ ls s,
    exec (guarded (Coordinator.step fun _ => .ok) Coordinator.Current)
      (growShrink .idle .idle oneEntry) ls = some s ∧
    (∃ rs : List MemberRequest, rs.Perm [.rebalance ["a", "b"], .rebalance ["a"]] ∧
      s.world = rs.foldl (fun w r => r.run (fun _ => .ok) w) oneEntry) ∧
    ∀ c ∈ oneEntry.cluster.colls, ∀ k n,
      s.world.cell c k n = if n ∈ s.world.cluster.owners k then oneEntryVal c k else none := by
  obtain ⟨ls, w, hrun⟩ := exists_growShrink
  refine ⟨ls, _, hrun, serial_of_current rebalanceable_oneEntry.toAtRest (by decide) ?_ ?_ hrun ?_⟩
  · unfold MemberRequest.Backed
    decide
  · unfold MemberRequest.Backed
    decide
  · simp [growShrink]

/-- The first call reads `[a]` and runs; the second one has read `[a]` too, so that it finds
nothing to move back. -/
theorem stale_members_strand_entry : AtRest oneEntryVal oneEntry ∧
    (∀ r ∈ [.rebalance ["a", "b"], .rebalance ["a"]], MemberRequest.Backed oneEntry r) ∧
    ∃ ls s, exec (Coordinator.step fun _ => .ok) (growShrink .idle .idle oneEntry) ls = some s ∧
      (∀ c ∈ s.callers, c.pc = .returned) ∧ oneEntry.cell "kv" "x" "a" = some (.int 1) ∧
      s.world.cluster.owners "x" = ["a"] ∧ s.world.cell "kv" "x" "a" = none := by
  obtain ⟨ls₁, h₁⟩ := exec_growShrink (Coordinator.step fun _ => .ok)
    (fun _ _ _ _ _ => rfl) (.waiting ["a"] ["a"]) rfl
  obtain ⟨ls₂, h₂⟩ := Coordinator.exec_returned (Coordinator.step fun _ => .ok) (i := 1)
    (s := growShrink .returned (.waiting ["a"] ["a"]) grown) (fun _ _ _ _ => rfl) rfl rfl
    grown_atRest.gates
  have h₀ : exec (Coordinator.step fun _ => .ok) (growShrink .idle .idle oneEntry) [0, 1, 0, 1]
      = some (growShrink (.waiting ["a"] ["a", "b"]) (.waiting ["a"] ["a"]) oneEntry) := rfl
  have hsame : runMigration (fun _ => .ok) grown ["a"] ["a"] ∅
      = grown.setCluster (grown.cluster.commit ["a"]) := if_pos (by decide)
  change exec _ _ _ = some (growShrink .returned .returned (runMigration _ grown ["a"] ["a"] ∅)) at h₂
  rw [hsame] at h₂
  refine ⟨rebalanceable_oneEntry.toAtRest, by unfold MemberRequest.Backed; decide,
    [0, 1, 0, 1] ++ (ls₁ ++ ls₂),
    growShrink .returned .returned (grown.setCluster (grown.cluster.commit ["a"])), ?_, ?_, ?_, ?_,
    ?_⟩
  · rw [exec_append, h₀, Option.bind_some, exec_append, h₁, Option.bind_some, h₂]
  · simp [growShrink]
  · simp [cell_oneEntry]
  · exact owners_commit_singleton grown_atRest.overlay "a" "x"
  · exact (congrFun (World.cell_setCluster grown _ "kv" "x") "a").trans grown_cell

end Stplr
