import Stplr.Equiv.History
import Stplr.Equiv.MoveCells

/-!
# Single-key calls against a running migration

`SysInv` ties together the phase of the migration, the gates, the position of every call, the
replicas of every cell, and the trace.  Every permitted step of the system keeps it (`SysInv.step`):
a call moves (`SysInv.call_step`), a call is invoked, the migration moves (`SysInv.migrate_step`),
time passes, or a stopped migration is resumed.
-/

namespace Stplr

open Lib Move List Option CallState

/-! ### The phases under client calls -/

namespace Move

variable {mv : Move} {colls : List String} {c : Cluster} {m : Migration}

/-- Clients may change the gate's counts, except of a drained chunk. -/
theorem PhaseInv.setGates (h : PhaseInv mv c m) {g : Gates} (hfr : g.frozen = c.gates.frozen)
    (hz : ∀ b ∈ m.phase.chunk, c.gates.inFlight b = 0 → g.inFlight b = 0) :
    PhaseInv mv { c with gates := g } m := by
  have hund : ∀ {cur cut}, Underway mv c m cur cut → Underway mv { c with gates := g } m cur cut :=
    fun hu => ⟨hu.laid, ⟨hu.ring.nodes, hu.ring.replication⟩, hu.clients, hu.overlay, hu.differ⟩
  have hcom : ∀ {steps}, Committing mv c m steps → Committing mv { c with gates := g } m steps :=
    fun hc => ⟨hc.new_eq, hfr.trans hc.frozen, hc.nodes, hc.replication, hc.clients, hc.oldClients,
      hc.journal, hc.shape⟩
  unfold PhaseInv at h ⊢
  cases hp : m.phase with
  | locked =>
    rw [hp] at h
    exact ⟨h.old_eq, h.new_eq, ⟨h.ring.nodes, h.ring.replication⟩, h.clients, hfr.trans h.frozen,
      h.overlay, h.todo⟩
  | planned => rw [hp] at h; exact ⟨hund h.1, hfr.trans h.2⟩
  | looping | draining ch | thawed ch => rw [hp] at h; exact ⟨hund h.1, hfr.trans h.2.1, h.2.2⟩
  | copying ch jobs | dropping ch jobs =>
    rw [hp] at h hz
    exact ⟨hund h.1, hfr.trans h.2.1, h.2.2.1, h.2.2.2.1, fun b hb => hz b hb (h.2.2.2.2 b hb)⟩
  | committing steps => rw [hp] at h; exact hcom h
  | finished => rw [hp] at h; exact h.imp (fun h => ⟨hund h.1, hfr.trans h.2.1, h.2.2⟩) hcom

/-- The running chunk is frozen and drained. -/
theorem PhaseInv.chunk (h : PhaseInv mv c m) {b : ℕ} (hb : b ∈ m.phase.chunk) :
    b ∈ c.gates.frozen ∧ c.gates.inFlight b = 0 := by
  unfold PhaseInv at h
  cases hp : m.phase with
  | copying ch jobs | dropping ch jobs =>
    rw [hp] at h hb
    exact ⟨by rw [h.2.1]; exact mem_toFinset.mpr hb, h.2.2.2.2 b hb⟩
  | _ => rw [hp] at hb; exact absurd hb not_mem_nil

theorem PhaseInv.nodup_nodes (hv : mv.Valid) (h : PhaseInv mv c m) : c.partitioner.nodes.Nodup := by
  rcases h.shape with ⟨cur, cut, hu⟩ | hl | ⟨steps, hc⟩
  · exact hu.ring.nodes.nodup_iff.mpr hv.old_nodup
  · exact hl.ring.nodes.nodup_iff.mpr hv.old_nodup
  · have := hc.nodes
    split_ifs at this
    · exact this.nodup_iff.mpr hv.old_nodup
    · exact this ▸ hv.new_nodup

/-- A run that is not told to stop ends with the overlay removed. -/
theorem PhaseInv.overlay_of_finished {St : Type} [IndexStore St] {w : World St}
    {net : MigCall → Outcome} {r : World St × Migration} (h : PhaseInv mv w.cluster m)
    (hs : m.Trans net w r) (hstop : r.2.stopAfter = none) (hfin : r.2.phase = .finished) :
    r.1.cluster.overlay = none := by
  unfold PhaseInv at h
  cases hs with
  | stop hp htodo hany =>
    change m.stopAfter = none at hstop
    rw [hstop] at hany
    cases hany
  | finish hp =>
    rw [hp] at h
    rcases h.shape with ⟨-, -, ho⟩ | ⟨-, -, ho⟩
    · rwa [if_neg not_mem_nil] at ho
    · exact ho
  | _ => cases hfin

theorem nodup_owners_overlay (hv : mv.Valid) (M : Finset ℕ) (b : ℕ) :
    ((mv.overlay M).owners b).Nodup := by
  rw [owners_overlay hv]
  split_ifs
  · exact hv.nodup_newOwners b
  · exact hv.nodup_oldOwners b

/-- In every phase every owner has a client, and owner lists are proper. -/
theorem PhaseInv.healthy (hv : mv.Valid) (hf : Fixed mv colls c) (h : PhaseInv mv c m) :
    Healthy c where
  down := hf.down
  clients := fun b hb n hn => h.mem_clients hv hf hb hn
  nodup_ring := fun b => Partitioner.nodup_ownersOfBucket _ _ _ (h.nodup_nodes hv)
  nodup_routes := by
    intro b
    have hring := Partitioner.nodup_ownersOfBucket c.partitioner b c.replication (h.nodup_nodes hv)
    have hov : ∀ {o}, c.overlay = some o → (∃ M, o = mv.overlay M) → (c.routes b).Nodup := by
      rintro o ho ⟨M, rfl⟩
      rw [Cluster.routes, ho]
      exact nodup_owners_overlay hv M b
    rcases h.shape with ⟨cur, cut, hu⟩ | hl | ⟨steps, hc⟩
    · exact hov hu.overlay ⟨_, rfl⟩
    · rcases hl.overlay with ⟨ho, -⟩ | ⟨ho, -⟩
      · rwa [Cluster.routes_of_overlay_none ho]
      · exact hov ho ⟨_, rfl⟩
    · rcases hc.shape with ⟨-, -, ho⟩ | ⟨-, -, ho⟩
      · split_ifs at ho
        · exact hov ho ⟨_, rfl⟩
        · rwa [Cluster.routes_of_overlay_none ho]
      · rwa [Cluster.routes_of_overlay_none ho]
  nonempty := by
    intro b hb
    have hcut : ∀ M : Finset ℕ, (if b ∈ M then mv.newOwners b else mv.oldOwners b) ≠ [] := by
      intro M
      split_ifs
      · exact hv.newOwners_ne_nil b
      · exact hv.oldOwners_ne_nil b
    rcases h.shape with ⟨cur, cut, hu⟩ | hl | ⟨steps, hc⟩
    · rw [hu.routes_eq hv]
      exact hcut cut
    · rw [hl.routes_eq hv hf]
      exact hcut m.done
    · obtain ⟨n, hn⟩ := exists_mem_of_ne_nil _ (hv.newOwners_ne_nil b)
      exact ne_nil_of_mem ((hc.mem_routes hv hf hb n).mpr hn)

end Move

/-! ### The invariant -/

/-- What holds of the replicas of one cell. -/
structure CellInv {St : Type} [IndexStore St] (σ : String → String → Option Value) (w : World St)
    (calls : List CallState) (c k : String) : Prop where
  busy : ∀ (i : ℕ) (t : CallState), calls[i]? = some t → t.PendingOn c k →
    WriteInv (w.cell c k) (w.cluster.routes (bucketOf k)) t (σ c k)
  calm : (∀ (i : ℕ) (t : CallState), calls[i]? = some t → ¬t.PendingOn c k) →
    Hold (w.cell c k) (w.cluster.routes (bucketOf k)) (σ c k)

/-- The invariant of a system in which one migration runs. -/
structure SysInv {St : Type} [IndexStore St] (mv : Move) (colls : List String)
    (val : String → String → Option Value) (j : Option MigrationRecord) (s : System St)
    (m : Migration) : Prop where
  /-- The migration runs, or it was abandoned before it had the lock. -/
  migration : s.migration = some m ∨ (s.migration = none ∧ m.phase = .locked ∧ j = none)
  fixed : Fixed mv colls s.world.cluster
  phase : PhaseInv mv s.world.cluster m
  complete : m.stopAfter = none → m.phase = .finished → s.world.cluster.overlay = none
  journal : m.phase = .locked → s.world.cluster.overlay = none → s.world.cluster.journal = j
  noTtl : s.world.NoTtl colls
  count : ∀ b, s.world.cluster.gates.inFlight b = s.calls.countP (CallState.inGateOf b)
  managed : ∀ (i : ℕ) (t : CallState), s.calls[i]? = some t → t.call.coll ∈ colls
  call : ∀ (i : ℕ) (t : CallState), s.calls[i]? = some t → CallInv s.world.cluster t
  single : ∀ c k (i j : ℕ) (t u : CallState), s.calls[i]? = some t → s.calls[j]? = some u →
    t.PendingOn c k → u.PendingOn c k → i = j
  cell : ∀ c ∈ colls, ∀ k, CellInv (lastValue val s.trace) s.world s.calls c k
  move : MoveInv mv colls (lastValue val s.trace) s.world m
  log : LogInv s.calls s.trace
  reads : Reads val s.calls s.trace
  answers : Answers val s.trace

variable {St : Type} [IndexStore St]

/-! ### The steps of the system -/

theorem System.callStep_eq_some {s s' : System St} {id : ℕ} {o : Outcome}
    (h : s.callStep id o = some s') : ∃ t, s.calls[id]? = some t ∧ ∃ r, t.step o s.world = some r ∧
      s' = { s with
        world := r.1, calls := s.calls.set id r.2, trace := s.trace ++ r.2.retEvents id } := by
  obtain ⟨t, ht, h⟩ := bind_eq_some_iff.mp h
  obtain ⟨r, hr, h⟩ := bind_eq_some_iff.mp h
  exact ⟨t, ht, r, hr, (some.inj h).symm⟩

theorem System.migrateStep_eq_some {net : MigCall → Outcome} {s s' : System St}
    (h : s.migrateStep net = some s') : ∃ m, s.migration = some m ∧ ∃ r,
      m.step net s.world = some r ∧ s' = { s with world := r.1, migration := some r.2 } := by
  obtain ⟨m, hm, h⟩ := bind_eq_some_iff.mp h
  obtain ⟨r, hr, h⟩ := bind_eq_some_iff.mp h
  exact ⟨m, hm, r, hr, (some.inj h).symm⟩

theorem System.step_migrate {net : MigCall → Outcome} {a b : World St × Migration}
    (h : a.2.step net a.1 = some b) (calls : List CallState) (trace : List Event) :
    System.step net ⟨a.1, calls, some a.2, trace⟩ .migrate = some ⟨b.1, calls, some b.2, trace⟩ := by
  rw [System.step, System.migrateStep, bind_eq_bind, bind_some, h]
  rfl

/-! ### What a step of a call does to the gates and the replies -/

namespace CallState

variable {w : World St} {t : CallState} {r : World St × CallState}

omit [IndexStore St] in
theorem inGate_visit (c : Cluster) (t : CallState) (todo : List NodeId) :
    (visit c t todo).inGate = true := by
  unfold visit
  split_ifs
  · cases todo.filter (· ∉ c.down) with
    | nil => rfl
    | cons p replicas => dsimp only; split_ifs <;> rfl
  · cases todo with
    | nil => rfl
    | cons n todo => dsimp only; split_ifs <;> rfl

theorem inGate_callNode (now : ℕ) (sh : Shard St) (t : CallState) (todo : List NodeId) :
    (t.callNode .ok now sh todo).2.inGate = true := by
  by_cases hg : t.call.op = .get
  · rw [callNode_get hg]
    rfl
  · cases hpr : t.call.op.primary with
    | false =>
      rw [callNode_broadcast hg hpr]
      rfl
    | true =>
      rcases callNode_primary now sh todo hpr with
        ⟨v, rep, -, heq⟩ | ⟨rep, -, heq⟩
      · rw [heq]
        rfl
      · rw [heq]
        rfl

/-- A step enters the gate, leaves it, or happens inside. -/
theorem Trans.gate_cases (h : t.Trans w r) :
    (t.pc = .waiting ∧ r.2.pc = .entered ∧ bucketOf t.call.key ∉ w.cluster.gates.frozen ∧
      r.1.cluster = { w.cluster with gates := w.cluster.gates.enter (bucketOf t.call.key) }) ∨
    (∃ rep, t.pc = .returning rep ∧ r.2.pc = .returned rep ∧
      r.1.cluster = { w.cluster with gates := w.cluster.gates.leave (bucketOf t.call.key) }) ∨
    (t.pc.inGate = true ∧ r.2.pc.inGate = true ∧ r.1.cluster = w.cluster) := by
  cases h with
  | enter hp hc => exact .inl ⟨hp, rfl, hc, rfl⟩
  | leave hp => exact .inr (.inl ⟨_, hp, rfl, rfl⟩)
  | visit hp => exact .inr (.inr ⟨by rw [hp]; rfl, inGate_visit _ _ _, rfl⟩)
  | call hp => exact .inr (.inr ⟨by rw [hp]; rfl, inGate_callNode _ _ _ _, rfl⟩)
  | copy hp => exact .inr (.inr ⟨by rw [hp]; rfl, by dsimp only; split_ifs <;> rfl, rfl⟩)
  | overlay hp | noOverlay hp | ring hp | copied hp | write hp =>
    exact .inr (.inr ⟨by rw [hp]; rfl, rfl, rfl⟩)

theorem isReturned_of_inGate {pc : CallPc} (h : pc.inGate = true) : pc.isReturned = false := by
  cases pc <;> first | rfl | cases h

theorem Trans.not_returned (h : t.Trans w r) : t.pc.isReturned = false := by
  rcases h.gate_cases with ⟨hp, -⟩ | ⟨rep, hp, -⟩ | ⟨hp, -⟩
  · rw [hp]; rfl
  · rw [hp]; rfl
  · exact isReturned_of_inGate hp

/-- A read returns what an owner holds. -/
theorem Trans.reply_get (hh : Healthy w.cluster) (hi : CallInv w.cluster t)
    (hg : t.call.op = .get) (h : t.Trans w r) {rep : Reply} (hp : r.2.pc = .returning rep) :
    ∃ n ∈ w.cluster.routes (bucketOf t.call.key),
      rep = .value (w.cell t.call.coll t.call.key n) := by
  have hb : bucketOf t.call.key < numBuckets := bucketOf_lt _
  cases h with
  | @visit todo hp' =>
    have hu : t.pc.unvisited = some todo := by rw [hp']; rfl
    have hfull := hi.full (.inl (by rw [hg]; rfl)) todo (by rw [hp']; rfl)
    dsimp only at hp
    rw [visit_healthy (fun n _ => hh.up n)
      fun n hn => hh.clients _ hb n (hi.owner todo hu n hn)] at hp
    cases todo with
    | nil =>
      obtain ⟨n, hn⟩ := exists_mem_of_ne_nil _ (hh.nonempty _ hb)
      exact absurd (hfull n hn) not_mem_nil
    | cons n todo => cases hp
  | @call n todo hp' =>
    dsimp only at hp
    rw [callNode_get hg] at hp
    refine ⟨n, hi.owner (n :: todo) (by rw [hp']; rfl) n (mem_cons_self ..), ?_⟩
    exact (CallPc.returning.inj hp).symm
  | @copied v rep hp' =>
    -- a read never copies
    have hplain := hi.plain (by rw [hg]; rfl)
    rw [hp'] at hplain
    cases hplain
  | @copy v rep n todo hp' => dsimp only at hp; split_ifs at hp
  | _ => cases hp

end CallState

/-! ### Lemmas about the invariant -/

theorem CellInv.hold {σ : String → String → Option Value} {w : World St} {calls : List CallState}
    {c k : String} (h : CellInv σ w calls c k)
    (hg : ∀ (i : ℕ) (t : CallState), calls[i]? = some t → t.inGateOf (bucketOf k) = false) :
    Hold (w.cell c k) (w.cluster.routes (bucketOf k)) (σ c k) := by
  by_cases hex : ∃ (i : ℕ) (t : CallState), calls[i]? = some t ∧ t.PendingOn c k
  · obtain ⟨i, t, ht, hp⟩ := hex
    refine (WriteInv.iff_hold ?_ hp.2).mp (h.busy i t ht hp)
    have := hg i t ht
    rw [inGateOf, hp.1.2.2, decide_eq_true rfl, Bool.and_true] at this
    exact this
  · exact h.calm fun i t ht hp => hex ⟨i, t, ht, hp⟩

/-- An owner holds the last value or the result of the pending write. -/
theorem CellInv.value {σ : String → String → Option Value} {w : World St} {calls : List CallState}
    {c k : String} (h : CellInv σ w calls c k) {n : NodeId}
    (hn : n ∈ w.cluster.routes (bucketOf k)) : w.cell c k n = σ c k ∨
      ∃ (i : ℕ) (t : CallState), calls[i]? = some t ∧ t.PendingOn c k ∧
        w.cell c k n = t.call.op.result (σ c k) := by
  by_cases hex : ∃ (i : ℕ) (t : CallState), calls[i]? = some t ∧ t.PendingOn c k
  · obtain ⟨i, t, ht, hp⟩ := hex
    have hw := h.busy i t ht hp
    cases hu : t.pc.unvisited with
    | none => exact .inl ((WriteInv.of_none hu).mp hw n hn)
    | some todo =>
      have hval := ((WriteInv.of_some hu).mp hw).1 n hn
      split_ifs at hval
      · exact .inl hval
      · exact .inr ⟨i, t, ht, hp, hval⟩
  · exact .inl (h.calm (fun i t ht hp => hex ⟨i, t, ht, hp⟩) n hn)

variable {colls : List String} {m : Migration} {mv : Move}

/-- The cells outside the owners, after steps that leave them alone. -/
theorem Move.MoveInv.congr {mv : Move} {colls : List String}
    {σ σ' : String → String → Option Value} {w w' : World St} {m : Migration}
    (h : MoveInv mv colls σ w m)
    (hσ : ∀ c k, bucketOf k ∈ m.phase.chunk → σ' c k = σ c k)
    (hR : ∀ b, w'.cluster.routes b = w.cluster.routes b)
    (hcell : ∀ c ∈ colls, ∀ k, ∀ n ∉ w.cluster.routes (bucketOf k), w'.cell c k n = w.cell c k n) :
    MoveInv mv colls σ' w' m where
  jobs := by
    have hj := h.jobs
    cases hp : m.phase with
    | copying ch jobs =>
      rw [hp] at hj hσ
      intro job hjob
      have hok := hj job hjob
      cases job with
      | pair src dst bs => exact hok
      | transfer src dst bs i coll => exact hok
      | deliver src dst bs i coll es =>
        refine ⟨hok.1, hok.2.1, hok.2.2.1, fun k => ?_⟩
        rw [hok.2.2.2 k]
        split_ifs with hb
        · exact (hσ coll k (hok.1 _ hb).1).symm
        · rfl
    | dropping ch jobs => rw [hp] at hj; exact hj
    | _ => trivial
  stray := by
    intro c hc k n hn
    rw [hR] at hn
    rw [hcell c hc k n hn]
    have hx := h.stray c hc k n hn
    cases hp : m.phase with
    | copying ch jobs =>
      rw [hp] at hx hσ
      refine hx.imp_right ?_
      rintro ⟨hb, hnew, hval⟩
      exact ⟨hb, hnew, hval.trans (hσ c k hb).symm⟩
    | _ => rw [hp] at hx; exact hx

namespace SysInv

variable {mv : Move} {colls : List String} {val : String → String → Option Value}
  {j : Option MigrationRecord} {s : System St} {m : Migration}

theorem inGateOf_eq_false (h : SysInv mv colls val j s m) {b : ℕ} (hb : b ∈ m.phase.chunk) {i : ℕ}
    {t : CallState} (ht : s.calls[i]? = some t) : t.inGateOf b = false := by
  have h0 := (h.phase.chunk hb).2
  rw [h.count, countP_eq_zero] at h0
  exact Bool.eq_false_iff.mpr (h0 t (mem_of_getElem? ht))

/-- In the running chunk the owners agree. -/
theorem chunkHolds (h : SysInv mv colls val j s m) :
    ChunkHolds colls (lastValue val s.trace) s.world m :=
  fun c hc k hb => (h.cell c hc k).hold fun _ _ ht => h.inGateOf_eq_false hb ht

/-! ### A call moves -/

section Call

variable {id : ℕ} {t : CallState} {r : World St × CallState}

theorem phase_call (h : SysInv mv colls val j s m) (hs : t.Trans s.world r) :
    PhaseInv mv r.1.cluster m := by
  rcases hs.gate_cases with ⟨-, -, hfr, hc⟩ | ⟨rep, -, -, hc⟩ | ⟨-, -, hc⟩
  · rw [hc]
    refine h.phase.setGates rfl fun b hb h0 => ?_
    have hne : b ≠ bucketOf t.call.key := by
      rintro rfl
      exact hfr (h.phase.chunk hb).1
    simpa [Gates.enter, hne] using h0
  · rw [hc]
    refine h.phase.setGates rfl fun b hb h0 => ?_
    by_cases hb : b = bucketOf t.call.key
    · subst hb
      simp [Gates.leave, h0]
    · simpa [Gates.leave, hb] using h0
  · rw [hc]
    exact h.phase

theorem fixed_call (h : SysInv mv colls val j s m) (hs : t.Trans s.world r) :
    Fixed mv colls r.1.cluster := by
  obtain ⟨g, hg, -⟩ := hs.cluster_eq
  rw [hg]
  exact ⟨h.fixed.target, h.fixed.topology, h.fixed.ringTopology, h.fixed.colls, h.fixed.down⟩

/-- The value of a cell changes only when a write of it returns. -/
theorem lastValue_call (val : String → String → Option Value) (id : ℕ) (hs : t.Trans s.world r)
    {c k : String} (hn : ¬t.call.WritesTo c k ∨ r.2.pc.isReturned = false) :
    lastValue val (s.trace ++ r.2.retEvents id) c k = lastValue val s.trace c k := by
  cases hr : r.2.pc.isReturned with
  | false => rw [retEvents_of_not hr, append_nil]
  | true =>
    obtain ⟨rep, hrep⟩ : ∃ rep, r.2.pc = .returned rep := by
      cases hp : r.2.pc <;> simp_all [CallPc.isReturned]
    rw [retEvents_returned hrep, lastValue_append, foldl_cons, foldl_nil]
    refine Event.apply_of_not_writesTo ?_ _
    rw [Event.call, hs.call_eq]
    exact hn.resolve_right (by simp [hr])

variable (h : SysInv mv colls val j s m) (ht : s.calls[id]? = some t) (hs : t.Trans s.world r)
include h ht hs

theorem count_call (b : ℕ) :
    r.1.cluster.gates.inFlight b = (s.calls.set id r.2).countP (CallState.inGateOf b) := by
  obtain ⟨hlt, hget⟩ := List.getElem?_eq_some_iff.mp ht
  have hpos : t.inGateOf b = true → 0 < s.calls.countP (inGateOf b) := fun hg =>
    List.countP_pos_iff.mpr ⟨t, List.mem_of_getElem? ht, hg⟩
  rw [countP_set hlt, hget, ← h.count]
  rw [← h.count] at hpos
  unfold inGateOf at hpos ⊢
  rw [hs.call_eq]
  rcases hs.gate_cases with ⟨hp, hp', -, hc⟩ | ⟨rep, hp, hp', hc⟩ | ⟨hp, hp', hc⟩
  · rw [hc, hp, hp']
    by_cases hb : bucketOf t.call.key = b
    · subst hb
      simp [Gates.enter, CallPc.inGate]
    · simp [Gates.enter, CallPc.inGate, hb, Ne.symm hb]
  · rw [hc, hp, hp']
    by_cases hb : bucketOf t.call.key = b
    · subst hb
      simp [Gates.leave, CallPc.inGate]
    · simp [Gates.leave, CallPc.inGate, hb, Ne.symm hb]
  · rw [hp] at hpos
    rw [hc, hp, hp']
    by_cases hb : bucketOf t.call.key = b
    · have := hpos (by simp [hb])
      simp only [hb, decide_true, Bool.and_self, if_true]
      omega
    · simp [hb]

theorem callInv_call [LawfulStore St] (hv : mv.Valid) (i : ℕ) (u : CallState)
    (hu : (s.calls.set id r.2)[i]? = some u) : CallInv r.1.cluster u := by
  rcases getElem?_set_cases hu with ⟨rfl, rfl⟩ | ⟨-, hu⟩
  · exact (h.call i t ht).step (h.phase.healthy hv h.fixed) hs
  · obtain ⟨g, hg, -⟩ := hs.cluster_eq
    refine (h.call i u hu).congr ?_ fun n => by rw [hs.routes_eq]
    rw [hg]
    exact fun hr => hr

theorem cellInv_call [LawfulStore St] (hv : mv.Valid) {c : String} (hc : c ∈ colls) (k : String) :
    CellInv (lastValue val (s.trace ++ r.2.retEvents id)) r.1 (s.calls.set id r.2) c k := by
  have hh := h.phase.healthy hv h.fixed
  have hlt : id < s.calls.length := (List.getElem?_eq_some_iff.mp ht).1
  by_cases hw : t.call.WritesTo c k
  · have hpend : t.PendingOn c k := ⟨hw, hs.not_returned⟩
    -- the only write of the cell is this one
    have hother : ∀ (i : ℕ) (u : CallState), i ≠ id → s.calls[i]? = some u → ¬u.PendingOn c k :=
      fun i u hi hu hp => hi (h.single c k i id u t hu ht hp hpend)
    obtain ⟨hwr, rfl, rfl⟩ := hw
    have hstep : WriteInv (r.1.cell t.call.coll t.call.key)
        (r.1.cluster.routes (bucketOf t.call.key)) r.2
        (lastValue val s.trace t.call.coll t.call.key) := by
      refine WriteInv.step hh (h.call id t ht) ?_ ((h.cell _ hc _).busy id t ht hpend) hs
      intro hget
      rw [hget] at hwr
      cases hwr
    cases hr : r.2.pc.isReturned with
    | false =>
      constructor
      · intro i u hu hp
        rw [lastValue_call val id hs (.inr hr)]
        rcases getElem?_set_cases hu with ⟨rfl, rfl⟩ | ⟨hi, hu⟩
        · exact hstep
        · exact absurd hp (hother i u hi hu)
      · intro hcalm
        refine absurd ⟨?_, hr⟩ (hcalm id r.2 (by simp [hlt]))
        rw [hs.call_eq]
        exact ⟨hwr, rfl, rfl⟩
    | true =>
      obtain ⟨rep, hrep⟩ : ∃ rep, r.2.pc = .returned rep := by
        cases hp : r.2.pc <;> simp_all [CallPc.isReturned]
      constructor
      · intro i u hu hp
        rcases getElem?_set_cases hu with ⟨rfl, rfl⟩ | ⟨hi, hu⟩
        · exact absurd hp.2 (by simp [hr])
        · exact absurd hp (hother i u hi hu)
      · intro _
        have hhold := hstep.hold_of_visited (by rw [hrep]; rfl)
        rw [retEvents_returned hrep, lastValue_append]
        rw [← hs.call_eq] at hhold ⊢
        rwa [lastValue, foldl_cons, foldl_nil, Event.apply, if_pos ⟨rfl, rfl⟩]
  · have hσ := lastValue_call val id hs (.inl hw)
    have hcell := hs.cell_eq_of_not_writes (h.call id t ht).plain hw
    constructor
    · intro i u hu hp
      rw [hσ, hs.routes_eq]
      rcases getElem?_set_cases hu with ⟨rfl, rfl⟩ | ⟨-, hu⟩
      · exact absurd (hs.call_eq ▸ hp.1) hw
      · exact ((h.cell c hc k).busy i u hu hp).congr (fun n _ => hcell n) fun n => Iff.rfl
    · intro hcalm
      rw [hσ, hs.routes_eq]
      refine ((h.cell c hc k).calm fun i u hu hp => ?_).congr (fun n _ => hcell n) fun n => Iff.rfl
      by_cases hi : i = id
      · subst hi
        obtain rfl := some.inj (ht.symm.trans hu)
        exact hw hp.1
      · exact hcalm i u (by rwa [getElem?_set_ne (Ne.symm hi)]) hp

theorem moveInv_call [LawfulStore St] :
    MoveInv mv colls (lastValue val (s.trace ++ r.2.retEvents id)) r.1 m := by
  refine h.move.congr ?_ hs.routes_eq ?_
  · intro c k hb
    -- a call that returns was in its gate, and nothing is in the gates of the chunk
    by_cases hw : t.call.WritesTo c k
    · refine lastValue_call val id hs (.inr ?_)
      have hg := h.inGateOf_eq_false hb ht
      rw [inGateOf, hw.2.2, decide_eq_true rfl, Bool.and_true] at hg
      rcases hs.gate_cases with ⟨-, hp', -⟩ | ⟨rep, hp, -⟩ | ⟨hp, -⟩
      · rw [hp']; rfl
      · rw [hp] at hg; cases hg
      · rw [hp] at hg; cases hg
    · exact lastValue_call val id hs (.inl hw)
  · intro c hc k n hn
    refine hs.cell_eq ?_
    by_cases hck : c = t.call.coll ∧ k = t.call.key
    · refine .inr fun todo htodo hmem => hn ?_
      rw [hck.2]
      exact (h.call id t ht).owner todo htodo n hmem
    · exact .inl hck

theorem reads_call [LawfulStore St] (hv : mv.Valid) :
    Reads val (s.calls.set id r.2) (s.trace ++ r.2.retEvents id) := by
  intro i u rep hu hget hp pre mid htr hset hun
  rcases getElem?_set_cases hu with ⟨rfl, rfl⟩ | ⟨-, hu⟩
  · -- the read has just had its answer: from an owner, while no write was pending
    have hr : r.2.pc.isReturned = false := by rw [hp]; rfl
    rw [retEvents_of_not hr, append_nil] at htr
    rw [hs.call_eq] at hget htr hset hun ⊢
    obtain ⟨n, hn, hrep⟩ := hs.reply_get (h.phase.healthy hv h.fixed) (h.call i t ht) hget hp
    have hnw : ¬(Event.inv i t.call).call.WritesTo t.call.coll t.call.key := by
      rintro ⟨hw, -⟩
      change t.call.op.isWrite = true at hw
      rw [hget] at hw
      cases hw
    have hcalm := (h.cell _ (h.managed i t ht) t.call.key).calm
      (h.log.not_pendingOn htr hnw hset hun)
    rw [hrep, hcalm n hn, htr, lastValue_append, foldl_cons, Event.apply_of_not_writesTo hnw,
      hun.foldl_apply]
  · cases hr : r.2.pc.isReturned with
    | false =>
      rw [retEvents_of_not hr, append_nil] at htr
      exact h.reads i u rep hu hget hp pre mid htr hset hun
    | true =>
      obtain ⟨rep', hrep⟩ : ∃ rep, r.2.pc = .returned rep := by
        cases hp : r.2.pc <;> simp_all [CallPc.isReturned]
      rw [retEvents_returned hrep] at htr
      rcases append_cons_eq_concat htr with ⟨-, -, heq⟩ | ⟨mid', rfl, htr'⟩
      · cases heq
      · exact h.reads i u rep hu hget hp pre mid' htr' hset fun e he =>
          hun e (mem_append_left _ he)

theorem answers_call : Answers val (s.trace ++ r.2.retEvents id) := by
  rcases hs.gate_cases with ⟨-, hp', -⟩ | ⟨rep, hp, hp', -⟩ | ⟨-, hp', -⟩
  · rw [retEvents_of_not (by rw [hp']; rfl), append_nil]
    exact h.answers
  · rw [retEvents_returned hp', hs.call_eq]
    refine h.answers.concat ?_
    intro i call reply heq hget pre mid htr hset hun
    obtain ⟨rfl, rfl, rfl⟩ := Event.ret.inj heq
    exact h.reads _ t _ ht hget hp pre mid htr hset hun
  · rw [retEvents_of_not (isReturned_of_inGate hp'), append_nil]
    exact h.answers

/-- A step of a call keeps the invariant. -/
theorem call_step [LawfulStore St] (hv : mv.Valid) :
    SysInv mv colls val j { s with
        world := r.1, calls := s.calls.set id r.2, trace := s.trace ++ r.2.retEvents id } m where
  migration := h.migration
  fixed := h.fixed_call hs
  phase := h.phase_call hs
  complete := by
    intro hstop hfin
    obtain ⟨g, hg, -⟩ := hs.cluster_eq
    rw [hg]
    exact h.complete hstop hfin
  journal := by
    intro hp ho
    obtain ⟨g, hg, -⟩ := hs.cluster_eq
    rw [hg] at ho ⊢
    exact h.journal hp ho
  noTtl := hs.noTtl h.noTtl
  count := h.count_call ht hs
  managed := by
    intro i u hu
    rcases getElem?_set_cases hu with ⟨rfl, rfl⟩ | ⟨-, hu⟩
    · rw [hs.call_eq]
      exact h.managed i t ht
    · exact h.managed i u hu
  call := h.callInv_call ht hs hv
  single := by
    -- a call that is pending after the step was pending before
    have hback : ∀ c k (i : ℕ) (u : CallState), (s.calls.set id r.2)[i]? = some u →
        u.PendingOn c k → ∃ u', s.calls[i]? = some u' ∧ u'.PendingOn c k := by
      intro c k i u hu hp
      rcases getElem?_set_cases hu with ⟨rfl, rfl⟩ | ⟨-, hu⟩
      · exact ⟨t, ht, hs.call_eq ▸ hp.1, hs.not_returned⟩
      · exact ⟨u, hu, hp⟩
    intro c k i j u u' hu hu' hp hp'
    obtain ⟨v, hv, hvp⟩ := hback c k i u hu hp
    obtain ⟨v', hv', hvp'⟩ := hback c k j u' hu' hp'
    exact h.single c k i j v v' hv hv' hvp hvp'
  cell := fun _ => h.cellInv_call ht hs hv
  move := h.moveInv_call ht hs
  log := h.log.step ht hs.not_returned hs.call_eq
  reads := h.reads_call ht hs hv
  answers := h.answers_call ht hs

end Call

/-! ### A call is invoked -/

theorem invoke_step (h : SysInv mv colls val j s m) {call : Call} (hc : call.coll ∈ colls)
    (hfree : ∀ c k, call.WritesTo c k → ∀ (i : ℕ) (t : CallState), s.calls[i]? = some t →
      ¬t.PendingOn c k) :
    SysInv mv colls val j { s with
        calls := s.calls ++ [⟨call, .waiting⟩]
        trace := s.trace ++ [.inv s.calls.length call] } m where
  migration := h.migration
  fixed := h.fixed
  phase := h.phase
  complete := h.complete
  journal := h.journal
  noTtl := h.noTtl
  count := by
    intro b
    rw [countP_append, h.count]
    rfl
  managed := by
    intro i t ht
    rcases getElem?_concat_cases ht with ht | ⟨-, rfl⟩
    · exact h.managed i t ht
    · exact hc
  call := by
    intro i t ht
    rcases getElem?_concat_cases ht with ht | ⟨-, rfl⟩
    · exact h.call i t ht
    · exact ⟨nofun, nofun, nofun, nofun, fun _ => rfl⟩
  single := by
    intro c k i j t u ht hu hp hp'
    rcases getElem?_concat_cases ht with ht | ⟨rfl, rfl⟩ <;>
    rcases getElem?_concat_cases hu with hu | ⟨rfl, rfl⟩
    · exact h.single c k i j t u ht hu hp hp'
    · exact absurd hp (hfree c k hp'.1 i t ht)
    · exact absurd hp' (hfree c k hp.1 j u hu)
    · rfl
  cell := by
    intro c hcm k
    have hσ : lastValue val (s.trace ++ [.inv s.calls.length call]) c k = lastValue val s.trace c k :=
      lastValue_concat_inv _ _
    constructor
    · intro i t ht hp
      rw [hσ]
      rcases getElem?_concat_cases ht with ht | ⟨-, rfl⟩
      · exact (h.cell c hcm k).busy i t ht hp
      · exact (WriteInv.of_none rfl).mpr ((h.cell c hcm k).calm (hfree c k hp.1))
    · intro hcalm
      rw [hσ]
      exact (h.cell c hcm k).calm fun i t ht => hcalm i t (getElem?_concat_of_some ht _)
  move := h.move.congr (fun c k _ => lastValue_concat_inv _ _) (fun _ => rfl) fun _ _ _ _ _ => rfl
  log := h.log.invoke call
  reads := by
    intro i t rep ht hget hp pre mid htr hset hun
    rcases getElem?_concat_cases ht with ht | ⟨-, rfl⟩
    · rcases append_cons_eq_concat htr with ⟨-, -, heq⟩ | ⟨mid', rfl, htr'⟩
      · -- the new number is not in use
        have hlt := (List.getElem?_eq_some_iff.mp ht).1
        exact absurd (Event.inv.inj heq).1.symm hlt.ne
      · exact h.reads i t rep ht hget hp pre mid' htr' hset fun e he =>
          hun e (mem_append_left _ he)
    · cases hp
  answers := h.answers.concat fun i call r heq => by cases heq

/-! ### The migration moves -/

theorem migrate_step [LawfulStore St] (hv : mv.Valid) (h : SysInv mv colls val j s m)
    {r : World St × Migration} (hs : m.Trans (fun _ => .ok) s.world r) :
    SysInv mv colls val j { s with world := r.1, migration := some r.2 } r.2 := by
  obtain ⟨hf', hph'⟩ := h.phase.step hv h.fixed hs
  -- nothing is in the gate of a bucket that is being cut over
  have hgate : ∀ {b : ℕ}, CutsOver m b → ∀ (i : ℕ) (t : CallState), s.calls[i]? = some t →
      t.inGateOf b = false := by
    rintro b ⟨ch, hp, hb⟩ i t ht
    exact h.inGateOf_eq_false (by rw [hp]; exact hb) ht
  constructor
  · exact .inl rfl
  · exact hf'
  · exact hph'
  · exact h.phase.overlay_of_finished hs
  · exact fun hp => absurd hp hs.not_locked
  · exact noTtl_step hs h.noTtl
  · intro b
    change r.1.cluster.gates.inFlight b = _
    rw [inFlight_step hs]
    exact h.count b
  · exact h.managed
  · intro i t ht
    by_cases hcut : CutsOver m (bucketOf t.call.key)
    · have hg := hgate hcut i t ht
      rw [inGateOf, decide_eq_true rfl, Bool.and_true] at hg
      exact (h.call i t ht).of_not_inGate hg
    · exact (h.call i t ht).congr (RingRoutes.step hv h.fixed h.phase hs (bucketOf_lt _) hcut)
        (mem_routes_step hv h.fixed h.phase hs (bucketOf_lt _) hcut)
  · exact h.single
  · intro c hc k
    constructor
    · intro i t ht hp
      by_cases hcut : CutsOver m (bucketOf k)
      · have hg := hgate hcut i t ht
        rw [inGateOf, hp.1.2.2, decide_eq_true rfl, Bool.and_true] at hg
        have hhold := (WriteInv.iff_hold hg hp.2).mp ((h.cell c hc k).busy i t ht hp)
        exact (WriteInv.iff_hold hg hp.2).mpr (h.move.hold_step hv h.fixed h.phase hs hc hhold)
      · exact ((h.cell c hc k).busy i t ht hp).congr (fun n hn => h.move.cell_step hv h.phase hs hn)
          (mem_routes_step hv h.fixed h.phase hs (bucketOf_lt _) hcut)
    · intro hcalm
      exact h.move.hold_step hv h.fixed h.phase hs hc ((h.cell c hc k).calm hcalm)
  · exact h.move.step hv h.fixed h.phase h.chunkHolds hs
  · exact h.log
  · exact h.reads
  · exact h.answers

/-! ### The clock, a resumed migration -/

/-- Time passes: no cell of a managed collection depends on it. -/
theorem tick_step [LawfulStore St] (h : SysInv mv colls val j s m) (ms : ℕ) :
    SysInv mv colls val j { s with world := { s.world with now := s.world.now + ms } } m := by
  have hcell : ∀ c ∈ colls, ∀ k n,
      World.cell { s.world with now := s.world.now + ms } c k n = s.world.cell c k n :=
    fun c hc k n => Shard.object_congr_now (h.noTtl n c hc k) _ _
  refine ⟨h.migration, h.fixed, h.phase, h.complete, h.journal, h.noTtl, h.count, h.managed, h.call,
    h.single, fun c hc k => ⟨fun i t ht hp => ?_, fun hcalm => ?_⟩, ?_, h.log, h.reads, h.answers⟩
  · exact ((h.cell c hc k).busy i t ht hp).congr (fun n _ => hcell c hc k n) fun _ => Iff.rfl
  · exact ((h.cell c hc k).calm hcalm).congr (fun n _ => hcell c hc k n) fun _ => Iff.rfl
  · exact h.move.congr (fun _ _ _ => rfl) (fun _ => rfl) fun c hc k n _ => hcell c hc k n

variable {rec : MigrationRecord}

/-- When no migration runs and the journal has a record, it is that of the stopped run. -/
theorem recorded_of_idle (h : SysInv mv colls val j s m) (hidle : s.idle = true)
    (hrec : s.world.cluster.journal = some rec) :
    rec = ⟨mv.old, mv.new, mv.target, m.done⟩ ∧ OldRing mv s.world.cluster ∧
      (∀ n, n ∈ mv.old ∨ n ∈ mv.new → n ∈ s.world.cluster.clients) ∧
      s.world.cluster.gates.frozen = ∅ ∧ s.world.cluster.overlay = some (mv.overlay m.done) ∧
      ¬sameMembers mv.old mv.new ∧ ∀ c k n x, Stray mv (lastValue val s.trace) m.phase c k n x →
        x = none := by
  have hph := h.phase
  unfold PhaseInv at hph
  rcases h.migration with hm | ⟨-, hp, rfl⟩
  · have hp : m.phase = .finished := by
      rw [System.idle, hm] at hidle
      cases hp : m.phase <;> simp_all [MigPhase.isFinished]
    rw [hp] at hph ⊢
    rcases hph with ⟨hu, hfr, hr⟩ | hc
    · exact ⟨some.inj (hrec.symm.trans hr), hu.ring, hu.clients, hfr, hu.overlay, hu.differ,
        fun _ _ _ _ hx => hx⟩
    · rw [hc.journal not_mem_nil] at hrec
      cases hrec
  · rw [hp] at hph ⊢
    rcases hph.overlay with ⟨ho, -⟩ | ⟨ho, hdiff, hr⟩
    · rw [h.journal hp ho] at hrec
      cases hrec
    · exact ⟨some.inj (hrec.symm.trans hr), hph.ring, hph.clients, hph.frozen, ho, hdiff,
        fun _ _ _ _ hx => hx⟩

omit [IndexStore St] in
theorem setTarget_eq (hf : Fixed mv colls s.world.cluster) :
    s.world.setCluster (s.world.cluster.setTarget mv.target) = s.world := by
  have ht : max mv.target 1 = s.world.cluster.replicationTarget := by
    rw [hf.target]
    exact max_eq_left (hf.target ▸ s.world.cluster.target_pos)
  cases hw : s.world with
  | mk cluster shards now =>
    rw [hw] at ht
    cases cluster
    simp only [World.setCluster, Cluster.setTarget, ht]

/-- A resumed migration takes over where the stopped one left. -/
theorem resume_step (h : SysInv mv colls val j s m) (hidle : s.idle = true)
    (hrec : s.world.cluster.journal = some rec) :
    SysInv mv colls val j { s with
        world := s.world.setCluster (s.world.cluster.setTarget rec.replication)
        migration := some (Migration.start rec.oldNodes rec.newNodes rec.done none) }
      (Migration.start rec.oldNodes rec.newNodes rec.done none) := by
  obtain ⟨rfl, hring, hcl, hfr, hov, hdiff, hnone⟩ := h.recorded_of_idle hidle hrec
  rw [setTarget_eq h.fixed]
  refine ⟨.inl rfl, h.fixed, ?_, fun _ hfin => ?_, fun _ ho => ?_, h.noTtl, h.count, h.managed,
    h.call, h.single, h.cell, ?_, h.log, h.reads, h.answers⟩
  · exact ⟨rfl, rfl, hring, hcl, hfr, .inr ⟨hov, hdiff, hrec⟩, rfl⟩
  · cases hfin
  · rw [hov] at ho
    cases ho
  · exact h.move.of_jobless hnone (fun _ _ _ => rfl) trivial (fun _ _ _ => rfl) fun _ _ => Iff.rfl

end SysInv

/-! ### Runs -/

/-- Clients keep to the managed collections and never overlap two writes of a cell, shard calls
succeed, and the migration is not abandoned. -/
def System.Permits (s : System St) : SysLabel → Prop
  | .invoke call => call.coll ∈ s.world.cluster.colls ∧
      ∀ t ∈ s.calls, call.op.isWrite = true → ¬t.PendingOn call.coll call.key
  | .call _ o => o = .ok
  | .migrate | .tick _ | .resume => True
  | .abandon _ => False

instance (s : System St) (l : SysLabel) : Decidable (s.Permits l) := by
  cases l <;> unfold System.Permits <;> infer_instance

/-- Every permitted step keeps the invariant. -/
theorem SysInv.step [LawfulStore St] {val : String → String → Option Value}
    {j : Option MigrationRecord} {s s' : System St} {l : SysLabel} (hv : mv.Valid)
    (h : SysInv mv colls val j s m) (hok : s.Permits l) (hs : s.step (fun _ => .ok) l = some s') :
    ∃ m', SysInv mv colls val j s' m' ∧ (m.stopAfter = none → m'.stopAfter = none) := by
  cases l with
  | invoke call =>
    obtain rfl := some.inj hs
    refine ⟨m, h.invoke_step (h.fixed.colls ▸ hok.1) ?_, fun h => h⟩
    rintro c k ⟨hw, rfl, rfl⟩ i t ht
    exact hok.2 t (mem_of_getElem? ht) hw
  | call id o =>
    obtain rfl : o = .ok := hok
    obtain ⟨t, ht, r, hr, rfl⟩ := System.callStep_eq_some hs
    exact ⟨m, h.call_step ht (trans_of_step hr) hv, fun h => h⟩
  | migrate =>
    obtain ⟨m₀, hm, r, hr, rfl⟩ := System.migrateStep_eq_some hs
    have hm₀ : m₀ = m := by
      rcases h.migration with hm' | ⟨hm', -⟩
      · exact some.inj (hm.symm.trans hm')
      · rw [hm'] at hm; cases hm
    subst hm₀
    have htr := Migration.trans_of_step hr
    exact ⟨r.2, h.migrate_step hv htr, htr.stopAfter_eq.trans⟩
  | tick ms =>
    obtain rfl := some.inj hs
    exact ⟨m, h.tick_step ms, fun h => h⟩
  | abandon late => exact hok.elim
  | resume =>
    rw [System.step] at hs
    split_ifs at hs with hidle
    obtain ⟨rec, hrec, rfl⟩ := map_eq_some_iff.mp hs
    exact ⟨_, h.resume_step hidle hrec, fun _ => rfl⟩

end Stplr
