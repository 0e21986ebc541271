import Stplr.Discovery
import Stplr.Equiv.Membership

/-!
# When equal epochs mean equal members

A direct client skips an answer that has the epoch it has on record, so a pair of members and epoch
that do not belong together is never repaired.  `GET /members` reads the client table, which is not the
ring: `add_node` and `apply_membership` fill it before the membership changes, and a commit bumps the
epoch before it sets the ring and cleans up the table (`stale_view_forever`).

`view_of_epoch` says in which runs the views are right.  The invariant is `Faithful`: a recorded epoch is
not ahead of the coordinator's, and if it is the same, then so are the members.
-/

namespace Stplr

open Lib List Option Coordinator MigPhase

variable {St : Type} [IndexStore St]

/-! ### The window of a commit -/

/-- The commit has bumped the epoch and sets the ring next. -/
def MigPhase.bumped : MigPhase → Bool
  | .committing (.setNodes :: _) => true
  | _ => false

/-- The commit bumps the epoch next. -/
def MigPhase.bumping : MigPhase → Bool
  | .committing (.bumpEpoch :: _) => true
  | _ => false

def CallerPc.bumped : CallerPc → Bool
  | .running m => m.phase.bumped
  | _ => false

def CallerPc.bumping : CallerPc → Bool
  | .running m => m.phase.bumping
  | _ => false

/-- A commit is carried out in order. -/
def MigPhase.Shaped (p : MigPhase) : Prop :=
  ∀ steps, p = .committing steps → steps <:+ commitSteps ++ [.removeOverlay] ∨ steps <:+ commitSteps

theorem MigPhase.shaped_of_ne {p : MigPhase} (h : ∀ steps, p ≠ .committing steps) : p.Shaped :=
  fun steps hp => absurd hp (h steps)

/-- Only the bump comes right before the ring. -/
theorem MigPhase.Shaped.not_bumped {s : CommitStep} {steps : List CommitStep}
    (h : (MigPhase.committing (s :: steps)).Shaped) (hs : s ≠ .bumpEpoch) :
    (MigPhase.committing steps).bumped = false := by
  have hsuffix := h _ rfl
  simp only [commitSteps, cons_append, nil_append, suffix_cons_iff, cons.injEq,
    suffix_nil, reduceCtorEq, or_false] at hsuffix
  rcases hsuffix with
    (⟨rfl, rfl⟩ | ⟨rfl, rfl⟩ | ⟨rfl, rfl⟩ | ⟨rfl, rfl⟩ | ⟨rfl, rfl⟩ | ⟨rfl, rfl⟩) |
    (⟨rfl, rfl⟩ | ⟨rfl, rfl⟩ | ⟨rfl, rfl⟩ | ⟨rfl, rfl⟩ | ⟨rfl, rfl⟩)
  all_goals first | rfl | exact absurd rfl hs

namespace Migration

variable {net : MigCall → Outcome} {w : World St} {m : Migration} {r : World St × Migration}

/-- A step that does not touch epoch and ring. -/
def Keeps (w : World St) (m : Migration) (r : World St × Migration) : Prop :=
  r.1.cluster.epoch = w.cluster.epoch ∧ r.1.cluster.partitioner.nodes = w.cluster.partitioner.nodes ∧
    r.2.phase.bumped = m.phase.bumped

theorem Trans.shaped (hs : m.Trans net w r) (h : m.phase.Shaped) : r.2.phase.Shaped := by
  cases hs with
  | same hp => exact fun steps heq => .inr (committing.inj heq ▸ suffix_refl _)
  | last hp => exact fun steps heq => .inl (committing.inj heq ▸ suffix_refl _)
  | @commit s steps hp =>
    rintro steps' heq
    obtain rfl := committing.inj heq
    rcases h _ hp with hsuf | hsuf
    · exact .inl ((suffix_cons s steps).trans hsuf)
    · exact .inr ((suffix_cons s steps).trans hsuf)
  | _ => exact shaped_of_ne (by simp [copyStep, dropStep])

/-- What a step of a migration does to the epoch and the ring. -/
theorem Trans.view (hs : m.Trans net w r) (h : m.phase.Shaped) :
    Keeps w m r ∨
    (m.phase.bumping = true ∧ r.1.cluster.epoch = w.cluster.epoch + 1) ∨
    (m.phase.bumped = true ∧ r.1.cluster.epoch = w.cluster.epoch) := by
  cases hs with
  | deliver hp | drop hp =>
    left
    unfold Keeps
    simp [hp, bumped]
  | @commit s steps hp =>
    rw [hp] at h
    unfold Keeps
    rw [hp]
    by_cases hb : s = .bumpEpoch
    · subst hb
      exact .inr (.inl ⟨rfl, rfl⟩)
    · by_cases hn : s = .setNodes
      · subst hn
        exact .inr (.inr ⟨rfl, rfl⟩)
      · left
        have hafter := h.not_bumped hb
        cases s with
        | bumpEpoch => exact absurd rfl hb
        | setNodes => exact absurd rfl hn
        | _ => exact ⟨rfl, rfl, hafter⟩
  | _ hp => exact .inl ⟨rfl, rfl, by rw [hp]; rfl⟩

end Migration

/-! ### The calls of a coordinator -/

namespace Coordinator

variable {net : MigCall → Outcome} {s s' : Coordinator St} {i : ℕ} {c : Caller}

/-- One call at a time migrates, and its commit is in order. -/
structure Serial (s : Coordinator St) : Prop where
  one : ∀ {i j : ℕ} {c d : Caller}, s.callers[i]? = some c → s.callers[j]? = some d →
    c.pc.isRunning = true → d.pc.isRunning = true → i = j
  shaped : ∀ {i : ℕ} {c : Caller} {m : Migration}, s.callers[i]? = some c → c.pc = .running m →
    m.phase.Shaped

/-- A commit has bumped the epoch and has not set the ring. -/
def Bumped (s : Coordinator St) : Prop := ∃ c ∈ s.callers, c.pc.bumped = true

instance (s : Coordinator St) : Decidable s.Bumped :=
  inferInstanceAs (Decidable (∃ c ∈ s.callers, c.pc.bumped = true))

omit [IndexStore St] in
theorem Serial.put (h : s.Serial) (hc : s.callers[i]? = some c) (w : World St) {pc : CallerPc}
    (hrun : pc.isRunning = true → c.pc.isRunning = true ∨ s.locked = false)
    (hshape : ∀ m, pc = .running m → m.phase.Shaped) : (s.put i c.request w pc).Serial where
  one {j k d e} hd he hdr her := by
    have hother : ∀ {k : ℕ} {e : Caller}, s.callers[k]? = some e → e.pc.isRunning = true →
        pc.isRunning = true → k = i := by
      intro k e he her hpc
      rcases hrun hpc with hcr | hfree
      · exact h.one he hc her hcr
      · rw [locked_eq_false.mp hfree k e he] at her
        cases her
    rcases getElem?_set_cases hd with ⟨hj, rfl⟩ | ⟨-, hd'⟩ <;>
      rcases getElem?_set_cases he with ⟨hk, rfl⟩ | ⟨-, he'⟩
    · rw [hj, hk]
    · rw [hj, hother he' her hdr]
    · rw [hk, hother hd' hdr her]
    · exact h.one hd' he' hdr her
  shaped {j d m} hd hm := by
    rcases getElem?_set_cases hd with ⟨rfl, rfl⟩ | ⟨-, hd⟩
    · exact hshape m hm
    · exact h.shaped hd hm

omit [IndexStore St] in
theorem bumped_put (hc : s.callers[i]? = some c) (w : World St) {pc : CallerPc}
    (hpc : pc.bumped = c.pc.bumped) : (s.put i c.request w pc).Bumped ↔ s.Bumped := by
  constructor
  · rintro ⟨d, hd, hb⟩
    rcases mem_or_eq_of_mem_set hd with hd | rfl
    · exact ⟨d, hd, hb⟩
    · exact ⟨c, mem_of_getElem? hc, hpc ▸ hb⟩
  · rintro ⟨d, hd, hb⟩
    obtain ⟨j, hj⟩ := mem_iff_getElem?.mp hd
    by_cases hji : j = i
    · subst hji
      obtain rfl : c = d := some.inj (hc.symm.trans hj)
      refine ⟨⟨c.request, pc⟩, mem_iff_getElem?.mpr ⟨j, ?_⟩, hpc.trans hb⟩
      exact getElem?_put_self hc ..
    · refine ⟨d, mem_iff_getElem?.mpr ⟨j, ?_⟩, hb⟩
      exact (getElem?_set_ne (Ne.symm hji)).trans hj

theorem Trans.serial (hs : s.Trans net i c s') (hc : s.callers[i]? = some c) (h : s.Serial) :
    s'.Serial := by
  cases hs with
  | prepare hp | read hp | leave hp hfin =>
    exact h.put hc _ (by simp [CallerPc.isRunning]) (by simp)
  | lock hp hl =>
    refine h.put hc _ (fun _ => .inr hl) fun m hm => ?_
    obtain rfl := CallerPc.running.inj hm
    exact shaped_of_ne (by simp [Migration.start])
  | @migrate m r hp hr =>
    refine h.put hc _ (fun _ => .inl (by rw [hp]; rfl)) fun m' hm => ?_
    obtain rfl := CallerPc.running.inj hm
    exact (Migration.trans_of_step hr).shaped (h.shaped hc hp)

/-- What a step of a membership call does to the epoch and the ring: nothing, or the bump, or the ring
after the bump. -/
theorem Trans.view (hs : s.Trans net i c s') (hc : s.callers[i]? = some c) (h : s.Serial) :
    (s'.world.cluster.epoch = s.world.cluster.epoch ∧
      s'.world.cluster.partitioner.nodes = s.world.cluster.partitioner.nodes ∧
      (s'.Bumped ↔ s.Bumped)) ∨
    (c.pc.bumping = true ∧ s'.world.cluster.epoch = s.world.cluster.epoch + 1) ∨
    (s.Bumped ∧ s'.world.cluster.epoch = s.world.cluster.epoch) := by
  cases hs with
  | prepare hp =>
    refine .inl ⟨?_, ?_, bumped_put hc _ (by rw [hp]; rfl)⟩ <;>
    · unfold put target
      cases c.request <;> rfl
  | read hp | lock hp hl => exact .inl ⟨rfl, rfl, bumped_put hc _ (by rw [hp]; rfl)⟩
  | @migrate m r hp hr =>
    rcases (Migration.trans_of_step hr).view (h.shaped hc hp) with
      ⟨hepoch, hnodes, hphase⟩ | ⟨hphase, hepoch⟩ | ⟨hphase, hepoch⟩
    · exact .inl ⟨hepoch, hnodes, bumped_put hc _ (by rw [hp]; exact hphase)⟩
    · exact .inr (.inl ⟨by rw [hp]; exact hphase, hepoch⟩)
    · exact .inr (.inr ⟨⟨c, mem_of_getElem? hc, by rw [hp]; exact hphase⟩, hepoch⟩)
  | leave hp hfin =>
    refine .inl ⟨rfl, rfl, bumped_put hc _ ?_⟩
    rw [hp, CallerPc.bumped, hfin]
    rfl

end Coordinator

/-! ### The invariant of the views -/

/-- The answer that a refresh carries. -/
def RefreshPc.answer : RefreshPc → Option (List (NodeId × String) × ℕ)
  | .answered members epoch | .accepted members epoch | .connected members epoch
  | .routed members epoch => some (members, epoch)
  | _ => none

def RefreshPc.isIdle : RefreshPc → Bool
  | .idle => true
  | _ => false

def RefreshPc.isListed : RefreshPc → Bool
  | .listed _ => true
  | _ => false

def RefreshPc.isReturned : RefreshPc → Bool
  | .returned => true
  | _ => false

/-- The member ids that a client takes from an answer. -/
def idsOf (members : List (NodeId × String)) : Finset NodeId :=
  (SmartClient.buildClients members).toFinset

namespace Discovery

/-- The members of the coordinator's ring. -/
def ring (s : Discovery St) : Finset NodeId := s.cluster.partitioner.nodes.toFinset

/-- The epoch is not ahead of the coordinator's; if it is the coordinator's, the members are those of
the ring. -/
def Faithful (s : Discovery St) (epoch : ℕ) (members : Finset NodeId) : Prop :=
  epoch ≤ s.cluster.epoch ∧ (epoch = s.cluster.epoch → ¬s.coordinator.Bumped ∧ members = s.ring)

structure Inv (s : Discovery St) : Prop where
  serial : s.coordinator.Serial
  endpoint_ne : ∀ n, s.endpoint n ≠ ""
  offer_ne : ∀ offer ∈ s.offers, ∀ m ∈ offer, m.2 ≠ ""
  client : ∀ sc ∈ s.clients, s.Faithful sc.epoch sc.partitioner.nodes.toFinset
  listed : ∀ r ∈ s.refreshes, ∀ members, r.pc = .listed members →
    ¬s.coordinator.Bumped ∧ idsOf members = s.ring
  answer : ∀ r ∈ s.refreshes, ∀ members epoch, r.pc.answer = some (members, epoch) →
    s.Faithful epoch (idsOf members) ∧ ∀ sc, s.clients[r.client]? = some sc → sc.epoch ≤ epoch
  routed : ∀ r ∈ s.refreshes, ∀ members epoch, r.pc = .routed members epoch →
    ∀ sc, s.clients[r.client]? = some sc → sc.partitioner.nodes = SmartClient.buildClients members
  alone : ∀ {i j : ℕ} {r q : Refresh}, s.refreshes[i]? = some r → s.refreshes[j]? = some q →
    r.client = q.client → r.pc.isReturned = false → q.pc.isReturned = false → i = j

/-- What the membership calls may do to epoch and ring. -/
def Tame (s s' : Discovery St) : Prop := (s'.cluster.epoch = s.cluster.epoch ∧ s'.ring = s.ring ∧
    (s'.coordinator.Bumped ↔ s.coordinator.Bumped)) ∨
  ((∀ r ∈ s.refreshes, r.pc.isListed = false) ∧ s'.cluster.epoch = s.cluster.epoch + 1) ∨
  (s.coordinator.Bumped ∧ s'.cluster.epoch = s.cluster.epoch)

variable {s s' : Discovery St}

omit [IndexStore St] in
theorem Faithful.tame {epoch : ℕ} {members : Finset NodeId} (h : s.Faithful epoch members)
    (ht : Tame s s') : s'.Faithful epoch members := by
  obtain ⟨hle, heq⟩ := h
  rcases ht with ⟨hepoch, hring, hbumped⟩ | ⟨-, hepoch⟩ | ⟨hbumped, hepoch⟩
  · unfold Faithful
    rw [hepoch, hring, hbumped]
    exact ⟨hle, heq⟩
  · exact ⟨by omega, fun hcur => by omega⟩
  · exact ⟨hepoch ▸ hle, fun hcur => absurd hbumped (heq (hcur.trans hepoch)).1⟩

omit [IndexStore St] in
/-- A membership step keeps the invariant of the views. -/
theorem Inv.tame (h : Inv s) (ht : Tame s s') (hserial : s'.coordinator.Serial)
    (hend : ∀ n, s'.endpoint n ≠ "") (hoffer : ∀ offer ∈ s'.offers, ∀ m ∈ offer, m.2 ≠ "")
    (hrefresh : s'.refreshes = s.refreshes) (hclients : s'.clients = s.clients) : Inv s' where
  serial := hserial
  endpoint_ne := hend
  offer_ne := hoffer
  client sc hsc := (h.client sc (hclients ▸ hsc)).tame ht
  listed r hr members hp := by
    rw [hrefresh] at hr
    obtain ⟨hnot, hids⟩ := h.listed r hr members hp
    rcases ht with ⟨-, hring, hbumped⟩ | ⟨hnone, -⟩ | ⟨hbumped, -⟩
    · rw [hring, hbumped]
      exact ⟨hnot, hids⟩
    · have hfalse := hnone r hr
      rw [hp] at hfalse
      cases hfalse
    · exact absurd hbumped hnot
  answer r hr members epoch hp := by
    rw [hrefresh] at hr
    rw [hclients]
    exact ⟨(h.answer r hr members epoch hp).1.tame ht, (h.answer r hr members epoch hp).2⟩
  routed := by
    rw [hrefresh, hclients]
    exact h.routed
  alone := by
    rw [hrefresh]
    exact h.alone

omit [IndexStore St] in
/-- A step of refresh `i` keeps the invariant when what it writes and carries is right. -/
theorem Inv.move (h : Inv s) {i : ℕ} {r : Refresh} (hr : s.refreshes[i]? = some r)
    (hactive : r.pc.isReturned = false) {sc : SmartClient} (hsc : s.clients[r.client]? = some sc)
    {f : SmartClient → SmartClient} {pc : RefreshPc}
    (hclient : s.Faithful (f sc).epoch (f sc).partitioner.nodes.toFinset)
    (hlisted : ∀ members, pc = .listed members → ¬s.coordinator.Bumped ∧ idsOf members = s.ring)
    (hanswer : ∀ members epoch, pc.answer = some (members, epoch) →
      s.Faithful epoch (idsOf members) ∧ (f sc).epoch ≤ epoch)
    (hrouted : ∀ members epoch, pc = .routed members epoch →
      (f sc).partitioner.nodes = SmartClient.buildClients members) :
    Inv ((s.write r f).put i ⟨r.client, pc⟩) := by
  have hlookup : ∀ j, (s.clients.modify r.client f)[j]?
      = if r.client = j then some (f sc) else s.clients[j]? := by
    intro j
    rw [getElem?_modify]
    split_ifs with hj
    · rw [← hj, hsc]
      rfl
    · exact id_map _
  -- the other refreshes that are under way belong to other clients
  have hother : ∀ q ∈ s.refreshes.set i ⟨r.client, pc⟩, q = ⟨r.client, pc⟩ ∨
      (q ∈ s.refreshes ∧ (q.pc.isReturned = false → r.client ≠ q.client)) := by
    intro q hq
    obtain ⟨j, hj⟩ := mem_iff_getElem?.mp hq
    rcases getElem?_set_cases hj with ⟨-, rfl⟩ | ⟨hji, hj⟩
    · exact .inl rfl
    · exact .inr ⟨mem_of_getElem? hj, fun hqa heq =>
        hji (h.alone hj hr heq.symm hqa hactive)⟩
  refine ⟨h.serial, h.endpoint_ne, h.offer_ne, ?_, ?_, ?_, ?_, ?_⟩
  · intro sc' hsc'
    obtain ⟨j, hj⟩ := mem_iff_getElem?.mp hsc'
    change (s.clients.modify r.client f)[j]? = some sc' at hj
    rw [hlookup] at hj
    split_ifs at hj
    · obtain rfl := some.inj hj
      exact hclient
    · exact h.client sc' (mem_of_getElem? hj)
  · intro q hq members hp
    rcases hother q hq with rfl | ⟨hq, -⟩
    · exact hlisted members hp
    · exact h.listed q hq members hp
  · intro q hq members epoch hp
    change s.Faithful epoch (idsOf members) ∧
      ∀ sc', (s.clients.modify r.client f)[q.client]? = some sc' → sc'.epoch ≤ epoch
    rcases hother q hq with rfl | ⟨hq, hne⟩
    · refine ⟨(hanswer members epoch hp).1, fun sc' hsc' => ?_⟩
      rw [hlookup, if_pos rfl] at hsc'
      obtain rfl := some.inj hsc'
      exact (hanswer members epoch hp).2
    · refine ⟨(h.answer q hq members epoch hp).1, fun sc' hsc' => ?_⟩
      have hqa : q.pc.isReturned = false := by
        cases hpc : q.pc <;> first | rfl | (rw [hpc] at hp; cases hp)
      rw [hlookup, if_neg (hne hqa)] at hsc'
      exact (h.answer q hq members epoch hp).2 sc' hsc'
  · intro q hq members epoch hp sc' hsc'
    change (s.clients.modify r.client f)[q.client]? = some sc' at hsc'
    rcases hother q hq with rfl | ⟨hq, hne⟩
    · rw [hlookup, if_pos rfl] at hsc'
      obtain rfl := some.inj hsc'
      exact hrouted members epoch hp
    · rw [hlookup, if_neg (hne (by rw [hp]; rfl))] at hsc'
      exact h.routed q hq members epoch hp sc' hsc'
  · intro j k q t hq ht hclient' hqa hta
    change (s.refreshes.set i ⟨r.client, pc⟩)[j]? = some q at hq
    change (s.refreshes.set i ⟨r.client, pc⟩)[k]? = some t at ht
    rcases getElem?_set_cases hq with ⟨hj, rfl⟩ | ⟨-, hq'⟩ <;>
      rcases getElem?_set_cases ht with ⟨hk, rfl⟩ | ⟨-, ht'⟩
    · rw [hj, hk]
    · rw [hj, h.alone hr ht' hclient' hactive hta]
    · rw [hk, h.alone hq' hr hclient' hqa hactive]
    · exact h.alone hq' ht' hclient' hqa hta

/-! ### Runs -/

/-- Call `i` bumps the epoch next. -/
def Bumps (s : Discovery St) (i : ℕ) : Prop := ∃ c ∈ s.coordinator.callers[i]?, c.pc.bumping = true

instance (s : Discovery St) (i : ℕ) : Decidable (s.Bumps i) :=
  inferInstanceAs (Decidable (∃ c ∈ s.coordinator.callers[i]?, c.pc.bumping = true))

/-- The steps under which the views stay right: the table is read while it lists the ring's members
and no commit is between bump and ring; no epoch is bumped between the two reads of an answer; the
refreshes of a client do not overlap.  Every endpoint is given. -/
def Permits (s : Discovery St) : DiscoveryLabel → Prop
  | .request _ offer => ∀ m ∈ offer, m.2 ≠ ""
  | .change i => s.Bumps i → ∀ r ∈ s.refreshes, r.pc.isListed = false
  | .addNode _ ep => ep ≠ ""
  | .refresh j => ∀ r ∈ s.refreshes, r.client = j → r.pc.isReturned = true
  | .move i => ∀ r ∈ s.refreshes[i]?, r.pc.isIdle = true →
      s.cluster.clients = s.ring ∧ ¬s.coordinator.Bumped

instance (s : Discovery St) : (l : DiscoveryLabel) → Decidable (s.Permits l)
  | .request _ offer => inferInstanceAs (Decidable (∀ m ∈ offer, m.2 ≠ ""))
  | .change i => inferInstanceAs (Decidable (s.Bumps i → ∀ r ∈ s.refreshes, _))
  | .addNode _ ep => inferInstanceAs (Decidable (ep ≠ ""))
  | .refresh j => inferInstanceAs (Decidable (∀ r ∈ s.refreshes, r.client = j → _))
  | .move i => inferInstanceAs (Decidable (∀ r ∈ s.refreshes[i]?, r.pc.isIdle = true → _))

theorem mem_sortedIds {ids : Finset NodeId} {n : NodeId} : n ∈ sortedIds ids ↔ n ∈ ids := by
  obtain ⟨l, hl⟩ := Quot.exists_rep ids.val
  have hsorted : sortedIds ids = l.insertionSort (· ≤ ·) := by
    unfold sortedIds
    rw [← hl]
  rw [hsorted, mem_insertionSort, ← Finset.mem_val, ← hl]
  exact Multiset.mem_coe.symm

/-- When every endpoint is given, an answer lists the client table. -/
theorem idsOf_membersWithEndpoints (c : Cluster) {endpoint : NodeId → String}
    (h : ∀ n, endpoint n ≠ "") : idsOf (c.membersWithEndpoints endpoint) = c.clients := by
  have hall : (c.membersWithEndpoints endpoint).filter (fun m => m.2 ≠ "")
      = c.membersWithEndpoints endpoint := by
    refine filter_eq_self.mpr fun m hm => ?_
    obtain ⟨n, -, rfl⟩ := mem_map.mp hm
    simpa using h n
  ext n
  unfold idsOf SmartClient.buildClients
  rw [hall]
  simp [Cluster.membersWithEndpoints, mem_sortedIds]

omit [IndexStore St] in
theorem Inv.withOffer_ne (h : Inv s) {offer : List (NodeId × String)}
    (hoffer : ∀ m ∈ offer, m.2 ≠ "") (n : NodeId) : s.withOffer offer n ≠ "" := by
  unfold withOffer
  split_ifs
  · exact h.endpoint_ne n
  · cases hl : offer.lookup n with
    | none => exact h.endpoint_ne n
    | some ep =>
      obtain ⟨l₁, l₂, heq, -⟩ := lookup_eq_some_iff.mp hl
      exact hoffer (n, ep) (heq ▸ by simp)

omit [IndexStore St] in
/-- The next step of a refresh keeps the invariant. -/
theorem Inv.refreshStep (h : Inv s) {i : ℕ} {r : Refresh} (hr : s.refreshes[i]? = some r)
    {sc : SmartClient} (hsc : s.clients[r.client]? = some sc)
    (hok : r.pc.isIdle = true → s.cluster.clients = s.ring ∧ ¬s.coordinator.Bumped)
    (hs : s.refreshStep i r sc = some s') : Inv s' := by
  have hmem := mem_of_getElem? hr
  have hclient := h.client sc (mem_of_getElem? hsc)
  have hid : s.write r id = s := by
    unfold write
    rw [modify_id]
  -- the steps that write nothing
  have hkeep : ∀ pc : RefreshPc, r.pc.isReturned = false →
      (∀ members, pc = .listed members → ¬s.coordinator.Bumped ∧ idsOf members = s.ring) →
      (∀ members epoch, pc.answer = some (members, epoch) →
        s.Faithful epoch (idsOf members) ∧ sc.epoch ≤ epoch) →
      (∀ members epoch, pc ≠ .routed members epoch) → Inv (s.put i ⟨r.client, pc⟩) := by
    intro pc hactive hlisted hanswer hrouted
    rw [← hid]
    exact h.move hr hactive hsc hclient hlisted hanswer fun ms e hp => absurd hp (hrouted ms e)
  unfold Discovery.refreshStep at hs
  cases hpc : r.pc with
  | idle =>
    rw [hpc] at hs hok
    obtain rfl := some.inj hs
    obtain ⟨htable, hnot⟩ := hok rfl
    refine hkeep _ (by rw [hpc]; rfl) (fun members hp => ⟨hnot, ?_⟩) (by simp [RefreshPc.answer])
      (by simp)
    rw [← RefreshPc.listed.inj hp, idsOf_membersWithEndpoints _ h.endpoint_ne, htable]
  | listed members =>
    rw [hpc] at hs
    obtain rfl := some.inj hs
    refine hkeep _ (by rw [hpc]; rfl) (by simp) (fun ms epoch hp => ?_) (by simp)
    obtain ⟨rfl, rfl⟩ := Prod.mk.inj (some.inj hp)
    exact ⟨⟨le_rfl, fun _ => h.listed r hmem members hpc⟩, hclient.1⟩
  | answered members epoch =>
    have hans := h.answer r hmem members epoch (by rw [hpc]; rfl)
    rw [hpc] at hs
    dsimp only at hs
    split_ifs at hs
    · obtain rfl := some.inj hs
      exact hkeep _ (by rw [hpc]; rfl) (by simp) (by simp [RefreshPc.answer]) (by simp)
    · obtain rfl := some.inj hs
      refine hkeep _ (by rw [hpc]; rfl) (by simp) (fun ms e hp => ?_) (by simp)
      obtain ⟨rfl, rfl⟩ := Prod.mk.inj (some.inj hp)
      exact ⟨hans.1, hans.2 sc hsc⟩
  | accepted members epoch =>
    have hans := h.answer r hmem members epoch (by rw [hpc]; rfl)
    rw [hpc] at hs
    obtain rfl := some.inj hs
    refine h.move hr (by rw [hpc]; rfl) hsc hclient (by simp) (fun ms e hp => ?_) (by simp)
    obtain ⟨rfl, rfl⟩ := Prod.mk.inj (some.inj hp)
    exact ⟨hans.1, hans.2 sc hsc⟩
  | connected members epoch =>
    have hans := h.answer r hmem members epoch (by rw [hpc]; rfl)
    have hle := hans.2 sc hsc
    rw [hpc] at hs
    obtain rfl := some.inj hs
    refine h.move hr (by rw [hpc]; rfl) hsc ?_ (by simp) (fun ms e hp => ?_) fun ms e hp => ?_
    · -- the old epoch is still on record: it is behind the answer's, unless they are the same
      refine ⟨hclient.1, fun hcur => ?_⟩
      have hepoch : sc.epoch = s.cluster.epoch := hcur
      exact hans.1.2 (le_antisymm hans.1.1 (hepoch ▸ hle))
    · obtain ⟨rfl, rfl⟩ := Prod.mk.inj (some.inj hp)
      exact ⟨hans.1, hle⟩
    · rw [(RefreshPc.routed.inj hp).1]
      rfl
  | routed members epoch =>
    have hans := h.answer r hmem members epoch (by rw [hpc]; rfl)
    have hnodes := h.routed r hmem members epoch hpc sc hsc
    rw [hpc] at hs
    obtain rfl := some.inj hs
    refine h.move hr (by rw [hpc]; rfl) hsc ?_ (by simp) (by simp [RefreshPc.answer]) (by simp)
    change s.Faithful epoch sc.partitioner.nodes.toFinset
    rw [hnodes]
    exact hans.1
  | returned =>
    rw [hpc] at hs
    cases hs

theorem Inv.step {net : MigCall → Outcome} {l : DiscoveryLabel} (h : Inv s) (hok : s.Permits l)
    (hs : s.step net l = some s') : Inv s' := by
  cases l with
  | request q offer =>
    obtain rfl := some.inj hs
    refine h.tame (.inl ⟨rfl, rfl, ?_⟩) ⟨?_, ?_⟩ h.endpoint_ne ?_ rfl rfl
    · unfold Coordinator.Bumped
      simp [CallerPc.bumped]
    · intro i j c d hc hd hcr hdr
      have hold : ∀ {i : ℕ} {c : Caller}, (s.coordinator.callers ++ [⟨q, .idle⟩])[i]? = some c →
          c.pc.isRunning = true → s.coordinator.callers[i]? = some c := by
        intro i c hc hcr
        rw [getElem?_append] at hc
        split_ifs at hc
        · exact hc
        · rw [mem_singleton.mp (mem_of_getElem? hc)] at hcr
          cases hcr
      exact h.serial.one (hold hc hcr) (hold hd hdr) hcr hdr
    · intro i c m hc hm
      rcases mem_append.mp (mem_of_getElem? hc) with hmem | hmem
      · obtain ⟨j, hj⟩ := mem_iff_getElem?.mp hmem
        exact h.serial.shaped hj hm
      · rw [mem_singleton.mp hmem] at hm
        cases hm
    · intro o ho
      rcases mem_append.mp ho with ho | ho
      · exact h.offer_ne o ho
      · rw [mem_singleton.mp ho]
        exact hok
  | change i =>
    obtain ⟨c', hc', rfl⟩ := map_eq_some_iff.mp hs
    obtain ⟨c, hc, htrans⟩ := trans_of_step hc'
    refine h.tame ?_ (htrans.serial hc h.serial) (h.withOffer_ne ?_) h.offer_ne rfl rfl
    · rcases htrans.view hc h.serial with ⟨hepoch, hnodes, hbumped⟩ | ⟨hbump, hepoch⟩ | hbumped
      · exact .inl ⟨hepoch, congrArg List.toFinset hnodes, hbumped⟩
      · exact .inr (.inl ⟨hok ⟨c, hc, hbump⟩, hepoch⟩)
      · exact .inr (.inr hbumped)
    · intro m hm
      cases ho : s.offers[i]? with
      | none => rw [ho] at hm; exact absurd hm not_mem_nil
      | some offer =>
        rw [ho] at hm
        exact h.offer_ne offer (mem_of_getElem? ho) m hm
  | addNode id ep =>
    obtain rfl := some.inj hs
    refine h.tame (.inl ⟨rfl, rfl, Iff.rfl⟩) ⟨h.serial.one, h.serial.shaped⟩ ?_ h.offer_ne rfl rfl
    intro n
    by_cases hn : n = id
    · subst hn
      change Function.update s.endpoint n ep n ≠ ""
      rw [Function.update_self]
      exact hok
    · change Function.update s.endpoint id ep n ≠ ""
      rw [Function.update_of_ne hn]
      exact h.endpoint_ne n
  | refresh j =>
    obtain rfl := some.inj hs
    have hnew : ∀ {r : Refresh}, r ∈ s.refreshes ++ [⟨j, .idle⟩] → r ∈ s.refreshes ∨ r = ⟨j, .idle⟩ :=
      fun hr => (mem_append.mp hr).imp id mem_singleton.mp
    refine ⟨h.serial, h.endpoint_ne, h.offer_ne, h.client, ?_, ?_, ?_, ?_⟩
    · intro r hr members hp
      rcases hnew hr with hr | rfl
      · exact h.listed r hr members hp
      · cases hp
    · intro r hr members epoch hp
      rcases hnew hr with hr | rfl
      · exact h.answer r hr members epoch hp
      · cases hp
    · intro r hr members epoch hp
      rcases hnew hr with hr | rfl
      · exact h.routed r hr members epoch hp
      · cases hp
    · intro i k r q hr hq hclient hra hqa
      rw [getElem?_append] at hr hq
      split_ifs at hr hq with hi hk hk
      · exact h.alone hr hq hclient hra hqa
      · have hq' := mem_singleton.mp (mem_of_getElem? hq)
        have := hok r (mem_of_getElem? hr) (by rw [hclient, hq'])
        rw [hra] at this
        cases this
      · have hr' := mem_singleton.mp (mem_of_getElem? hr)
        have := hok q (mem_of_getElem? hq) (by rw [← hclient, hr'])
        rw [hqa] at this
        cases this
      · have h1 := (List.getElem?_eq_some_iff.mp hr).1
        have h2 := (List.getElem?_eq_some_iff.mp hq).1
        rw [List.length_singleton] at h1 h2
        omega
  | move i =>
    obtain ⟨r, hr, hs⟩ := bind_eq_some_iff.mp hs
    obtain ⟨sc, hsc, hs⟩ := bind_eq_some_iff.mp hs
    exact h.refreshStep hr hsc (hok r hr) hs

/-- A coordinator that nobody changes, and clients that have learned nothing from it. -/
structure Fresh (s : Discovery St) : Prop where
  callers : s.coordinator.callers = []
  offers : s.offers = []
  refreshes : s.refreshes = []
  epoch : 0 < s.cluster.epoch
  endpoint_ne : ∀ n, s.endpoint n ≠ ""
  clients : ∀ sc ∈ s.clients, sc.epoch = 0

omit [IndexStore St] in
theorem Fresh.inv (h : Fresh s) : Inv s where
  serial := ⟨by simp [h.callers], by simp [h.callers]⟩
  endpoint_ne := h.endpoint_ne
  offer_ne := by simp [h.offers]
  client sc hsc := by
    rw [h.clients sc hsc]
    exact ⟨Nat.zero_le _, fun hcur => absurd hcur h.epoch.ne⟩
  listed := by simp [h.refreshes]
  answer := by simp [h.refreshes]
  routed := by simp [h.refreshes]
  alone := by simp [h.refreshes]

/-- **Equal epochs mean equal members**, in every state of a run that keeps to `Permits`: a client that
has the coordinator's epoch on record has the members of the coordinator's ring. -/
theorem view_of_epoch (net : MigCall → Outcome) {s₀ s : Discovery St} (h₀ : Fresh s₀)
    {ls : List DiscoveryLabel} (h : exec (guarded (Discovery.step net) Permits) s₀ ls = some s)
    {sc : SmartClient} (hsc : sc ∈ s.clients) (hepoch : sc.epoch = s.cluster.epoch) :
    sc.partitioner.nodes.toFinset = s.cluster.partitioner.nodes.toFinset := by
  have hinv : Inv s := exec_guarded_invariant (fun _ _ _ hI => hI.step) h₀.inv h
  exact ((hinv.client sc hsc).2 hepoch).2

/-! ### One member, and a node that comes and goes -/

/-- A coordinator of one node, and a client that has just been made. -/
def oneMember : Discovery MemoryStore :=
  ⟨⟨⟨Cluster.new ["a"] 1 ["kv"], fun n => ⟨n, MemoryStore.new⟩, 0⟩, []⟩, fun n => "http://" ++ n, [],
    [], [SmartClient.new [] 1]⟩

theorem fresh_oneMember : Fresh oneMember where
  callers := rfl
  offers := rfl
  refreshes := rfl
  epoch := Nat.one_pos
  endpoint_ne n := by
    intro h
    have hlen := congrArg String.length h
    rw [show oneMember.endpoint n = "http://" ++ n from rfl, String.length_append] at hlen
    simp at hlen
  clients sc hsc := by
    rw [mem_singleton.mp hsc]
    rfl

/-- `rebalance(["a"])` from its call to its return. -/
def rebalanceToSame (i : ℕ) : List DiscoveryLabel :=
  .request (.rebalance ["a"]) [] :: List.replicate 11 (.change i)

/-- What an observer sees of a state. -/
structure Report where
  members : List NodeId
  table : Finset NodeId
  epoch : ℕ
  quiet : Bool
  views : List (List NodeId × ℕ)
deriving DecidableEq

def report (s : Discovery St) : Report where
  members := s.cluster.memberIds
  table := s.cluster.clients
  epoch := s.cluster.epoch
  quiet := s.coordinator.callers.all fun c => match c.pc with | .returned => true | _ => false
  views := s.clients.map fun sc => (sc.memberIds, sc.epoch)

/-- A membership change, and then a refresh. -/
theorem view_of_epoch_afterRebalance :
    ∃ s, exec (guarded (Discovery.step fun _ => .ok) Permits) oneMember
        (rebalanceToSame 0 ++ .refresh 0 :: List.replicate 6 (.move 0)) = some s ∧
      ∃ sc ∈ s.clients, sc.epoch = 2 ∧ s.cluster.epoch = 2 ∧
        sc.partitioner.nodes.toFinset = s.cluster.partitioner.nodes.toFinset := by
  refine exists_of_map (f := report) (a := ⟨["a"], {"a"}, 2, true, [(["a"], 2)]⟩)
    (by decide +kernel) fun s hs hreport => ?_
  simp only [report, Report.mk.injEq] at hreport
  obtain ⟨-, -, hepoch, -, hclients⟩ := hreport
  obtain ⟨sc, hsc, hpair⟩ := mem_map.mp (hclients ▸ mem_singleton_self (["a"], 2))
  have hrecorded : sc.epoch = 2 := (Prod.mk.inj hpair).2
  exact ⟨sc, hsc, hrecorded, hepoch,
    view_of_epoch (fun _ => .ok) fresh_oneMember hs hsc (hrecorded.trans hepoch.symm)⟩

/-- `b` is added and listed; then the membership is set to `a` alone, and the answer gets the new
epoch.  The client keeps `b`: a later refresh has nothing new for it. -/
theorem stale_view_forever :
    ∃ s, exec (Discovery.step fun _ => .ok) oneMember
        (.addNode "b" "http://b" :: .refresh 0 :: .move 0 :: rebalanceToSame 0
          ++ List.replicate 5 (.move 0) ++ .refresh 0 :: List.replicate 3 (.move 1)) = some s ∧
      Fresh oneMember ∧ (∀ c ∈ s.coordinator.callers, c.pc = .returned) ∧
      s.cluster.memberIds = ["a"] ∧ s.cluster.clients = {"a"} ∧ s.cluster.epoch = 2 ∧
      s.clients.map (fun sc => (sc.memberIds, sc.epoch)) = [(["a", "b"], 2)] := by
  refine exists_of_map (f := report) (a := ⟨["a"], {"a"}, 2, true, [(["a", "b"], 2)]⟩)
    (by decide +kernel) fun s _ hreport => ?_
  simp only [report, Report.mk.injEq] at hreport
  obtain ⟨hmembers, htable, hepoch, hreturned, hclients⟩ := hreport
  refine ⟨fresh_oneMember, fun c hc => ?_, hmembers, htable, hepoch, hclients⟩
  have hpc := all_eq_true.mp hreturned c hc
  cases h : c.pc <;> rw [h] at hpc <;> first | rfl | cases hpc

end Discovery

end Stplr
