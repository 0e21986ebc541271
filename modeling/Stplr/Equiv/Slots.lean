import Stplr.Equiv.Finish
import Stplr.Equiv.Shard

/-!
# A migration as one entry sees it

The slot of an entry on a node is the object that the node returns for it at each time, with the
expiry on record.  A transfer overwrites the slot of the destination with what the source returns
(`transferSlots`), a drop empties the slot of the node (`dropSlots`), and nothing else touches them:
the chunks of a migration do to the slots what `chunkSlots` does (`migrates_chunks`).

`chunkSlots` in turn has a closed form (`foldl_chunkSlots`): all copies of a bucket come from one
node, and a bucket is in one chunk, so each node's slot is overwritten at most by that node's object
and emptied at most once.
-/

namespace Stplr

open Lib List Function

/-- What a node has for one entry: the object it returns at each time, and the expiry on record. -/
@[ext] structure Slot where
  object : ℕ → Option Value
  expiry : Option ℕ

namespace Slot

def empty : Slot := ⟨fun _ => none, none⟩

/-- An entry that does not expire. -/
def plain (v : Value) : Slot := ⟨fun _ => some v, none⟩

/-- An import overwrites the entry if it lists one. -/
def imported (s : Slot) : Option Value → Slot
  | some v => plain v
  | none => s

/-- A drop at time `t` deletes the entry if it is there. -/
def dropped (t : ℕ) (s : Slot) : Slot := if (s.object t).isSome then empty else s

variable (t : ℕ) (s : Slot) (x : Option Value)

@[simp] theorem imported_imported : (s.imported x).imported x = s.imported x := by
  cases x <;> rfl

@[simp] theorem object_imported : (s.imported x).object t = x.or (s.object t) := by
  cases x <;> rfl

@[simp] theorem object_dropped : (s.dropped t).object t = none := by
  unfold dropped
  split_ifs with h
  · rfl
  · simpa using h

@[simp] theorem dropped_dropped : (s.dropped t).dropped t = s.dropped t := by
  conv_lhs => rw [dropped]
  rw [object_dropped]
  rfl

end Slot

/-! ### The slots of a shard -/

namespace Shard

variable {St : Type} [IndexStore St]

def slot (sh : Shard St) (c k : String) : Slot := ⟨fun t => sh.object t c k, sh.expiryAt c k⟩

variable [LawfulCells St] (sh : Shard St) {c k : String}

theorem slot_writeObject (coll key : String) (v : Value) : (sh.writeObject coll key v).slot c k
    = if c = coll ∧ k = key then .plain v else sh.slot c k := by
  have hexp : (sh.writeObject coll key v).expiryAt c k
      = if c = coll ∧ k = key then none else sh.expiryAt c k :=
    LawfulCells.expiryOf_putObject ..
  refine Slot.ext (funext fun t => ?_) ?_
  · change (sh.writeObject coll key v).object t c k = _
    rw [object_writeObject]
    split_ifs <;> rfl
  · change (sh.writeObject coll key v).expiryAt c k = _
    rw [hexp]
    split_ifs <;> rfl

theorem slot_deleteObject (coll key : String) : (sh.deleteObject coll key).slot c k
    = if c = coll ∧ k = key then .empty else sh.slot c k := by
  have hexp : (sh.deleteObject coll key).expiryAt c k
      = if c = coll ∧ k = key then none else sh.expiryAt c k :=
    LawfulCells.expiryOf_deleteObject ..
  refine Slot.ext (funext fun t => ?_) ?_
  · change (sh.deleteObject coll key).object t c k = _
    rw [object_deleteObject]
    split_ifs <;> rfl
  · change (sh.deleteObject coll key).expiryAt c k = _
    rw [hexp]
    split_ifs <;> rfl

end Shard

/-- What an import of `es` makes of the slot of `k`. -/
def Slot.importAll (k : String) (es : List (String × Value)) (s : Slot) : Slot :=
  es.foldl (fun s e => if k = e.1 then .plain e.2 else s) s

theorem Slot.importAll_eq (k : String) {es : List (String × Value)}
    (hnd : (es.map Prod.fst).Nodup) (s : Slot) : s.importAll k es = s.imported (es.lookup k) := by
  induction es generalizing s with
  | nil => rfl
  | cons e es ih =>
    obtain ⟨k', v⟩ := e
    rw [map_cons, nodup_cons] at hnd
    rw [importAll, foldl_cons, lookup_cons]
    change importAll k es _ = _
    rw [ih hnd.2]
    by_cases hk : k = k'
    · subst hk
      have hnone : es.lookup k = none := by
        rw [lookup_eq_none_iff]
        intro p hp
        simp only [bne_iff_ne, ne_eq]
        rintro rfl
        exact hnd.1 (mem_map.mpr ⟨p, hp, rfl⟩)
      rw [hnone, if_pos rfl, BEq.rfl]
      rfl
    · rw [if_neg hk, beq_eq_false_iff_ne.mpr hk]

namespace Shard

variable {St : Type} [IndexStore St] [LawfulCells St] (sh : Shard St) {c k : String} (coll : String)

theorem slot_importEntries (es : List (String × Value)) :
    (sh.importEntries coll es).slot c k
      = if c = coll then (sh.slot c k).importAll k es else sh.slot c k := by
  induction es generalizing sh with
  | nil => exact (ite_self _).symm
  | cons e es ih =>
    change ((sh.writeObject coll e.1 e.2).importEntries coll es).slot c k = _
    rw [ih, slot_writeObject]
    by_cases hc : c = coll
    · simp only [hc, true_and, if_true]
      rfl
    · simp [hc]

theorem slot_foldl_deleteObject (ids : List String) (s : St) :
    (⟨sh.id, ids.foldl (fun s id => IndexStore.deleteObject s coll id) s⟩ : Shard St).slot c k
      = if c = coll ∧ k ∈ ids then .empty else (⟨sh.id, s⟩ : Shard St).slot c k := by
  induction ids generalizing s with
  | nil => simp
  | cons i ids ih =>
    rw [foldl_cons, ih]
    change (if _ then Slot.empty else ((⟨sh.id, s⟩ : Shard St).deleteObject coll i).slot c k) = _
    rw [slot_deleteObject]
    simp only [mem_cons]
    split_ifs <;> first | rfl | (exfalso; tauto)

theorem slot_dropBuckets (now : ℕ) (coll : String) (bs : List ℕ) :
    (sh.dropBuckets now coll bs).1.slot c k
      = if c = coll ∧ bucketOf k ∈ bs then (sh.slot c k).dropped now else sh.slot c k := by
  have hids : c = coll → (k ∈ (sh.exportEntries now coll bs).map Prod.fst ↔
      bucketOf k ∈ bs ∧ (sh.object now c k).isSome) := by
    rintro rfl
    rw [mem_map]
    constructor
    · rintro ⟨⟨k', v⟩, he, rfl⟩
      obtain ⟨hb, hv⟩ := (mem_exportEntries now sh c bs k' v).mp he
      exact ⟨hb, Option.isSome_iff_exists.mpr ⟨v, hv⟩⟩
    · rintro ⟨hb, hs⟩
      obtain ⟨v, hv⟩ := Option.isSome_iff_exists.mp hs
      exact ⟨(k, v), (mem_exportEntries now sh c bs k v).mpr ⟨hb, hv⟩, rfl⟩
  change (⟨sh.id, ((sh.exportEntries now coll bs).map Prod.fst).foldl
    (fun s id => IndexStore.deleteObject s coll id) sh.store⟩ : Shard St).slot c k = _
  rw [slot_foldl_deleteObject]
  change (if _ then Slot.empty else sh.slot c k) = _
  by_cases hc : c = coll
  · subst hc
    simp only [hids rfl, true_and]
    by_cases hb : bucketOf k ∈ bs <;> by_cases hs : (sh.object now c k).isSome <;>
      simp [hb, hs, Slot.dropped, slot]
  · rw [if_neg fun h => hc h.1, if_neg fun h => hc h.1]

end Shard

/-! ### One entry under the jobs of a migration -/

section Jobs

variable (net : MigCall → Outcome) (cl : Cluster) (c k : String) (t : ℕ)

/-- What the transfer of a collection from `src` to `dst` makes of the slots. -/
def transferSlots (src dst : NodeId) (bs : List ℕ) (s : NodeId → Slot) (ci : String × ℕ) :
    NodeId → Slot :=
  if (net (.exportEntries src dst bs ci.2) = .ok ∧
      (net (.importEntries src dst bs ci.2)).effective = true) ∧ c = ci.1 ∧ bucketOf k ∈ bs then
    Function.update s dst ((s dst).imported ((s src).object t)) else s

/-- What the drop of buckets of a collection from `n` makes of the slots. -/
def dropSlots (n : NodeId) (bs : List ℕ) (s : NodeId → Slot) (ci : String × ℕ) : NodeId → Slot :=
  if (net (.dropBuckets n bs ci.2)).effective = true ∧ c = ci.1 ∧ bucketOf k ∈ bs then
    Function.update s n ((s n).dropped t) else s

def CopyJob.slots (s : NodeId → Slot) : CopyJob → NodeId → Slot
  | .pair src dst bs =>
    if src ∈ cl.clients ∧ dst ∈ cl.clients then
      cl.colls.zipIdx.foldl (transferSlots net c k t src dst bs) s
    else s
  | .transfer src dst bs i coll => transferSlots net c k t src dst bs s (coll, i)
  | .deliver src dst bs i coll es =>
    if (net (.importEntries src dst bs i)).effective = true ∧ c = coll then
      Function.update s dst ((s dst).importAll k es) else s

def DropJob.slots (s : NodeId → Slot) : DropJob → NodeId → Slot
  | .node n bs =>
    if n ∈ cl.clients then cl.colls.zipIdx.foldl (dropSlots net c k t n bs) s else s
  | .drop n bs i coll => dropSlots net c k t n bs s (coll, i)

/-- What a chunk makes of the slots. -/
def chunkSlots (actions : SortedMap ℕ (List Action)) (s : NodeId → Slot) (ch : List ℕ) :
    NodeId → Slot :=
  (dropJobs actions ch).foldl (DropJob.slots net cl c k t)
    ((copyJobs actions ch).foldl (CopyJob.slots net cl c k t) s)

end Jobs

/-! ### The calls that matter -/

section Calls

variable (net : MigCall → Outcome) (cl : Cluster)

/-- The export and the import of `c` between the two nodes both work. -/
def PairHits (src dst : NodeId) (bs : List ℕ) (c : String) : Prop :=
  (src ∈ cl.clients ∧ dst ∈ cl.clients) ∧ ∃ i, (c, i) ∈ cl.colls.zipIdx ∧
    net (.exportEntries src dst bs i) = .ok ∧ (net (.importEntries src dst bs i)).effective = true

/-- The drop of `c` on the node takes effect. -/
def DropHits (n : NodeId) (bs : List ℕ) (c : String) : Prop :=
  n ∈ cl.clients ∧ ∃ i, (c, i) ∈ cl.colls.zipIdx ∧ (net (.dropBuckets n bs i)).effective = true

/-- In this chunk a copy of bucket `b` of `c` is delivered to `n`. -/
def DeliveredIn (actions : SortedMap ℕ (List Action)) (b : ℕ) (c : String) (n : NodeId)
    (chunk : List ℕ) : Prop :=
  ∃ src bs, (toLex (src, n), bs) ∈ (pairBuckets actions chunk).entries ∧ b ∈ bs ∧
    PairHits net cl src n bs c

/-- In this chunk bucket `b` of `c` is removed from `n`. -/
def RemovedIn (actions : SortedMap ℕ (List Action)) (b : ℕ) (c : String) (n : NodeId)
    (chunk : List ℕ) : Prop :=
  ∃ bs, (n, bs) ∈ (nodeDrops actions chunk).entries ∧ b ∈ bs ∧ DropHits net cl n bs c

end Calls

/-! ### The slots after a chunk -/

open Classical in
/-- A change that is made once or more often. -/
theorem foldl_ite_of_idem {α β : Type*} {f : β → β} (h : ∀ s, f (f s) = f s) (p : α → Prop)
    [DecidablePred p] (L : List α) (s : β) :
    L.foldl (fun s x => if p x then f s else s) s = if ∃ x ∈ L, p x then f s else s := by
  induction L generalizing s with
  | nil => simp
  | cons x L ih =>
    rw [foldl_cons, ih]
    by_cases hx : p x
    · simp [hx, h]
    · simp [hx]

section Chunk

variable {net : MigCall → Outcome} {cl : Cluster} {c k : String} {t : ℕ}

open Classical in
/-- The collections of a pair: importing twice is importing once. -/
theorem foldl_transferSlots (src dst : NodeId) (bs : List ℕ) (L : List (String × ℕ))
    (s : NodeId → Slot) : L.foldl (transferSlots net c k t src dst bs) s
      = if bucketOf k ∈ bs ∧ ∃ i, (c, i) ∈ L ∧ net (.exportEntries src dst bs i) = .ok ∧
          (net (.importEntries src dst bs i)).effective = true
        then Function.update s dst ((s dst).imported ((s src).object t)) else s := by
  unfold transferSlots
  rw [foldl_ite_of_idem]
  · refine if_congr ?_ rfl rfl
    grind
  · intro s
    -- the source, be it the destination itself, returns the same object as before
    have hsrc : (update s dst ((s dst).imported ((s src).object t)) src).object t
        = (s src).object t := by
      by_cases hsd : src = dst
      · subst hsd
        simp
      · rw [update_of_ne hsd]
    rw [hsrc, update_self, Slot.imported_imported, update_idem]

open Classical in
theorem slots_pair (src dst : NodeId) (bs : List ℕ) (s : NodeId → Slot) :
    CopyJob.slots net cl c k t s (.pair src dst bs)
      = if bucketOf k ∈ bs ∧ PairHits net cl src dst bs c
        then Function.update s dst ((s dst).imported ((s src).object t)) else s := by
  rw [CopyJob.slots, foldl_transferSlots]
  by_cases hcl : src ∈ cl.clients ∧ dst ∈ cl.clients
  · rw [if_pos hcl]
    exact if_congr (and_congr_right fun _ => ⟨fun h => ⟨hcl, h⟩, fun h => h.2⟩) rfl rfl
  · rw [if_neg hcl, if_neg fun h => hcl h.2.1]

variable {src₀ : NodeId} {b : ℕ} {ch : List ℕ} {L : List (List ℕ)} {n : NodeId}

open Classical in
/-- The pairs of a chunk, when all copies of the bucket come from `src₀` and none goes there. -/
theorem foldl_pairs {P : List ((NodeId ×ₗ NodeId) × List ℕ)}
    (hP : ∀ e ∈ P, bucketOf k ∈ e.2 → (ofLex e.1).1 = src₀ ∧ (ofLex e.1).2 ≠ src₀)
    (s : NodeId → Slot) (n : NodeId) :
    P.foldl (fun s e => CopyJob.slots net cl c k t s (.pair (ofLex e.1).1 (ofLex e.1).2 e.2)) s n
      = if ∃ e ∈ P, (ofLex e.1).2 = n ∧ bucketOf k ∈ e.2 ∧ PairHits net cl (ofLex e.1).1 n e.2 c
        then (s n).imported ((s src₀).object t) else s n := by
  induction P generalizing s with
  | nil => simp
  | cons e P ih =>
    have ih := ih fun e he => hP e (mem_cons_of_mem _ he)
    rw [foldl_cons, slots_pair]
    simp only [exists_mem_cons_iff]
    by_cases hit : bucketOf k ∈ e.2 ∧ PairHits net cl (ofLex e.1).1 (ofLex e.1).2 e.2 c
    · obtain ⟨hsrc, hdst⟩ := hP e (mem_cons_self ..) hit.1
      rw [if_pos hit, ih, update_of_ne hdst.symm, hsrc]
      by_cases hn : (ofLex e.1).2 = n
      · subst hn
        rw [update_self, Slot.imported_imported, ite_self, if_pos (.inl ⟨rfl, hsrc ▸ hit⟩)]
      · rw [update_of_ne (Ne.symm hn)]
        exact if_congr ⟨.inr, fun h => h.resolve_left fun h => hn h.1⟩ rfl rfl
    · rw [if_neg hit, ih]
      refine if_congr ⟨.inr, fun h => h.resolve_left ?_⟩ rfl rfl
      rintro ⟨rfl, h⟩
      exact hit h

open Classical in
theorem foldl_dropSlots (n : NodeId) (bs : List ℕ) (L : List (String × ℕ)) (s : NodeId → Slot) :
    L.foldl (dropSlots net c k t n bs) s
      = if bucketOf k ∈ bs ∧ ∃ i, (c, i) ∈ L ∧ (net (.dropBuckets n bs i)).effective = true
        then Function.update s n ((s n).dropped t) else s := by
  unfold dropSlots
  rw [foldl_ite_of_idem]
  · refine if_congr ?_ rfl rfl
    grind
  · intro s
    rw [update_self, Slot.dropped_dropped, update_idem]

open Classical in
/-- The drops of a chunk. -/
theorem foldl_nodes (D : List (NodeId × List ℕ)) (s : NodeId → Slot) (n : NodeId) :
    D.foldl (fun s e => DropJob.slots net cl c k t s (.node e.1 e.2)) s n
      = if ∃ e ∈ D, e.1 = n ∧ bucketOf k ∈ e.2 ∧ DropHits net cl n e.2 c
        then (s n).dropped t else s n := by
  induction D generalizing s with
  | nil => simp
  | cons e D ih =>
    have hnode : DropJob.slots net cl c k t s (.node e.1 e.2)
        = if bucketOf k ∈ e.2 ∧ DropHits net cl e.1 e.2 c
          then update s e.1 ((s e.1).dropped t) else s := by
      rw [DropJob.slots, foldl_dropSlots]
      by_cases hcl : e.1 ∈ cl.clients
      · rw [if_pos hcl]
        exact if_congr (and_congr_right fun _ => ⟨fun h => ⟨hcl, h⟩, fun h => h.2⟩) rfl rfl
      · rw [if_neg hcl, if_neg fun h => hcl h.2.1]
    rw [foldl_cons, hnode]
    simp only [exists_mem_cons_iff]
    by_cases hit : bucketOf k ∈ e.2 ∧ DropHits net cl e.1 e.2 c
    · rw [if_pos hit, ih]
      by_cases hn : e.1 = n
      · subst hn
        rw [update_self, Slot.dropped_dropped, ite_self, if_pos (.inl ⟨rfl, hit⟩)]
      · rw [update_of_ne (Ne.symm hn)]
        exact if_congr ⟨.inr, fun h => h.resolve_left fun h => hn h.1⟩ rfl rfl
    · rw [if_neg hit, ih]
      refine if_congr ⟨.inr, fun h => h.resolve_left ?_⟩ rfl rfl
      rintro ⟨rfl, h⟩
      exact hit h

variable {actions : SortedMap ℕ (List Action)}

theorem DeliveredIn.mem (h : DeliveredIn net cl actions b c n ch) : b ∈ ch := by
  obtain ⟨src, bs, hm, hb, -⟩ := h
  exact ((Move.mem_pairBuckets hm b).mp hb).1

theorem RemovedIn.mem (h : RemovedIn net cl actions b c n ch) : b ∈ ch := by
  obtain ⟨bs, hm, hb, -⟩ := h
  exact ((Move.mem_nodeDrops hm b).mp hb).1

/-- All copies of bucket `b` come from `src₀`, and none goes there. -/
def CopiesFrom (actions : SortedMap ℕ (List Action)) (b : ℕ) (src₀ : NodeId) : Prop :=
  ∀ p, Sum.inl p ∈ (actions.find? b).getD [] → p.1 = src₀ ∧ p.2 ≠ src₀

open Classical in
/-- The slot of a node after deliveries and removals. -/
noncomputable def Slot.after (t : ℕ) (delivered removed : Prop) (src s : Slot) : Slot :=
  let s' := if delivered then s.imported (src.object t) else s
  if removed then s'.dropped t else s'

theorem Slot.after_congr {d d' r r' : Prop} (hd : d ↔ d') (hr : r ↔ r') (src s : Slot) :
    Slot.after t d r src s = Slot.after t d' r' src s := by
  rw [propext hd, propext hr]

theorem Slot.object_after {d r : Prop} {src s : Slot} {v : Value} :
    (Slot.after t d r src s).object t = some v ↔
      ((d ∧ (src.object t).or (s.object t) = some v) ∨ (¬d ∧ s.object t = some v)) ∧ ¬r := by
  unfold after
  by_cases hd : d <;> by_cases hr : r <;> simp [hd, hr]

theorem chunkSlots_eq (hact : CopiesFrom actions (bucketOf k) src₀) (ch : List ℕ)
    (s : NodeId → Slot) (n : NodeId) : chunkSlots net cl c k t actions s ch n
      = Slot.after t (DeliveredIn net cl actions (bucketOf k) c n ch)
          (RemovedIn net cl actions (bucketOf k) c n ch) (s src₀) (s n) := by
  have hP : ∀ e ∈ (pairBuckets actions ch).entries, bucketOf k ∈ e.2 →
      (ofLex e.1).1 = src₀ ∧ (ofLex e.1).2 ≠ src₀ :=
    fun e he hb => hact _ ((Move.mem_pairBuckets he _).mp hb).2
  have hdel : (∃ e ∈ (pairBuckets actions ch).entries, (ofLex e.1).2 = n ∧ bucketOf k ∈ e.2 ∧
      PairHits net cl (ofLex e.1).1 n e.2 c) ↔ DeliveredIn net cl actions (bucketOf k) c n ch := by
    constructor
    · rintro ⟨⟨p, bs⟩, he, rfl, h⟩
      exact ⟨_, bs, he, h⟩
    · rintro ⟨src, bs, he, h⟩
      exact ⟨_, he, rfl, h⟩
  have hrem : (∃ e ∈ (nodeDrops actions ch).entries, e.1 = n ∧ bucketOf k ∈ e.2 ∧
      DropHits net cl n e.2 c) ↔ RemovedIn net cl actions (bucketOf k) c n ch := by
    constructor
    · rintro ⟨⟨n', bs⟩, he, rfl, h⟩
      exact ⟨bs, he, h⟩
    · rintro ⟨bs, he, h⟩
      exact ⟨_, he, rfl, h⟩
  rw [chunkSlots, dropJobs, copyJobs, foldl_map, foldl_map, foldl_nodes, foldl_pairs hP]
  rw [← Slot.after_congr hdel hrem, Slot.after]
  congr

/-- A chunk leaves the entries of other buckets alone. -/
theorem chunkSlots_of_notMem (h : bucketOf k ∉ ch) (hact : CopiesFrom actions (bucketOf k) src₀)
    (s : NodeId → Slot) : chunkSlots net cl c k t actions s ch = s := by
  funext n
  rw [chunkSlots_eq hact, Slot.after, if_neg fun hd => h hd.mem, if_neg fun hr => h hr.mem]

theorem foldl_chunkSlots_of_notMem (hact : CopiesFrom actions (bucketOf k) src₀)
    (h : bucketOf k ∉ L.flatten) (s : NodeId → Slot) :
    L.foldl (chunkSlots net cl c k t actions) s = s := by
  induction L with
  | nil => rfl
  | cons ch L ih =>
    rw [flatten_cons, mem_append, not_or] at h
    rw [foldl_cons, chunkSlots_of_notMem h.1 hact, ih h.2]

/-- **The slots after the chunks of a migration**, each bucket being in one of them. -/
theorem foldl_chunkSlots (hact : CopiesFrom actions (bucketOf k) src₀) (hnd : L.flatten.Nodup)
    (s : NodeId → Slot) (n : NodeId) :
    L.foldl (chunkSlots net cl c k t actions) s n
      = Slot.after t (∃ ch ∈ L, DeliveredIn net cl actions (bucketOf k) c n ch)
          (∃ ch ∈ L, RemovedIn net cl actions (bucketOf k) c n ch) (s src₀) (s n) := by
  induction L generalizing s with
  | nil => simp [Slot.after]
  | cons ch L ih =>
    rw [flatten_cons, nodup_append'] at hnd
    obtain ⟨-, hnd, hdisj⟩ := hnd
    rw [foldl_cons]
    by_cases hb : bucketOf k ∈ ch
    · -- the bucket's chunk is this one
      have hL : ∀ ch' ∈ L, bucketOf k ∉ ch' := fun ch' hch' hb' =>
        hdisj hb (mem_flatten.mpr ⟨ch', hch', hb'⟩)
      rw [foldl_chunkSlots_of_notMem hact (hdisj hb), chunkSlots_eq hact]
      refine Slot.after_congr ⟨fun h => ⟨ch, mem_cons_self .., h⟩, ?_⟩
        ⟨fun h => ⟨ch, mem_cons_self .., h⟩, ?_⟩ _ _
      · rintro ⟨ch', hch', h⟩
        rcases mem_cons.mp hch' with rfl | hm
        · exact h
        · exact absurd h.mem (hL _ hm)
      · rintro ⟨ch', hch', h⟩
        rcases mem_cons.mp hch' with rfl | hm
        · exact h
        · exact absurd h.mem (hL _ hm)
    · rw [chunkSlots_of_notMem hb hact, ih hnd]
      refine Slot.after_congr ?_ ?_ _ _
      · rw [exists_mem_cons_iff, or_iff_right fun h => hb h.mem]
      · rw [exists_mem_cons_iff, or_iff_right fun h => hb h.mem]

end Chunk

/-! ### The slots of a world -/

/-- A cluster without what a migration keeps in it while it runs. -/
def Cluster.base (c : Cluster) : Cluster :=
  { c with gates := Gates.new, journal := none, overlay := none }

section Base

variable (cl : Cluster) (old new : List NodeId) (done : Finset ℕ) (ch : List ℕ)

@[simp] theorem Cluster.base_freeze : (cl.freeze ch).base = cl.base := rfl

@[simp] theorem Cluster.base_cutover : (cl.cutover ch).base = cl.base := rfl

@[simp] theorem Cluster.base_unfreeze : (cl.unfreeze ch).base = cl.base := rfl

@[simp] theorem Cluster.base_saveRecord : (cl.saveRecord old new done).base = cl.base := rfl

@[simp] theorem Cluster.base_installOverlay : (cl.installOverlay old new done).base = cl.base := rfl

end Base

section Worlds

variable {St : Type} [IndexStore St]

def World.slot (w : World St) (c k : String) (n : NodeId) : Slot := (w.shards n).slot c k

theorem World.slot_setShard (w : World St) (c k : String) (n : NodeId) (sh : Shard St) :
    (w.setShard n sh).slot c k = Function.update (w.slot c k) n (sh.slot c k) := by
  funext n'
  by_cases hn : n' = n
  · subst hn
    simp [slot, setShard]
  · simp [slot, setShard, hn]

@[simp] theorem World.slot_setCluster (w : World St) (cl : Cluster) (c k : String) :
    (w.setCluster cl).slot c k = w.slot c k := rfl

/-- At time `t` the nodes return for the entry what they return now. -/
def World.Settled (w : World St) (c k : String) (t : ℕ) : Prop :=
  ∀ n, (w.slot c k n).object w.now = (w.slot c k n).object t

variable [LawfulCells St] {net : MigCall → Outcome} {c k : String} {t : ℕ} {w : World St}

theorem slot_importCall (src dst : NodeId) (bs : List ℕ) (i : ℕ) (coll : String)
    (es : List (String × Value)) : (importCall net w src dst bs i coll es).slot c k
      = CopyJob.slots net w.cluster c k t (w.slot c k) (.deliver src dst bs i coll es) := by
  rw [importCall, CopyJob.slots]
  by_cases heff : (net (.importEntries src dst bs i)).effective = true
  · rw [if_pos heff, World.slot_setShard, Shard.slot_importEntries]
    by_cases hc : c = coll
    · rw [if_pos hc, if_pos ⟨heff, hc⟩]
      rfl
    · rw [if_neg hc, if_neg fun h => hc h.2]
      exact update_eq_self ..
  · rw [if_neg heff, if_neg fun h => heff h.1]

/-- What an export lists for the entry. -/
theorem importAll_exportCall (hset : w.Settled c k t) (src dst : NodeId) (bs : List ℕ) (i : ℕ)
    (s : Slot) : s.importAll k (exportCall net w src dst bs i c)
      = if net (.exportEntries src dst bs i) = .ok ∧ bucketOf k ∈ bs then
          s.imported ((w.slot c k src).object t) else s := by
  rw [exportCall]
  by_cases hok : net (.exportEntries src dst bs i) = .ok
  · rw [if_pos hok, Slot.importAll_eq k (Shard.nodup_exportEntries ..),
      Shard.lookup_exportEntries, ← hset src]
    by_cases hb : bucketOf k ∈ bs
    · rw [if_pos hb, if_pos ⟨hok, hb⟩]
      rfl
    · rw [if_neg hb, if_neg fun h => hb h.2]
      rfl
  · rw [if_neg hok, if_neg fun h => hok h.1]
    rfl

/-- Exporting and then importing what was exported is a transfer. -/
theorem slots_deliver_export (hset : w.Settled c k t) (cl : Cluster) (src dst : NodeId)
    (bs : List ℕ) (i : ℕ) (coll : String) :
    CopyJob.slots net cl c k t (w.slot c k)
        (.deliver src dst bs i coll (exportCall net w src dst bs i coll))
      = transferSlots net c k t src dst bs (w.slot c k) (coll, i) := by
  rw [CopyJob.slots, transferSlots]
  by_cases hc : c = coll
  · subst hc
    rw [importAll_exportCall hset]
    by_cases hok : net (.exportEntries src dst bs i) = .ok <;> by_cases hb : bucketOf k ∈ bs <;>
      simp [hok, hb]
  · rw [if_neg fun h => hc h.2, if_neg fun h => hc h.2.1]

variable (cl : Cluster)

omit [IndexStore St] [LawfulCells St] in
/-- Importing nothing changes nothing. -/
theorem slots_deliver_nil (src dst : NodeId) (bs : List ℕ) (i : ℕ) (coll : String)
    (s : NodeId → Slot) : CopyJob.slots net cl c k t s (.deliver src dst bs i coll []) = s := by
  rw [CopyJob.slots, Slot.importAll, foldl_nil, update_eq_self, ite_self]

theorem slot_copyColl (hset : w.Settled c k t) (src dst : NodeId) (bs : List ℕ) (ci : String × ℕ) :
    (copyColl net src dst bs w ci).slot c k
      = transferSlots net c k t src dst bs (w.slot c k) ci := by
  obtain ⟨coll, i⟩ := ci
  rw [← slots_deliver_export hset w.cluster, copyColl]
  dsimp only
  split_ifs with hes
  · rw [hes, slots_deliver_nil]
  · exact slot_importCall ..

theorem slot_dropCall (hset : w.Settled c k t) (n : NodeId) (bs : List ℕ) (i : ℕ) (coll : String) :
    (dropCall net w n bs i coll).1.slot c k = dropSlots net c k t n bs (w.slot c k) (coll, i) := by
  have hdrop : (w.slot c k n).dropped w.now = (w.slot c k n).dropped t := by
    rw [Slot.dropped, Slot.dropped, hset n]
  rw [dropCall, dropSlots]
  dsimp only
  by_cases heff : (net (.dropBuckets n bs i)).effective = true
  · rw [if_pos heff, World.slot_setShard, Shard.slot_dropBuckets]
    by_cases hc : c = coll ∧ bucketOf k ∈ bs
    · rw [if_pos hc, if_pos ⟨heff, hc⟩]
      exact congrArg _ hdrop
    · rw [if_neg hc, if_neg fun h => hc h.2]
      exact update_eq_self ..
  · rw [if_neg heff, if_neg fun h => heff h.1]

/-! ### The run in one go -/

/-- `w'` is `w` but for the shards, and the entry has the slots `s` there. -/
structure Acts (c k : String) (w w' : World St) (s : NodeId → Slot) : Prop where
  cluster : w'.cluster = w.cluster
  now : w'.now = w.now
  slot : w'.slot c k = s

omit [LawfulCells St] in
theorem Acts.refl (w : World St) : Acts c k w w (w.slot c k) := ⟨rfl, rfl, rfl⟩

omit [LawfulCells St] in
/-- A loop whose body acts on the slots as `g` acts on them as the loop over `g`. -/
theorem Acts.foldl {α : Type} {f : World St → α → World St} {g : (NodeId → Slot) → α → NodeId → Slot}
    (w : World St) (L : List α)
    (h : ∀ w', w'.cluster = w.cluster → w'.now = w.now → ∀ a, Acts c k w' (f w' a) (g (w'.slot c k) a)) :
    Acts c k w (L.foldl f w) (L.foldl g (w.slot c k)) := by
  induction L using reverseRecOn with
  | nil => exact .refl w
  | append_singleton L a ih =>
    rw [foldl_append, foldl_append]
    obtain ⟨h1, h2, h3⟩ := h _ ih.cluster ih.now a
    rw [ih.slot] at h3
    exact ⟨h1.trans ih.cluster, h2.trans ih.now, h3⟩

theorem acts_importCall (w : World St) (src dst : NodeId) (bs : List ℕ) (i : ℕ) (coll : String)
    (es : List (String × Value)) : Acts c k w (importCall net w src dst bs i coll es)
      (CopyJob.slots net w.cluster c k w.now (w.slot c k) (.deliver src dst bs i coll es)) := by
  refine ⟨importCall_cluster .., ?_, slot_importCall ..⟩
  rw [importCall]
  split_ifs <;> rfl

theorem acts_copyColl (w : World St) (src dst : NodeId) (bs : List ℕ) (ci : String × ℕ) :
    Acts c k w (copyColl net src dst bs w ci)
      (transferSlots net c k w.now src dst bs (w.slot c k) ci) := by
  refine ⟨?_, ?_, slot_copyColl (fun _ => rfl) ..⟩
  all_goals
    rw [copyColl]
    split_ifs
    · rfl
  · exact (acts_importCall (c := c) (k := k) ..).cluster
  · exact (acts_importCall (c := c) (k := k) ..).now

theorem acts_copyJob (w : World St) (job : CopyJob) : Acts c k w (CopyJob.run net w job)
    (CopyJob.slots net w.cluster c k w.now (w.slot c k) job) := by
  cases job with
  | pair src dst bs =>
    rw [CopyJob.run, copyPair, CopyJob.slots]
    split_ifs
    · refine Acts.foldl w _ fun w' _ hnow ci => ?_
      rw [← hnow]
      exact acts_copyColl w' src dst bs ci
    · exact .refl w
  | transfer src dst bs i coll => exact acts_copyColl w src dst bs (coll, i)
  | deliver src dst bs i coll es => exact acts_importCall w src dst bs i coll es

theorem acts_dropCall (w : World St) (n : NodeId) (bs : List ℕ) (i : ℕ) (coll : String) :
    Acts c k w (dropCall net w n bs i coll).1
      (dropSlots net c k w.now n bs (w.slot c k) (coll, i)) := by
  refine ⟨dropCall_cluster .., ?_, slot_dropCall (fun _ => rfl) ..⟩
  rw [dropCall]
  dsimp only
  split_ifs <;> rfl

theorem acts_dropJob (w : World St) (job : DropJob) : Acts c k w (DropJob.run net w job)
    (DropJob.slots net w.cluster c k w.now (w.slot c k) job) := by
  cases job with
  | node n bs =>
    rw [DropJob.run, dropNode, DropJob.slots]
    split_ifs
    · refine Acts.foldl w _ fun w' _ hnow ci => ?_
      rw [← hnow]
      exact acts_dropCall w' n bs ci.2 ci.1
    · exact .refl w
  | drop n bs i coll => exact acts_dropCall w n bs i coll

theorem acts_copyJobs (net : MigCall → Outcome) (c k : String) (w : World St) (jobs : List CopyJob) :
    Acts c k w (jobs.foldl (CopyJob.run net) w)
      (jobs.foldl (CopyJob.slots net w.cluster c k w.now) (w.slot c k)) :=
  Acts.foldl w jobs fun w' hcl hnow job => by
    rw [← hcl, ← hnow]
    exact acts_copyJob w' job

theorem acts_dropJobs (net : MigCall → Outcome) (c k : String) (w : World St) (jobs : List DropJob) :
    Acts c k w (jobs.foldl (DropJob.run net) w)
      (jobs.foldl (DropJob.slots net w.cluster c k w.now) (w.slot c k)) :=
  Acts.foldl w jobs fun w' hcl hnow job => by
    rw [← hcl, ← hnow]
    exact acts_dropJob w' job

/-- What a part of a migration leaves alone, and what it does to the slots of the entry. -/
structure Migrates (c k : String) (w w' : World St) (s : NodeId → Slot) : Prop where
  base : w'.cluster.base = w.cluster.base
  now : w'.now = w.now
  slot : w'.slot c k = s

/-- What a chunk does to the cluster and to the slots. -/
theorem runChunk_spec (net : MigCall → Outcome) (c k : String) (old new : List NodeId)
    (actions : SortedMap ℕ (List Action)) (s : World St × Finset ℕ) (ch : List ℕ) :
    (runChunk net old new actions s ch).1.cluster
        = (((s.1.cluster.freeze ch).cutover ch).unfreeze ch).saveRecord old new
            (s.2 ∪ ch.toFinset) ∧
    (runChunk net old new actions s ch).1.now = s.1.now ∧
    (runChunk net old new actions s ch).1.slot c k
      = chunkSlots net s.1.cluster c k s.1.now actions (s.1.slot c k) ch := by
  have hcopy := acts_copyJobs net c k (s.1.setCluster (s.1.cluster.freeze ch)) (copyJobs actions ch)
  generalize hw₁ : (copyJobs actions ch).foldl (CopyJob.run net)
    (s.1.setCluster (s.1.cluster.freeze ch)) = w₁ at hcopy
  have hdrop := acts_dropJobs net c k (w₁.setCluster (w₁.cluster.cutover ch)) (dropJobs actions ch)
  generalize hw₂ : (dropJobs actions ch).foldl (DropJob.run net)
    (w₁.setCluster (w₁.cluster.cutover ch)) = w₂ at hdrop
  have hrun : (runChunk net old new actions s ch).1 = w₂.setCluster
      ((w₂.cluster.unfreeze ch).saveRecord old new (s.2 ∪ ch.toFinset)) := by
    rw [copyJobs, foldl_map] at hw₁
    rw [dropJobs, foldl_map, ← hw₁] at hw₂
    rw [← hw₂]
    rfl
  rw [hrun]
  refine ⟨?_, hdrop.now.trans hcopy.now, ?_⟩
  · change (w₂.cluster.unfreeze ch).saveRecord old new _ = _
    rw [hdrop.cluster]
    change ((w₁.cluster.cutover ch).unfreeze ch).saveRecord old new _ = _
    rw [hcopy.cluster]
    rfl
  · change w₂.slot c k = _
    rw [hdrop.slot]
    change (dropJobs actions ch).foldl (DropJob.slots net (w₁.cluster.cutover ch) c k w₁.now)
      (w₁.slot c k) = _
    rw [hcopy.slot, hcopy.now, hcopy.cluster]
    rfl

/-- **The chunks of a migration act on the slots as `chunkSlots`.** -/
theorem migrates_chunks (net : MigCall → Outcome) (c k : String) (old new : List NodeId)
    (actions : SortedMap ℕ (List Action)) (L : List (List ℕ)) (s : World St × Finset ℕ) :
    Migrates c k s.1 (L.foldl (runChunk net old new actions) s).1
      (L.foldl (chunkSlots net s.1.cluster c k s.1.now actions) (s.1.slot c k)) := by
  induction L using reverseRecOn with
  | nil => exact ⟨rfl, rfl, rfl⟩
  | append_singleton L ch ih =>
    rw [foldl_concat, foldl_concat]
    obtain ⟨h1, h2, h3⟩ := runChunk_spec net c k old new actions
      (L.foldl (runChunk net old new actions) s) ch
    have hbase : (runChunk net old new actions (L.foldl (runChunk net old new actions) s)
        ch).1.cluster.base = (L.foldl (runChunk net old new actions) s).1.cluster.base := by
      rw [h1, Cluster.base_saveRecord, Cluster.base_unfreeze, Cluster.base_cutover,
        Cluster.base_freeze]
    refine ⟨hbase.trans ih.base, h2.trans ih.now, h3.trans ?_⟩
    rw [ih.slot, ih.now]
    change chunkSlots net (L.foldl (runChunk net old new actions) s).1.cluster.base c k s.1.now
      actions _ ch = _
    rw [ih.base]
    rfl

/-! ### The chunks of a plan -/

omit [IndexStore St] [LawfulCells St] in
/-- The copies of a bucket come from its first old owner, which is not among those that gain it. -/
theorem copy_source {mv : Move} {done : Finset ℕ} {b : ℕ} {p : NodeId × NodeId}
    (hp : Sum.inl p ∈ ((actionsOf mv.plan done).find? b).getD []) :
    (mv.oldOwners b).head? = some p.1 ∧ p.2 ≠ p.1 := by
  obtain ⟨src, dst⟩ := p
  obtain ⟨-, hm⟩ := Move.mem_actionList_inl.mp (Move.mem_actions.mp hp)
  obtain ⟨-, hhead, -, hdst⟩ := Move.mem_planCopies.mp hm
  refine ⟨hhead, fun (heq : dst = src) => hdst ?_⟩
  rw [heq]
  exact mem_of_mem_head? hhead

omit [IndexStore St] [LawfulCells St] in
theorem copiesFrom_plan (mv : Move) (done : Finset ℕ) (b : ℕ) :
    CopiesFrom (actionsOf mv.plan done) b ((mv.oldOwners b).headD "") := by
  intro p hp
  obtain ⟨hhead, hne⟩ := copy_source hp
  rw [headD_eq_head?_getD, hhead]
  exact ⟨rfl, hne⟩

/-- What a migration of this cluster is planned from. -/
def Cluster.move (cl : Cluster) (old new : List NodeId) : Move :=
  ⟨old, new, cl.replicationTarget, cl.topology⟩

/-- The chunks of a migration of this cluster. -/
def Cluster.migrationChunks (cl : Cluster) (old new : List NodeId) (done : Finset ℕ) :
    List (List ℕ) :=
  chunks cl.chunk ((actionsOf (cl.move old new).plan done).entries.map Prod.fst)

omit [IndexStore St] [LawfulCells St] in
theorem Cluster.nodup_migrationChunks (old new : List NodeId) (done : Finset ℕ) :
    (cl.migrationChunks old new done).flatten.Nodup := by
  rw [migrationChunks, flatten_chunks cl.chunk_pos]
  exact SortedMap.nodup_keys _

/-- A migration once its first chunks `L` are through. -/
def World.migrated (net : MigCall → Outcome) (w : World St) (old new : List NodeId)
    (done : Finset ℕ) (L : List (List ℕ)) : World St :=
  (L.foldl (runChunk net old new (actionsOf (w.cluster.move old new).plan done))
    (w.setCluster ((w.cluster.installOverlay old new done).saveRecord old new done), done)).1

omit [LawfulCells St] in
theorem runMigration_eq (net : MigCall → Outcome) (w : World St) {old new : List NodeId}
    (done : Finset ℕ) (hdiff : ¬sameMembers old new) :
    ∃ w', w' = w.migrated net old new done (w.cluster.migrationChunks old new done) ∧
      runMigration net w old new done = w'.setCluster ((w'.cluster.commit new).removeOverlay) := by
  refine ⟨_, rfl, ?_⟩
  rw [runMigration, if_neg hdiff]
  unfold World.migrated Cluster.migrationChunks Cluster.move Move.plan
  dsimp only

variable (net : MigCall → Outcome) (w : World St) (old new : List NodeId) (done : Finset ℕ)

theorem migrates_migrated (c k : String) (L : List (List ℕ)) :
    Migrates c k w (w.migrated net old new done L)
      (L.foldl (chunkSlots net w.cluster c k w.now (actionsOf (w.cluster.move old new).plan done))
        (w.slot c k)) := by
  rw [World.migrated]
  generalize actionsOf _ _ = actions
  obtain ⟨h1, h2, h3⟩ := migrates_chunks net c k old new actions L
    (w.setCluster ((w.cluster.installOverlay old new done).saveRecord old new done), done)
  exact ⟨h1, h2, h3⟩

end Worlds

end Stplr
