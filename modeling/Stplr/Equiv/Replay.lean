import Stplr.Equiv.Sink
import Stplr.Equiv.Slots
import Stplr.Lib.Replay

/-!
# A queue that is drained again after a crash

The entries that the queued operations name are followed one by one.  An entry has its slot from the
start until it is written; afterwards it is a plain value or nothing, whatever the clock says.  `touch`
is what an operation makes of that, with the order of a set's members forgotten (`view`).  Runs of
`touch` are idempotent (`restartable_touch`): a run with a put or a delete does not depend on what was
there, and a run of set operations leaves each member as the last operation on it says.  So the replays
of the queue end where one pass over the operations ends (`replay_eq_once`).

When a ttl runs out between two passes, a set operation that the first pass skipped may be a write in
the second (`replay_differs_across_expiry`).  Only an entry that a set operation is the first to name
can be hurt by this (`Steady`): a put or a delete overwrites whatever is left of the start.
-/

namespace Stplr

open Lib IngestQueue IndexStore List Option World Shard

/-! ### Values up to the order of a set -/

/-- A stored value, with the order of a set's members forgotten. -/
inductive View where
  | absent
  | set (members : Finset String)
  | other (v : Value)
deriving DecidableEq

def view : Option Value → View
  | none => .absent
  | some v =>
    match v.asStrings with
    | some l => .set l.toFinset
    | none => .other v

namespace View

def members : View → Finset String
  | .set M => M
  | _ => ∅

/-- What the set operations write: a set that empties goes. -/
def ofSet (M : Finset String) : View := if M = ∅ then .absent else .set M

@[simp] theorem members_ofSet (M : Finset String) : (ofSet M).members = M := by
  unfold ofSet
  split_ifs with h
  · exact h.symm
  · rfl

end View

theorem members_view (o : Option Value) : (view o).members = (membersOf o).toFinset := by
  cases o with
  | none => rfl
  | some v =>
    rw [view, membersOf, bind_some]
    cases v.asStrings <;> rfl

theorem view_ofStrings {l : List String} (h : l ≠ []) :
    view (some (Value.ofStrings l)) = .ofSet l.toFinset := by
  have hne : l.toFinset ≠ ∅ := by simpa using h
  rw [View.ofSet, if_neg hne, view, Value.asStrings_ofStrings]

/-- The slots hold the same values at all times, comparing sets as sets, and expire together. -/
def Slot.Same (s s' : Slot) : Prop :=
  s.expiry = s'.expiry ∧ ∀ t, view (s.object t) = view (s'.object t)

/-! ### What an operation makes of an entry -/

/-- The state of an entry that was `u₀` at the start: `none` while nothing has written it. -/
def touch (u₀ : View) (x : Option View) : IngestOp → Option View
  | .put _ _ v => some (view (some v))
  | .delete _ _ => some .absent
  | .setAdd _ _ m =>
    let M := (x.getD u₀).members
    if m ∈ M then x else some (.ofSet (insert m M))
  | .setRemove _ _ m =>
    let M := (x.getD u₀).members
    if m ∈ M then some (.ofSet (M.erase m)) else x

/-- The edit of a set operation. -/
def IngestOp.edit : IngestOp → Option (Bool × String)
  | .setAdd _ _ m => some (true, m)
  | .setRemove _ _ m => some (false, m)
  | _ => none

variable {u₀ : View}

/-- A set operation that changes nothing does not write. -/
theorem touch_edit {op : IngestOp} {e : Bool × String} (h : op.edit = some e) (x : Option View) :
    (touch u₀ x op = x ∧ editSet [e] (x.getD u₀).members = (x.getD u₀).members) ∨
      touch u₀ x op = some (.ofSet (editSet [e] (x.getD u₀).members)) := by
  cases op with
  | put coll key v => cases h
  | delete coll key => cases h
  | setAdd coll key m =>
    cases h
    simp only [touch, editSet, foldl_cons, foldl_nil, if_true]
    split_ifs with hm
    · exact .inl ⟨rfl, Finset.insert_eq_of_mem hm⟩
    · exact .inr rfl
  | setRemove coll key m =>
    cases h
    simp only [touch, editSet, foldl_cons, foldl_nil, Bool.false_eq_true, if_false]
    split_ifs with hm
    · exact .inr rfl
    · exact .inl ⟨rfl, Finset.erase_eq_of_notMem hm⟩

/-- A run of set operations edits the members; it leaves the entry alone or writes the outcome. -/
theorem foldl_touch (u₀ : View) {l : List IngestOp} (hl : ∀ op ∈ l, op.edit.isSome) (x : Option View) :
    ((l.foldl (touch u₀) x).getD u₀).members
        = editSet (l.filterMap IngestOp.edit) (x.getD u₀).members ∧
      (l.foldl (touch u₀) x = x ∨ l.foldl (touch u₀) x
        = some (.ofSet (editSet (l.filterMap IngestOp.edit) (x.getD u₀).members))) := by
  induction l generalizing x with
  | nil => exact ⟨rfl, .inl rfl⟩
  | cons op l ih =>
    obtain ⟨e, he⟩ := isSome_iff_exists.mp (hl op (mem_cons_self ..))
    have hedit : ∀ M, editSet ((op :: l).filterMap IngestOp.edit) M
        = editSet (l.filterMap IngestOp.edit) (editSet [e] M) := by
      intro M
      rw [filterMap_cons, he]
      rfl
    have hrest := ih (fun o ho => hl o (mem_cons_of_mem _ ho)) (touch u₀ x op)
    rw [foldl_cons, hedit]
    rcases touch_edit he x with ⟨hx, hM⟩ | hx
    · rw [hx] at hrest ⊢
      rw [hM]
      exact hrest
    · rw [hx, getD_some, View.members_ofSet] at hrest
      rw [hx]
      refine ⟨hrest.1, .inr ?_⟩
      rcases hrest.2 with hsame | hwritten
      · -- nothing more is written, so the later edits leave the members as they are
        have hM := hrest.1
        rw [hsame, getD_some, View.members_ofSet] at hM
        rw [hsame, ← hM]
      · exact hwritten

/-- **Replaying a run of operations on one entry changes nothing.** -/
theorem restartable_touch (u₀ : View) : Restartable (touch u₀) := by
  intro l x
  by_cases hset : ∀ op ∈ l, op.edit.isSome
  · obtain ⟨hM, hx⟩ := foldl_touch u₀ hset x
    rcases hx with hx | hx
    · rw [hx, hx]
    · rcases (foldl_touch u₀ hset (l.foldl (touch u₀) x)).2 with hy | hy
      · exact hy
      · rw [hy, hM, editSet_editSet, hx]
  · -- a put or a delete forgets what was there
    push Not at hset
    obtain ⟨op, hop, hedit⟩ := hset
    refine foldl_eq_of_mem_const hop (fun s s' => ?_) _ _
    cases op with
    | put coll key v => rfl
    | delete coll key => rfl
    | setAdd coll key m | setRemove coll key m => simp [IngestOp.edit] at hedit

/-- Only set operations can leave an entry as it was at the start. -/
theorem touch_eq_none {x : Option View} {op : IngestOp} (h : touch u₀ x op = none) :
    x = none ∧ op.edit.isSome := by
  cases op with
  | put coll key v => cases h
  | delete coll key => cases h
  | setAdd coll key m | setRemove coll key m =>
    simp only [touch] at h
    split_ifs at h
    exact ⟨h, rfl⟩

theorem foldl_touch_eq_none {l : List IngestOp} : ∀ {x : Option View},
    l.foldl (touch u₀) x = none → x = none ∧ ∀ op ∈ l, op.edit.isSome := by
  induction l with
  | nil => exact fun h => ⟨h, forall_mem_nil _⟩
  | cons op l ih =>
    intro x h
    obtain ⟨hx, hl⟩ := ih h
    obtain ⟨hx, hop⟩ := touch_eq_none hx
    exact ⟨hx, forall_mem_cons.mpr ⟨hop, hl⟩⟩

/-! ### Slots that follow -/

/-- The slot is the one from the start, or a plain value or nothing with the given view. -/
def Tracks (z s : Slot) : Option View → Prop
  | none => s = z
  | some u => s.expiry = none ∧ ∃ o, (∀ t, s.object t = o) ∧ view o = u

namespace Tracks

variable {z s s' : Slot} {x : Option View}

theorem same (h : Tracks z s x) (h' : Tracks z s' x) : s.Same s' := by
  cases x with
  | none =>
    obtain rfl : s = s' := Eq.trans h (Eq.symm h')
    exact ⟨rfl, fun _ => rfl⟩
  | some u =>
    obtain ⟨he, o, ho, hu⟩ := h
    obtain ⟨he', o', ho', hu'⟩ := h'
    refine ⟨he.trans he'.symm, fun t => ?_⟩
    rw [ho, ho', hu, hu']

theorem view_object {t : ℕ} (hz : x = none → view (z.object t) = u₀) (h : Tracks z s x) :
    view (s.object t) = x.getD u₀ := by
  cases x with
  | none =>
    obtain rfl : s = z := h
    exact hz rfl
  | some u =>
    obtain ⟨-, o, ho, hu⟩ := h
    rw [ho, hu, getD_some]

theorem plain (v : Value) : Tracks z (.plain v) (some (view (some v))) :=
  ⟨rfl, some v, fun _ => rfl, rfl⟩

theorem empty : Tracks z .empty (some .absent) := ⟨rfl, none, fun _ => rfl, rfl⟩

end Tracks

/-- What an operation makes of the slot of the entry it names, at time `t`. -/
def Slot.apply (t : ℕ) (s : Slot) : IngestOp → Slot
  | .put _ _ v => .plain v
  | .delete _ _ => .empty
  | .setAdd _ _ m =>
    let arr := membersOf (s.object t)
    if m ∈ arr then s else .plain (Value.ofStrings (arr ++ [m]))
  | .setRemove _ _ m =>
    let arr := membersOf (s.object t)
    let kept := arr.filter fun x => x ≠ m
    if kept.length = arr.length then s else if kept = [] then .empty
    else .plain (Value.ofStrings kept)

theorem Tracks.apply {z s : Slot} {x : Option View} {t : ℕ} {op : IngestOp}
    (hz : x = none → op.edit.isSome → view (z.object t) = u₀) (h : Tracks z s x) :
    Tracks z (s.apply t op) (touch u₀ x op) := by
  have hM : op.edit.isSome → (x.getD u₀).members = (membersOf (s.object t)).toFinset := by
    intro hset
    rw [← h.view_object fun hx => hz hx hset, members_view]
  cases op with
  | put coll key v => exact Tracks.plain v
  | delete coll key => exact Tracks.empty
  | setAdd coll key m =>
    have hM := hM rfl
    simp only [Slot.apply, touch, hM, List.mem_toFinset]
    split_ifs with hm
    · exact h
    · have hset : insert m (membersOf (s.object t)).toFinset
          = (membersOf (s.object t) ++ [m]).toFinset := by
        ext y; simp
      rw [hset, ← view_ofStrings (by simp)]
      exact Tracks.plain _
  | setRemove coll key m =>
    have hM := hM rfl
    simp only [Slot.apply, touch, hM, List.mem_toFinset]
    set arr := membersOf (s.object t)
    have hkept : (arr.filter fun y => y ≠ m).length = arr.length ↔ m ∉ arr := by
      rw [length_filter_eq_length_iff]
      constructor
      · intro hall hm
        simpa using hall m hm
      · intro hm y hy
        have hym : y ≠ m := fun heq => hm (heq ▸ hy)
        simpa using hym
    have hset : arr.toFinset.erase m = (arr.filter fun y => y ≠ m).toFinset := by
      ext y; simp [and_comm]
    by_cases hm : m ∈ arr
    · rw [if_pos hm, if_neg (fun hlen => hkept.mp hlen hm), hset]
      split_ifs with hnil
      · rw [hnil]
        exact Tracks.empty
      · rw [← view_ofStrings hnil]
        exact Tracks.plain _
    · rw [if_neg hm, if_pos (hkept.mpr hm)]
      exact h

section

variable {St : Type} [IndexStore St] (t : ℕ) (sh : Shard St)

theorem Shard.setAdd_fst (coll key m : String) :
    (sh.setAdd t coll key m).1 = if m ∈ sh.setMembers t coll key then sh
        else sh.writeObject coll key (Value.ofStrings (sh.setMembers t coll key ++ [m])) := by
  unfold setAdd IndexStore.setAdd IndexStore.update Change.setAdd setMembers IndexStore.setMembers
  dsimp only
  split_ifs <;> rfl

theorem Shard.setRemove_fst (coll key m : String) :
    (sh.setRemove t coll key m).1 = let arr := sh.setMembers t coll key
        let kept := arr.filter fun x => x ≠ m
        if kept.length = arr.length then sh else if kept = [] then sh.deleteObject coll key
        else sh.writeObject coll key (Value.ofStrings kept) := by
  unfold setRemove IndexStore.setRemove IndexStore.update Change.setRemove setMembers
    IndexStore.setMembers
  dsimp only
  split_ifs <;> rfl

variable [LawfulCells St]

theorem Shard.slot_exec (op : IngestOp) (c k : String) :
    (op.shardOp.exec t sh).slot c k
      = if c = op.call.coll ∧ k = op.call.key then (sh.slot c k).apply t op else sh.slot c k := by
  cases op with
  | put coll key v => exact sh.slot_writeObject coll key v
  | delete coll key => exact sh.slot_deleteObject coll key
  | setAdd coll key m =>
    change (sh.setAdd t coll key m).1.slot c k = if c = coll ∧ k = key then _ else _
    rw [setAdd_fst]
    split_ifs with hm hck hck
    · obtain ⟨rfl, rfl⟩ := hck
      exact (if_pos hm).symm
    · rfl
    · obtain ⟨rfl, rfl⟩ := hck
      rw [slot_writeObject, if_pos ⟨rfl, rfl⟩]
      exact (if_neg hm).symm
    · rw [slot_writeObject, if_neg hck]
  | setRemove coll key m =>
    change (sh.setRemove t coll key m).1.slot c k = if c = coll ∧ k = key then _ else _
    rw [setRemove_fst]
    dsimp only
    by_cases hck : c = coll ∧ k = key
    · obtain ⟨rfl, rfl⟩ := hck
      rw [if_pos (⟨rfl, rfl⟩ : c = c ∧ k = k)]
      unfold Slot.apply
      dsimp only
      change _ = if (filter _ (sh.setMembers t c k)).length = (sh.setMembers t c k).length
        then _ else if filter _ (sh.setMembers t c k) = [] then _ else _
      split_ifs
      · rfl
      · rw [slot_deleteObject, if_pos ⟨rfl, rfl⟩]
      · rw [slot_writeObject, if_pos ⟨rfl, rfl⟩]
        rfl
    · rw [if_neg hck]
      split_ifs
      · rfl
      · rw [slot_deleteObject, if_neg hck]
      · rw [slot_writeObject, if_neg hck]

/-! ### Runs of operations on the cluster -/

/-- The operation is carried out on the node's copy of the entry. -/
def Hits (cl : Cluster) (net : ℕ → Outcome) (c k : String) (n : NodeId) (op : IngestOp) : Prop :=
  n ∈ takers cl net (cl.owners op.call.key) ∧ c = op.call.coll ∧ k = op.call.key

instance (cl : Cluster) (net : ℕ → Outcome) (c k : String) (n : NodeId) (op : IngestOp) :
    Decidable (Hits cl net c k n op) :=
  inferInstanceAs (Decidable (_ ∧ _))

/-- The operations of a list that the node carries out on the entry. -/
def cellOps (cl : Cluster) (c k : String) (n : NodeId) (ops : List (ℕ × IngestOp)) :
    List IngestOp :=
  (ops.map Prod.snd).filter fun op => Hits cl (fun _ => .ok) c k n op

/-- Between the two times the slot from the start reads the same, if it is still there and the next
operation on it is one on sets. -/
def Steady (l : List IngestOp) (z : Slot) (x : Option View) (lo hi : ℕ) : Prop :=
  x = none → ∀ op ∈ l.head?, op.edit.isSome → ∀ t, lo ≤ t → t ≤ hi → z.object t = z.object lo

variable {c k : String} {n : NodeId} {z : Slot} {x : Option View}

namespace Steady

variable {l pre rest : List IngestOp} {lo hi hi' : ℕ}

theorem mono (h : Steady l z x lo hi) (hhi : hi' ≤ hi) : Steady l z x lo hi' :=
  fun hx op hop hset t hlo ht => h hx op hop hset t hlo (ht.trans hhi)

theorem of_append (h : Steady (pre ++ rest) z x lo hi) : Steady pre z x lo hi := by
  intro hx op hop
  exact h hx op (by rw [head?_append, Option.mem_def.mp hop]; rfl)

/-- While the slot is still there after a first part, that part has set operations only. -/
theorem foldl (h : Steady (pre ++ rest) z x lo hi) :
    Steady rest z (pre.foldl (touch u₀) x) lo hi := by
  intro hnone op hop hset
  obtain ⟨hx, hpre⟩ := foldl_touch_eq_none hnone
  cases pre with
  | nil => exact h hx op hop hset
  | cons op' pre => exact h hx op' rfl (hpre op' (mem_cons_self ..))

theorem restart (h : Steady l z x lo hi) : Steady l z (pre.foldl (touch u₀) x) lo hi :=
  fun hx => h (foldl_touch_eq_none hx).1

end Steady

theorem tracks_execOn (op : IngestOp) (ns : List NodeId) {w : World St}
    (hz : n ∈ ns → c = op.call.coll ∧ k = op.call.key → x = none → op.edit.isSome →
      view (z.object w.now) = u₀)
    (h : Tracks z (w.slot c k n) x) : Tracks z ((w.execOn op.shardOp ns).slot c k n)
      (if n ∈ ns ∧ c = op.call.coll ∧ k = op.call.key then touch u₀ x op else x) := by
  induction ns generalizing w x with
  | nil => exact h
  | cons m ns ih =>
    change Tracks z ((execOn op.shardOp
      (w.setShard m (op.shardOp.exec w.now (w.shards m))) ns).slot c k n) _
    have hrest := fun y => @ih y (w.setShard m (op.shardOp.exec w.now (w.shards m)))
    rw [slot_setShard] at hrest
    by_cases hm : n = m
    · subst hm
      rw [Function.update_self, slot_exec] at hrest
      by_cases hck : c = op.call.coll ∧ k = op.call.key
      · have hu := hz (mem_cons_self ..) hck
        -- the node may be listed again, which changes nothing
        have htwice : touch u₀ (touch u₀ x op) op = touch u₀ x op := restartable_touch u₀ [op] x
        have hstep := hrest (touch u₀ x op) (fun _ _ hx => hu (touch_eq_none hx).1)
          (by rw [if_pos hck]; exact h.apply hu)
        rw [htwice, ite_self] at hstep
        rw [if_pos ⟨mem_cons_self .., hck⟩]
        exact hstep
      · have hstep := hrest x (fun _ hck' => absurd hck' hck) (by rw [if_neg hck]; exact h)
        rw [if_neg fun hh => hck hh.2] at hstep ⊢
        exact hstep
    · rw [Function.update_of_ne hm] at hrest
      have hstep := hrest x (fun hn => hz (mem_cons_of_mem _ hn)) h
      simpa [hm] using hstep

omit [LawfulCells St] in
theorem World.perform_ingest (net : ℕ → Outcome) (w : World St) (op : IngestOp) :
    (w.perform net op.call).1
      = w.execOn op.shardOp (takers w.cluster net (w.cluster.owners op.call.key)) := by
  unfold perform
  rw [visitOwners_broadcast op.call_shardOp, broadcastLoop_eq]

/-- One application, whether it reaches all owners or only some. -/
theorem tracks_perform (net : ℕ → Outcome) {w : World St} {lo hi : ℕ} (ms : ℕ) (o : ℕ × IngestOp)
    (hz : Hits w.cluster net c k n o.2 → Steady [o.2] z x lo hi) (hlo : lo ≤ w.now + ms)
    (hhi : w.now + ms ≤ hi) (h : Tracks z (w.slot c k n) x) :
    Tracks z (({ w with now := w.now + ms }.perform net o.2.call).1.slot c k n)
      (if Hits w.cluster net c k n o.2 then touch (view (z.object lo)) x o.2 else x) := by
  rw [perform_ingest]
  refine tracks_execOn o.2 _ (fun hn hck hx hset => ?_) h
  exact congrArg view (hz ⟨hn, hck⟩ hx o.2 rfl hset _ hlo hhi)

omit [LawfulCells St] in
theorem World.applyAll_cons (w : World St) (ticks : ℕ → ℕ) (o : ℕ × IngestOp)
    (ops : List (ℕ × IngestOp)) : w.applyAll ticks (o :: ops)
      = ({ w with now := w.now + ticks 0 }.perform (fun _ => .ok) o.2.call).1.applyAll
          (fun i => ticks (i + 1)) ops := by
  unfold applyAll runCalls
  rw [mapIdx_cons, foldl_cons]

omit [LawfulCells St] in
/-- Applying operations leaves the cluster as it is, and time does not go back. -/
theorem World.applyAll_frame (ops : List (ℕ × IngestOp)) : ∀ (w : World St) (ticks : ℕ → ℕ),
    (w.applyAll ticks ops).cluster = w.cluster ∧ w.now ≤ (w.applyAll ticks ops).now := by
  induction ops with
  | nil => exact fun w _ => ⟨rfl, le_rfl⟩
  | cons o ops ih =>
    intro w ticks
    rw [applyAll_cons]
    obtain ⟨hcl, hnow⟩ := ih ({ w with now := w.now + ticks 0 }.perform (fun _ => .ok) o.2.call).1
      (fun i => ticks (i + 1))
    rw [perform_ingest] at hcl hnow ⊢
    rw [execOn_cluster] at hcl
    rw [execOn_now] at hnow
    exact ⟨hcl, (Nat.le_add_right _ _).trans hnow⟩

theorem cellOps_append (cl : Cluster) (ops ops' : List (ℕ × IngestOp)) :
    cellOps cl c k n (ops ++ ops') = cellOps cl c k n ops ++ cellOps cl c k n ops' := by
  unfold cellOps
  rw [map_append, filter_append]

theorem cellOps_singleton (cl : Cluster) (o : ℕ × IngestOp) :
    cellOps cl c k n [o] = if Hits cl (fun _ => .ok) c k n o.2 then [o.2] else [] := by
  simp [cellOps, filter_singleton]

/-- A run of operations acts on an entry as the operations that its node carries out on it. -/
theorem tracks_applyAll {lo : ℕ} (ops : List (ℕ × IngestOp)) : ∀ {w : World St} {ticks : ℕ → ℕ}
    {x : Option View}, lo ≤ w.now →
      Steady (cellOps w.cluster c k n ops) z x lo (w.applyAll ticks ops).now →
      Tracks z (w.slot c k n) x → Tracks z ((w.applyAll ticks ops).slot c k n)
        ((cellOps w.cluster c k n ops).foldl (touch (view (z.object lo))) x) := by
  induction ops with
  | nil => exact fun _ _ h => h
  | cons o ops ih =>
    intro w ticks x hlo hz h
    have hfirst := perform_ingest (fun _ => .ok) { w with now := w.now + ticks 0 } o.2
    have hcl : ({ w with now := w.now + ticks 0 }.perform (fun _ => .ok) o.2.call).1.cluster
        = w.cluster := by rw [hfirst, execOn_cluster]
    have hnow : ({ w with now := w.now + ticks 0 }.perform (fun _ => .ok) o.2.call).1.now
        = w.now + ticks 0 := by rw [hfirst, execOn_now]
    rw [applyAll_cons] at hz ⊢
    have hle := (applyAll_frame ops
      ({ w with now := w.now + ticks 0 }.perform (fun _ => .ok) o.2.call).1
      (fun i => ticks (i + 1))).2
    rw [hnow] at hle
    have hsplit : cellOps w.cluster c k n (o :: ops)
        = cellOps w.cluster c k n [o] ++ cellOps w.cluster c k n ops := cellOps_append _ [o] ops
    rw [hsplit] at hz ⊢
    have hfoldl : (if Hits w.cluster (fun _ => .ok) c k n o.2
          then touch (view (z.object lo)) x o.2 else x)
        = (cellOps w.cluster c k n [o]).foldl (touch (view (z.object lo))) x := by
      rw [cellOps_singleton]
      split_ifs <;> rfl
    have hstep := tracks_perform (fun _ => .ok) (ticks 0) o
      (fun hh => by rw [cellOps_singleton, if_pos hh] at hz; exact hz.of_append)
      (hlo.trans (Nat.le_add_right _ _)) hle h
    rw [hfoldl] at hstep
    have hrest := @ih _ (fun i => ticks (i + 1)) _ (by rw [hnow]; omega)
      (by rw [hcl]; exact hz.foldl) hstep
    rw [hcl] at hrest
    rw [foldl_append]
    exact hrest

end

/-! ### What is left in the queue -/

namespace IngestQueue

/-- The operations above the cursor. -/
def pending (codec : Codec) (q : IngestQueue) : List (ℕ × IngestOp) :=
  candidates codec q.disk.queue.entries q.committed

variable (codec : Codec) (limit : ℕ) (q : IngestQueue)

theorem candidates_of_le (es : List (ℕ × String)) {start cursor : ℕ} (h : start ≤ cursor) :
    candidates codec es cursor = (candidates codec es start).filter fun o => cursor < o.1 := by
  unfold candidates
  rw [filter_filterMap]
  refine filterMap_congr fun e _ => ?_
  by_cases hc : cursor < e.1
  · rw [if_pos hc, if_pos (h.trans_lt hc)]
    cases codec.fromText e.2 <;> simp [Option.filter, hc]
  · rw [if_neg hc]
    split_ifs
    · cases codec.fromText e.2 <;> simp [Option.filter, hc]
    · rfl

/-- The cursor at the last operation of a first part leaves the other part. -/
theorem candidates_getLast {codec : Codec} {es : List (ℕ × String)} {start m : ℕ}
    (hes : es.Pairwise fun a b => a.1 < b.1) {o : ℕ × IngestOp}
    (ho : ((candidates codec es start).take m).getLast? = some o) :
    candidates codec es o.1 = (candidates codec es start).drop m := by
  have hmem : o ∈ candidates codec es start := mem_of_mem_take (mem_of_getLast? ho)
  rw [candidates_of_le codec es (mem_candidates.mp hmem).1.le]
  have hsorted := pairwise_candidates codec hes start
  generalize candidates codec es start = l at ho hsorted
  obtain ⟨init, hinit⟩ := getLast?_eq_some_iff.mp ho
  conv_lhs => rw [← take_append_drop m l]
  rw [← take_append_drop m l, hinit] at hsorted
  rw [filter_append, hinit]
  have hfirst : (init ++ [o]).filter (fun o' => o.1 < o'.1) = [] := by
    refine filter_eq_nil_iff.mpr fun o' ho' => ?_
    rcases mem_append.mp ho' with ho' | ho'
    · have := (pairwise_append.mp (pairwise_append.mp hsorted).1).2.2 o' ho' o (by simp)
      simpa using this.le
    · rw [mem_singleton.mp ho']
      simp
  have hrest : (l.drop m).filter (fun o' => o.1 < o'.1) = l.drop m :=
    filter_eq_self.mpr fun o' ho' =>
      decide_eq_true ((pairwise_append.mp hsorted).2.2 o (by simp) o' ho')
  rw [hfirst, hrest, nil_append]

/-- Trimming removes nothing above the cursor. -/
theorem pending_compact : pending codec q.compact.1 = pending codec q := by
  unfold compact
  dsimp only
  split_ifs
  · rfl
  · rfl
  · change candidates codec (q.disk.queue.eraseAll (appliedKeys q.disk q.committed)).entries
      q.committed = _
    unfold pending candidates SortedMap.eraseAll
    rw [filterMap_filter]
    refine filterMap_congr fun e _ => ?_
    by_cases hk : e.1 ∈ appliedKeys q.disk q.committed
    · have hle := (mem_appliedKeys.mp hk).1
      simp [hk, not_lt.mpr hle]
    · simp [hk]

theorem compact_cursor : q.compact.1.disk.committed = q.disk.committed := by
  unfold compact
  dsimp only
  split_ifs <;> rfl

/-- A drain whose sink succeeds moves the cursor to the last operation that it reads. -/
theorem drain_eq :
    (q.drain codec (fun _ => true) limit).1
      = match ((pending codec q).take (max limit 1)).getLast? with
        | some o => (q.persistCommitted o.1).compact.1
        | none => q := by
  have hpending : candidates codec q.disk.queue.entries q.committed = pending codec q := rfl
  rw [drain, readUncommitted_eq, applyLoop_true, hpending]
  dsimp only
  cases hlast : ((pending codec q).take (max limit 1)).getLast? with
  | none => rw [map_none, getD_none, if_neg (lt_irrefl _)]
  | some o =>
    have hmem : o ∈ pending codec q := mem_of_mem_take (mem_of_getLast? hlast)
    rw [map_some, getD_some, if_pos (mem_candidates.mp hmem).1]

/-- The cursor in memory is the one on disk. -/
def Synced (q : IngestQueue) : Prop := q.committed = q.disk.cursor

theorem synced_openQueue (d : IngestDisk) : Synced (openQueue d) := rfl

theorem pending_openQueue {q : IngestQueue} (hq : q.Synced) :
    pending codec (openQueue q.disk) = pending codec q := by
  unfold pending
  rw [hq]
  rfl

theorem synced_drain {codec : Codec} {q : IngestQueue} (hq : q.Synced) :
    (q.drain codec (fun _ => true) limit).1.Synced := by
  rw [drain_eq]
  split
  · rw [Synced, compact_committed, IngestDisk.cursor, compact_cursor]
    rfl
  · exact hq

/-- A drain takes its operations off the front. -/
theorem pending_drain :
    pending codec (q.drain codec (fun _ => true) limit).1
      = (pending codec q).drop (max limit 1) := by
  rw [drain_eq]
  split
  · rename_i o ho
    rw [pending_compact]
    exact candidates_getLast q.disk.queue.sorted ho
  · rename_i hnone
    rw [getLast?_eq_none_iff, take_eq_nil_iff] at hnone
    rcases hnone with h0 | hnil
    · omega
    · rw [hnil, drop_nil]

/-- So does one that stops between its two transactions. -/
theorem pending_persisted {q : IngestQueue} (hq : q.Synced) :
    pending codec (openQueue { q.disk with
        committed := (q.drain codec (fun _ => true) limit).1.disk.committed })
      = (pending codec q).drop (max limit 1) := by
  rw [← pending_drain, drain_eq]
  cases hlast : ((pending codec q).take (max limit 1)).getLast? with
  | none => exact pending_openQueue codec hq
  | some o =>
    dsimp only
    rw [pending_compact, compact_cursor]
    rfl

end IngestQueue

/-! ### Replays of the queue -/

section

variable {St : Type} [IndexStore St] [LawfulCells St] {codec : Codec}
variable {c k : String} {n : NodeId} {z : Slot} {x : Option View}

variable {lo : ℕ} {w : World St} (r : DrainRun) (rs : List DrainRun) (net : ℕ → Outcome)

omit [LawfulCells St] in
/-- Draining leaves the cluster as it is, and time does not go back. -/
theorem World.drainRun_frame (w : World St) (q : IngestQueue) :
    (w.drainRun codec r q).1.cluster = w.cluster ∧ w.now ≤ (w.drainRun codec r q).1.now := by
  unfold drainRun
  dsimp only
  split
  · exact applyAll_frame _ _ _
  · rename_i done net _
    have hall := applyAll_frame
      ((readUncommitted codec q.disk q.committed r.limit).take done) w r.ticks
    unfold applyLast
    split
    · rw [perform_ingest, execOn_cluster, execOn_now]
      exact ⟨hall.1, hall.2.trans (Nat.le_add_right _ _)⟩
    · exact hall
  · exact applyAll_frame _ _ _

/-- What the operation that a stop cuts short does to the entry. -/
theorem tracks_applyLast (ms : ℕ) (o : Option (ℕ × IngestOp)) (hlo : lo ≤ w.now)
    (hz : Steady (cellOps w.cluster c k n o.toList) z x lo (w.applyLast ms net o).now)
    (h : Tracks z (w.slot c k n) x) : ∃ pre, pre <+: cellOps w.cluster c k n o.toList ∧
      Tracks z ((w.applyLast ms net o).slot c k n) (pre.foldl (touch (view (z.object lo))) x) := by
  cases o with
  | none => exact ⟨[], nil_prefix, h⟩
  | some o =>
    have hnow : (w.applyLast ms net (some o)).now = w.now + ms := by
      rw [applyLast, perform_ingest, execOn_now]
    rw [hnow] at hz
    -- an owner that takes the cut call takes a whole one
    have hcell : Hits w.cluster net c k n o.2 → cellOps w.cluster c k n [o] = [o.2] := by
      rintro ⟨hn, hck⟩
      obtain ⟨i, hi, hskip, -⟩ := mem_takers.mp hn
      rw [cellOps_singleton, if_pos ⟨mem_takers.mpr ⟨i, hi, hskip, rfl⟩, hck⟩]
    have hstep := tracks_perform net ms o (fun hh => hcell hh ▸ hz)
      (hlo.trans (Nat.le_add_right _ _)) le_rfl h
    by_cases hh : Hits w.cluster net c k n o.2
    · rw [if_pos hh] at hstep
      exact ⟨[o.2], by rw [toList_some, hcell hh], hstep⟩
    · rw [if_neg hh] at hstep
      exact ⟨[], nil_prefix, hstep⟩

omit [LawfulCells St] in
theorem World.now_le_applyLast (w : World St) (ms : ℕ) (o : Option (ℕ × IngestOp)) :
    w.now ≤ (w.applyLast ms net o).now := by
  cases o with
  | none => exact le_rfl
  | some o =>
    rw [applyLast, perform_ingest, execOn_now]
    exact Nat.le_add_right _ _

/-- A stop leaves the entry after a first part of the operations that its node was to carry out. -/
theorem tracks_stopped (ops : List (ℕ × IngestOp)) (ticks : ℕ → ℕ) (done : ℕ) (net : ℕ → Outcome)
    (hlo : lo ≤ w.now) (hz : Steady (cellOps w.cluster c k n ops) z x lo
      ((w.applyAll ticks (ops.take done)).applyLast (ticks done) net ops[done]?).now)
    (h : Tracks z (w.slot c k n) x) : ∃ pre, pre <+: cellOps w.cluster c k n ops ∧
      Tracks z (((w.applyAll ticks (ops.take done)).applyLast (ticks done) net ops[done]?).slot
        c k n) (pre.foldl (touch (view (z.object lo))) x) := by
  -- the operations before the stop, the one that it cuts short, and the others
  have hcut : ops = ops.take done ++ (ops[done]?.toList ++ ops.drop (done + 1)) := by
    conv_lhs => rw [← take_append_drop done ops]
    rw [drop_eq_getElem?_toList_append]
  have hcells : cellOps w.cluster c k n ops = cellOps w.cluster c k n (ops.take done)
      ++ (cellOps w.cluster c k n ops[done]?.toList
        ++ cellOps w.cluster c k n (ops.drop (done + 1))) := by
    conv_lhs => rw [hcut, cellOps_append, cellOps_append]
  rw [hcells] at hz
  obtain ⟨hcl, hnow⟩ := applyAll_frame (ops.take done) w ticks
  have hfirst := tracks_applyAll (ops.take done) hlo (hz.of_append.mono (now_le_applyLast ..)) h
  obtain ⟨pre, hpre, htracks⟩ := tracks_applyLast net (ticks done) ops[done]? (hlo.trans hnow)
    (hcl ▸ hz.foldl.of_append) hfirst
  rw [hcl] at hpre
  refine ⟨cellOps w.cluster c k n (ops.take done) ++ pre, ?_, ?_⟩
  · rw [hcells]
    exact prefix_append_right_inj _ |>.mpr (hpre.trans (prefix_append _ _))
  · rw [foldl_append]
    exact htracks

/-- A drain runs a first part of the operations that the entry waits for; it takes that part off the
queue or leaves the queue as it was. -/
theorem tracks_drainRun {q : IngestQueue} (hq : q.Synced) (hlo : lo ≤ w.now)
    (hz : Steady (cellOps w.cluster c k n (pending codec q)) z x lo (w.drainRun codec r q).1.now)
    (h : Tracks z (w.slot c k n) x) :
    (w.drainRun codec r q).2.Synced ∧
    ∃ pre rest, cellOps w.cluster c k n (pending codec q) = pre ++ rest ∧
      Tracks z ((w.drainRun codec r q).1.slot c k n) (pre.foldl (touch (view (z.object lo))) x) ∧
      (cellOps w.cluster c k n (pending codec (w.drainRun codec r q).2) = rest ∨
        pending codec (w.drainRun codec r q).2 = pending codec q) := by
  have hops : readUncommitted codec q.disk q.committed r.limit
      = (pending codec q).take (max r.limit 1) := readUncommitted_eq ..
  have hsplit : cellOps w.cluster c k n (pending codec q)
      = cellOps w.cluster c k n ((pending codec q).take (max r.limit 1))
        ++ cellOps w.cluster c k n ((pending codec q).drop (max r.limit 1)) := by
    rw [← cellOps_append, take_append_drop]
  have hz := hsplit ▸ hz
  unfold drainRun at hz ⊢
  dsimp only at hz ⊢
  rw [hops] at hz ⊢
  cases hend : r.ending with
  | returned =>
    rw [hend] at hz
    dsimp only at hz ⊢
    rw [pending_drain]
    exact ⟨synced_drain r.limit hq, _, _, hsplit, tracks_applyAll _ hlo hz.of_append h, .inl rfl⟩
  | stopped done net =>
    rw [hend] at hz
    dsimp only at hz ⊢
    rw [pending_openQueue codec hq]
    obtain ⟨pre, ⟨post, hpost⟩, htracks⟩ := tracks_stopped _ r.ticks done net hlo hz.of_append h
    rw [← hpost, append_assoc] at hsplit
    exact ⟨synced_openQueue _, pre, _, hsplit, htracks, .inr rfl⟩
  | persisted trimmed =>
    rw [hend] at hz
    dsimp only at hz ⊢
    have hleft : pending codec (openQueue (if trimmed = true
          then (q.drain codec (fun _ => true) r.limit).1.disk
          else { q.disk with
            committed := (q.drain codec (fun _ => true) r.limit).1.disk.committed }))
        = (pending codec q).drop (max r.limit 1) := by
      split_ifs
      · rw [pending_openQueue codec (synced_drain r.limit hq), pending_drain]
      · exact pending_persisted codec r.limit hq
    rw [hleft]
    exact ⟨synced_openQueue _, _, _, hsplit, tracks_applyAll _ hlo hz.of_append h, .inl rfl⟩

omit [LawfulCells St] in
theorem World.now_le_drainRuns : ∀ (w : World St) (q : IngestQueue),
    w.now ≤ (w.drainRuns codec q rs).1.now := by
  induction rs with
  | nil => exact fun _ _ => le_rfl
  | cons r rs ih => exact fun w q => (drainRun_frame r w q).2.trans (ih _ _)

/-- Drains that commit everything replay the operations of each entry. -/
theorem replays_drainRuns : ∀ {w : World St} {q : IngestQueue}
    {x : Option View}, q.Synced → lo ≤ w.now →
      Steady (cellOps w.cluster c k n (pending codec q)) z x lo (w.drainRuns codec q rs).1.now →
      pending codec (w.drainRuns codec q rs).2 = [] → Tracks z (w.slot c k n) x →
      ∃ x', Replays (touch (view (z.object lo))) (cellOps w.cluster c k n (pending codec q)) x x' ∧
        Tracks z ((w.drainRuns codec q rs).1.slot c k n) x' := by
  induction rs with
  | nil =>
    intro w q x _ _ _ hdone h
    change pending codec q = [] at hdone
    rw [hdone]
    exact ⟨x, Replays.done x, h⟩
  | cons r rs ih =>
    intro w q x hq hlo hz hdone h
    change pending codec (drainRuns codec (w.drainRun codec r q).1
      (w.drainRun codec r q).2 rs).2 = [] at hdone
    change Steady _ z x lo (drainRuns codec (w.drainRun codec r q).1
      (w.drainRun codec r q).2 rs).1.now at hz
    have hcl : (w.drainRun codec r q).1.cluster = w.cluster := (drainRun_frame r w q).1
    have hnow : w.now ≤ (w.drainRun codec r q).1.now := (drainRun_frame r w q).2
    obtain ⟨hq', pre, rest, hcell, htracks, hleft⟩ := tracks_drainRun r hq hlo
      (hz.mono (now_le_drainRuns rs _ _)) h
    rw [hcell] at hz ⊢
    -- the part that has run is behind the cursor, or everything is still to be run
    rcases hleft with hrest | hall
    · obtain ⟨x', hreplays, hx'⟩ := ih hq' (hlo.trans hnow)
        (by rw [hcl, hrest]; exact hz.foldl) hdone htracks
      rw [hcl, hrest] at hreplays
      exact ⟨x', Replays.commit hreplays, hx'⟩
    · obtain ⟨x', hreplays, hx'⟩ := ih hq' (hlo.trans hnow)
        (by rw [hcl, hall, hcell]; exact hz.restart) hdone htracks
      rw [hcl, hall, hcell] at hreplays
      exact ⟨x', Replays.restart hreplays, hx'⟩

/-- The first of the operations that names the entry. -/
def firstNaming (ops : List (ℕ × IngestOp)) (c k : String) : Option IngestOp :=
  (ops.map Prod.snd).find? fun op => c = op.call.coll ∧ k = op.call.key

/-- The owners of an entry carry out the operations that name it, from the first one on. -/
theorem head?_cellOps {cl : Cluster} {ops : List (ℕ × IngestOp)} {op : IngestOp}
    (h : op ∈ (cellOps cl c k n ops).head?) : n ∈ cl.owners k ∧ firstNaming ops c k = some op := by
  rw [Option.mem_def, cellOps, head?_filter] at h
  have hhit := find?_some h
  obtain ⟨hn, -, hk⟩ := of_decide_eq_true hhit
  rw [← hk] at hn
  refine ⟨(takers_sublist ..).subset hn, ?_⟩
  rw [← h, firstNaming, ← head?_filter, ← head?_filter]
  refine congrArg head? (filter_congr fun op' _ => decide_eq_decide.mpr ?_)
  refine ⟨fun hck => ⟨?_, hck⟩, fun hh => hh.2⟩
  rw [← hck.2]
  exact hn

/-- **At least once is exactly once, as long as no set runs out of its ttl.**  Drains that may stop
anywhere, and that commit every operation in the end, leave each node what one pass over the operations
leaves it, unless an entry that a set operation is the first to name expires on an owner in the
meantime. -/
theorem replay_eq_once (codec : Codec) (w : World St) (q : IngestQueue)
    (hq : q.committed = q.disk.cursor) (rs : List DrainRun)
    (hdone : pending codec (w.drainRuns codec q rs).2 = [])
    (hsteady : ∀ coll key op, firstNaming (pending codec q) coll key = some op → op.edit.isSome →
      ∀ n ∈ w.cluster.owners key, ∀ t, w.now ≤ t → t ≤ (w.drainRuns codec q rs).1.now →
        (w.shards n).object t coll key = (w.shards n).object w.now coll key)
    (ticks : ℕ → ℕ)
    (hticks : (w.applyAll ticks (pending codec q)).now ≤ (w.drainRuns codec q rs).1.now) :
    ∀ c k n, Slot.Same ((w.drainRuns codec q rs).1.slot c k n)
      ((w.applyAll ticks (pending codec q)).slot c k n) := by
  intro c k n
  have hz : Steady (cellOps w.cluster c k n (pending codec q)) (w.slot c k n) none w.now
      (w.drainRuns codec q rs).1.now := by
    intro _ op hop hset
    obtain ⟨hn, hfirst⟩ := head?_cellOps hop
    exact hsteady c k op hfirst hset n hn
  have hstart : Tracks (w.slot c k n) (w.slot c k n) none := rfl
  obtain ⟨x', hreplays, hx'⟩ := replays_drainRuns rs hq le_rfl hz hdone hstart
  have honce := tracks_applyAll (pending codec q) le_rfl (hz.mono hticks) hstart
  rw [hreplays.eq_foldl (restartable_touch _)] at hx'
  exact hx'.same honce

end

/-! ### Two sets that expire between two passes -/

/-- The JSON text of a queued set operation. -/
def addText (k m : String) : String :=
  "\x7b\"kind\":\"setAdd\",\"coll\":\"kv\",\"key\":\"" ++ k ++ "\",\"member\":\"" ++ m ++ "\"\x7d"

/-- The JSON codec on the operations of `twoAdds`. -/
def addCodec : Codec where
  toText
    | .setAdd _ k m => addText k m
    | _ => ""
  fromText t := [("y", "a"), ("x", "b")].findSome? fun e =>
    if t = addText e.1 e.2 then some (.setAdd "kv" e.1 e.2) else none

/-- A queue that has accepted two operations. -/
def twoAdds : IngestQueue :=
  (((openQueue ⟨SortedMap.empty, none⟩).enqueue addCodec (.setAdd "kv" "y" "a")).1.enqueue addCodec
    (.setAdd "kv" "x" "b")).1

/-- One node; the sets `x` and `y` hold `a` until time 100, and it is 50. -/
def expiringSets : World MemoryStore :=
  let z := (MemoryStore.new.putObjectAt "kv" "x" (Value.ofStrings ["a"]) 100).putObjectAt "kv" "y"
    (Value.ofStrings ["a"]) 100
  ⟨Cluster.new ["n"] 1 ["kv"], fun n => ⟨n, z⟩, 50⟩

theorem object_expiringSets {k : String} (hk : k = "x" ∨ k = "y") (t : ℕ) :
    (expiringSets.slot "kv" k "n").object t
      = if 100 ≤ t then none else some (Value.ofStrings ["a"]) := by
  have hexp : ((expiringSets.shards "n").store.expiry.get "kv" k) = some 100 := by
    rcases hk with rfl | rfl <;> decide +kernel
  have hobj : ((expiringSets.shards "n").store.objects.get "kv" k)
      = some (Value.ofStrings ["a"]) := by
    rcases hk with rfl | rfl <;> decide +kernel
  change MemoryStore.getObject t (expiringSets.shards "n").store "kv" k = _
  unfold MemoryStore.getObject MemoryStore.isExpired
  rw [hexp, hobj]
  simp

/-- The process stops before the cursor is persisted, and the queue is drained again 30 later: both
sets are still there. -/
theorem replay_eq_once_twoAdds :
    let r := expiringSets.drainRuns addCodec twoAdds
      [⟨1024, fun _ => 0, .stopped 2 fun _ => .ok⟩, ⟨1024, fun i => if i = 0 then 30 else 0, .returned⟩]
    pending addCodec r.2 = [] ∧ r.1.now = 80 ∧ ∀ c k n, Slot.Same (r.1.slot c k n)
      ((expiringSets.applyAll (fun _ => 0) (pending addCodec twoAdds)).slot c k n) := by
  have hops : pending addCodec twoAdds
      = [(1, .setAdd "kv" "y" "a"), (2, .setAdd "kv" "x" "b")] := by decide +kernel
  refine ⟨by decide +kernel, by decide +kernel,
    replay_eq_once addCodec expiringSets twoAdds (by decide +kernel) _ (by decide +kernel) ?_
      (fun _ => 0) (by decide +kernel)⟩
  have hnow : (expiringSets.drainRuns addCodec twoAdds [⟨1024, fun _ => 0, .stopped 2 fun _ => .ok⟩,
        ⟨1024, fun i => if i = 0 then 30 else 0, .returned⟩]).1.now = 80 := by decide +kernel
  rw [hops, hnow]
  intro coll key op hfirst _ n _ t _ ht
  have hread : ∀ k, k = "x" ∨ k = "y" → (expiringSets.shards n).object t "kv" k
      = (expiringSets.shards n).object 50 "kv" k := by
    intro k hk
    have hsame := object_expiringSets hk
    exact ((hsame t).trans (if_neg (by omega))).trans ((hsame 50).trans (if_neg (by omega))).symm
  have hnames := find?_some hfirst
  obtain ⟨rfl, rfl⟩ := of_decide_eq_true hnames
  rcases mem_cons.mp (mem_of_find?_eq_some hfirst) with rfl | hop
  · exact hread "y" (Or.inr rfl)
  · rw [mem_singleton.mp hop]
    exact hread "x" (Or.inl rfl)

/-- The process stops before the cursor is persisted, and the queue is drained again 100 later. -/
def drainedTwice : World MemoryStore × IngestQueue := expiringSets.drainRuns addCodec twoAdds
    [⟨1024, fun _ => 0, .stopped 2 fun _ => .ok⟩, ⟨1024, fun i => if i = 0 then 100 else 0, .returned⟩]

theorem slot_perform_single {w : World MemoryStore} (hw : w.cluster = Cluster.new ["n"] 1 ["kv"])
    (k key m : String) (hkey : key = "x" ∨ key = "y") :
    (w.perform (fun _ => .ok) (IngestOp.setAdd "kv" key m).call).1.slot "kv" k "n"
      = if k = key then (w.slot "kv" k "n").apply w.now (.setAdd "kv" key m)
        else w.slot "kv" k "n" := by
  have htakers : takers w.cluster (fun _ => .ok) (w.cluster.owners key) = ["n"] := by
    rw [hw]
    rcases hkey with rfl | rfl <;> decide +kernel
  rw [perform_ingest]
  change (execOn _ w (takers w.cluster _ (w.cluster.owners key))).slot "kv" k "n" = _
  rw [htakers]
  change (w.setShard "n" _).slot "kv" k "n" = _
  rw [slot_setShard, Function.update_self, slot_exec]
  exact if_congr (and_iff_right rfl) rfl rfl

/-- Two passes leave `x` with both members and `y` without an expiry.  A single pass cannot: its first
operation writes `y` only after time 100, and its second one then finds `x` gone. -/
theorem replay_differs_across_expiry :
    twoAdds.committed = twoAdds.disk.cursor ∧ pending addCodec drainedTwice.2 = [] ∧
    ∀ ticks, ¬∀ c k n, Slot.Same (drainedTwice.1.slot c k n)
      ((expiringSets.applyAll ticks (pending addCodec twoAdds)).slot c k n) := by
  refine ⟨by decide +kernel, by decide +kernel, fun ticks hsame => ?_⟩
  have hops : pending addCodec twoAdds
      = [(1, .setAdd "kv" "y" "a"), (2, .setAdd "kv" "x" "b")] := by decide +kernel
  have hfinal : (drainedTwice.1.slot "kv" "y" "n").expiry = none ∧
      view ((drainedTwice.1.slot "kv" "x" "n").object 150) = .set {"a", "b"} := by decide +kernel
  rw [hops] at hsame
  -- the two operations of the single pass, one after the other
  set w₁ := ({ expiringSets with now := 50 + ticks 0 }.perform (fun _ => .ok)
    (IngestOp.setAdd "kv" "y" "a").call).1 with hw₁
  have hcl : w₁.cluster = Cluster.new ["n"] 1 ["kv"] := by
    rw [hw₁, World.perform_ingest, World.execOn_cluster]
    rfl
  have hnow : w₁.now = 50 + ticks 0 := by rw [hw₁, World.perform_ingest, World.execOn_now]
  have hfirst : ∀ k, w₁.slot "kv" k "n" = if k = "y" then
      (expiringSets.slot "kv" k "n").apply (50 + ticks 0) (.setAdd "kv" "y" "a")
      else expiringSets.slot "kv" k "n" := fun k => slot_perform_single rfl k "y" "a" (Or.inr rfl)
  have hsecond : ∀ k, (expiringSets.applyAll ticks
      [(1, .setAdd "kv" "y" "a"), (2, .setAdd "kv" "x" "b")]).slot "kv" k "n" = if k = "x" then
      (w₁.slot "kv" k "n").apply (50 + ticks 0 + ticks 1) (.setAdd "kv" "x" "b")
      else w₁.slot "kv" k "n" := by
    intro k
    have hstep := slot_perform_single (w := { w₁ with now := w₁.now + ticks 1 }) hcl k "x" "b"
      (Or.inl rfl)
    rw [hnow] at hstep
    exact hstep
  by_cases ht : 100 ≤ 50 + ticks 0
  · have hgone : (expiringSets.slot "kv" "x" "n").object (50 + ticks 0 + ticks 1) = none := by
      rw [object_expiringSets (Or.inl rfl), if_pos (by omega)]
    have hx := (hsame "kv" "x" "n").2 150
    rw [hfinal.2, hsecond, if_pos rfl, hfirst, if_neg (by decide)] at hx
    unfold Slot.apply at hx
    dsimp only at hx
    rw [hgone] at hx
    exact absurd hx (by decide +kernel)
  · have hthere : (expiringSets.slot "kv" "y" "n").object (50 + ticks 0)
        = some (Value.ofStrings ["a"]) := by
      rw [object_expiringSets (Or.inr rfl), if_neg ht]
    have hy := (hsame "kv" "y" "n").1
    rw [hfinal.1, hsecond, if_neg (by decide), hfirst, if_pos rfl] at hy
    unfold Slot.apply at hy
    dsimp only at hy
    rw [hthere] at hy
    exact absurd hy (by decide +kernel)

end Stplr
