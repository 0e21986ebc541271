import Stplr.Batch
import Stplr.Equiv.BatchRead
import Stplr.Equiv.Partial

/-!
# Batch calls against single calls

An `mget` has one chance per key: the first owner that is not marked down (`World.mget_eq`).  A `get`
goes on to the next owner when there is no client or the call fails (`World.getAmong_eq`).  They agree
when that first owner answers, or when there is nothing to be found (`mget_eq_gets_iff`).

A bulk load writes a key's last value to its owners on the ring (`World.slot_bulkLoad`), the puts
write it to the owners that the overlay names (`World.slot_puts`).  `bulkLoad_eq_puts_iff` says when
that leaves the same contents.
-/

namespace Stplr

open Lib List World

variable {St : Type} [IndexStore St]

/-! ### A `get` on shards of which some fail -/

theorem laterCalls_failingNet (failing : Finset NodeId) (n : NodeId) (owners : List NodeId) :
    laterCalls (failingNet failing (n :: owners)) = failingNet failing owners := rfl

namespace World

variable (w : World St) (failing : Finset NodeId) (coll : String)

/-- A call to the node is made and answered. -/
def Answers (n : NodeId) : Prop := ¬w.cluster.skips n ∧ n ∉ failing

instance (n : NodeId) : Decidable (w.Answers failing n) := inferInstanceAs (Decidable (_ ∧ _))

variable {keys : List String} {order : List (NodeId × List Wanted)} (key : String)
  (gs : List (NodeId × List Wanted))

theorem getLoop_failingNet (owners : List NodeId) :
    w.getLoop coll key (failingNet failing owners) owners
      = (owners.find? (w.Answers failing ·)).bind (w.cell coll key) := by
  induction owners with
  | nil => rfl
  | cons n owners ih =>
    have hnet : failingNet failing (n :: owners) 0 ≠ .ok ↔ n ∈ failing := by
      by_cases hn : n ∈ failing <;> simp [failingNet, hn]
    rw [getLoop, laterCalls_failingNet, ih]
    by_cases h : w.Answers failing n
    · have hgo : ¬(w.cluster.skips n ∨ failingNet failing (n :: owners) 0 ≠ .ok) := by
        rw [hnet]
        exact not_or.mpr h
      rw [if_neg hgo, find?_cons_of_pos (by simpa using h)]
      rfl
    · have hgo : w.cluster.skips n ∨ failingNet failing (n :: owners) 0 ≠ .ok := by
        rw [hnet]
        by_contra hc
        exact h (not_or.mp hc)
      rw [if_pos hgo, find?_cons_of_neg (by simpa using h)]

theorem getAmong_eq : w.getAmong failing coll key
    = ((w.cluster.owners key).find? (w.Answers failing ·)).bind (w.cell coll key) :=
  w.getLoop_failingNet failing coll key _

/-! ### What an `mget` puts at a position -/

/-- What is found under `key` at the first owner that is not marked down. -/
def firstLive (key : String) : Option Value := (w.cluster.liveOwner key).bind fun n =>
    if n ∈ w.cluster.clients ∧ n ∉ failing then w.cell coll key n else none

/-- A node that is asked leaves the values of its keys. -/
theorem fill_mget (n : NodeId) (wanted : List Wanted) (out : List (Option Value)) :
    Mget.fill out wanted ((w.shards n).mget w.now coll (wanted.map Prod.fst))
      = wanted.foldl (fun out x => out.set x.2 (w.cell coll x.1 n)) out := by
  rw [← Mget.fill_map]
  exact congrArg (Mget.fill out wanted) (map_map ..)

theorem length_mgetLoop : ∀ out : List (Option Value),
    (w.mgetLoop failing coll gs out).length = out.length := by
  induction gs with
  | nil => exact fun _ => rfl
  | cons g gs ih =>
    intro out
    rw [mgetLoop, ih]
    split_ifs
    · rw [fill_mget, Mget.length_foldl_set]
    · rfl

/-- A position ends up with the value that all the nodes that answer for it give, or it keeps what it
had. -/
theorem getElem?_mgetLoop {i : ℕ} {a : Option Value} :
    ∀ {out : List (Option Value)}, i < out.length →
      (∀ n x, (n, x) ∈ MgetPc.ungroup gs → x.2 = i → n ∈ w.cluster.clients ∧ n ∉ failing →
        w.cell coll x.1 n = a) →
      ((∃ n x, (n, x) ∈ MgetPc.ungroup gs ∧ x.2 = i ∧ n ∈ w.cluster.clients ∧ n ∉ failing) ∨
        out[i]? = some a) →
      (w.mgetLoop failing coll gs out)[i]? = some a := by
  induction gs with
  | nil =>
    intro out _ _ h
    rcases h with ⟨n, x, hx, -⟩ | h
    · exact absurd hx not_mem_nil
    · exact h
  | cons g gs ih =>
    intro out hi hall h
    have hcons : ∀ n x, (n, x) ∈ MgetPc.ungroup (g :: gs) ↔
        (n = g.1 ∧ x ∈ g.2) ∨ (n, x) ∈ MgetPc.ungroup gs := by
      intro n x
      simp only [MgetPc.ungroup, flatMap_cons, mem_append, mem_map, Prod.mk.injEq]
      refine or_congr_left ⟨?_, fun hx => ⟨x, hx.2, hx.1.symm, rfl⟩⟩
      rintro ⟨y, hy, rfl, rfl⟩
      exact ⟨rfl, hy⟩
    have hall' := fun n x hx => hall n x ((hcons n x).mpr (.inr hx))
    rw [mgetLoop]
    split_ifs with hg
    · rw [fill_mget]
      refine ih (by rwa [Mget.length_foldl_set]) hall' ?_
      by_cases hlater : ∃ n x, (n, x) ∈ MgetPc.ungroup gs ∧ x.2 = i ∧
          n ∈ w.cluster.clients ∧ n ∉ failing
      · exact .inl hlater
      · refine .inr (Mget.getElem?_foldl_set _ hi
          (fun x hx hxi => hall g.1 x ((hcons _ _).mpr (.inl ⟨rfl, hx⟩)) hxi hg) ?_)
        refine h.imp_left ?_
        rintro ⟨n, x, hx, hxi, hn⟩
        rcases (hcons n x).mp hx with ⟨-, hx⟩ | hx
        · exact ⟨x, hx, hxi⟩
        · exact absurd ⟨n, x, hx, hxi, hn⟩ hlater
    · refine ih hi hall' (h.imp_left ?_)
      rintro ⟨n, x, hx, hxi, hn⟩
      rcases (hcons n x).mp hx with ⟨rfl, -⟩ | hx
      · exact absurd hn hg
      · exact ⟨n, x, hx, hxi, hn⟩

omit [IndexStore St] in
theorem mem_routedKeys {n : NodeId} {x : Wanted} :
    (n, x) ∈ w.routedKeys keys ↔ keys[x.2]? = some x.1 ∧ w.cluster.liveOwner x.1 = some n := by
  simp only [routedKeys, mem_filterMap, Option.map_eq_some_iff, Prod.mk.injEq]
  constructor
  · rintro ⟨y, hy, m, hm, rfl, rfl⟩
    exact ⟨mem_zipIdx_iff_getElem?.mp hy, hm⟩
  · rintro ⟨hx, hn⟩
    exact ⟨x, mem_zipIdx_iff_getElem?.mpr hx, n, hn, rfl, rfl⟩

variable {w failing coll}

omit [IndexStore St] in
theorem mem_ungroup_order (horder : order.Perm (w.byNode keys)) {e : NodeId × Wanted} :
    e ∈ MgetPc.ungroup order ↔ e ∈ w.routedKeys keys :=
  (horder.flatMap_right _).mem_iff.trans MgetPc.mem_ungroup_group

/-- In whatever order the nodes are asked, each position holds what the first live owner of its key
gives. -/
theorem mget_eq (horder : order.Perm (w.byNode keys)) :
    w.mget failing coll keys order = keys.map (w.firstLive failing coll) := by
  have hlen : (w.mget failing coll keys order).length = keys.length := by
    rw [mget, length_mgetLoop, length_replicate]
  refine ext_getElem? fun i => ?_
  by_cases hi : i < keys.length
  · obtain ⟨k, hk⟩ : ∃ k, keys[i]? = some k := ⟨_, getElem?_eq_getElem hi⟩
    rw [getElem?_map, hk, Option.map_some]
    refine w.getElem?_mgetLoop failing coll order (by rwa [length_replicate]) ?_ ?_
    · rintro n ⟨k', j⟩ hx rfl hn
      obtain ⟨hk', hlive⟩ := w.mem_routedKeys.mp ((mem_ungroup_order horder).mp hx)
      obtain rfl := Option.some.inj (hk.symm.trans hk')
      rw [firstLive, hlive, Option.bind_some, if_pos hn]
    · by_cases hasked : ∃ n, w.cluster.liveOwner k = some n ∧ n ∈ w.cluster.clients ∧ n ∉ failing
      · obtain ⟨n, hlive, hn⟩ := hasked
        exact .inl ⟨n, (k, i), (mem_ungroup_order horder).mpr (w.mem_routedKeys.mpr ⟨hk, hlive⟩),
          rfl, hn⟩
      · have hnone : w.firstLive failing coll k = none := by
          rw [firstLive, Option.bind_eq_none_iff]
          exact fun n hlive => if_neg fun hn => hasked ⟨n, hlive, hn⟩
        rw [hnone, getElem?_replicate, if_pos hi]
        exact .inr rfl
  · rw [getElem?_eq_none (by omega), getElem?_eq_none (by rw [length_map]; omega)]

/-- The first live owner is the one whose answer a `get` takes, unless its call cannot be made or
fails. -/
theorem firstLive_eq_getAmong_iff {key : String} :
    w.firstLive failing coll key = w.getAmong failing coll key ↔
      (∀ n, (w.cluster.owners key).find? (w.Answers failing ·) = some n →
        w.cell coll key n = none) ∨
        ∀ n, w.cluster.liveOwner key = some n → n ∈ w.cluster.clients ∧ n ∉ failing := by
  rw [← Option.bind_eq_none_iff, getAmong_eq]
  cases hlive : w.cluster.liveOwner key with
  | none =>
    have hnone : (w.cluster.owners key).find? (w.Answers failing ·) = none := by
      rw [find?_eq_none]
      intro n hn hans
      have hdown : ¬decide (n ∉ w.cluster.down) = true := find?_eq_none.mp hlive n hn
      exact hdown (decide_eq_true fun hd => (of_decide_eq_true hans).1 (.inl hd))
    simp [firstLive, hlive, hnone]
  | some n =>
    by_cases hn : n ∈ w.cluster.clients ∧ n ∉ failing
    · have hans : (w.cluster.owners key).find? (w.Answers failing ·) = some n := by
        obtain ⟨hup, l, l', howners, hl⟩ := find?_eq_some_iff_append.mp hlive
        refine find?_eq_some_iff_append.mpr ⟨?_, l, l', howners, fun m hm => ?_⟩
        · refine decide_eq_true ⟨?_, hn.2⟩
          rintro (hd | hc)
          · exact of_decide_eq_true hup hd
          · exact hc hn.1
        · have hd : m ∈ w.cluster.down := by simpa using hl m hm
          rw [Bool.not_eq_true', decide_eq_false_iff_not]
          exact fun hans => hans.1 (.inl hd)
      simp [firstLive, hlive, hans, hn]
    · simp [firstLive, hlive, hn, eq_comm]

end World

/-- **Batch get and single gets.**  Some shards return errors and some are marked down.  An `mget`
returns as many values as there are keys, and these are what single gets return iff for each key the
first owner that answers holds nothing, or the first one that is not marked down answers. -/
theorem mget_eq_gets_iff {w : World St} {failing : Finset NodeId} {coll : String}
    {keys : List String} {order : List (NodeId × List Wanted)}
    (horder : order.Perm (w.byNode keys)) :
    (w.mget failing coll keys order).length = keys.length ∧
    (w.mget failing coll keys order = keys.map (w.getAmong failing coll) ↔
      ∀ k ∈ keys, (∀ n, (w.cluster.owners k).find? (w.Answers failing ·) = some n →
        w.cell coll k n = none) ∨
        ∀ n, w.cluster.liveOwner k = some n → n ∈ w.cluster.clients ∧ n ∉ failing) := by
  rw [World.mget_eq horder]
  refine ⟨length_map .., map_inj_left.trans ?_⟩
  exact forall₂_congr fun k _ => World.firstLive_eq_getAmong_iff

/-- Both owners of `x` hold `1`. -/
def heldTwice : World MemoryStore := (twoOwners.perform (fun _ => .ok) ⟨"kv", "x", .put (.int 1)⟩).1

/-- A key that is asked for twice, one that is not there, and a failure of the second owner. -/
theorem mget_eq_gets_heldTwice :
    heldTwice.getAmong {"a"} "kv" "x" = some (.int 1) ∧
    heldTwice.mget {"a"} "kv" ["x", "y", "x"] (heldTwice.byNode ["x", "y", "x"])
      = ["x", "y", "x"].map (heldTwice.getAmong {"a"} "kv") :=
  ⟨by decide +kernel, (mget_eq_gets_iff (List.Perm.refl _)).2.mpr (by decide +kernel)⟩

/-- The first owner of `x` fails: a `get` finds the value at the second one, an `mget` does not. -/
theorem mget_misses_replica : heldTwice.cluster.down = ∅ ∧
    heldTwice.mget {"b"} "kv" ["x"] (heldTwice.byNode ["x"]) = [none] ∧
    heldTwice.getAmong {"b"} "kv" "x" = some (.int 1) :=
  ⟨by decide, by decide +kernel, by decide +kernel⟩

/-! ### What a bulk load leaves -/

namespace Slot

variable (k : String)

/-- Copies of one entry. -/
theorem importAll_same {e : String × Value} {es : List (String × Value)} (h : ∀ x ∈ es, x = e)
    (s : Slot) : s.importAll k es = if k = e.1 ∧ e ∈ es then plain e.2 else s := by
  induction es generalizing s with
  | nil => simp [importAll]
  | cons x es ih =>
    obtain rfl := h x (mem_cons_self ..)
    change importAll k es (if k = x.1 then plain x.2 else s) = _
    rw [ih fun y hy => h y (mem_cons_of_mem _ hy)]
    by_cases hk : k = x.1 <;> simp [hk]

/-- A node imports, of the entries under its keys, all. -/
theorem importAll_valuesOf (owners : String → List NodeId) (n : NodeId) (k : String)
    (entries : List (String × Value)) : ∀ s : Slot,
    s.importAll k (SortedMap.valuesOf (entries.flatMap fun e => (owners e.1).map fun m => (m, e)) n)
      = if n ∈ owners k then s.importAll k entries else s := by
  induction entries with
  | nil => exact fun s => (ite_self s).symm
  | cons e entries ih =>
    intro s
    have happend : SortedMap.valuesOf
        ((e :: entries).flatMap fun e => (owners e.1).map fun m => (m, e)) n
          = SortedMap.valuesOf ((owners e.1).map fun m => (m, e)) n ++ SortedMap.valuesOf
            (entries.flatMap fun e => (owners e.1).map fun m => (m, e)) n := by
      rw [SortedMap.valuesOf, flatMap_cons, filter_append, map_append]
      rfl
    have hmem : ∀ x, x ∈ SortedMap.valuesOf ((owners e.1).map fun m => (m, e)) n ↔
        n ∈ owners e.1 ∧ x = e := by
      intro x
      rw [SortedMap.mem_valuesOf, mem_map]
      constructor
      · rintro ⟨m, hm, heq⟩
        obtain ⟨rfl, rfl⟩ := Prod.mk.inj heq
        exact ⟨hm, rfl⟩
      · rintro ⟨hn, rfl⟩
        exact ⟨n, hn, rfl⟩
    rw [happend, importAll, foldl_append]
    change importAll k _ (importAll k _ s) = _
    rw [importAll_same k (fun x hx => ((hmem x).mp hx).2), ih]
    simp only [hmem, and_true]
    change _ = if n ∈ owners k then importAll k entries (if k = e.1 then plain e.2 else s) else s
    by_cases hk : k = e.1
    · subst hk
      by_cases hn : n ∈ owners e.1 <;> simp [hn]
    · simp [hk]

/-- An import leaves the last value. -/
theorem importAll_eq_last (es : List (String × Value)) (s : Slot) :
    s.importAll k es = s.imported (es.reverse.lookup k) := by
  induction es using reverseRecOn with
  | nil => rfl
  | append_singleton es e ih =>
    rw [importAll, foldl_append, reverse_append]
    change (if k = e.1 then plain e.2 else importAll k es s) = _
    obtain ⟨k', v⟩ := e
    rw [ih, reverse_singleton, singleton_append, lookup_cons]
    by_cases hk : k = k'
    · subst hk
      rw [if_pos rfl, BEq.rfl]
      rfl
    · rw [if_neg hk, beq_eq_false_iff_ne.mpr hk]

end Slot

namespace World

variable (coll : String) (per : SortedMap NodeId (List (String × Value)))

theorem bulkLoop_cons (w : World St) (n : NodeId) (ns : List NodeId) : bulkLoop coll per w (n :: ns)
      = bulkLoop coll per
          (w.setShard n ((w.shards n).importEntries coll ((per.find? n).getD []))) ns := by
  rw [bulkLoop]
  cases per.find? n with
  | some es => rfl
  | none =>
    have hsame : w.setShard n (w.shards n) = w := by
      rw [setShard, Function.update_eq_self]
    change bulkLoop coll per w ns = bulkLoop coll per (w.setShard n (w.shards n)) ns
    rw [hsame]

variable [LawfulCells St]

theorem slot_bulkLoop {ns : List NodeId} (hnd : ns.Nodup) (c k : String) (n : NodeId) :
    ∀ w : World St,
    (bulkLoop coll per w ns).slot c k n
      = if n ∈ ns ∧ c = coll then (w.slot c k n).importAll k ((per.find? n).getD [])
        else w.slot c k n := by
  induction ns with
  | nil => exact fun _ => rfl
  | cons m ns ih =>
    intro w
    obtain ⟨hm, hnd⟩ := nodup_cons.mp hnd
    rw [bulkLoop_cons, ih hnd, slot_setShard, Shard.slot_importEntries]
    by_cases hn : n = m
    · subst hn
      simp only [Function.update_self, hm, false_and, if_false, mem_cons_self, true_and]
      rfl
    · simp only [Function.update_of_ne hn, mem_cons, hn, false_or]

/-- The owners on the ring that have a client import the entries of their keys. -/
theorem slot_bulkLoad {w : World St} {order : List NodeId} (hnd : order.Nodup)
    (horder : order.toFinset = w.cluster.clients) (coll : String)
    (entries : List (String × Value)) (c k : String) (n : NodeId) :
    (w.bulkLoad coll entries order).slot c k n
      = if c = coll ∧ n ∈ w.cluster.clients ∧ n ∈ w.cluster.ringOwners k then
          (w.slot c k n).importAll k entries
        else w.slot c k n := by
  rw [bulkLoad, slot_bulkLoop coll _ hnd, Cluster.perNode, SortedMap.getD_find?_group,
    Slot.importAll_valuesOf w.cluster.ringOwners]
  have hn : n ∈ order ↔ n ∈ w.cluster.clients := by rw [← horder, mem_toFinset]
  split_ifs <;> first | rfl | (exfalso; tauto)

theorem slot_execOn_put (key : String) (v : Value) (ns : List NodeId) (c k : String) (n : NodeId) :
    ∀ w : World St, (w.execOn (.writeObject coll key v) ns).slot c k n
      = if n ∈ ns ∧ c = coll ∧ k = key then .plain v else w.slot c k n := by
  induction ns with
  | nil => exact fun _ => rfl
  | cons m ns ih =>
    intro w
    change (execOn _ (w.setShard m ((w.shards m).writeObject coll key v)) ns).slot c k n = _
    rw [ih, slot_setShard, Shard.slot_writeObject]
    by_cases hn : n = m
    · subst hn
      simp only [Function.update_self, mem_cons_self, true_and]
      split_ifs <;> first | rfl | (exfalso; tauto)
    · simp only [Function.update_of_ne hn, mem_cons, hn, false_or]

/-- The puts of entries, one after the other, reach the owners that have a client and are not marked
down. -/
theorem slot_puts (entries : List (String × Value)) (c k : String) (n : NodeId) :
    ∀ {calls : List (ℕ × Call)} {w : World St},
      calls.map Prod.snd = entries.map (fun e => ⟨coll, e.1, .put e.2⟩) →
      (w.runCalls calls).slot c k n = if c = coll ∧ ¬w.cluster.skips n ∧ n ∈ w.cluster.owners k then
            (w.slot c k n).importAll k entries
          else w.slot c k n := by
  induction entries with
  | nil =>
    intro calls w h
    obtain rfl := map_eq_nil_iff.mp h
    exact (ite_self _).symm
  | cons e entries ih =>
    intro calls w h
    obtain ⟨⟨ms, call⟩, calls, rfl, hcall, hcalls⟩ := map_eq_cons_iff.mp h
    obtain rfl : call = ⟨coll, e.1, .put e.2⟩ := hcall
    obtain ⟨w', hw'⟩ : ∃ w', w' = ({ w with now := w.now + ms }.perform (fun _ => .ok)
        ⟨coll, e.1, .put e.2⟩).1 := ⟨_, rfl⟩
    have hput : w' = { w with now := w.now + ms }.execOn (.writeObject coll e.1 e.2)
        (takers w.cluster (fun _ => .ok) (w.cluster.owners e.1)) :=
      hw'.trans (broadcastLoop_eq ..)
    have hcluster : w'.cluster = w.cluster := by rw [hput, execOn_cluster]
    have htake : n ∈ takers w.cluster (fun _ => .ok) (w.cluster.owners e.1) ↔
        ¬w.cluster.skips n ∧ n ∈ w.cluster.owners e.1 := by
      rw [mem_takers, mem_iff_getElem?]
      simp [Outcome.effective, and_comm]
    have hslot : w'.slot c k n
        = if (¬w.cluster.skips n ∧ n ∈ w.cluster.owners e.1) ∧ c = coll ∧ k = e.1 then .plain e.2
          else w.slot c k n := by
      rw [hput, slot_execOn_put]
      simp only [htake]
      rfl
    have hrun : w.runCalls ((ms, ⟨coll, e.1, .put e.2⟩) :: calls) = w'.runCalls calls := by
      rw [hw']
      rfl
    rw [hrun, ih hcalls, hcluster, hslot]
    change _ = if _ then (if k = e.1 then Slot.plain e.2 else w.slot c k n).importAll k entries else _
    by_cases hk : k = e.1
    · subst hk
      split_ifs <;> first | rfl | (exfalso; tauto)
    · simp only [hk, and_false, if_false]

end World

/-- **A bulk load and the puts of its entries.**  The clients are iterated in some order, and the puts
are made one after the other at any times.  They leave the same contents iff, for each key that is
loaded, the clients that own it on the ring are those that it is routed to and that are not marked
down, or hold the value to be loaded anyway. -/
theorem bulkLoad_eq_puts_iff [LawfulCells St] {w : World St} {coll : String}
    {entries : List (String × Value)} {order : List NodeId} {puts : List (ℕ × Call)}
    (hnd : order.Nodup) (horder : order.toFinset = w.cluster.clients)
    (hputs : puts.map Prod.snd = entries.map fun e => ⟨coll, e.1, .put e.2⟩) :
    (w.bulkLoad coll entries order).slot = (w.runCalls puts).slot ↔
      ∀ k v, entries.reverse.lookup k = some v → ∀ n ∈ w.cluster.clients,
        (n ∈ w.cluster.ringOwners k ↔ n ∈ w.cluster.owners k ∧ n ∉ w.cluster.down) ∨
          w.slot coll k n = .plain v := by
  have hskip : ∀ n ∈ w.cluster.clients, (¬w.cluster.skips n ↔ n ∉ w.cluster.down) := by
    intro n hn
    simp [Cluster.skips, hn]
  constructor
  · intro h k v hv n hn
    have hslot := congrFun (congrFun (congrFun h coll) k) n
    rw [World.slot_bulkLoad hnd horder, World.slot_puts coll entries coll k n hputs,
      Slot.importAll_eq_last, hv] at hslot
    simp only [hskip n hn, hn, true_and] at hslot
    by_cases hring : n ∈ w.cluster.ringOwners k <;>
      by_cases howns : n ∈ w.cluster.owners k ∧ n ∉ w.cluster.down
    · exact Or.inl (iff_of_true hring howns)
    · rw [if_pos hring, if_neg fun hs => howns hs.symm] at hslot
      exact Or.inr hslot.symm
    · rw [if_neg hring, if_pos howns.symm] at hslot
      exact Or.inr hslot
    · exact Or.inl (iff_of_false hring howns)
  · intro h
    funext c k n
    rw [World.slot_bulkLoad hnd horder, World.slot_puts coll entries c k n hputs,
      Slot.importAll_eq_last]
    by_cases hc : c = coll
    · subst hc
      by_cases hn : n ∈ w.cluster.clients
      · simp only [hskip n hn, hn, true_and]
        cases hv : entries.reverse.lookup k with
        | none => rw [show (w.slot c k n).imported none = w.slot c k n from rfl, ite_self, ite_self]
        | some v =>
          rcases h k v hv n hn with hiff | hheld
          · simp only [hiff, and_comm]
          · rw [hheld]
            exact (ite_self _).trans (ite_self _).symm
      · have hskips : w.cluster.skips n := Or.inr hn
        rw [if_neg fun hr => hn hr.2.1, if_neg fun hr => hr.2.1 hskips]
    · rw [if_neg fun hr => hc hr.1, if_neg fun hr => hc hr.1]

/-- No overlay, and a key that is loaded twice. -/
theorem bulkLoad_eq_puts_twoOwners :
    (twoOwners.bulkLoad "kv" [("x", .int 1), ("y", .int 2), ("x", .int 3)] ["a", "b"]).slot
      = (twoOwners.runCalls [(0, ⟨"kv", "x", .put (.int 1)⟩), (5, ⟨"kv", "y", .put (.int 2)⟩),
          (5, ⟨"kv", "x", .put (.int 3)⟩)]).slot := by
  have howners : ∀ k, twoOwners.cluster.owners k = twoOwners.cluster.ringOwners k := by
    intro k
    rw [Cluster.owners, Cluster.overlayOwners_eq_none.mpr rfl, Option.getD_none]
  refine (bulkLoad_eq_puts_iff (by decide) (by decide) rfl).mpr fun k v _ n _ => Or.inl ?_
  rw [howners]
  exact ⟨fun h => ⟨h, Finset.notMem_empty n⟩, And.left⟩

/-- A rebalance from `a` to `b` has stopped after it moved the bucket of `fhc`.  A put is routed to `b`,
a bulk load to `a`: `b` still answers with the old value. -/
theorem bulkLoad_passes_overlay :
    let w := rebalancePartial (fun _ => .ok) firstBucket ["b"] 1
    firstBucket.cluster.Sound ∧ w.cluster.down = ∅ ∧ w.cluster.clients = {"a", "b"} ∧
    w.cluster.owners "fhc" = ["b"] ∧
    ((w.bulkLoad "kv" [("fhc", .int 2)] ["a", "b"]).slot "kv" "fhc" "b").object w.now
      = some (.int 1) ∧
    ((w.runCalls [(0, ⟨"kv", "fhc", .put (.int 2)⟩)]).slot "kv" "fhc" "b").object w.now
      = some (.int 2) := by
  intro w
  have hdiff : ¬sameMembers firstBucket.cluster.memberIds ["b"] := by decide
  obtain ⟨-, hdown, hroute, -, -⟩ := (Reshape.rebalancePartial ["b"] 1).run_spec (c := "kv")
    (k := "fhc") sound_firstBucket.toStaffed (by decide) (by decide) hdiff (by decide)
  have hcell := (Reshape.rebalancePartial ["b"] 1).cell_run (c := "kv") (k := "fhc")
    sound_firstBucket.toStaffed (by decide) (by decide) hdiff (by decide)
  obtain ⟨hbase, -⟩ := (Reshape.rebalancePartial ["b"] 1).run_of_stopped hdiff
    (Nat.not_le.mpr one_lt_chunksTo_firstBucket)
  have howners := (hroute cutsOver_firstBucket).1
  replace hcell := hcell.trans (if_pos cutsOver_firstBucket)
  obtain ⟨w₁, hw₁⟩ : ∃ w₁, w₁ = (Reshape.rebalancePartial ["b"] 1).run firstBucket := ⟨_, rfl⟩
  have hw : w = w₁ := hw₁.symm
  rw [← hw₁] at hdown hbase howners hcell
  rw [hw]
  have hcl : w₁.cluster.clients = {"a", "b"} := (congrArg Cluster.clients hbase).trans (by decide)
  have hring : w₁.cluster.ringOwners "fhc" = ["a"] :=
    (congrArg (fun c : Cluster => c.ringOwners "fhc") hbase).trans (by decide +kernel)
  have hb : (w₁.slot "kv" "fhc" "b").object w₁.now = some (.int 1) :=
    (congrFun hcell "b").trans (by decide +kernel)
  have howners' : w₁.cluster.owners "fhc" = ["b"] := howners.trans (by decide +kernel)
  refine ⟨sound_firstBucket, hdown, hcl, howners', ?_, ?_⟩
  · rw [World.slot_bulkLoad (by decide) (by rw [hcl]; rfl), hring,
      if_neg fun h => absurd h.2.2 (by decide), hb]
  · have htaken : ¬w₁.cluster.skips "b" := by
      rw [Cluster.skips, hdown, hcl]
      decide
    rw [World.slot_puts "kv" [("fhc", .int 2)] _ _ _ rfl, howners',
      if_pos ⟨rfl, htaken, mem_singleton.mpr rfl⟩]
    rfl

end Stplr
