import Stplr.Equiv.Sink
import Stplr.Equiv.Slots
import Mathlib.Data.List.TakeWhile

/-!
# Queued writes against direct writes

`POST /write` and `POST /enqueue` take the same body.  The operation that is queued has no time to live,
so a value that was to expire stays for good.  `routes_alike_iff`: on a healthy cluster both routes leave
every slot of every shard the same, up to the time between them, iff the body has no time to live and
its value is read back from the queue as it is.
-/

namespace Stplr

open Lib IngestQueue World

namespace Slot

/-- An entry that expires. -/
def timed (v : Value) (e : ℕ) : Slot := ⟨fun t => if e ≤ t then none else some v, some e⟩

/-- The slots have the same value, and the second one expires `ms` later, if they expire. -/
inductive Shifted (ms : ℕ) : Slot → Slot → Prop
  | same (s : Slot) : Shifted ms s s
  | timed (v : Value) (e : ℕ) : Shifted ms (timed v e) (timed v ((e + ms) % 2 ^ 64))

theorem Shifted.eq_of_expiry {ms : ℕ} {s s' : Slot} (h : Shifted ms s s') (hs : s'.expiry = none) :
    s = s' := by
  cases h with
  | same => rfl
  | timed v e => cases hs

end Slot

/-- Every key has owners, and they are up, have clients and differ. -/
structure World.Healthy {St : Type} (w : World St) : Prop where
  allUp : AllUp w.cluster
  owned : ∀ key, w.cluster.owners key ≠ []

variable {St : Type} [IndexStore St]

/-- `POST /enqueue`, and `ms` later a drain into the cluster during which no call fails. -/
def World.enqueueAndDrain (codec : Codec) (limit ms : ℕ) (w : World St) (q : IngestQueue)
    (b : WriteBody) : World St :=
  ({ w with now := w.now + ms }.drainTo codec (fun _ => ⟨w.cluster.down, fun _ => .ok⟩) limit
    (q.enqueue codec b.op).1).1

theorem Shard.slot_writeObjectTtl [LawfulExpiry St] (sh : Shard St) (now : ℕ) (c k : String)
    (v : Value) (ttl : ℕ) : (sh.writeObjectTtl now c k v ttl).slot c k
      = if ttl = 0 then .plain v else .timed v ((now + ttl) % 2 ^ 64) := by
  unfold Shard.writeObjectTtl
  split_ifs with hzero
  · rw [Shard.slot_writeObject, if_pos ⟨rfl, rfl⟩]
  · refine Slot.ext (funext fun t => ?_) ?_
    · exact LawfulExpiry.getObject_putObjectAt ..
    · exact LawfulExpiry.expiryOf_putObjectAt ..

variable {w : World St} {q : IngestQueue} {codec : Codec}

/-- A direct write is executed by all owners; the duration `0` stands for none. -/
theorem World.shards_write (h : w.Healthy) (b : WriteBody) (n : NodeId) :
    (w.write (fun _ => .ok) b).shards n = if n ∈ w.cluster.owners b.key then
          (w.shards n).writeObjectTtl w.now b.coll b.key b.obj (b.ttlMs.getD 0)
        else w.shards n := by
  have hput : ∀ op : ShardOp, (broadcastLoop op (fun _ => .ok) w (w.cluster.owners b.key)).shards n
        = if n ∈ w.cluster.owners b.key then op.exec w.now (w.shards n) else w.shards n := by
    intro op
    rw [broadcastLoop_eq, takers_ok (h.allUp.up b.key), shards_execOn op (h.allUp.nodup b.key)]
  have hplain : (w.perform (fun _ => .ok) ⟨b.coll, b.key, .put b.obj⟩).1.shards n
      = if n ∈ w.cluster.owners b.key then (w.shards n).writeObjectTtl w.now b.coll b.key b.obj 0
        else w.shards n := hput (.writeObject b.coll b.key b.obj)
  rw [write]
  cases b.ttlMs with
  | none => exact hplain
  | some ttl =>
    dsimp only [Option.getD_some]
    split_ifs with hpos hn hn
    · exact (hput _).trans (if_pos hn)
    · exact (hput _).trans (if_neg hn)
    · rw [Nat.eq_zero_of_not_pos hpos]
      exact hplain.trans (if_pos hn)
    · exact hplain.trans (if_neg hn)

/-- The operation that a drain reads right after the accepted one, if it reads no other. -/
theorem readUncommitted_enqueue {limit : ℕ} {op op' : IngestOp}
    (hread : codec.fromText (codec.toText op) = some op')
    (happlied : ((q.enqueue codec op).1.drain codec (fun _ => true) limit).2.map Prod.fst = [q.next])
    : readUncommitted codec (q.enqueue codec op).1.disk (q.enqueue codec op).1.committed limit
      = [(q.next, op')] := by
  rw [drain_snd, ← readUncommitted_eq, List.takeWhile_eq_self_iff.mpr fun _ _ => rfl] at happlied
  obtain ⟨o, ho, hseq⟩ := List.map_eq_singleton_iff.mp happlied
  have hcand : o ∈ candidates codec (q.enqueue codec op).1.disk.queue.entries
      (q.enqueue codec op).1.committed := by
    refine List.mem_of_mem_take (i := max limit 1) ?_
    rw [← readUncommitted_eq, ho]
    exact List.mem_singleton_self o
  obtain ⟨-, text, hstored, htext⟩ := mem_candidates.mp hcand
  rw [hseq] at hstored
  obtain heq | ⟨hne, -⟩ := SortedMap.mem_put.mp hstored
  · rw [(Prod.mk.inj heq).2, hread] at htext
    rw [ho, ← hseq, Option.some.inj htext]
  · exact absurd rfl hne

/-- The drain executes the operation that it reads. -/
theorem World.shards_enqueueAndDrain {limit ms : ℕ} {b : WriteBody} {v : Value} (h : w.Healthy)
    (hread : codec.fromText (codec.toText b.op) = some (.put b.coll b.key v))
    (happlied : ((q.enqueue codec b.op).1.drain codec (fun _ => true) limit).2.map Prod.fst
      = [q.next]) (n : NodeId) :
    (w.enqueueAndDrain codec limit ms q b).shards n
      = if n ∈ w.cluster.owners b.key then (w.shards n).writeObject b.coll b.key v
        else w.shards n := by
  set w' : World St := { w with now := w.now + ms }
  set faults : ℕ → Faults := fun _ => ⟨w.cluster.down, fun _ => .ok⟩
  have hops := readUncommitted_enqueue hread happlied
  have hdrain : w.enqueueAndDrain codec limit ms q b
      = (w'.apply (faults q.next) (.put b.coll b.key v)).1 := by
    rw [enqueueAndDrain, drainTo, hops]
    rfl
  have howners : executors faults w' q.next (.put b.coll b.key v) = w.cluster.owners b.key :=
    takers_ok (h.allUp.up b.key)
  rw [hdrain, apply_eq faults, howners, shards_execOn _ (h.allUp.nodup b.key)]
  rfl

/-- **When the two routes mean the same.** -/
theorem routes_alike_iff [LawfulExpiry St] (codec : Codec) (limit ms : ℕ) (w : World St)
    (q : IngestQueue) (b : WriteBody) {v : Value} (h : w.Healthy)
    (hread : codec.fromText (codec.toText b.op) = some (.put b.coll b.key v))
    (happlied : ((q.enqueue codec b.op).1.drain codec (fun _ => true) limit).2.map Prod.fst
      = [q.next]) :
    (∀ n c k, Slot.Shifted ms ((w.write (fun _ => .ok) b).slot c k n)
      ((w.enqueueAndDrain codec limit ms q b).slot c k n)) ↔
    b.ttlMs.getD 0 = 0 ∧ v = b.obj := by
  have hqueued : ∀ {n} c k, n ∈ w.cluster.owners b.key →
      (w.enqueueAndDrain codec limit ms q b).slot c k n
        = ((w.shards n).writeObject b.coll b.key v).slot c k := by
    intro n c k hn
    rw [World.slot, World.shards_enqueueAndDrain h hread happlied, if_pos hn]
  have hdirect : ∀ {n} c k, n ∈ w.cluster.owners b.key → (w.write (fun _ => .ok) b).slot c k n
      = ((w.shards n).writeObjectTtl w.now b.coll b.key b.obj (b.ttlMs.getD 0)).slot c k := by
    intro n c k hn
    rw [World.slot, World.shards_write h, if_pos hn]
  constructor
  · intro hshifted
    obtain ⟨n, hn⟩ := List.exists_mem_of_ne_nil _ (h.owned b.key)
    have heq := hshifted n b.coll b.key
    rw [hqueued _ _ hn, hdirect _ _ hn, Shard.slot_writeObject, if_pos ⟨rfl, rfl⟩,
      Shard.slot_writeObjectTtl] at heq
    replace heq := heq.eq_of_expiry rfl
    split_ifs at heq with hzero
    · have hobj := congrFun (congrArg Slot.object heq) 0
      exact ⟨hzero, (Option.some.inj hobj).symm⟩
    · cases congrArg Slot.expiry heq
  · rintro ⟨hzero, rfl⟩ n c k
    by_cases hn : n ∈ w.cluster.owners b.key
    · rw [hqueued c k hn, hdirect c k hn, hzero]
      exact .same _
    · have hsame : (w.write (fun _ => .ok) b).shards n
          = (w.enqueueAndDrain codec limit ms q b).shards n := by
        rw [World.shards_write h, World.shards_enqueueAndDrain h hread happlied, if_neg hn, if_neg hn]
      rw [World.slot, World.slot, hsame]
      exact .same _

omit [IndexStore St] in
theorem healthy_new {ids : List NodeId} (hids : ids.Nodup) (hne : ids ≠ []) (R : ℕ)
    (colls : List String) (topology : Topology) (shards : NodeId → Shard St) (now : ℕ) :
    World.Healthy ⟨(Cluster.new ids R colls).setTopology topology, shards, now⟩ where
  allUp := allUp_new R colls topology hids
  owned key hnil := by
    have hlen := (owners_new R colls topology hids key).2.2
    have hpos := List.length_pos_iff.mpr hne
    rw [hnil, List.length_nil] at hlen
    omega

/-- Two members that both own every key, and hold nothing. -/
def emptyPair : World MemoryStore :=
  ⟨(Cluster.new ["a", "b"] 2 ["kv"]).setTopology ∅, fun n => ⟨n, MemoryStore.new⟩, 0⟩

/-- A put of `a`, as the unit tests of the queue have it. -/
def sampleBody (ttlMs : Option ℕ) : WriteBody := ⟨"kv", "a", .str "a", ttlMs⟩

def emptyQueue : IngestQueue := openQueue ⟨SortedMap.empty, none⟩

theorem routes_alike_sample : Slot.Shifted 20
    ((emptyPair.write (fun _ => .ok) (sampleBody (some 0))).slot "kv" "a" "a")
    ((emptyPair.enqueueAndDrain IngestState.sampleCodec 1024 20 emptyQueue
      (sampleBody (some 0))).slot "kv" "a" "a") :=
  (routes_alike_iff IngestState.sampleCodec 1024 20 emptyPair emptyQueue (sampleBody (some 0))
    (healthy_new (by decide) (by decide) ..) (by decide) (by decide)).mpr ⟨rfl, rfl⟩ "a" "kv" "a"

/-- A value that is to live for a second: written directly it expires at time 1000, queued it stays. -/
theorem queued_ttl_lost :
    ((emptyPair.write (fun _ => .ok) (sampleBody (some 1000))).shards "a").expiryAt "kv" "a"
      = some 1000 ∧
    ((emptyPair.enqueueAndDrain IngestState.sampleCodec 1024 20 emptyQueue
      (sampleBody (some 1000))).shards "a").expiryAt "kv" "a" = none ∧
    ((emptyPair.write (fun _ => .ok) (sampleBody (some 1000))).shards "a").object 2000 "kv" "a"
      = none ∧
    ((emptyPair.enqueueAndDrain IngestState.sampleCodec 1024 20 emptyQueue
      (sampleBody (some 1000))).shards "a").object 2000 "kv" "a" = some (.str "a") := by
  decide +kernel

end Stplr
