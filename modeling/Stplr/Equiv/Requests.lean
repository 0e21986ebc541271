import Stplr.Equiv.Json
import Stplr.Equiv.Sweep
import Stplr.Requests

/-!
# Requests against a durable shard

Within the limits of LMDB a durable shard answers requests like the store without handles (`Sim.inbound`),
so no call panics (`no_panic_of_within`), and its clients do not notice restarts
(`restarts_unobservable`).  Outside these limits one request is enough (`request_panics`).
-/

namespace Stplr

open Lib Option

variable {codec : JsonCodec}

/-! ### A durable shard -/

namespace Inbound

/-- Every call that it makes is within the limits of LMDB, and on a collection in `C`. -/
def Within (codec : JsonCodec) (C : Finset String) (m : Inbound) : Prop :=
  (m.calls codec).All fun c => c.InLimits ∧ ∀ coll ∈ c.colls, coll ∈ C

/-- What happens to the store without handles, which survives restarts. -/
def onText {T : Type} [Text T] (codec : JsonCodec) (now : ℕ) (t : TextStore T) :
    Inbound → TextStore T × Option Reply
  | .sweep => (⟨(t.mem.sweepExpired now).1⟩, none)
  | .restart => (t, none)
  | m => (m.calls codec).run (fun t c => c.onText now t) t

end Inbound

open LmdbStore

namespace LmdbStore

variable {T : Type} [Text T] {C : Finset String} {s : LmdbStore T} {t : TextStore T}

/-- A durable shard does what the store without handles does. -/
theorem Sim.inbound (h : Sim C s t) (now : ℕ) {m : Inbound} (hm : m.Within codec C) :
    ∃ s', m.onLmdb codec now s = some (s', (m.onText codec now t).2) ∧
      Sim C s' (m.onText codec now t).1 := by
  have hrun := Prog.run?_of_sim (f := fun s c => c.onLmdb now s) (g := fun t c => c.onText now t)
    (R := fun (s : LmdbStore T) t => Sim C s t) (fun s t c hR hc => hR.onShard now hc.1 hc.2) hm h
  cases m with
  | sweep => exact ⟨_, rfl, (h.sweepExpired now).1⟩
  | restart => exact ⟨_, rfl, h.reopen⟩
  | http | binary | resp => exact hrun

theorem Sim.handleAll {ms : List (ℕ × Inbound)} : ∀ {s : LmdbStore T} {t : TextStore T}, Sim C s t →
    (∀ m ∈ ms, m.2.Within codec C) → ∃ s', s.handleAll codec ms = some s' := by
  induction ms with
  | nil => exact fun {s} _ _ _ => ⟨s, rfl⟩
  | cons m ms ih =>
    intro s t h hms
    obtain ⟨s₁, hs₁, hsim⟩ := h.inbound m.1 (hms m (List.mem_cons_self ..))
    obtain ⟨s₂, hs₂⟩ := ih hsim fun m' hm' => hms m' (List.mem_cons_of_mem _ hm')
    refine ⟨s₂, ?_⟩
    rw [LmdbStore.handleAll, List.foldlM_cons, hs₁]
    exact hs₂

end LmdbStore

/-- **No request panics within the limits**: a durable shard serves every list of requests, sweeps and
restarts, if every key that a request may write is one that LMDB takes, with and without its
collection, no collection has a NUL in its name, and there are fewer collections than handles. -/
theorem no_panic_of_within {T : Type} [Text T] (codec : JsonCodec)
    {C : Finset String} (hroom : C.card < maxDbs) {ms : List (ℕ × Inbound)}
    (hms : ∀ m ∈ ms, m.2.Within codec C) :
    ∃ s, (LmdbStore.new : LmdbStore T).handleAll codec ms = some s :=
  (Sim.new hroom).handleAll hms

/-- A `POST /write` of `1`. -/
def writeOf (coll key : String) : Request :=
  ⟨.post, "/write", none, true, ⟨64, some (.obj [("coll", .str coll), ("key", .str key),
    ("obj", .int 1)])⟩⟩

/-- One request of each protocol, and a sweep. -/
def oneOfEach : List (ℕ × Inbound) :=
  [(0, .http (writeOf "kv" "k")), (1, .resp (utf8Bytes "SET") [utf8Bytes "k", utf8Bytes "v"]),
    (2, .binary Proto.opSadd
      (Proto.Frame.sadd (utf8Bytes "sets") (utf8Bytes "k") (utf8Bytes "m")).bytes.tail),
    (3, .sweep)]

theorem no_panic_oneOfEach :
    ∃ s, (LmdbStore.new : LmdbStore Value).handleAll sampleJson oneOfEach = some s := by
  have hhttp : (Inbound.http (writeOf "kv" "k")).Within sampleJson {"kv", "sets"} :=
    ⟨by decide, fun _ => trivial⟩
  have hresp : (Inbound.resp (utf8Bytes "SET") [utf8Bytes "k", utf8Bytes "v"]).Within sampleJson
      {"kv", "sets"} := ⟨by decide, fun _ => trivial⟩
  have hbinary : (Inbound.binary Proto.opSadd
      (Proto.Frame.sadd (utf8Bytes "sets") (utf8Bytes "k") (utf8Bytes "m")).bytes.tail).Within
        sampleJson {"kv", "sets"} := ⟨by decide, fun _ => trivial⟩
  refine no_panic_of_within sampleJson (C := {"kv", "sets"}) (by decide) fun m hm => ?_
  simp only [oneOfEach, List.mem_cons, List.not_mem_nil, or_false] at hm
  rcases hm with rfl | rfl | rfl | rfl
  · exact hhttp
  · exact hresp
  · exact hbinary
  · trivial

/-- An empty key, a collection with a NUL in its name, and a key of 512 bytes. -/
theorem request_panics :
    let serve := (LmdbStore.new : LmdbStore Value).handleAll sampleJson
    serve [(0, .resp (utf8Bytes "SET") [[], utf8Bytes "v"])] = none ∧
    serve [(0, .http (writeOf "a\x00b" "k"))] = none ∧
    serve [(0, .http (writeOf "kv" (String.ofList (List.replicate 512 'k'))))] = none := by
  refine ⟨rfl, rfl, ?_⟩
  decide +kernel

/-! ### Restarts -/

/-- **Restarts are not observable**: within the limits of LMDB a durable shard serves all requests, and
replies to them as it does without the restarts. -/
theorem restarts_unobservable (T : Type) [Text T] (codec : JsonCodec) {C : Finset String}
    (hroom : C.card < maxDbs) {ms : List (ℕ × Inbound)} (hms : ∀ m ∈ ms, m.2.Within codec C) :
    let replies (ms : List (ℕ × Inbound)) :=
      (answers? (fun (s : LmdbStore T) m => m.2.onLmdb codec m.1 s) .new ms).map List.reduceOption
    (replies ms).isSome ∧ replies (ms.filter fun m => !m.2.isRestart) = replies ms := by
  have hanswers : ∀ ms : List (ℕ × Inbound), (∀ m ∈ ms, m.2.Within codec C) →
      answers? (fun (s : LmdbStore T) m => m.2.onLmdb codec m.1 s) .new ms
        = some (answers (fun t m => m.2.onText codec m.1 t) ⟨MemoryStore.new⟩ ms) := fun ms hms =>
    answers?_of_sim (R := Sim C) (A := fun m : ℕ × Inbound => m.2.Within codec C)
      (fun _ _ m h hm => h.inbound m.1 hm) (Sim.new hroom) hms
  have hkept := hanswers (ms.filter fun m => !m.2.isRestart) fun m hm =>
    hms m (List.mem_of_mem_filter hm)
  dsimp only
  rw [hanswers ms hms, hkept, map_some, map_some]
  refine ⟨rfl, congrArg some (reduceOption_answers_filter (fun t m hm => ?_) _ _)⟩
  obtain ⟨now, m⟩ := m
  cases m with
  | restart => rfl
  | _ => cases hm

/-- A value is set, and read after a restart. -/
def restarted : List (ℕ × Inbound) :=
  [(0, .resp (utf8Bytes "SET") [utf8Bytes "k", utf8Bytes "v"]), (1, .restart),
    (2, .resp (utf8Bytes "GET") [utf8Bytes "k"])]

theorem restarts_unobservable_restarted :
    (answers? (fun (s : LmdbStore Value) m => m.2.onLmdb sampleJson m.1 s) .new restarted).map
        List.reduceOption
      = some [.bytes (utf8Bytes "+OK\r\n"), .bytes (utf8Bytes "$1\r\nv\r\n")] := by
  refine (restarts_unobservable Value sampleJson (C := {"kv"}) (by decide) (fun m hm => ?_)).2.symm.trans
    rfl
  simp only [restarted, List.mem_cons, List.not_mem_nil, or_false] at hm
  rcases hm with rfl | rfl | rfl
  · exact ⟨by decide, fun _ => trivial⟩
  · trivial
  · exact ⟨by decide, fun _ => trivial⟩

end Stplr
