import Stplr.Equiv.Json
import Stplr.Equiv.Shard
import Stplr.Resp
import Stplr.Transport

/-!
# How long a key lives

A duration reaches the store through fixed-width arithmetic: `SET .. EX` multiplies the seconds by
1000, and the shard adds the milliseconds to its clock.  `Shard.Honours` is what the client asked for,
in unbounded numbers: the key is there until the duration is over, where a sum beyond `u64` is never
reached by the clock.

A write with the residue of `ttl` honours `ttl` exactly when nothing wraps, or when the residue is `0`
and there is thus no expiry at all (`honours_writeObjectTtl`).  `ttl_honoured_iff` says this of the
requests; `ttl_wraps` are two durations that end too early.
-/

namespace Stplr

open LawfulCells

namespace Shard

variable {St : Type} [IndexStore St]

/-- From the time `n` of the write on, the key reads as `v` for `ttl` milliseconds, and then as
absent. -/
def Honours (sh : Shard St) (n ttl : ℕ) (c k : String) (v : Value) : Prop :=
  ∀ t, n ≤ t → t < 2 ^ 64 → sh.object t c k = if t < n + ttl then some v else none

variable [LawfulExpiry St] {n : ℕ} (sh : Shard St) (c k : String) (v : Value)

theorem object_writeObjectTtl (ms t : ℕ) : (sh.writeObjectTtl n c k v ms).object t c k
    = if ms ≠ 0 ∧ (n + ms) % 2 ^ 64 ≤ t then none else some v := by
  rw [writeObjectTtl]
  by_cases hzero : ms = 0
  · rw [if_pos hzero, if_neg (fun h => h.1 hzero), object_writeObject, if_pos ⟨rfl, rfl⟩]
  · rw [if_neg hzero]
    refine (LawfulExpiry.getObject_putObjectAt ..).trans ?_
    simp only [hzero, ne_eq, not_false_eq_true, true_and]

/-- **When a duration is honoured.** -/
theorem honours_writeObjectTtl (hn : n < 2 ^ 64) (ttl : ℕ) :
    (sh.writeObjectTtl n c k v (ttl % 2 ^ 64)).Honours n ttl c k v ↔
      0 < ttl ∧ n + ttl < 2 ^ 64 ∨ 2 ^ 64 ≤ ttl ∧ ttl % 2 ^ 64 = 0 := by
  have hreads : (sh.writeObjectTtl n c k v (ttl % 2 ^ 64)).Honours n ttl c k v ↔
      ∀ t, n ≤ t → t < 2 ^ 64 →
        ((ttl % 2 ^ 64 ≠ 0 ∧ (n + ttl % 2 ^ 64) % 2 ^ 64 ≤ t) ↔ n + ttl ≤ t) := by
    refine forall_congr' fun t => imp_congr_right fun _ => imp_congr_right fun _ => ?_
    rw [object_writeObjectTtl]
    split_ifs with hgone hlive hlive
    · exact iff_of_false (by simp) fun h => hlive.not_ge (h.mp hgone)
    · exact iff_of_true rfl (iff_of_true hgone (not_lt.mp hlive))
    · exact iff_of_true rfl (iff_of_false hgone hlive.not_ge)
    · exact iff_of_false (by simp) fun h => hgone (h.mpr (not_lt.mp hlive))
  rw [hreads]
  constructor
  · intro h
    -- the last time that the clock can show
    have hlast := h (2 ^ 64 - 1) (by omega) (by omega)
    omega
  · intro h t ht htlt
    omega

end Shard

/-! ### The requests -/

namespace Server

/-- The request is a write of `v` under `(c, k)` with the duration `ttl`. -/
structure Writes (req : Request) (c k : String) (v : Value) (ttl : ℕ) : Prop where
  method : req.method = .post
  path : req.path = "/write"
  body : ∃ b, readBody writeBody req = some b ∧ field b "coll" Json.string? = some c ∧
    field b "key" Json.string? = some k ∧ field b "obj" Json.fieldValue = some v ∧
    option b "ttlMs" Json.nat? = some (some ttl)

theorem Writes.serve {St : Type} [IndexStore St] {req : Request} {c k : String} {v : Value} {ttl : ℕ}
    (h : Writes req c k v ttl) (hpos : 0 < ttl) (n : ℕ) (sh : Shard St) :
    Server.serve n sh req = some (sh.writeObjectTtl n c k v ttl, ok) := by
  obtain ⟨b, hbody, hcoll, hkey, hobj, httl⟩ := h.body
  rw [Server.serve, callOf, h.method, h.path]
  change (write req).map (respond n sh) = _
  simp [write, hbody, hcoll, hkey, hobj, httl, hpos, respond]

end Server

namespace Resp

variable {St : Type} [IndexStore St] {codec : JsonCodec} {n d : ℕ} {sh : Shard St}
  {name key val opt arg : List UInt8}

/-- A `SET` with one option. -/
theorem respond_set_option (hname : upper name = "SET") :
    respond codec n sh name [key, val, opt, arg]
      = (sh.writeObjectTtl n coll (s key) (.str (s val)) (ttlOption [opt, arg] 0), simple "OK") := by
  rw [respond, hname]
  change Lib.Prog.run _ (ask (if 0 < ttlOption [opt, arg] 0 then _ else _) _) sh = _
  by_cases hzero : ttlOption [opt, arg] 0 = 0
  · rw [if_neg (by omega), Shard.writeObjectTtl, if_pos hzero]
    rfl
  · rw [if_pos (by omega)]
    rfl

theorem ttlOption_ex (hopt : upper opt = "EX") (harg : parseUsize (s arg).toList = some d) :
    ttlOption [opt, arg] 0 = d * 1000 % 2 ^ 64 := by
  rw [ttlOption, if_pos hopt, parseLen, harg]
  rfl

theorem ttlOption_px (hopt : upper opt = "PX") (harg : parseUsize (s arg).toList = some d) :
    ttlOption [opt, arg] 0 = d := by
  rw [ttlOption, hopt, parseLen, harg]
  rfl

theorem parseUsize_lt {cs : List Char} (h : parseUsize cs = some d) : d < 2 ^ 64 := by
  unfold parseUsize at h
  exact of_decide_eq_true (Option.filter_eq_some_iff.mp h).2

end Resp

open Resp in
/-- **A duration is honoured exactly when it does not wrap**: that of `POST /write` and of
`SET .. PX` when it is positive and its end is within `u64`, that of `SET .. EX` also when its
milliseconds are a multiple of `2 ^ 64`. -/
theorem ttl_honoured_iff {St : Type} [IndexStore St] [LawfulExpiry St] {n : ℕ} (hn : n < 2 ^ 64)
    (sh : Shard St) :
    (∀ req c k v ttl, Server.Writes req c k v ttl → 0 < ttl → ttl < 2 ^ 64 →
      ∃ sh', Server.serve n sh req = some (sh', Server.ok) ∧
        (sh'.Honours n ttl c k v ↔ n + ttl < 2 ^ 64)) ∧
    ∀ codec name key val opt arg d, upper name = "SET" → parseUsize (s arg).toList = some d →
      (upper opt = "PX" →
        ((respond codec n sh name [key, val, opt, arg]).1.Honours n d coll (s key) (.str (s val)) ↔
          0 < d ∧ n + d < 2 ^ 64)) ∧
      (upper opt = "EX" →
        ((respond codec n sh name [key, val, opt, arg]).1.Honours n (d * 1000) coll (s key)
            (.str (s val)) ↔
          0 < d ∧ n + d * 1000 < 2 ^ 64 ∨ 2 ^ 64 ≤ d * 1000 ∧ d * 1000 % 2 ^ 64 = 0)) := by
  refine ⟨fun req c k v ttl hreq hpos hlt => ⟨_, hreq.serve hpos n sh, ?_⟩,
    fun codec name key val opt arg d hname harg => ⟨fun hopt => ?_, fun hopt => ?_⟩⟩
  · have hiff := sh.honours_writeObjectTtl c k v hn ttl
    rw [Nat.mod_eq_of_lt hlt] at hiff
    rw [hiff]
    omega
  · have hlt := parseUsize_lt harg
    have hiff := sh.honours_writeObjectTtl coll (s key) (.str (s val)) hn d
    rw [Nat.mod_eq_of_lt hlt] at hiff
    rw [respond_set_option hname, ttlOption_px hopt harg, hiff]
    omega
  · have hpos : 0 < d * 1000 ↔ 0 < d := by omega
    rw [respond_set_option hname, ttlOption_ex hopt harg,
      sh.honours_writeObjectTtl coll (s key) (.str (s val)) hn (d * 1000), hpos]

/-- A `POST /write` of `1` under `(kv, k)` for half a second. -/
def timedWrite : Request :=
  ⟨.post, "/write", none, true, ⟨64, some (.obj [("coll", .str "kv"), ("key", .str "k"),
    ("obj", .int 1), ("ttlMs", .int 500)])⟩⟩

theorem writes_timedWrite : Server.Writes timedWrite "kv" "k" (.int 1) 500 :=
  ⟨rfl, rfl, _, rfl, rfl, rfl, rfl, rfl⟩

theorem ttl_honoured_timedWrite :
    ∃ sh', Server.serve 1000 (⟨"s0", MemoryStore.new⟩ : Shard MemoryStore) timedWrite
        = some (sh', Server.ok) ∧
      sh'.Honours 1000 500 "kv" "k" (.int 1) := by
  obtain ⟨sh', hserve, hiff⟩ := (ttl_honoured_iff (n := 1000) (by decide)
    (⟨"s0", MemoryStore.new⟩ : Shard MemoryStore)).1 timedWrite "kv" "k" (.int 1) 500
      writes_timedWrite (by decide) (by decide)
  exact ⟨sh', hserve, hiff.mpr (by decide)⟩

open Resp in
/-- At time 1, a write for `u64::MAX` milliseconds is gone at once, and one for 18446744073709552
seconds after 384 milliseconds. -/
theorem ttl_wraps :
    let set := respond sampleJson 1 (⟨"s0", MemoryStore.new⟩ : Shard MemoryStore) (utf8Bytes "SET")
    (set [utf8Bytes "k", utf8Bytes "v", utf8Bytes "PX", utf8Bytes "18446744073709551615"]).1.object
      1 coll "k" = none ∧
    (set [utf8Bytes "k", utf8Bytes "v", utf8Bytes "EX", utf8Bytes "18446744073709552"]).1.object
      385 coll "k" = none := by
  have hset : upper (utf8Bytes "SET") = "SET" := by decide
  have hkey : s (utf8Bytes "k") = "k" := by decide
  constructor
  · have hms : ttlOption [utf8Bytes "PX", utf8Bytes "18446744073709551615"] 0
        = 18446744073709551615 := ttlOption_px (by decide) (by decide)
    rw [respond_set_option hset, hms, hkey, Shard.object_writeObjectTtl]
    rfl
  · have hms : ttlOption [utf8Bytes "EX", utf8Bytes "18446744073709552"] 0 = 384 :=
      (ttlOption_ex (d := 18446744073709552) (by decide) (by decide)).trans (by decide)
    rw [respond_set_option hset, hms, hkey, Shard.object_writeObjectTtl]
    rfl

end Stplr
