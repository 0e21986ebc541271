import Stplr.Equiv.Lease
import Stplr.Equiv.Server
import Stplr.Equiv.Slots
import Stplr.Equiv.Sweep

/-!
# Where the transports differ

A call through HTTP is the direct call, on the values that arrive and with the answer that arrives
(`Stplr.Equiv.Server`).  It differs for requests that are too long, for values that do not arrive
unchanged, and for null, which stands for nothing in the answers to reads and in what a `cas` expects
(`transports_agree_iff`).
-/

namespace Stplr

open Lib List Option IndexStore Value

/-! ### Lists that arrive -/

theorem mapM_eq_self {α : Type} {g : α → Option α} {l : List α} :
    l.mapM g = some l ↔ ∀ a ∈ l, g a = some a := by
  induction l with
  | nil => simp
  | cons a l ih =>
    rw [mapM_cons, forall_mem_cons, ← ih]
    cases g a with
    | none => simp
    | some b =>
      cases l.mapM g with
      | none => simp
      | some l' => simp

theorem map_mapM {α β γ : Type} (g : α → Option β) (f : β → γ) (l : List α) :
    (l.mapM g).map (List.map f) = l.mapM fun a => (g a).map f := by
  induction l with
  | nil => rfl
  | cons a l ih =>
    rw [mapM_cons, mapM_cons, ← ih]
    cases g a with
    | none => rfl
    | some b =>
      cases l.mapM g with
      | none => rfl
      | some l' => rfl

/-- The value that an import leaves under a key: that of the last entry with it. -/
def lastFor (k : String) : List (String × Value) → Option Value
  | [] => none
  | e :: es => (lastFor k es).or (if k = e.1 then some e.2 else none)

theorem mem_of_lastFor {k : String} {es : List (String × Value)} {v : Value}
    (h : lastFor k es = some v) : (k, v) ∈ es := by
  induction es with
  | nil => cases h
  | cons e es ih =>
    rw [lastFor, or_eq_some_iff] at h
    rcases h with h | ⟨-, h⟩
    · exact mem_cons_of_mem _ (ih h)
    · split_ifs at h with hk
      obtain rfl := some.inj h
      rw [hk]
      exact mem_cons_self ..

theorem Slot.importAll_eq_lastFor (k : String) (es : List (String × Value)) (s : Slot) :
    s.importAll k es = s.imported (lastFor k es) := by
  induction es generalizing s with
  | nil => rfl
  | cons e es ih =>
    show Slot.importAll k es (if k = e.1 then .plain e.2 else s) = _
    rw [ih, lastFor]
    cases lastFor k es with
    | some v => rfl
    | none =>
      rw [none_or]
      split_ifs <;> rfl

namespace Wire

variable {w : Wire} {e : String × Value}

theorem arriveEntries_cons {es es' : List (String × Value)}
    (h : w.arriveEntries (e :: es) = some es') : ∃ v es₁, w.arrive 3 e.2 = some v ∧
      w.arriveEntries es = some es₁ ∧ es' = (e.1, v) :: es₁ := by
  rw [arriveEntries, mapM_cons] at h
  change _ = some es' at h
  cases hv : w.arrive 3 e.2 with
  | none => rw [hv] at h; cases h
  | some v =>
    rw [hv] at h
    cases hes : w.arriveEntries es with
    | none => rw [arriveEntries] at hes; rw [hes] at h; cases h
    | some es₁ =>
      rw [arriveEntries] at hes
      rw [hes] at h
      exact ⟨v, es₁, rfl, rfl, (some.inj h).symm⟩

theorem mem_arriveEntries {es es' : List (String × Value)} (h : w.arriveEntries es = some es')
    (he : e ∈ es) : ∃ v, w.arrive 3 e.2 = some v ∧ (e.1, v) ∈ es' := by
  induction es generalizing es' with
  | nil => cases he
  | cons e₀ es ih =>
    obtain ⟨v₀, es₁, hv₀, hes, rfl⟩ := arriveEntries_cons h
    rcases mem_cons.mp he with rfl | he
    · exact ⟨v₀, hv₀, mem_cons_self ..⟩
    · obtain ⟨v, hv, hmem⟩ := ih hes he
      exact ⟨v, hv, mem_cons_of_mem _ hmem⟩

theorem lastFor_arriveEntries {es es' : List (String × Value)} (h : w.arriveEntries es = some es')
    (k : String) : lastFor k es' = (lastFor k es).bind (w.arrive 3) := by
  induction es generalizing es' with
  | nil =>
    obtain rfl := some.inj h
    rfl
  | cons e es ih =>
    obtain ⟨v, es₁, hv, hes, rfl⟩ := arriveEntries_cons h
    rw [lastFor, lastFor, ih hes]
    cases hlast : lastFor k es with
    | none =>
      rw [bind_none, none_or, none_or]
      split_ifs
      · exact hv.symm
      · rfl
    | some u =>
      -- all entries arrive, so the last one with the key stays the last
      obtain ⟨u', hu', -⟩ := mem_arriveEntries hes (mem_of_lastFor hlast)
      rw [bind_some, hu', some_or, some_or, bind_some, hu']

end Wire

/-! ### Agreement -/

/-- The shards have the same entries, with the same expiry. -/
def Shard.Alike {St : Type} [IndexStore St] (sh sh' : Shard St) : Prop :=
  ∀ c k, sh.slot c k = sh'.slot c k

/-- The call is an operation of the client, its numbers and those of its answer fit their types, and
its limit is within the cap of the server. -/
def ShardCall.InRange {St : Type} [IndexStore St] (now : ℕ) (sh : Shard St) : ShardCall → Prop
  | .scanRange _ _ _ _ limit => limit ≤ scanCap
  | .scanBuckets _ bs _ limit => (∀ b ∈ bs, b < 2 ^ 64) ∧ limit ≤ Server.scanBucketsCap
  | .writeObjectTtl _ _ _ ttl => ttl < 2 ^ 64
  | .writeBatch _ => False
  | .incr _ _ delta => -2 ^ 63 ≤ delta ∧ delta < 2 ^ 63
  | .exportEntries _ bs => ∀ b ∈ bs, b < 2 ^ 64
  | .dropBuckets c bs => (∀ b ∈ bs, b < 2 ^ 64) ∧ (sh.dropBuckets now c bs).2 < 2 ^ 64
  | .leaseAcquire _ _ ttl => ttl < 2 ^ 64
  | .object _ _ | .mget _ _ | .setAdd _ _ _ | .setRemove _ _ _ | .writeObject _ _ _
  | .deleteObject _ _ | .cas _ _ _ _ | .importEntries _ _ => True

namespace Wire

variable {St : Type} [IndexStore St]

/-- The client answers over HTTP as it does in the process, and leaves the shard in the same state. -/
def Agrees (w : Wire) (now : ℕ) (sh : Shard St) (call : ShardCall) : Prop :=
  (w.call now sh call).2 = some (call.onShard now sh).2 ∧
    (w.call now sh call).1.Alike (call.onShard now sh).1

/-- What HTTP carries: the values of the request and of the answer have to arrive unchanged, where a
null that is read, or expected, counts as nothing.  A value whose expiry wraps to `0` is never read. -/
def Carries (w : Wire) (now : ℕ) (sh : Shard St) : ShardCall → Prop
  | .object c k => ∀ v, sh.object now c k = some v → v ≠ .null ∧ w.arrive 1 v = some v
  | .mget c ks => ∀ v, some v ∈ sh.mget now c ks → v ≠ .null ∧ w.arrive 2 v = some v
  | .writeObject _ _ v => w.arrive 1 v = some v
  | .writeObjectTtl _ _ v ttl =>
    ∃ v', w.arrive 1 v = some v' ∧ (v' = v ∨ ttl ≠ 0 ∧ (now + ttl) % 2 ^ 64 = 0)
  | .cas c k expect new => ∃ expect' new', w.arriveOption expect = some expect' ∧
      w.arrive 1 new = some new' ∧ (sh.object now c k = expect' ↔ sh.object now c k = expect) ∧
      (sh.object now c k = expect → new' = new)
  | .exportEntries c bs => ∀ e ∈ sh.exportEntries now c bs, w.arrive 3 e.2 = some e.2
  | .importEntries _ es => (w.arriveEntries es).isSome ∧
      ∀ k v, lastFor k es = some v → w.arrive 3 v = some v
  | .scanRange _ _ _ _ _ | .scanBuckets _ _ _ _ | .setAdd _ _ _ | .setRemove _ _ _ | .writeBatch _
  | .deleteObject _ _ | .incr _ _ _ | .dropBuckets _ _ | .leaseAcquire _ _ _ => True

variable {w : Wire} {now : ℕ} {sh sh' : Shard St} {call : ShardCall}

theorem typed_of_inRange (h : call.InRange now sh) : call.Typed := by
  cases call with
  | scanRange => exact lt_of_le_of_lt h (by decide)
  | scanBuckets => exact ⟨h.1, lt_of_le_of_lt h.2 (by decide)⟩
  | dropBuckets => exact h.1
  | writeBatch => trivial
  | _ => exact h

theorem respond_fst : (Server.respond now sh call).1 = (call.onShard now sh).1 := by
  cases call <;> rfl

/-- A call over HTTP is the call that arrives, with the answer that arrives. -/
theorem call_eq (hfit : w.Fits call) (htyped : call.Typed) : w.call now sh call
    = ((w.arrived call).elim sh fun call' => (call'.onShard now sh).1,
      (w.arrived call).bind fun call' => if call.postOk then some .done else
        (w.scan (.ofValue (Server.respond now sh call').2)).asValue.map (readAnswer call)) := by
  have hserve : (w.request call).bind (Server.serve now sh)
      = (w.arrived call).map (Server.respond now sh) := by
    rw [← callOf_request htyped hfit]
    cases w.request call <;> rfl
  rw [Wire.call, hserve]
  cases w.arrived call with
  | none => rfl
  | some call' =>
    simp only [map_some, elim_some, bind_some, ← respond_fst]
    split_ifs <;> rfl

theorem call_of_not_fits (hfit : ¬w.Fits call) : w.call now sh call = (sh, none) := by
  have hserve : (w.request call).bind (Server.serve now sh) = none := by
    have hcall := callOf_of_not_fits hfit
    cases hreq : w.request call with
    | none => rfl
    | some req =>
      rw [hreq] at hcall
      exact map_eq_none_iff.mpr hcall
  rw [Wire.call, hserve]

/-- A call whose values arrive unchanged agrees if its answer does. -/
theorem agrees_iff_answer (hfit : w.Fits call) (htyped : call.Typed)
    (harrived : w.arrived call = some call) (hpost : call.postOk = false) : w.Agrees now sh call ↔
      (w.scan (.ofValue (Server.respond now sh call).2)).asValue.map (readAnswer call)
        = some (call.onShard now sh).2 := by
  rw [Agrees, call_eq hfit htyped, harrived, bind_some, hpost]
  exact ⟨fun h => h.1, fun h => ⟨h, fun _ _ => rfl⟩⟩

variable {v : Value} {after : Option String} {limit : ℕ} {bs : List ℕ} {ttl : ℕ}

attribute [local simp] Server.respond response_single readAnswer get?_single ShardCall.onShard

/-! #### Reads -/

variable {c k m : String}

/-- An optional value arrives as itself unless it is null or arrives changed. -/
theorem arrive_getD (depth : ℕ) (o : Option Value) :
    ((w.arrive depth (o.getD .null)).map fun v => if v = .null then none else some v) = some o
      ↔ ∀ v, o = some v → v ≠ .null ∧ w.arrive depth v = some v := by
  cases o with
  | none => simp
  | some v =>
    rw [getD_some]
    constructor
    · intro h u hu
      obtain rfl := some.inj hu
      obtain ⟨v', hv', hread⟩ := map_eq_some_iff.mp h
      split_ifs at hread with hnull
      obtain rfl := some.inj hread
      exact ⟨hnull, hv'⟩
    · intro h
      obtain ⟨hnull, hv⟩ := h v rfl
      rw [hv, map_some, if_neg hnull]

theorem agrees_object (hfit : w.Fits (.object c k)) :
    w.Agrees now sh (.object c k) ↔ w.Carries now sh (.object c k) := by
  rw [agrees_iff_answer hfit trivial rfl rfl, Carries, ← arrive_getD]
  have hread : ∀ v, readAnswer (.object c k) (.obj [("object", v)])
      = .value (if v = .null then none else some v) := by
    intro v
    rw [readAnswer, get?_single]
    split_ifs with hv <;> simp [hv]
  simp only [Server.respond, response_single, Option.map_map, Function.comp_def, hread,
    ShardCall.onShard]
  cases w.arrive 1 ((sh.object now c k).getD .null) <;> simp

theorem agrees_mget {ks : List String} (hfit : w.Fits (.mget c ks)) :
    w.Agrees now sh (.mget c ks) ↔ w.Carries now sh (.mget c ks) := by
  rw [agrees_iff_answer hfit trivial rfl rfl, Carries, Server.respond, response_single]
  generalize hvs : sh.mget now c ks = vs
  have hread : ∀ xs, readAnswer (.mget c ks) (.obj [("values", .arr xs)])
      = .values (xs.map fun v => if v = .null then none else some v) := by
    intro xs
    rw [readAnswer, get?_single]
    rfl
  have hall : (∀ v, some v ∈ vs → v ≠ .null ∧ w.arrive 2 v = some v)
      ↔ ∀ o ∈ vs, ((w.arrive 2 (o.getD .null)).map fun v => if v = .null then none else some v)
        = some o := by
    constructor
    · intro h o ho
      exact (arrive_getD 2 o).mpr fun v hv => h v (hv ▸ ho)
    · intro h v hv
      exact (arrive_getD 2 _).mp (h _ hv) v rfl
  rw [hall, ← mapM_eq_self, ← map_mapM (fun o : Option Value => w.arrive 2 (o.getD .null)),
    arrive_arr w (by decide), mapM_map]
  simp only [Option.map_map, Function.comp_def, hread, ShardCall.onShard, hvs]
  cases vs.mapM fun o => w.arrive 2 (o.getD .null) with
  | none => simp
  | some xs => simp

theorem arrive_ofStrings (xs : List String) :
    w.arrive 1 (ofStrings xs) = some (ofStrings xs) := by
  rw [ofStrings, arrive_arr w (by decide), mapM_eq_self.mpr, map_some]
  intro v hv
  obtain ⟨x, -, rfl⟩ := mem_map.mp hv
  exact arrive_str ..

/-- A scan over HTTP lists the keys of a page that is cut at the cap. -/
theorem call_scanRange {start stop : Option String} (husize : limit < 2 ^ 64)
    (hfit : w.Fits (.scanRange c after start stop limit)) :
    w.call now sh (.scanRange c after start stop limit)
      = (sh, some (.keys (sh.scanRange now c after start stop (min limit scanCap)))) := by
  rw [call_eq hfit husize]
  simp [arrived, ShardCall.postOk, arrive_ofStrings, asStrings_ofStrings]

theorem arrive_entries (es : List (String × Value)) :
    w.arrive 1 (.arr (es.map fun e => .arr [.str e.1, e.2]))
      = (w.arriveEntries es).map fun es' => .arr (es'.map fun e => .arr [.str e.1, e.2]) := by
  have hone : ∀ e : String × Value, w.arrive 2 (.arr [.str e.1, e.2])
      = ((w.arrive 3 e.2).map (e.1, ·)).map fun e' => arr [.str e'.1, e'.2] := by
    intro e
    rw [arrive_arr w (by decide), mapM_cons, arrive_str, mapM_cons, mapM_nil]
    cases w.arrive 3 e.2 with
    | none => rfl
    | some v => rfl
  have hcomp : (w.arrive (1 + 1) ∘ fun e : String × Value => arr [.str e.1, e.2])
      = fun e => ((w.arrive 3 e.2).map (e.1, ·)).map fun e' => arr [.str e'.1, e'.2] :=
    funext hone
  rw [arrive_arr w (by decide), mapM_map, hcomp, ← map_mapM, Option.map_map]
  rfl

theorem asEntries_pairs (es : List (String × Value)) :
    asEntries (.arr (es.map fun e => .arr [.str e.1, e.2])) = some es := by
  rw [asEntries, mapM_map]
  exact mapM_eq_self.mpr fun _ _ => rfl

theorem agrees_exportEntries [LawfulCells St] (hbs : ∀ b ∈ bs, b < 2 ^ 64)
    (hfit : w.Fits (.exportEntries c bs)) :
    w.Agrees now sh (.exportEntries c bs) ↔ w.Carries now sh (.exportEntries c bs) := by
  rw [agrees_iff_answer hfit hbs rfl rfl, Carries, Server.respond, response_single, arrive_entries,
    Option.map_map, Option.map_map]
  have hnd := Shard.nodup_exportEntries now sh c bs
  have hanswer : (ShardCall.onShard now sh (.exportEntries c bs)).2
      = .entries (Multiset.ofList (sh.exportEntries now c bs)) := rfl
  rw [hanswer]
  generalize sh.exportEntries now c bs = es at hnd
  have hread : ∀ es', readAnswer (.exportEntries c bs)
      (.obj [("entries", .arr (es'.map fun e => .arr [.str e.1, e.2]))])
      = .entries (Multiset.ofList es') := by
    intro es'
    rw [readAnswer, get?_single, getD_some, asEntries_pairs, getD_some]
  simp only [Function.comp_def, hread]
  constructor
  · intro h e he
    obtain ⟨es', hes', heq⟩ := map_eq_some_iff.mp h
    have hperm : es'.Perm es := Multiset.coe_eq_coe.mp (ShardAnswer.entries.inj heq)
    obtain ⟨v, hv, hmem⟩ := mem_arriveEntries hes' he
    -- the keys are distinct, so this is the entry it was
    have hsame : (e.1, v) = e := inj_on_of_nodup_map hnd (hperm.mem_iff.mp hmem) he rfl
    rw [hv, ← congrArg Prod.snd hsame]
  · intro h
    have harrive : w.arriveEntries es = some es := by
      apply mapM_eq_self.mpr
      intro e he
      rw [h e he]
      rfl
    rw [harrive, map_some]

/-! #### Writes -/

theorem asI64_wrappingAdd (a b : ℤ) : asI64 (.int (IndexStore.wrappingAdd a b))
    = some (IndexStore.wrappingAdd a b) := by
  have hlow : -(2 ^ 63) ≤ wrappingAdd a b := Int.le_bmod (m := 2 ^ 64) (by decide)
  have hhigh : wrappingAdd a b < 2 ^ 63 := Int.bmod_lt (m := 2 ^ 64) (by decide)
  rw [asI64, if_pos ⟨hlow, hhigh⟩]

theorem agrees_incr {delta : ℤ} (hlow : -2 ^ 63 ≤ delta) (hhigh : delta < 2 ^ 63)
    (hfit : w.Fits (.incr c k delta)) : w.Agrees now sh (.incr c k delta) := by
  refine (agrees_iff_answer hfit ⟨hlow, hhigh⟩ rfl rfl).mpr ?_
  simp only [Server.respond, response_single, ShardCall.onShard, Shard.incr, incr, update,
    Change.incr]
  cases counterOf (getObject now sh.store c k) with
  | none => simp [asI64]
  | some cur => simp [asI64_wrappingAdd]

/-- The response with the four fields of a lease. -/
theorem response_lease (outcome : LeaseOutcome) : ∃ v,
    (w.scan (.ofValue (.obj [("expiresMs", .int outcome.lease.expiresMs),
      ("granted", .bool outcome.granted), ("holder", .str outcome.lease.holder),
      ("token", .int outcome.lease.token)]))).asValue = some v ∧
      v.get? "expiresMs" = some (.int outcome.lease.expiresMs) ∧
      v.get? "granted" = some (.bool outcome.granted) ∧
      v.get? "holder" = some (.str outcome.lease.holder) ∧
      v.get? "token" = some (.int outcome.lease.token) := by
  have hlimit : ¬Json.recursionLimit ≤ 1 := by decide
  refine ⟨.obj ((((SortedMap.empty.put "expiresMs" (.int outcome.lease.expiresMs)).put "granted"
    (.bool outcome.granted)).put "holder" (.str outcome.lease.holder)).put "token"
    (.int outcome.lease.token)).entries, ?_, ?_⟩
  · rw [Json.asValue, Json.ofValue, scan, Json.toValue, if_neg hlimit]
    simp only [Json.ofFields, Json.ofValue, scanFields, scan, toFields_cons, Json.toValue,
      bind_some]
    rfl
  · simp [get?, SortedMap.lookup_put]

theorem agrees_leaseAcquire {holder : String} (httl : ttl < 2 ^ 64)
    (hfit : w.Fits (.leaseAcquire k holder ttl)) :
    w.Agrees now sh (.leaseAcquire k holder ttl) := by
  obtain ⟨hexpires, htoken⟩ : (sh.leaseAcquire now k holder ttl).2.lease.Fits := by
    rw [leaseAcquire_eq]
    exact evaluate_fits fits_storedLease holder ttl now
  obtain ⟨v, hv, he, hg, hh, ht⟩ := response_lease (w := w) (sh.leaseAcquire now k holder ttl).2
  rw [agrees_iff_answer hfit httl rfl rfl, Server.respond, hv, map_some, readAnswer, he, hg, hh, ht,
    bind_some, bind_some, bind_some, bind_some, asU64_int hexpires, asU64_int htoken]
  rfl

variable {v' : Value}

/-- The slot that a write fills tells the values apart. -/
theorem eq_of_alike_writeObject [LawfulCells St]
    (h : (sh.writeObject c k v').Alike (sh.writeObject c k v)) : v' = v := by
  have hslot := h c k
  rw [Shard.slot_writeObject, Shard.slot_writeObject, if_pos ⟨rfl, rfl⟩, if_pos ⟨rfl, rfl⟩] at hslot
  exact some.inj (congrFun (congrArg Slot.object hslot) 0)

/-- A write whose answer is its status. -/
theorem agrees_iff_alike (hfit : w.Fits call) (htyped : call.Typed) (hpost : call.postOk = true) :
    w.Agrees now sh call ↔
      ∃ call', w.arrived call = some call' ∧ (call'.onShard now sh).1.Alike (call.onShard now sh).1 := by
  have hdone : (call.onShard now sh).2 = .done := by cases call <;> first | rfl | cases hpost
  rw [Agrees, call_eq hfit htyped, hdone, hpost]
  cases w.arrived call <;> simp

theorem agrees_writeObject [LawfulCells St] (hfit : w.Fits (.writeObject c k v)) :
    w.Agrees now sh (.writeObject c k v) ↔ w.arrive 1 v = some v := by
  rw [agrees_iff_alike hfit trivial rfl, arrived]
  simp only [map_eq_some_iff]
  constructor
  · rintro ⟨_, ⟨v', hv', rfl⟩, halike⟩
    rw [hv', eq_of_alike_writeObject halike]
  · exact fun hv => ⟨_, ⟨v, hv, rfl⟩, fun _ _ => rfl⟩

/-- What two puts with an expiry leave alike: an expiry at `0` hides the values. -/
theorem alike_putObjectAt [LawfulExpiry St] {e : ℕ} :
    (⟨sh.id, IndexStore.putObjectAt sh.store c k v' e⟩ : Shard St).Alike
      ⟨sh.id, IndexStore.putObjectAt sh.store c k v e⟩ ↔ v' = v ∨ e = 0 := by
  have hread : ∀ u t, getObject t (putObjectAt sh.store c k u e) c k
      = if e ≤ t then none else some u := fun u t => LawfulExpiry.getObject_putObjectAt ..
  constructor
  · intro h
    have hobject : (if e ≤ 0 then none else some v') = if e ≤ 0 then none else some v := by
      rw [← hread, ← hread]
      exact congrFun (congrArg Slot.object (h c k)) 0
    by_cases he : e = 0
    · exact .inr he
    · rw [if_neg (by omega), if_neg (by omega)] at hobject
      exact .inl (some.inj hobject)
  · rintro (rfl | rfl)
    · exact fun _ _ => rfl
    · intro c' k'
      by_cases hck : c' = c ∧ k' = k
      · obtain ⟨rfl, rfl⟩ := hck
        refine Slot.ext (funext fun t => ?_) ?_
        · exact ((hread v' t).trans (if_pos t.zero_le)).trans
            ((hread v t).trans (if_pos t.zero_le)).symm
        · exact (LawfulExpiry.expiryOf_putObjectAt ..).trans
            (LawfulExpiry.expiryOf_putObjectAt ..).symm
      · refine Slot.ext (funext fun t => ?_) ?_
        · exact (LawfulCells.getObject_putObjectAt_ne t _ _ _ _ _ hck).trans
            (LawfulCells.getObject_putObjectAt_ne t _ _ _ _ _ hck).symm
        · exact (LawfulCells.expiryOf_putObjectAt_ne _ _ _ _ _ hck).trans
            (LawfulCells.expiryOf_putObjectAt_ne _ _ _ _ _ hck).symm

theorem alike_writeObjectTtl [LawfulExpiry St] :
    (sh.writeObjectTtl now c k v' ttl).Alike (sh.writeObjectTtl now c k v ttl) ↔
      v' = v ∨ ttl ≠ 0 ∧ (now + ttl) % 2 ^ 64 = 0 := by
  rw [Shard.writeObjectTtl, Shard.writeObjectTtl]
  split_ifs with hzero
  · have hiff : v' = v ∨ ttl ≠ 0 ∧ (now + ttl) % 2 ^ 64 = 0 ↔ v' = v := by simp [hzero]
    rw [hiff]
    constructor
    · exact eq_of_alike_writeObject
    · rintro rfl _ _
      rfl
  · rw [alike_putObjectAt, and_iff_right hzero]

theorem agrees_writeObjectTtl [LawfulExpiry St] (httl : ttl < 2 ^ 64)
    (hfit : w.Fits (.writeObjectTtl c k v ttl)) :
    w.Agrees now sh (.writeObjectTtl c k v ttl) ↔ w.Carries now sh (.writeObjectTtl c k v ttl) := by
  -- a zero ttl is none, on both sides
  have hput : ∀ v', (ShardCall.onShard now sh
      (if 0 < ttl then .writeObjectTtl c k v' ttl else .writeObject c k v')).1
      = sh.writeObjectTtl now c k v' ttl := by
    intro v'
    by_cases hpos : 0 < ttl
    · rw [if_pos hpos]
      rfl
    · rw [if_neg hpos, Shard.writeObjectTtl, if_pos (Nat.eq_zero_of_not_pos hpos)]
      rfl
  rw [agrees_iff_alike hfit httl rfl, arrived, Carries]
  cases w.arrive 1 v with
  | none => simp
  | some v' =>
    simp only [map_some, some.injEq, exists_eq_left', hput]
    exact alike_writeObjectTtl

theorem importEntries_alike [LawfulCells St] {es es' : List (String × Value)} :
    (sh.importEntries c es').Alike (sh.importEntries c es) ↔
      ∀ k, (sh.slot c k).imported (lastFor k es') = (sh.slot c k).imported (lastFor k es) := by
  constructor
  · intro h k
    have hslot := h c k
    rwa [Shard.slot_importEntries, Shard.slot_importEntries, if_pos rfl, if_pos rfl,
      Slot.importAll_eq_lastFor, Slot.importAll_eq_lastFor] at hslot
  · intro h c' k
    rw [Shard.slot_importEntries, Shard.slot_importEntries]
    split_ifs with hc
    · subst hc
      rw [Slot.importAll_eq_lastFor, Slot.importAll_eq_lastFor]
      exact h k
    · rfl

theorem agrees_importEntries [LawfulCells St] {es : List (String × Value)}
    (hfit : w.Fits (.importEntries c es)) :
    w.Agrees now sh (.importEntries c es) ↔ w.Carries now sh (.importEntries c es) := by
  rw [agrees_iff_alike hfit trivial rfl, arrived, Carries]
  cases hes : w.arriveEntries es with
  | none => simp
  | some es' =>
    have hlast := lastFor_arriveEntries hes
    simp only [map_some, some.injEq, exists_eq_left', ShardCall.onShard, isSome_some, true_and,
      importEntries_alike]
    constructor
    · intro h k v hv
      obtain ⟨v', hv', -⟩ := mem_arriveEntries hes (mem_of_lastFor hv)
      have hslot := h k
      rw [hlast, hv, bind_some, hv'] at hslot
      rw [hv', ← some.inj (congrFun (congrArg Slot.object hslot) 0)]
    · intro h k
      rw [hlast]
      cases hk : lastFor k es with
      | none => rfl
      | some v => rw [bind_some, h k v hk]

theorem cas_eq (expect : Option Value) (new : Value) : sh.cas now c k expect new
    = if sh.object now c k = expect then (sh.writeObject c k new, true) else (sh, false) := by
  unfold Shard.cas cas update Change.cas Shard.object
  dsimp only
  split_ifs <;> rfl

theorem agrees_cas [LawfulCells St] {expect : Option Value} {new : Value}
    (hfit : w.Fits (.cas c k expect new)) :
    w.Agrees now sh (.cas c k expect new) ↔ w.Carries now sh (.cas c k expect new) := by
  rw [Agrees, call_eq hfit trivial, arrived, Carries]
  cases he : w.arriveOption expect with
  | none => simp
  | some expect' =>
    cases hn : w.arrive 1 new with
    | none => simp
    | some new' =>
      simp only [bind_some, map_some, elim_some, some.injEq, exists_and_left, exists_eq_left',
        ShardCall.onShard, Server.respond, response_single, arrive_bool, readAnswer, get?_single,
        cas_eq]
      by_cases hp : sh.object now c k = expect' <;> by_cases hq : sh.object now c k = expect
      · -- both swap, and the value that is written tells
        rw [if_pos hp, if_pos hq]
        constructor
        · exact fun h => ⟨iff_of_true hp hq, fun _ => eq_of_alike_writeObject h.2⟩
        · intro h
          rw [h.2 hq]
          exact ⟨rfl, fun _ _ => rfl⟩
      · rw [if_pos hp, if_neg hq]
        exact ⟨fun h => (by cases h.1), fun h => absurd (h.1.mp hp) hq⟩
      · rw [if_neg hp, if_pos hq]
        exact ⟨fun h => (by cases h.1), fun h => absurd (h.1.mpr hq) hp⟩
      · rw [if_neg hp, if_neg hq]
        exact ⟨fun _ => ⟨iff_of_false hp hq, fun h => absurd h hq⟩, fun _ => ⟨rfl, fun _ _ => rfl⟩⟩

/-! #### All calls -/

theorem agrees_iff_carries [LawfulExpiry St] (hrange : call.InRange now sh) (hfit : w.Fits call) :
    w.Agrees now sh call ↔ w.Carries now sh call := by
  have htyped := typed_of_inRange hrange
  cases call with
  | object => exact agrees_object hfit
  | mget => exact agrees_mget hfit
  | scanRange =>
    have hlimit : _ ≤ scanCap := hrange
    refine iff_of_true ((agrees_iff_answer hfit htyped ?_ rfl).mpr ?_) trivial
    · rw [arrived, min_eq_left hlimit]
    · simp [arrive_ofStrings, asStrings_ofStrings]
  | scanBuckets =>
    have hlimit : _ ≤ Server.scanBucketsCap := hrange.2
    refine iff_of_true ((agrees_iff_answer hfit htyped ?_ rfl).mpr ?_) trivial
    · rw [arrived, min_eq_left hlimit]
    · simp [arrive_ofStrings, asStrings_ofStrings]
  | setAdd | setRemove =>
    exact iff_of_true ((agrees_iff_answer hfit htyped rfl rfl).mpr (by simp [asBool])) trivial
  | writeObject => exact agrees_writeObject hfit
  | writeObjectTtl => exact agrees_writeObjectTtl hrange hfit
  | writeBatch => exact hrange.elim
  | deleteObject =>
    exact iff_of_true ((agrees_iff_alike hfit htyped rfl).mpr ⟨_, rfl, fun _ _ => rfl⟩) trivial
  | cas => exact agrees_cas hfit
  | incr => exact iff_of_true (agrees_incr hrange.1 hrange.2 hfit) trivial
  | exportEntries => exact agrees_exportEntries hrange hfit
  | importEntries => exact agrees_importEntries hfit
  | dropBuckets c bs =>
    have hcount : (sh.dropBuckets now c bs).2 < 2 ^ 64 := hrange.2
    refine iff_of_true ((agrees_iff_answer hfit htyped rfl rfl).mpr ?_) trivial
    rw [Server.respond, response_single, arrive_int, map_some, map_some, readAnswer, get?_single,
      bind_some, asU64_int hcount]
    rfl
  | leaseAcquire => exact iff_of_true (agrees_leaseAcquire hrange hfit) trivial

/-- **The two transports agree** exactly on the calls whose request is not too long, and whose values
HTTP carries. -/
theorem transports_agree_iff [LawfulExpiry St] (w : Wire) (now : ℕ) (sh : Shard St)
    {call : ShardCall} (hrange : call.InRange now sh) :
    w.Agrees now sh call ↔ w.Fits call ∧ w.Carries now sh call := by
  by_cases hfit : w.Fits call
  · rw [agrees_iff_carries hrange hfit]
    exact ⟨fun h => ⟨hfit, h⟩, fun h => h.2⟩
  · refine iff_of_false (fun h => ?_) fun h => hfit h.1
    rw [Agrees, call_of_not_fits hfit] at h
    cases h.1

/-- A wire on which doubles arrive as they are, and texts are short. -/
def localWire : Wire := ⟨some, fun _ => 64, "http://127.0.0.1:7001"⟩

/-- A shard that holds null under `k`. -/
def nullShard : Shard MemoryStore := Shard.writeObject ⟨"s0", MemoryStore.new⟩ "kv" "k" .null

theorem transports_agree_write :
    localWire.Agrees 0 nullShard (.writeObject "kv" "k" (.arr [.int 5, .null])) := by
  have hrange : ShardCall.InRange 0 nullShard (.writeObject "kv" "k" (.arr [.int 5, .null])) :=
    trivial
  exact (transports_agree_iff localWire 0 nullShard hrange).mpr ⟨⟨_, rfl, by decide⟩, rfl⟩

/-- A stored null reads as null in the process, and as nothing over HTTP. -/
theorem null_differs : (localWire.call 0 nullShard (.object "kv" "k")).2 = some (.value none) ∧
    (ShardCall.onShard 0 nullShard (.object "kv" "k")).2 = .value (some .null) := by
  constructor
  · rfl
  · rfl

end Wire

end Stplr
