import Stplr.Equiv.Json
import Stplr.Equiv.Resp
import Stplr.Equiv.Scan

/-!
# What RESP clients see of the store

`SCAN` returns the last key of a full page as the next cursor, and `0` stands for the end, but `0` is
also a key: `scan_visits_iff` says when a client that follows the cursors finds every key, and in
`scan_stops_early` it does not.

`SET` and `GET` go through text, which replaces bytes that are not UTF-8.  So a value is returned as it
was set if it is UTF-8, and another key is left alone if its text is another one
(`binary_safe_iff`, `set_get_replaced`).

Queries on a set take the strings of the array at the key, and updates take the array only if all its
elements are strings.  So they see the same set unless the array has elements of both kinds
(`sets_agree_iff`, `mixed_array_disagrees`).
-/

namespace Stplr

namespace Resp

open Lib List Option IndexStore

variable {St : Type} [IndexStore St]

/-! ### `SCAN` -/

theorem toList_trimStars (p : String) :
    (trimStars p).toList = p.toList.rdropWhile fun c => decide (c = '*') := by
  rw [trimStars, String.toList_ofList]

/-- A star at the end of a pattern does not matter. -/
theorem trimStars_append (p : String) : trimStars (p ++ "*") = trimStars p := by
  rw [trimStars, String.toList_append, show "*".toList = ['*'] from rfl,
    rdropWhile_concat_pos _ _ _ (by decide), trimStars]

/-- A key with the prefix has the prefix without its stars. -/
theorem startsWith_trimStars {k p : String} (h : startsWith k p = true) :
    startsWith k (trimStars p) = true := by
  rw [startsWith, isPrefixOf_iff_prefix] at h ⊢
  rw [toList_trimStars]
  exact ( rdropWhile_prefix _ _).trans h

variable {count : ℕ} (now : ℕ) (sh : Shard St) (start : Option String)

theorem request_scan {start : Option String} (hmax : count < 2 ^ 64) (after : Option String) :
    request "SCAN" (scanArgs start count after)
      = .scan (after.getD "0") count (start.map trimStars) := by
  have hmatch : upper (utf8Bytes "MATCH") = "MATCH" := by decide
  have hcount : upper (utf8Bytes "COUNT") = "COUNT" := by decide
  have hopts : scanOption ((start.toList.flatMap fun p => [utf8Bytes "MATCH", utf8Bytes (p ++ "*")])
      ++ [utf8Bytes "COUNT", utf8Bytes (toString count)]) (10, none)
      = (count, start.map trimStars) := by
    have hnum : (parseUsize (s (utf8Bytes (toString count))).toList).getD 10 = count := by
      rw [s_utf8Bytes, parseUsize_toString hmax]
      rfl
    generalize utf8Bytes (toString count) = num at hnum ⊢
    cases start with
    | none => simp [scanOption, hcount, hnum]
    | some p => simp [scanOption, hcount, hmatch, hnum, trimStars_append]
  show Request.scan (s (utf8Bytes (after.getD "0"))) (scanOption _ (10, none)).1
    (scanOption _ (10, none)).2 = _
  rw [hopts, s_utf8Bytes]

/-- A page of the client is a page of the ascending list of the keys, and its cursor is the last key of
a full page unless that is `0`. -/
theorem scanPage_eq (hcount : 0 < count) (hmax : count < 2 ^ 64) (after : Option String)
    (hafter : after ≠ some "0") :
    scanPage now sh start count after
      = (page count (keysIn now sh.store coll (start.map trimStars) none) after,
        (cursor count (page count (keysIn now sh.store coll (start.map trimStars) none)
          after)).filter (· ≠ "0")) := by
  have hcursor : (if after.getD "0" = "0" then none else some (after.getD "0")) = after := by
    cases after with
    | none => rfl
    | some c => exact if_neg fun h => hafter (congrArg some h)
  rw [scanPage, request_scan hmax]
  dsimp only [scanAfter]
  rw [hcursor, Shard.scanRange, scanRange_eq]
  generalize page count _ after = p
  rw [Prod.mk.injEq]
  refine ⟨rfl, ?_⟩
  rw [nextCursor, cursor]
  by_cases hfull : p.length < count
  · rw [if_pos hfull, if_neg (Nat.not_le.mpr hfull)]
    rfl
  · rw [if_neg hfull, if_pos (Nat.not_lt.mp hfull)]
    cases hlast : p.getLast? with
    | none =>
      rw [getLast?_eq_none_iff.mp hlast] at hfull
      exact absurd hcount hfull
    | some c =>
      by_cases hc : c = "0"
      · rw [filter_some_neg (by simp [hc])]
        exact if_pos hc
      · rw [filter_some_pos (by simp [hc])]
        exact if_neg hc

/-- The client finds every key with the prefix once: its iteration ends, with these keys. -/
def ScanVisits (now : ℕ) (sh : Shard St) (start : Option String) (count : ℕ) : Prop :=
  ∃ keys : List String,
    (∃ n, ∀ pages, n ≤ pages → follow (scanPage now sh start count) pages none = some keys) ∧
    keys.Nodup ∧
    ∀ k, k ∈ keys ↔ (sh.object now coll k).isSome ∧ ∀ p ∈ start, startsWith k p = true

variable [LawfulCells St]

/-- A prefix of the key `0` has no star at its end. -/
theorem trimStars_of_startsWith_zero {p : String} (h : startsWith "0" p = true) : trimStars p = p := by
  rw [startsWith, isPrefixOf_iff_prefix, show "0".toList = ['0'] from rfl, prefix_cons_iff] at h
  have hself : p.toList.rdropWhile (fun c => decide (c = '*')) = p.toList := by
    obtain hnil | ⟨t, ht, hpre⟩ := h
    · rw [hnil]
      rfl
    · rw [ht, prefix_nil.mp hpre]
      rfl
  rw [trimStars, hself, String.ofList_toList]

theorem mem_keysIn_trimStars (k : String) :
    k ∈ keysIn now sh.store coll (start.map trimStars) none ↔
      (sh.object now coll k).isSome ∧ ∀ p ∈ start, startsWith k (trimStars p) = true := by
  rw [mem_keysIn, InBounds, Shard.object]
  simp

/-- **When `SCAN` visits every key once**: the key `0` is not the last one of a full page with more
keys after it, and no key matches the prefix only because stars at its end are dropped. -/
theorem scan_visits_iff (now : ℕ) (sh : Shard St) (start : Option String) {count : ℕ}
    (hcount : 1 ≤ count) (hmax : count < 2 ^ 64) :
    ScanVisits now sh start count ↔ (∀ m, ¬CutAt count "0"
        (keysIn now sh.store coll (start.map trimStars) none) m) ∧
      ∀ k, (sh.object now coll k).isSome → ∀ p ∈ start, startsWith k (trimStars p) = true →
        startsWith k p = true := by
  have hmemL := mem_keysIn_trimStars now sh start
  have hsorted := pairwise_keysIn now sh.store coll (start.map trimStars) none
  have hnext := scanPage_eq now sh start hcount hmax
  generalize keysIn now sh.store coll (start.map trimStars) none = l at *
  have hnd : l.Nodup := hsorted.imp fun h => h.ne
  constructor
  · rintro ⟨keys, ⟨n, hn⟩, -, hmem⟩
    have hn := hn (max n (l.length + 1)) (le_max_left _ _)
    have hlen : (above none l).length < max n (l.length + 1) := by
      rw [above_none]
      omega
    by_cases hcut : ∃ m, CutAt count "0" l m
    · -- the iteration ends after the key `0`, although there is a key after it
      obtain ⟨m, hm⟩ := hcut
      rw [follow_of_cutAt hsorted hcount hnext _ none m (by simp) hlen (by rw [above_none]; exact hm),
        above_none] at hn
      obtain rfl := some.inj hn
      have hzero : "0" ∈ l.take (m + 1) := by
        refine mem_iff_getElem?.mpr ⟨m, ?_⟩
        rw [getElem?_take, if_pos (Nat.lt_succ_self m), hm.1]
      obtain ⟨x, hx⟩ : ∃ x, l[m + 1]? = some x := ⟨_, getElem?_eq_getElem hm.2.2⟩
      obtain ⟨hstored, hpre⟩ := (hmemL _).mp (mem_of_getElem? hx)
      have hpre' : ∀ p ∈ start, startsWith x p = true := fun p hp => by
        have h0 := ((hmem "0").mp hzero).2 p hp
        rw [← trimStars_of_startsWith_zero h0]
        exact hpre p hp
      obtain ⟨i, hi⟩ := mem_iff_getElem?.mp ((hmem x).mpr ⟨hstored, hpre'⟩)
      rw [getElem?_take] at hi
      split_ifs at hi with hlt
      have hidx := (List.getElem?_inj (List.getElem?_eq_some_iff.mp hi).1 hnd).mp (hi.trans hx.symm)
      omega
    · rw [not_exists] at hcut
      rw [follow_of_not_cutAt hsorted hcount hnext _ none (by simp) hlen
        (by rw [above_none]; exact hcut), above_none] at hn
      obtain rfl := some.inj hn
      refine ⟨hcut, fun k hk p hp htrim => ?_⟩
      have hk' : k ∈ l := (hmemL k).mpr ⟨hk, fun q hq => mem_unique hp hq ▸ htrim⟩
      exact ((hmem k).mp hk').2 p hp
  · rintro ⟨hcut, htrim⟩
    refine ⟨l, ⟨l.length + 1, fun pages hpages => ?_⟩, hnd, fun k => ?_⟩
    · rw [follow_of_not_cutAt hsorted hcount hnext _ none (by simp) (by rw [above_none]; omega)
        (by rw [above_none]; exact hcut), above_none]
    · rw [hmemL]
      refine and_congr_right fun hk => forall₂_congr fun p hp => ?_
      exact ⟨htrim k hk p hp, startsWith_trimStars⟩

/-- The keys `0` and `1`. -/
def zeroOne : Shard MemoryStore :=
  ((⟨"s0", MemoryStore.new⟩ : Shard MemoryStore).writeObject coll "0" (.str "x")).writeObject coll "1"
    (.str "y")

/-- In pages of two keys, `0` is not the last one of its page. -/
theorem scan_visits_iff_zeroOne : ScanVisits 0 zeroOne none 2 := by
  have hkeys : keysIn 0 zeroOne.store coll none none = ["0", "1"] := by decide
  refine (scan_visits_iff 0 zeroOne none (by decide) (by decide)).mpr ⟨fun m hm => ?_, by simp⟩
  rw [map_none, hkeys] at hm
  obtain ⟨hm, hmod, hlt⟩ := hm
  have hm0 : m = 0 := by
    simp only [length_cons, length_nil] at hlt
    omega
  subst hm0
  exact absurd hmod (by decide)

/-- With `COUNT 1` the first page ends with the key `0`, which the client takes for the end. -/
theorem scan_stops_early :
    scanPage 0 zeroOne none 1 none = (["0"], none) ∧ (zeroOne.object 0 coll "1").isSome ∧
      ¬ScanVisits 0 zeroOne none 1 := by
  have hpage : scanPage 0 zeroOne none 1 none = (["0"], none) := by decide
  have hone : (zeroOne.object 0 coll "1").isSome := by decide
  refine ⟨hpage, hone, ?_⟩
  rintro ⟨keys, ⟨n, hn⟩, -, hmem⟩
  have hkeys := hn (n + 1) (Nat.le_succ n)
  rw [follow, hpage] at hkeys
  obtain rfl := some.inj hkeys
  have := (hmem "1").mpr ⟨hone, by simp⟩
  exact absurd this (by decide)

/-! ### `SET`, `GET` and the other commands on one key -/

section Commands

omit [LawfulCells St]

variable (codec : JsonCodec) (now : ℕ) (sh : Shard St) (k v : List UInt8)

theorem respond_get : respond codec now sh (utf8Bytes "GET") [k]
    = (sh, bulkValue codec (sh.object now coll (s k))) := by
  rw [respond, show upper (utf8Bytes "GET") = "GET" by decide]
  rfl

theorem respond_exists : respond codec now sh (utf8Bytes "EXISTS") [k]
    = (sh, int (if (sh.object now coll (s k)).isSome then 1 else 0 : ℕ)) := by
  rw [respond, show upper (utf8Bytes "EXISTS") = "EXISTS" by decide]
  rfl

theorem respond_type : respond codec now sh (utf8Bytes "TYPE") [k]
    = (sh, simple (typeName (sh.object now coll (s k)))) := by
  rw [respond, show upper (utf8Bytes "TYPE") = "TYPE" by decide]
  rfl

theorem respond_set : respond codec now sh (utf8Bytes "SET") [k, v]
    = (sh.writeObject coll (s k) (.str (s v)), simple "OK") := by
  rw [respond, show upper (utf8Bytes "SET") = "SET" by decide]
  rfl

theorem respond_getset : respond codec now sh (utf8Bytes "GETSET") [k, v]
    = (sh.writeObject coll (s k) (.str (s v)), bulkValue codec (sh.object now coll (s k))) := by
  rw [respond, show upper (utf8Bytes "GETSET") = "GETSET" by decide]
  rfl

end Commands

theorem object_writeObject (now : ℕ) (sh : Shard St) (k k' : String) (v : Value) :
    (sh.writeObject coll k v).object now coll k' = if k' = k then some v else sh.object now coll k' := by
  rw [Shard.object, Shard.writeObject, LawfulCells.getObject_putObject]
  simp [Shard.object]

/-- A bulk string can be told from its encoding: the digits end where the line does. -/
theorem bulk_inj {d d' : List UInt8} (h : bulk (some d) = bulk (some d')) : d = d' := by
  have hdigits : ∀ (n : ℕ) (rest : List UInt8),
      (utf8Bytes (toString n) ++ cr :: rest).takeWhile (fun b => decide (b ≠ cr))
        = utf8Bytes (toString n) := by
    intro n rest
    rw [takeWhile_append_of_pos, takeWhile_cons_of_neg (by simp), append_nil]
    intro b hb
    refine decide_eq_true fun hcr => ?_
    rw [hcr] at hb
    exact notMem_digits (by decide) hb
  have heq : utf8Bytes (toString d.length) ++ cr :: (lf :: (d ++ crlf))
      = utf8Bytes (toString d'.length) ++ cr :: (lf :: (d' ++ crlf)) := by
    simpa [bulk, crlf] using h
  have hlen := congrArg (takeWhile fun b => decide (b ≠ cr)) heq
  rw [hdigits, hdigits] at hlen
  rw [hlen] at heq
  have htail := append_cancel_left heq
  simp only [cons.injEq, true_and] at htail
  exact append_cancel_right htail

/-- `SET k v` is answered by `OK`; then `GET k` returns the bytes `v`, and what `GET`, `EXISTS` and
`TYPE` say of `k'` is what they said before.  `GETSET k v` returns what `GET k` returned before. -/
def BinarySafe (codec : JsonCodec) (now : ℕ) (sh : Shard St) (k v k' : List UInt8) : Prop :=
  let after := respond codec now sh (utf8Bytes "SET") [k, v]
  after.2 = simple "OK" ∧
  (respond codec now after.1 (utf8Bytes "GET") [k]).2 = bulk (some v) ∧
  (∀ cmd ∈ ["GET", "EXISTS", "TYPE"], (respond codec now after.1 (utf8Bytes cmd) [k']).2
    = (respond codec now sh (utf8Bytes cmd) [k']).2) ∧
  (respond codec now sh (utf8Bytes "GETSET") [k, v]).2
    = (respond codec now sh (utf8Bytes "GET") [k]).2

/-- **When the front end is binary safe**: the value is UTF-8, and the other key has another text; or
the key held a value, other than a set, that `GET` shows as the same bytes. -/
theorem binary_safe_iff (codec : JsonCodec) (now : ℕ) (sh : Shard St) (k v k' : List UInt8) :
    BinarySafe codec now sh k v k' ↔
      (fromUtf8 v).isSome ∧ (s k' ≠ s k ∨ ∃ old, sh.object now coll (s k) = some old ∧
        (∀ xs, old ≠ .arr xs) ∧ bulkValue codec (some old) = bulk (some v)) := by
  have hval : bulkValue codec (some (.str (s v))) = bulk (some v) ↔ (fromUtf8 v).isSome := by
    rw [isSome_iff_exists]
    constructor
    · exact fun h => ⟨s v, fromUtf8_eq_some.mpr (bulk_inj h)⟩
    · rintro ⟨t, ht⟩
      rw [← fromUtf8_eq_some.mp ht, s_utf8Bytes]
      rfl
  simp only [BinarySafe, respond_set, respond_get, respond_exists, respond_type, respond_getset,
    forall_mem_cons, not_mem_nil, false_imp_iff, implies_true, and_true, true_and,
    object_writeObject, if_true, hval]
  refine and_congr_right fun hutf8 => ?_
  by_cases hkey : s k' = s k
  · -- the two keys are one, so the old value has to look like the new one
    rw [hkey, if_pos rfl, hval.mpr hutf8]
    simp only [not_true_eq_false, false_or, ne_eq]
    constructor
    · rintro ⟨hget, hexists, htype⟩
      cases hold : sh.object now coll (s k) with
      | none =>
        rw [hold] at hexists
        have hdiff : int (1 : ℕ) ≠ int (0 : ℕ) := by decide
        exact absurd hexists hdiff
      | some old =>
        rw [hold] at hget htype
        refine ⟨old, rfl, ?_, hget.symm⟩
        rintro xs rfl
        have hdiff : simple "string" ≠ simple "set" := by decide
        exact hdiff htype
    · rintro ⟨old, hold, harr, hget⟩
      rw [hold]
      refine ⟨hget.symm, rfl, ?_⟩
      cases old with
      | arr xs => exact absurd rfl (harr xs)
      | _ => rfl
  · simp [hkey]

/-- A text value, and two keys of which one is not UTF-8. -/
theorem binary_safe_iff_text :
    BinarySafe sampleJson 0 (⟨"s0", MemoryStore.new⟩ : Shard MemoryStore) [107] [104, 105] [0xFF] :=
  (binary_safe_iff sampleJson 0 _ [107] [104, 105] [0xFF]).mpr ⟨by decide, Or.inl (by decide)⟩

/-- The byte `FF` comes back as the replacement character, and `SET` of the key `FF` makes the key `FE`
exist. -/
theorem set_get_replaced :
    let sh : Shard MemoryStore := ⟨"s0", MemoryStore.new⟩
    let set := respond sampleJson 0 sh (utf8Bytes "SET")
    (respond sampleJson 0 (set [[107], [0xFF]]).1 (utf8Bytes "GET") [[107]]).2
      = bulk (some [0xEF, 0xBF, 0xBD]) ∧
    (respond sampleJson 0 sh (utf8Bytes "EXISTS") [[0xFE]]).2 = int 0 ∧
    (respond sampleJson 0 (set [[0xFF], [104]]).1 (utf8Bytes "EXISTS") [[0xFE]]).2 = int 1 ∧
    ¬BinarySafe sampleJson 0 sh [107] [0xFF] [108] ∧
    ¬BinarySafe sampleJson 0 sh [0xFF] [104] [0xFE] := by
  intro sh set
  have hget : (respond sampleJson 0 (set [[107], [0xFF]]).1 (utf8Bytes "GET") [[107]]).2
      = bulk (some [0xEF, 0xBF, 0xBD]) := rfl
  have hbefore : (respond sampleJson 0 sh (utf8Bytes "EXISTS") [[0xFE]]).2 = int 0 := rfl
  have hafter : (respond sampleJson 0 (set [[0xFF], [104]]).1 (utf8Bytes "EXISTS") [[0xFE]]).2
      = int 1 := rfl
  refine ⟨hget, hbefore, hafter, fun h => ?_, fun h => ?_⟩
  · exact absurd (bulk_inj (hget.symm.trans h.2.1)) (by decide)
  · have heq := h.2.2.1 "EXISTS" (by decide)
    exact absurd (hafter.symm.trans (heq.trans hbefore)) (by decide)

/-! ### Sets -/

section Sets

open IndexStore

/-- The value is an array with a string and with an element that is no string. -/
def Mixed : Option Value → Prop
  | some (.arr xs) => (∃ x ∈ xs, x.asStr.isSome) ∧ ∃ x ∈ xs, x.asStr = none
  | _ => False

instance : ∀ v, Decidable (Mixed v)
  | some (.arr _) => inferInstanceAs (Decidable (_ ∧ _))
  | none | some .null | some (.bool _) | some (.int _) | some (.float _) | some (.str _)
  | some (.obj _) => inferInstanceAs (Decidable False)

variable {v : Option Value} (xs : List Value)

theorem mapM_asStr : xs.mapM Value.asStr
    = if ∀ x ∈ xs, x.asStr.isSome then some (xs.filterMap Value.asStr) else none := by
  induction xs with
  | nil => rfl
  | cons x xs ih =>
    rw [mapM_cons, ih]
    cases hx : x.asStr with
    | none => simp [hx]
    | some t =>
      simp only [forall_mem_cons, hx, isSome_some, true_and, filterMap_cons]
      split_ifs <;> rfl

/-- The members that the updates find. -/
theorem membersOf_arr : membersOf (some (.arr xs))
    = if ∀ x ∈ xs, x.asStr.isSome then xs.filterMap Value.asStr else [] := by
  rw [membersOf, bind_some, Value.asStrings, mapM_asStr]
  split_ifs <;> rfl

theorem membersOf_eq_queried (h : ¬Mixed v) : membersOf v = queriedMembers v := by
  cases v with
  | none => rfl
  | some v =>
    cases v with
    | arr xs =>
      rw [membersOf_arr, queriedMembers]
      split_ifs with hall
      · rfl
      · -- not all are strings, so none is
        rw [eq_comm, filterMap_eq_nil_iff]
        intro x hx
        by_contra hstr
        push Not at hall
        obtain ⟨y, hy, hno⟩ := hall
        exact h ⟨⟨x, hx, isSome_iff_ne_none.mpr hstr⟩, y, hy, by simpa using hno⟩
    | _ => rfl

theorem members_of_mixed (h : Mixed v) : membersOf v = [] ∧ queriedMembers v ≠ [] := by
  cases v with
  | none => exact h.elim
  | some v =>
    cases v with
    | arr xs =>
      obtain ⟨⟨x, hx, hstr⟩, y, hy, hno⟩ := h
      rw [membersOf_arr, queriedMembers, if_neg]
      · refine ⟨rfl, fun hnil => ?_⟩
        rw [filterMap_eq_nil_iff] at hnil
        rw [hnil x hx] at hstr
        cases hstr
      · intro hall
        have hy' := hall y hy
        rw [hno] at hy'
        cases hy'
    | _ => exact h.elim

theorem queriedMembers_ofStrings (xs : List String) :
    queriedMembers (some (Value.ofStrings xs)) = xs := by
  show (xs.map Value.str).filterMap Value.asStr = xs
  rw [filterMap_map]
  exact filterMap_some

/-- A count can be told from its encoding. -/
theorem int_inj {n n' : ℕ} : int n = int n' ↔ n = n' := by
  refine ⟨fun h => ?_, fun h => by rw [h]⟩
  have hbytes : utf8Bytes (toString n) ++ crlf = utf8Bytes (toString n') ++ crlf := (cons.inj h).2
  have htext := congrArg fromUtf8Lossy (append_cancel_right hbytes)
  rw [fromUtf8Lossy_utf8Bytes, fromUtf8Lossy_utf8Bytes, Nat.toString_eq_ofList_toDigits,
    Nat.toString_eq_ofList_toDigits] at htext
  have hvalue : ∀ n, Nat.ofDigitChars 10 (Nat.toDigits 10 n) 0 = n := fun n =>
    Nat.ofDigitChars_toDigits (by decide) (by decide)
  rw [← hvalue n, ← hvalue n', String.ofList_injective htext]

variable (codec : JsonCodec) (now : ℕ) (sh : Shard St) (key : String)

/-- The members that `SADD` and `SREM` find at the key. -/
def updatedMembers : List String := membersOf (sh.object now coll key)

omit [LawfulCells St] in
theorem setAdd_eq (m : String) : sh.setAdd now coll key m
    = if m ∈ updatedMembers now sh key then (sh, false)
      else (sh.writeObject coll key (Value.ofStrings (updatedMembers now sh key ++ [m])), true) := by
  unfold Shard.setAdd setAdd update Change.setAdd updatedMembers Shard.object
  dsimp only
  split_ifs <;> rfl

/-- One `SADD` after the other: nothing changes, or the key holds a set that has grown by the number of
members that were added. -/
theorem run_setAdds (ms : List String) : ∀ (sh : Shard St) (n : ℕ), ∃ added sh',
    (changeProg (.setAdd coll key) ms n).run (fun sh c => c.onShard now sh) sh
      = (sh', int (n + added : ℕ)) ∧
    (added = 0 ∧ sh' = sh ∧ (∀ m ∈ ms, m ∈ updatedMembers now sh key) ∨
      0 < added ∧ ∃ xs, sh'.object now coll key = some (Value.ofStrings xs) ∧
        xs.length = (updatedMembers now sh key).length + added) := by
  induction ms with
  | nil => exact fun sh n => ⟨0, sh, rfl, .inl ⟨rfl, rfl, by simp⟩⟩
  | cons m ms ih =>
    intro sh n
    have hrun : (changeProg (.setAdd coll key) (m :: ms) n).run (fun sh c => c.onShard now sh) sh
        = (changeProg (.setAdd coll key) ms (if (sh.setAdd now coll key m).2 then n + 1 else n)).run
          (fun sh c => c.onShard now sh) (sh.setAdd now coll key m).1 := rfl
    rw [hrun, setAdd_eq]
    by_cases hm : m ∈ updatedMembers now sh key
    · simp only [hm, if_true, Bool.false_eq_true, if_false, forall_mem_cons, true_and]
      exact ih sh n
    · simp only [hm, if_true, if_false]
      have hobj : (sh.writeObject coll key (Value.ofStrings (updatedMembers now sh key ++ [m]))).object
          now coll key = some (Value.ofStrings (updatedMembers now sh key ++ [m])) := by
        rw [object_writeObject, if_pos rfl]
      have hupdated : updatedMembers now
          (sh.writeObject coll key (Value.ofStrings (updatedMembers now sh key ++ [m]))) key
            = updatedMembers now sh key ++ [m] := by
        rw [updatedMembers, hobj, membersOf, bind_some, Value.asStrings_ofStrings]
        rfl
      obtain ⟨added, sh', hend, hgrown⟩ :=
        ih (sh.writeObject coll key (Value.ofStrings (updatedMembers now sh key ++ [m]))) (n + 1)
      refine ⟨added + 1, sh', by rw [hend, Nat.add_assoc, Nat.add_comm 1], .inr ⟨by omega, ?_⟩⟩
      rcases hgrown with ⟨rfl, rfl, -⟩ | ⟨-, xs, hxs, hlen⟩
      · exact ⟨_, hobj, length_append⟩
      · refine ⟨xs, hxs, ?_⟩
        rw [hlen, hupdated, length_append, length_singleton]
        omega

section Replies

omit [LawfulCells St]

variable (m : String)

theorem setRemove_snd :
    (sh.setRemove now coll key m).2 = decide (m ∈ updatedMembers now sh key) := by
  have hlen : ((updatedMembers now sh key).filter fun x => x ≠ m).length
      = (updatedMembers now sh key).length ↔ m ∉ updatedMembers now sh key := by
    rw [length_filter_eq_length_iff]
    constructor
    · exact fun h hm => by simpa using h m hm
    · intro hm x hx
      exact decide_eq_true fun he => hm (he ▸ hx)
  change (Change.setRemove m (sh.object now coll key)).2 = _
  rw [Change.setRemove, ← updatedMembers]
  by_cases hm : m ∈ updatedMembers now sh key
  · rw [if_neg (mt hlen.mp (not_not.mpr hm))]
    split_ifs <;> simp [hm]
  · rw [if_pos (hlen.mpr hm)]
    simp [hm]

theorem reply_sadd : (serve codec now sh (.sadd key [m])).2
    = int (if m ∈ updatedMembers now sh key then 0 else 1 : ℕ) := by
  show int (if (sh.setAdd now coll key m).2 then 0 + 1 else 0 : ℕ) = _
  rw [setAdd_eq]
  by_cases hm : m ∈ updatedMembers now sh key <;> simp [hm]

theorem reply_srem : (serve codec now sh (.srem key [m])).2
    = int (if m ∈ updatedMembers now sh key then 1 else 0 : ℕ) := by
  show int (if (sh.setRemove now coll key m).2 then 0 + 1 else 0 : ℕ) = _
  rw [setRemove_snd]
  simp

theorem reply_sismember : (serve codec now sh (.sismember key m)).2
    = int (if m ∈ queriedMembers (sh.object now coll key) then 1 else 0 : ℕ) := by
  show int (if m ∈ queriedMembers (sh.object now coll key) then 1 else 0) = _
  split_ifs <;> rfl

theorem reply_scard : (serve codec now sh (.scard key)).2
    = int (queriedMembers (sh.object now coll key)).length := rfl

end Replies

/-- What a client sees of the set at a key: `SADD` of a member returns 0 and `SREM` of it returns 1 iff
`SISMEMBER` returned 1 before, and `SCARD` grows by what `SADD` of some members returns. -/
def SetsAgree (m : String) (ms : List String) : Prop :=
  let reply req := (serve codec now sh req).2
  (reply (.sadd key [m]) = int 0 ↔ reply (.sismember key m) = int 1) ∧
  (reply (.srem key [m]) = int 1 ↔ reply (.sismember key m) = int 1) ∧
  ∃ a b : ℕ, reply (.sadd key ms) = int a ∧ reply (.scard key) = int b ∧
    (serve codec now (serve codec now sh (.sadd key ms)).1 (.scard key)).2 = int (b + a : ℕ)

/-- **When the queries and the updates see the same set.**  For every value at the key, every member
and every `SADD` of at least one member: iff the value is no array of which some elements are strings
and others are not. -/
theorem sets_agree_iff (m : String) {ms : List String} (hms : ms ≠ []) :
    SetsAgree codec now sh key m ms ↔ ¬Mixed (sh.object now coll key) := by
  set Q := queriedMembers (sh.object now coll key) with hQ
  obtain ⟨added, sh', hadds, hgrown⟩ := run_setAdds now key ms sh 0
  rw [Nat.zero_add] at hadds
  have hcard : SetsAgree codec now sh key m ms ↔ (m ∈ updatedMembers now sh key ↔ m ∈ Q) ∧
        (queriedMembers (sh'.object now coll key)).length = Q.length + added := by
    have hadd : serve codec now sh (.sadd key ms) = (sh', int (added : ℕ)) := hadds
    have h₀ : int 0 = int (0 : ℕ) := rfl
    have h₁ : int 1 = int (1 : ℕ) := rfl
    simp only [SetsAgree, reply_sadd, reply_srem, reply_sismember, reply_scard, hadd, ← hQ, h₀,
      h₁, int_inj]
    have hmember : ∀ p q : Prop, [Decidable p] → [Decidable q] →
        (((if p then 0 else 1) = 0 ↔ (if q then 1 else 0) = 1) ↔ (p ↔ q)) ∧
          (((if p then 1 else 0) = 1 ↔ (if q then 1 else 0) = 1) ↔ (p ↔ q)) := by
      intro p q _ _
      by_cases hp : p <;> by_cases hq : q <;> simp [hp, hq]
    rw [(hmember _ _).1, (hmember _ _).2, ← and_assoc, and_self]
    refine and_congr_right fun _ => ?_
    constructor
    · rintro ⟨a, b, rfl, rfl, h⟩
      exact h
    · exact fun h => ⟨_, _, rfl, rfl, h⟩
  rw [hcard]
  by_cases hmixed : Mixed (sh.object now coll key)
  · obtain ⟨hnone, hsome⟩ := members_of_mixed hmixed
    refine iff_of_false ?_ (not_not.mpr hmixed)
    rintro ⟨-, hcount⟩
    rcases hgrown with ⟨-, -, hall⟩ | ⟨-, xs, hxs, hlen⟩
    · obtain ⟨x, hx⟩ := exists_mem_of_ne_nil ms hms
      have hmem := hall x hx
      rw [updatedMembers, hnone] at hmem
      cases hmem
    · rw [hxs, queriedMembers_ofStrings, hlen, updatedMembers, hnone] at hcount
      exact hsome (length_eq_zero_iff.mp (by simpa using hcount))
  · refine iff_of_true ?_ hmixed
    have hsame : updatedMembers now sh key = Q := membersOf_eq_queried hmixed
    refine ⟨by rw [hsame], ?_⟩
    rcases hgrown with ⟨rfl, rfl, -⟩ | ⟨-, xs, hxs, hlen⟩
    · rfl
    · rw [hxs, queriedMembers_ofStrings, hlen, hsame]

end Sets

/-- A shard with one value in the collection of the front end. -/
def holding (v : Value) : Shard MemoryStore := ⟨"s0", putObject MemoryStore.new coll "k" v⟩

theorem sets_agree_repeated :
    SetsAgree sampleJson 0 (holding (.arr [.str "a", .str "a"])) "k" "a" ["a", "b"] :=
  (sets_agree_iff sampleJson 0 _ "k" "a" (by decide)).mpr (by decide)

/-- The array `["a", 1]` has the member `a` for `SISMEMBER`, and none for `SADD`. -/
theorem mixed_array_disagrees :
    let sh := holding (.arr [.str "a", .int 1])
    let reply req := (serve sampleJson 0 sh req).2
    reply (.sismember "k" "a") = int 1 ∧ reply (.sadd "k" ["a"]) = int 1 ∧
      reply (.srem "k" ["a"]) = int 0 ∧ reply (.scard "k") = int 1 ∧
      (serve sampleJson 0 (serve sampleJson 0 sh (.sadd "k" ["a"])).1 (.scard "k")).2 = int 1 := by
  decide +kernel

end Resp

end Stplr
