import Stplr.Equiv.Form
import Stplr.Transport

/-!
# The HTTP server of a shard

A request is read by the server as it was meant: for each call `served_*` gives the shard after it
and the response.  Values are printed and scanned on the way.  `Wire.arrive` is what comes out, if
it can be read at all, at a given depth inside the request or the response.
-/

namespace Stplr

open Lib List
open Server (cas deleteObject dropBuckets exportEntries importEntries incr leaseAcquire scanBuckets setAdd setRemove write)
open Json (fieldValue list? ofValue recursionLimit toValue)
open FieldType (accepts isString)
open Option (bind_some some)

/-! ### Documents -/

namespace Wire

variable (w : Wire) (depth : ℕ) (name : String) (xs : List Json) (v : Value)

theorem scans_eq : w.scans xs = xs.map w.scan := by
  induction xs with
  | nil => rfl
  | cons x xs ih => rw [scans, ih, map_cons]

theorem scan_strings (xs : List String) : w.scan (strings xs) = strings xs := by
  rw [strings, scan, scans_eq, map_map]
  congr 1

theorem scan_numbers (ns : List ℕ) : w.scan (numbers ns) = numbers ns := by
  rw [numbers, scan, scans_eq, map_map]
  congr 1

/-- A value as it arrives inside `depth` arrays and objects. -/
def arrive (depth : ℕ) (v : Value) : Option Value :=
  (w.scan (.ofValue v)).toValue (Json.recursionLimit - depth)

@[simp] theorem arrive_null : w.arrive depth .null = some .null := by
  rw [arrive, ofValue, scan, toValue]

@[simp] theorem arrive_bool (b : Bool) : w.arrive depth (.bool b) = some (.bool b) := by
  rw [arrive, ofValue, scan, toValue]

@[simp] theorem arrive_int (n : ℤ) : w.arrive depth (.int n) = some (.int n) := by
  rw [arrive, ofValue, scan, toValue]

@[simp] theorem arrive_str (s : String) : w.arrive depth (.str s) = some (.str s) := by
  rw [arrive, ofValue, scan, toValue]

theorem toValues_eq : Json.toValues depth xs = xs.mapM (Json.toValue depth) := by
  induction xs with
  | nil => rfl
  | cons x xs ih =>
    rw [Json.toValues, ih, mapM_cons]

theorem ofValues_eq (xs : List Value) : Json.ofValues xs = xs.map Json.ofValue := by
  induction xs with
  | nil => rfl
  | cons x xs ih => rw [Json.ofValues, ih, map_cons]

theorem arrive_arr {depth : ℕ} (hdepth : depth < 127) (xs : List Value) :
    w.arrive depth (.arr xs) = (xs.mapM (w.arrive (depth + 1))).map .arr := by
  have hlimit : ¬recursionLimit - depth ≤ 1 := by
    unfold recursionLimit
    omega
  have hnext : recursionLimit - depth - 1 = recursionLimit - (depth + 1) := by omega
  rw [arrive, ofValue, scan, toValue, if_neg hlimit, hnext, toValues_eq, ofValues_eq,
    scans_eq, map_map, mapM_map]
  rfl

/-! ### Responses -/

theorem toFields_cons (k : String) (x : Json) (fields : List (String × Json))
    (m : SortedMap String Value) : Json.toFields depth ((k, x) :: fields) m
      = (x.toValue depth).bind fun v => Json.toFields depth fields (m.put k v) := by
  rw [Json.toFields]
  rfl

/-- A response of one field. -/
theorem response_single :
    (w.scan (.ofValue (.obj [(name, v)]))).asValue
      = (w.arrive 1 v).map fun v' => .obj [(name, v')] := by
  have hlimit : ¬recursionLimit ≤ 1 := by decide
  rw [Json.asValue, ofValue, scan, toValue, if_neg hlimit, Json.ofFields, Json.ofFields,
    scanFields, scanFields, toFields_cons]
  change (Option.bind (w.arrive 1 v) _).map _ = _
  cases w.arrive 1 v with
  | none => rfl
  | some v' => rw [bind_some, Json.toFields]; rfl

theorem get?_single : Value.get? name (.obj [(name, v)]) = some v := by
  simp [Value.get?]

end Wire

/-! ### Requests -/

/-- What arrives for an `Option<Value>`: null is nothing. -/
def Wire.arriveOption (w : Wire) : Option Value → Option (Option Value)
  | none | some .null => some none
  | some v => (w.arrive 1 v).map some

/-- What arrives for entries. -/
def Wire.arriveEntries (w : Wire) (es : List (String × Value)) : Option (List (String × Value)) :=
  es.mapM fun e => (w.arrive 3 e.2).map (e.1, ·)

namespace Server

variable (w : Wire)

theorem readBody_post (fs : List Field) (path : String) (fields : List (String × Json)) :
    readBody fs (w.post path fields)
      = if w.size (.obj fields) ≤ jsonLimit then readStruct fs (w.scan (.obj fields)) else none := by
  simp [readBody, Wire.post]

/-! Each type accepts what the client sends for it. -/

section Accepts

variable {name : String} {nullable hasDefault : Bool}

@[simp] theorem accepts_string (s : String) :
    Field.accepts ⟨name, .string, nullable, hasDefault⟩ (.str s) = true := rfl

@[simp] theorem accepts_null (type : FieldType) :
    Field.accepts ⟨name, type, true, hasDefault⟩ .null = true := rfl

@[simp] theorem accepts_strings (xs : List String) :
    Field.accepts ⟨name, .strings, nullable, hasDefault⟩ (Wire.strings xs) = true := by
  show (xs.map Json.str).all isString = true
  simp [isString]

theorem isInt_of_mem {low high n : ℤ} (hlow : low ≤ n) (hhigh : n < high) :
    FieldType.isInt low high (.int n) = true := by
  simp [FieldType.isInt, hlow, hhigh]

variable {n : ℕ}

theorem isInt_natCast (hn : n < 2 ^ 64) : FieldType.isInt 0 (2 ^ 64) (.int n) = true := by
  have hlt : (n : ℤ) < 2 ^ 64 := by exact_mod_cast hn
  exact isInt_of_mem (Int.natCast_nonneg n) hlt

theorem accepts_u64 (hn : n < 2 ^ 64) :
    Field.accepts ⟨name, .u64, nullable, hasDefault⟩ (.int n) = true := by
  rw [Field.accepts, accepts]
  · exact isInt_natCast hn
  · simp

theorem accepts_usize (hn : n < 2 ^ 64) :
    Field.accepts ⟨name, .usize, nullable, hasDefault⟩ (.int n) = true := by
  rw [Field.accepts, accepts]
  · exact isInt_natCast hn
  · simp

theorem accepts_i64 {n : ℤ} (hlow : -2 ^ 63 ≤ n) (hhigh : n < 2 ^ 63) :
    Field.accepts ⟨name, .i64, nullable, hasDefault⟩ (.int n) = true := by
  rw [Field.accepts, accepts]
  · exact isInt_of_mem hlow hhigh
  · simp

theorem accepts_numbers {ns : List ℕ} (hns : ∀ n ∈ ns, n < 2 ^ 64) :
    Field.accepts ⟨name, .usizes, nullable, hasDefault⟩ (Wire.numbers ns) = true := by
  rw [Wire.numbers, Field.accepts, accepts]
  · rw [FieldType.isArray, all_map, all_eq_true]
    intro n hn
    rw [Function.comp_apply]
    exact isInt_natCast (hns n hn)
  · simp

theorem accepts_value (doc : Json) :
    Field.accepts ⟨name, .value, nullable, hasDefault⟩ doc = doc.fieldValue.isSome := by
  cases doc with
  | null => simp [Field.accepts, accepts, fieldValue, toValue]
  | _ => rfl

end Accepts

theorem list?_strings (xs : List String) :
    Json.list? Json.string? (Wire.strings xs) = some xs := by
  rw [Wire.strings, list?]
  induction xs with
  | nil => rfl
  | cons x xs ih => rw [map_cons, mapM_cons, ih]; rfl

theorem list?_numbers (ns : List ℕ) : Json.list? Json.nat? (Wire.numbers ns) = some ns := by
  rw [Wire.numbers, list?]
  induction ns with
  | nil => rfl
  | cons n ns ih => rw [map_cons, mapM_cons, ih]; rfl

variable (es : List (String × Value))

theorem scan_pairs : w.scan (Wire.pairs es)
    = .arr (es.map fun e => .arr [.str e.1, w.scan (.ofValue e.2)]) := by
  rw [Wire.pairs, Wire.scan, Wire.scans_eq, map_map]
  congr 1

theorem list?_pairs : Json.list? Json.entry? (w.scan (Wire.pairs es)) = w.arriveEntries es := by
  rw [scan_pairs, list?, mapM_map]
  rfl

theorem accepts_pairs (name : String) (es : List (String × Value)) :
    Field.accepts (.required name .entries) (w.scan (Wire.pairs es))
      = (w.arriveEntries es).isSome := by
  have hone : ∀ v, ((w.scan (.ofValue v)).toValue (recursionLimit - 1 - 2)) = w.arrive 3 v :=
    fun v => rfl
  rw [scan_pairs, Wire.arriveEntries]
  simp only [Field.accepts, Field.required, accepts, FieldType.isArray, all_map]
  induction es with
  | nil => rfl
  | cons e es ih =>
    rw [all_cons, ih, mapM_cons]
    simp only [Function.comp_apply, isString, Bool.true_and, hone]
    cases w.arrive 3 e.2 with
    | none => rfl
    | some v =>
      cases es.mapM fun e => (w.arrive 3 e.2).map (e.1, ·) with
      | none => rfl
      | some es' => rfl

end Server

/-! ### The handlers -/

/-- The request for the call is one that the client can send and the server takes: its URI is not too
long, nor its body. -/
def Wire.Fits (w : Wire) (call : ShardCall) : Prop :=
  ∃ req, w.request call = some req ∧ req.body.size ≤ jsonLimit

/-- The numbers of the call fit their types. -/
def ShardCall.Typed : ShardCall → Prop
  | .scanRange _ _ _ _ limit => limit < 2 ^ 64
  | .scanBuckets _ bs _ limit => (∀ b ∈ bs, b < 2 ^ 64) ∧ limit < 2 ^ 64
  | .writeObjectTtl _ _ _ ttl | .leaseAcquire _ _ ttl => ttl < 2 ^ 64
  | .incr _ _ delta => -2 ^ 63 ≤ delta ∧ delta < 2 ^ 63
  | .exportEntries _ bs | .dropBuckets _ bs => ∀ b ∈ bs, b < 2 ^ 64
  | _ => True

/-- The call that the server makes: limits are capped, a zero ttl is none, and the values are those
that arrive. -/
def Wire.arrived (w : Wire) : ShardCall → Option ShardCall
  | .scanRange c after start stop limit => some (.scanRange c after start stop (min limit scanCap))
  | .scanBuckets c bs after limit => some (.scanBuckets c bs after (min limit Server.scanBucketsCap))
  | .writeObject c k v => (w.arrive 1 v).map (.writeObject c k)
  | .writeObjectTtl c k v ttl =>
    (w.arrive 1 v).map fun v' => if 0 < ttl then .writeObjectTtl c k v' ttl else .writeObject c k v'
  | .writeBatch _ => none
  | .cas c k expect new => (w.arriveOption expect).bind fun expect' =>
      (w.arrive 1 new).map (.cas c k expect')
  | .importEntries c es => (w.arriveEntries es).map (.importEntries c)
  | call => some call

namespace Wire

variable {w : Wire} {call : ShardCall}

section Handlers

open Server

theorem fits_post {path : String} {fields : List (String × Json)}
    (hreq : w.request call = some (w.post path fields)) :
    w.Fits call ↔ w.size (.obj fields) ≤ jsonLimit := by
  rw [Fits, hreq]
  simp [post]

/-- A `GET` has no body. -/
theorem size_of_get {req : Request} (hreq : w.request call = some req) (hget : req.method = .get) :
    req.body.size ≤ jsonLimit := by
  have hempty : ∀ {path form}, w.get path form = some req → req.body.size ≤ jsonLimit := by
    intro path form h
    unfold get at h
    split_ifs at h
    obtain rfl := some.inj h
    exact Nat.zero_le _
  cases call with
  | object => exact hempty hreq
  | scanRange => exact hempty hreq
  | writeBatch => cases hreq
  | _ =>
    obtain rfl := some.inj hreq
    cases hget

/-- A body that is too long is rejected. -/
theorem callOf_of_not_fits (h : ¬w.Fits call) : (w.request call).bind callOf = none := by
  cases hreq : w.request call with
  | none => rfl
  | some req =>
    have hsize : ¬(req.isJson ∧ req.body.size ≤ jsonLimit) := fun hs => h ⟨req, hreq, hs.2⟩
    have hget : req.method ≠ .get := fun hm => h ⟨req, hreq, size_of_get hreq hm⟩
    have hbody : ∀ fs, readBody fs req = none := fun fs => if_neg hsize
    rw [bind_some, callOf]
    split
    all_goals first
      | exact absurd (by assumption) hget
      | simp [mget, scanBuckets, setAdd, setRemove, setCall, write, cas, incr, deleteObject,
          exportEntries, importEntries, dropBuckets, bucketCall, leaseAcquire, hbody]

attribute [local simp] scan scanFields readStruct Field.required Field.optional Field.defaulted
  Field.read field option Json.string? Json.int? Json.nat? List.lookup_cons

/-- A field that holds a value. -/
theorem fieldValue_scan (v : Value) : (w.scan (.ofValue v)).fieldValue = w.arrive 1 v := rfl

variable {c k : String} {v : Value}

theorem callOf_scanBuckets {bs : List ℕ} {after : Option String} {limit : ℕ}
    (hbs : ∀ b ∈ bs, b < 2 ^ 64) (hlimit : limit < 2 ^ 64) (h : w.Fits (.scanBuckets c bs after limit)) :
    (w.request (.scanBuckets c bs after limit)).bind callOf = w.arrived (.scanBuckets c bs after limit) := by
  have hsize := (fits_post rfl).mp h
  rw [request, bind_some]
  show scanBuckets _ = _
  rw [scanBuckets, readBody_post, if_pos hsize]
  cases after with
  | none | some a => simp [scanBucketsBody, scan_numbers, accepts_numbers hbs, list?_numbers,
      accepts_usize hlimit, arrived]

theorem callOf_writeObject (h : w.Fits (.writeObject c k v)) :
    (w.request (.writeObject c k v)).bind callOf = w.arrived (.writeObject c k v) := by
  have hsize := (fits_post rfl).mp h
  rw [request, bind_some, arrived]
  show write _ = _
  rw [write, readBody_post, if_pos hsize]
  cases hv : w.arrive 1 v with
  | none | some v' => simp [writeBody, accepts_value, fieldValue_scan, hv]

theorem callOf_writeObjectTtl {ttl : ℕ} (httl : ttl < 2 ^ 64) (h : w.Fits (.writeObjectTtl c k v ttl)) :
    (w.request (.writeObjectTtl c k v ttl)).bind callOf = w.arrived (.writeObjectTtl c k v ttl) := by
  have hsize := (fits_post rfl).mp h
  rw [request, bind_some, arrived]
  show write _ = _
  rw [write, readBody_post, if_pos hsize]
  cases hv : w.arrive 1 v with
  | none => simp [writeBody, accepts_value, fieldValue_scan, hv]
  | some v' =>
    by_cases hpos : 0 < ttl <;>
      simp [writeBody, accepts_value, accepts_u64 httl, fieldValue_scan, hv, hpos]

theorem option_expect (b : List (String × Option Json)) (expect : Option Value)
    (hb : b.lookup "expect" = some (some (w.scan (expect.elim .null .ofValue)))) :
    Server.option b "expect" Json.fieldValue = w.arriveOption expect := by
  rw [Server.option, hb]
  cases expect with
  | none => rfl
  | some v => cases v <;> rfl

theorem fieldValue_expect (expect : Option Value) :
    (w.scan (expect.elim .null .ofValue)).fieldValue.isSome = (w.arriveOption expect).isSome := by
  cases expect with
  | none => rfl
  | some v =>
    rw [Option.elim_some, fieldValue_scan]
    cases v with
    | null => rfl
    | _ => simp [arriveOption]

theorem callOf_cas {expect : Option Value} {new : Value} (h : w.Fits (.cas c k expect new)) :
    (w.request (.cas c k expect new)).bind callOf = w.arrived (.cas c k expect new) := by
  have hsize := (fits_post rfl).mp h
  rw [request, bind_some, arrived]
  show cas _ = _
  rw [cas, readBody_post, if_pos hsize]
  have haccept := fieldValue_expect (w := w) expect
  cases hn : w.arrive 1 new with
  | none => cases he : w.arriveOption expect <;>
      simp [casBody, accepts_value, haccept, he, fieldValue_scan, hn]
  | some new' =>
    have hread : readStruct casBody (w.scan (.obj [("coll", .str c), ("key", .str k),
        ("expect", expect.elim .null .ofValue), ("new", .ofValue new)]))
        = if (w.arriveOption expect).isSome then some [("coll", some (.str c)), ("key", some (.str k)),
          ("expect", some (w.scan (expect.elim .null .ofValue))),
          ("new", some (w.scan (.ofValue new)))] else none := by
      cases he : w.arriveOption expect <;>
        simp [casBody, accepts_value, haccept, he, fieldValue_scan, hn]
    rw [hread]
    cases he : w.arriveOption expect with
    | none => rfl
    | some expect' =>
      simp [-Server.option, option_expect (w := w) _ expect, he, fieldValue_scan, hn]

theorem callOf_importEntries {es : List (String × Value)} (h : w.Fits (.importEntries c es)) :
    (w.request (.importEntries c es)).bind callOf = w.arrived (.importEntries c es) := by
  have hsize := (fits_post rfl).mp h
  rw [request, bind_some, arrived]
  show importEntries _ = _
  rw [importEntries, readBody_post, if_pos hsize]
  have haccept := accepts_pairs w "entries" es
  have hlist := list?_pairs w es
  rw [Field.required] at haccept
  cases hes : w.arriveEntries es with
  | none => simp [importBody, haccept, hes]
  | some es' => simp [importBody, haccept, hlist, hes]

theorem callOf_scanRange {after start stop : Option String} {limit : ℕ} (husize : limit < 2 ^ 64)
    (h : w.Fits (.scanRange c after start stop limit)) :
    (w.request (.scanRange c after start stop limit)).bind callOf
      = w.arrived (.scanRange c after start stop limit) := by
  obtain ⟨req, hreq, -⟩ := h
  rw [hreq, bind_some, arrived]
  simp only [request, get, Option.ite_none_right_eq_some, some.injEq] at hreq
  obtain ⟨-, rfl⟩ := hreq
  show Server.scan _ = _
  rw [Server.scan, Option.getD_some, parseForm_encodeForm (by simp)]
  have hparse := parseUsize_toString husize
  generalize toString limit = digits at hparse
  cases after <;> cases start <;> cases stop
  all_goals simp [requiredField, formField, hparse]

/-- **What the server makes of a request** that is not too long is the call that arrives. -/
theorem callOf_request (htyped : call.Typed) (h : w.Fits call) :
    (w.request call).bind callOf = w.arrived call := by
  have hpost : ∀ {path fields}, w.request call = some (w.post path fields) → ∀ fs,
      readBody fs (w.post path fields) = readStruct fs (w.scan (.obj fields)) := fun hreq fs => by
    rw [readBody_post, if_pos ((fits_post hreq).mp h)]
  cases call with
  | object c k =>
    obtain ⟨req, hreq, -⟩ := h
    rw [hreq, bind_some]
    simp only [request, get, Option.ite_none_right_eq_some, some.injEq] at hreq
    obtain ⟨-, rfl⟩ := hreq
    have hform : parseForm (encodeForm [("coll", c), ("key", k)]) = [("coll", c), ("key", k)] :=
      parseForm_encodeForm (by simp)
    show Server.object _ = _
    simp [Server.object, hform, requiredField, formField, arrived]
  | scanRange => exact callOf_scanRange htyped h
  | scanBuckets => exact callOf_scanBuckets htyped.1 htyped.2 h
  | writeObject => exact callOf_writeObject h
  | writeObjectTtl => exact callOf_writeObjectTtl htyped h
  | writeBatch => rfl
  | cas => exact callOf_cas h
  | importEntries => exact callOf_importEntries h
  | mget c ks =>
    show mget _ = _
    simp [mget, hpost rfl, mgetBody, scan_strings, list?_strings, arrived]
  | setAdd =>
    show setAdd _ = _
    simp [setAdd, setCall, hpost rfl, setBody, arrived]
  | setRemove =>
    show setRemove _ = _
    simp [setRemove, setCall, hpost rfl, setBody, arrived]
  | deleteObject =>
    show deleteObject _ = _
    simp [deleteObject, hpost rfl, deleteBody, arrived]
  | incr =>
    show incr _ = _
    simp [incr, hpost rfl, incrBody, accepts_i64 htyped.1 htyped.2, arrived]
  | exportEntries =>
    show exportEntries _ = _
    simp [exportEntries, bucketCall, hpost rfl, bucketBody, scan_numbers, accepts_numbers htyped,
      list?_numbers, arrived]
  | dropBuckets =>
    show dropBuckets _ = _
    simp [dropBuckets, bucketCall, hpost rfl, bucketBody, scan_numbers, accepts_numbers htyped,
      list?_numbers, arrived]
  | leaseAcquire =>
    show leaseAcquire _ = _
    simp [leaseAcquire, hpost rfl, leaseBody, accepts_u64 htyped, arrived]

end Handlers

end Wire

end Stplr
