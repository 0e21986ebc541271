import Stplr.Lib.Mealy
import Stplr.Lmdb
import Stplr.Scan

/-!
# The calls of a shard

The shard operations as data (`ShardCall`, `ShardAnswer`), run on a shard whose store is given by the
trait (`ShardCall.onShard`) and on one over the durable store (`ShardCall.onLmdb`).

The durable store has its own `scan_range`, a cursor over the ordered keys, which leaves no key out
because it has expired (`isExpiredInside`).  The other operations that a shard adds to its store are the
same code again, over a store whose reads fill the handle cache and whose writes may panic.
-/

namespace Stplr

open Lib

namespace LmdbStore

variable {T : Type} [Text T]

/-- `std::ops::Bound`, as the lower bound of a range. -/
inductive Lower where
  | excluded (k : String)
  | included (k : String)
  | unbounded

/-- The tighter of the cursor and the prefix. -/
def lower : Option String → Option String → Lower
  | some a, some p => if p ≤ a then .excluded a else .included p
  | some a, none => .excluded a
  | none, some p => .included p
  | none, none => .unbounded

/-- A key that a cursor placed at the bound has passed. -/
def Lower.passes : Lower → String → Bool
  | .excluded a, k => k ≤ a
  | .included p, k => k < p
  | .unbounded, _ => false

/-- `is_expired` inside a walk.  The read transaction of the walk is open, and LMDB refuses the thread a
second one: the handle of the expiry times is fetched, and then no expiry is found. -/
def isExpiredInside (s : LmdbStore T) : LmdbStore T × Bool :=
  if s.hasAnyTtl then ((s.readDb expDb).1, false) else (s, false)

/-- The walk of the cursor: it ends at the limit, at `stop` and with the prefix range. -/
def scanLoop (start stop : Option String) (limit : ℕ) (checkTtl : Bool) :
    LmdbStore T → List String → List String → LmdbStore T × List String
  | s, [], out => (s, out)
  | s, k :: ks, out =>
    if limit ≤ out.length then (s, out)
    else if stop.any (· ≤ k) then (s, out)
    else if start.any fun p => !startsWith k p then (s, out)
    else
      let r := if checkTtl then s.isExpiredInside else (s, false)
      if r.2 then scanLoop start stop limit checkTtl r.1 ks out
      else scanLoop start stop limit checkTtl r.1 ks (out ++ [k])

def scanRange (s : LmdbStore T) (coll : String) (after start stop : Option String)
    (limit : ℕ) : LmdbStore T × List String :=
  let r := s.readDb (objDb coll)
  if r.2 then
    let keys := ((r.1.disk.entries (objDb coll)).map Prod.fst).insertionSort (· ≤ ·)
    scanLoop start stop limit r.1.hasAnyTtl r.1 (keys.dropWhile (lower after start).passes) []
  else (r.1, [])

/-- What the trait would do: all the keys are collected, sorted and filtered. -/
def scanRangeDefault (now : ℕ) (s : LmdbStore T) (coll : String) (after start stop : Option String)
    (limit : ℕ) : LmdbStore T × List String :=
  let r := s.scanEntries now coll
  let keys := above after ((r.2.map Prod.fst).insertionSort (· ≤ ·))
  (r.1, ((keys.filter fun k => start.all (startsWith k)).filter fun k => stop.all (k < ·)).take limit)

/-! ### The shard over the durable store -/

def scanBuckets (s : LmdbStore T) (coll : String) (buckets : List ℕ)
    (after : Option String) (limit : ℕ) : LmdbStore T × List String :=
  let pages := (s.disk.entries (objDb coll)).length + 1
  gatherPages (fun s cursor => s.scanRange coll cursor none none scanChunk) scanChunk
    (fun k => bucketOf k ∈ buckets) limit pages s after []

/-- The expiry is the sum of two `u64`s, which wraps. -/
def writeObjectTtl (now : ℕ) (s : LmdbStore T) (coll key : String) (obj : Value) (ttlMs : ℕ) :
    Option (LmdbStore T) :=
  if ttlMs = 0 then s.putObject coll key obj
  else s.putObjectAt coll key obj (UInt64.ofNat (now + ttlMs))

def exportEntries (now : ℕ) (s : LmdbStore T) (coll : String) (buckets : List ℕ) :
    LmdbStore T × List (String × Value) :=
  let r := s.scanEntries now coll
  (r.1, r.2.filter fun e => bucketOf e.1 ∈ buckets)

def importEntries (s : LmdbStore T) (coll : String) (entries : List (String × Value)) :
    Option (LmdbStore T) :=
  entries.foldlM (fun s e => s.putObject coll e.1 e.2) s

def dropBuckets (now : ℕ) (s : LmdbStore T) (coll : String) (buckets : List ℕ) :
    Option (LmdbStore T × ℕ) :=
  let r := s.exportEntries now coll buckets
  let ids := r.2.map Prod.fst
  (ids.foldlM (fun (s : LmdbStore T) id => s.deleteObject coll id) r.1).map fun s => (s, ids.length)

end LmdbStore

/-- A call of a shard. -/
inductive ShardCall where
  | object (coll key : String)
  | mget (coll : String) (keys : List String)
  | scanRange (coll : String) (after start stop : Option String) (limit : ℕ)
  | scanBuckets (coll : String) (buckets : List ℕ) (after : Option String) (limit : ℕ)
  | setAdd (coll key member : String)
  | setRemove (coll key member : String)
  | writeObject (coll key : String) (obj : Value)
  | writeObjectTtl (coll key : String) (obj : Value) (ttlMs : ℕ)
  | writeBatch (items : List (String × String × Value))
  | deleteObject (coll key : String)
  | cas (coll key : String) (expect : Option Value) (new : Value)
  | incr (coll key : String) (delta : ℤ)
  | exportEntries (coll : String) (buckets : List ℕ)
  | importEntries (coll : String) (entries : List (String × Value))
  | dropBuckets (coll : String) (buckets : List ℕ)
  | leaseAcquire (key holder : String) (ttlMs : ℕ)

/-- What a call returns.  An export lists its entries in any order. -/
inductive ShardAnswer where
  | done
  | value (v : Option Value)
  | values (vs : List (Option Value))
  | keys (ks : List String)
  | flag (b : Bool)
  | number (n : Option ℤ)
  | entries (es : Multiset (String × Value))
  | count (n : ℕ)
  | lease (outcome : LeaseOutcome)

namespace ShardAnswer

/-- The value that an `object` call returned. -/
def object : ShardAnswer → Option Value
  | .value v => v
  | _ => none

/-- The keys that a scan returned. -/
def found : ShardAnswer → List String
  | .keys ks => ks
  | _ => []

/-- What a set operation or a `cas` returned. -/
def holds : ShardAnswer → Bool
  | .flag b => b
  | _ => false

/-- What an `incr` returned. -/
def sum : ShardAnswer → Option ℤ
  | .number n => n
  | _ => none

end ShardAnswer

namespace ShardCall

/-- The collections that the call names. -/
def colls : ShardCall → List String
  | .object c _ | .mget c _ | .scanRange c _ _ _ _ | .scanBuckets c _ _ _ | .setAdd c _ _
  | .setRemove c _ _ | .writeObject c _ _ | .writeObjectTtl c _ _ _ | .deleteObject c _
  | .cas c _ _ _ | .incr c _ _ | .exportEntries c _ | .importEntries c _ | .dropBuckets c _ => [c]
  | .writeBatch items => items.map Prod.fst
  | .leaseAcquire _ _ _ => [leaseColl]

/-- The keys that the call may write or delete, with their collections. -/
def keys : ShardCall → List (String × String)
  | .setAdd c k _ | .setRemove c k _ | .writeObject c k _ | .writeObjectTtl c k _ _
  | .deleteObject c k | .cas c k _ _ | .incr c k _ => [(c, k)]
  | .writeBatch items => items.map fun item => (item.1, item.2.1)
  | .importEntries c es => es.map fun e => (c, e.1)
  | .leaseAcquire k _ _ => [(leaseColl, k)]
  | .object _ _ | .mget _ _ | .scanRange _ _ _ _ _ | .scanBuckets _ _ _ _ | .exportEntries _ _
  | .dropBuckets _ _ => []

/-- No collection has a NUL in its name, and LMDB takes the keys and their expiry keys. -/
def InLimits (call : ShardCall) : Prop := (∀ c ∈ call.colls, '\x00' ∉ c.toList) ∧
    ∀ p ∈ call.keys, LmdbStore.ValidKey p.2 ∧ LmdbStore.ValidKey (LmdbStore.expKey p.1 p.2)

instance (call : ShardCall) : Decidable call.InLimits := inferInstanceAs (Decidable (_ ∧ _))

/-- The call on a shard. -/
def onShard {St : Type} [IndexStore St] (now : ℕ) (sh : Shard St) :
    ShardCall → Shard St × ShardAnswer
  | .object c k => (sh, .value (sh.object now c k))
  | .mget c ks => (sh, .values (sh.mget now c ks))
  | .scanRange c after start stop limit => (sh, .keys (sh.scanRange now c after start stop limit))
  | .scanBuckets c bs after limit => (sh, .keys (sh.scanBuckets now c bs after limit))
  | .setAdd c k m => (sh.setAdd now c k m).map id .flag
  | .setRemove c k m => (sh.setRemove now c k m).map id .flag
  | .writeObject c k v => (sh.writeObject c k v, .done)
  | .writeObjectTtl c k v ttl => (sh.writeObjectTtl now c k v ttl, .done)
  | .writeBatch items => (sh.writeBatch items, .done)
  | .deleteObject c k => (sh.deleteObject c k, .done)
  | .cas c k expect new => (sh.cas now c k expect new).map id .flag
  | .incr c k delta => (sh.incr now c k delta).map id .number
  | .exportEntries c bs => (sh, .entries (Multiset.ofList (sh.exportEntries now c bs)))
  | .importEntries c es => (sh.importEntries c es, .done)
  | .dropBuckets c bs => (sh.dropBuckets now c bs).map id .count
  | .leaseAcquire k holder ttl => (sh.leaseAcquire now k holder ttl).map id .lease

/-- The call on a shard over the durable store, unless it panics. -/
def onLmdb {T : Type} [Text T] (now : ℕ) (s : LmdbStore T) :
    ShardCall → Option (LmdbStore T × ShardAnswer)
  | .object c k => some ((s.getObject now c k).map id .value)
  | .mget c ks => some ((s.mget now c ks).map id .values)
  | .scanRange c after start stop limit =>
    some ((s.scanRange c after start stop limit).map id .keys)
  | .scanBuckets c bs after limit => some ((s.scanBuckets c bs after limit).map id .keys)
  | .setAdd c k m => (s.update now c k (Change.setAdd m)).map fun r => r.map id .flag
  | .setRemove c k m => (s.update now c k (Change.setRemove m)).map fun r => r.map id .flag
  | .writeObject c k v => (s.putObject c k v).map fun s => (s, .done)
  | .writeObjectTtl c k v ttl => (s.writeObjectTtl now c k v ttl).map fun s => (s, .done)
  | .writeBatch items => (s.putBatch items).map fun s => (s, .done)
  | .deleteObject c k => (s.deleteObject c k).map fun s => (s, .done)
  | .cas c k expect new => (s.update now c k (Change.cas expect new)).map fun r => r.map id .flag
  | .incr c k delta => (s.update now c k (Change.incr delta)).map fun r => r.map id .number
  | .exportEntries c bs =>
    some ((s.exportEntries now c bs).map id fun es => .entries (Multiset.ofList es))
  | .importEntries c es => (s.importEntries c es).map fun s => (s, .done)
  | .dropBuckets c bs => (s.dropBuckets now c bs).map fun r => r.map id .count
  | .leaseAcquire k holder ttl =>
    (s.update now leaseColl k (Change.lease now holder ttl)).map fun r => r.map id .lease

end ShardCall

/-- A program over the calls of a shard. -/
abbrev ShardProg := Prog ShardCall ShardAnswer

/-- The answers of a shard to calls at the given times. -/
def Shard.answers {St : Type} [IndexStore St] (sh : Shard St) :
    List (ℕ × ShardCall) → List ShardAnswer
  | [] => []
  | c :: calls =>
    let r := c.2.onShard c.1 sh
    r.2 :: r.1.answers calls

namespace LmdbStore

variable {T : Type} [Text T]

/-- The answers of a shard over the durable store, unless a call panics. -/
def shardAnswers (s : LmdbStore T) : List (ℕ × ShardCall) → Option (List ShardAnswer)
  | [] => some []
  | c :: calls => do
    let r ← c.2.onLmdb c.1 s
    let rest ← r.1.shardAnswers calls
    some (r.2 :: rest)

end LmdbStore

end Stplr
