import Stplr.Lib.Machine
import Stplr.Store
import Mathlib.Data.Finset.Card

/-!
# The durable store

`LmdbStore` keeps one named sub-database per collection (`o:<coll>`) and one for the expiry times
(`__expiry`, under the keys `coll NUL id`).  Handles of sub-databases are cached, and reads fill the
cache as well, so they return a store.

A result `none` is a panic, where the source `expect`s that LMDB reports no error.  The errors are
those of a handle table that is full (`max_dbs`) and of names and keys that LMDB does not take.  Only a
read of a collection with NUL in its name, on which `open_database` panics as well, counts as one of an
absent collection here.  Transactions are taken to be atomic and the map to be large enough.  The counter
of writes, which only says when to sync, is left out.
-/

namespace Stplr

open Lib

/-- The texts in the sub-databases.  Decimal numbers, integers and lists of strings are read back as they
were written; a value with a double in it need not be. -/
class Text (T : Type) where
  /-- `Value::to_string`. -/
  ofValue : Value → T
  /-- `serde_json::from_str(..).ok()`. -/
  toValue : T → Option Value
  /-- `u64::to_string`. -/
  ofNat : ℕ → T
  /-- `str::parse::<u64>().ok()`. -/
  toNat : T → Option ℕ
  toNat_ofNat {n : ℕ} : n < 2 ^ 64 → toNat (ofNat n) = some n
  toValue_ofNat {n : ℕ} : n < 2 ^ 64 → toValue (ofNat n) = some (.int n)
  toValue_int {n : ℤ} : -2 ^ 63 ≤ n → n < 2 ^ 63 → toValue (ofValue (.int n)) = some (.int n)
  toValue_ofStrings (l : List String) :
    toValue (ofValue (Value.ofStrings l)) = some (Value.ofStrings l)

/-- What is read back of a value. -/
def Text.reread (T : Type) [Text T] (v : Value) : Option Value := Text.toValue (Text.ofValue v : T)

/-- The value is read back as it was written. -/
def Text.Exact (T : Type) [Text T] (v : Value) : Prop := Text.reread T v = some v

/-- `str::split_once`. -/
def splitOnce (sep : Char) (s : String) : Option (String × String) :=
  match s.toList.span (· ≠ sep) with
  | (_, []) => none
  | (l, _ :: r) => some (String.ofList l, String.ofList r)

/-- The sub-databases of the environment, the handles open in this session, and whether a key may
have an expiry. -/
structure LmdbStore (T : Type) where
  disk : Nested String T
  dbs : Finset String
  hasAnyTtl : Bool

namespace LmdbStore

/-- `max_dbs`. -/
def maxDbs : ℕ := 1024

/-- `MDB_MAXKEYSIZE`. -/
def maxKeySize : ℕ := 511

/-- LMDB takes the string as a key. -/
def ValidKey (key : String) : Prop := 0 < key.utf8ByteSize ∧ key.utf8ByteSize ≤ maxKeySize

/-- LMDB takes the string as the name of a sub-database: a key without NUL. -/
def ValidName (name : String) : Prop := ValidKey name ∧ '\x00' ∉ name.toList

instance (key : String) : Decidable (ValidKey key) := inferInstanceAs (Decidable (_ ∧ _))

instance (name : String) : Decidable (ValidName name) := inferInstanceAs (Decidable (_ ∧ _))

/-- `EXP_DB`. -/
def expDb : String := "__expiry"

def objDb (coll : String) : String := "o:" ++ coll

def expKey (coll id : String) : String := coll ++ "\x00" ++ id

variable {T : Type} [Text T]

/-- `open` on a new path. -/
def new : LmdbStore T := ⟨∅, ∅, false⟩

/-- Close and `open` again: the guard is recovered from the expiry times on disk. -/
def reopen (s : LmdbStore T) : LmdbStore T := ⟨s.disk, ∅, (s.disk.entries expDb).head?.isSome⟩

/-- The handle of a sub-database, which is created if need be. -/
def db (s : LmdbStore T) (name : String) : Option (LmdbStore T) := if name ∈ s.dbs then some s
  else if s.dbs.card < maxDbs ∧ ValidName name then
    some { s with disk := s.disk.create name, dbs := insert name s.dbs }
  else none

/-- The handle of a sub-database, if that exists and can be opened. -/
def readDb (s : LmdbStore T) (name : String) : LmdbStore T × Bool := if name ∈ s.dbs then (s, true)
  else if name ∈ s.disk ∧ s.dbs.card < maxDbs then ({ s with dbs := insert name s.dbs }, true)
  else (s, false)

def readExpiry (s : LmdbStore T) (coll id : String) : LmdbStore T × Option ℕ :=
  let r := s.readDb expDb
  (r.1, if r.2 then (r.1.disk.get expDb (expKey coll id)).bind Text.toNat else none)

def isExpired (now : ℕ) (s : LmdbStore T) (coll id : String) : LmdbStore T × Bool :=
  if s.hasAnyTtl then
    let r := s.readExpiry coll id
    (r.1, r.2.any (· ≤ now))
  else (s, false)

def clearExpiry (s : LmdbStore T) (coll id : String) : Option (LmdbStore T) := do
  let s ← s.db expDb
  some { s with disk := s.disk.erase expDb (expKey coll id) }

def putStr (s : LmdbStore T) (name key : String) (val : T) : Option (LmdbStore T) := do
  let s ← s.db name
  if ValidKey key then some { s with disk := s.disk.insert name key val } else none

/-- The pairs of a sub-database whose text is JSON. -/
def entries (s : LmdbStore T) (name : String) : LmdbStore T × List (String × Value) :=
  let r := s.readDb name
  (r.1, if r.2 then
    (r.1.disk.entries name).filterMap fun e => (Text.toValue e.2).map fun v => (e.1, v) else [])

/-! ### `IndexStore` -/

def putObject (s : LmdbStore T) (coll id : String) (obj : Value) : Option (LmdbStore T) := do
  let s ← s.putStr (objDb coll) id (Text.ofValue obj)
  if s.hasAnyTtl then s.clearExpiry coll id else some s

/-- One item of a batch, inside the transaction. -/
def putItem (ttl : Bool) (s : LmdbStore T) (item : String × String × Value) :
    Option (LmdbStore T) :=
  let (coll, id, obj) := item
  if objDb coll ∈ s.dbs ∧ ValidKey id then
    let disk := s.disk.insert (objDb coll) id (Text.ofValue obj)
    if ttl then
      if expDb ∈ s.dbs then some { s with disk := disk.erase expDb (expKey coll id) } else none
    else some { s with disk }
  else none

/-- A batch that clears expiry times opens their sub-database. -/
def openExpiry (ttl : Bool) (s : LmdbStore T) : Option (LmdbStore T) :=
  if ttl then s.db expDb else some s

/-- The handles first, then all puts in one transaction. -/
def putBatch (s : LmdbStore T) (items : List (String × String × Value)) :
    Option (LmdbStore T) :=
  if items = [] then some s
  else do
    let s ← items.foldlM (fun s item => s.db (objDb item.1)) s
    let ttl := s.hasAnyTtl
    let s ← s.openExpiry ttl
    items.foldlM (putItem ttl) s

def getObject (now : ℕ) (s : LmdbStore T) (coll id : String) : LmdbStore T × Option Value :=
  let r := s.isExpired now coll id
  if r.2 then (r.1, none)
  else
    let r := r.1.readDb (objDb coll)
    (r.1, if r.2 then (r.1.disk.get (objDb coll) id).bind Text.toValue else none)

/-- The loop that leaves the expired entries out. -/
def dropExpired (now : ℕ) (coll : String) :
    LmdbStore T → List (String × Value) → LmdbStore T × List (String × Value)
  | s, [] => (s, [])
  | s, e :: es =>
    let r := s.isExpired now coll e.1
    let rest := dropExpired now coll r.1 es
    (rest.1, if r.2 then rest.2 else e :: rest.2)

def scanEntries (now : ℕ) (s : LmdbStore T) (coll : String) :
    LmdbStore T × List (String × Value) :=
  let r := s.entries (objDb coll)
  if r.1.hasAnyTtl then dropExpired now coll r.1 r.2 else r

/-- The sub-database of the objects is emptied. -/
def clearCollection (s : LmdbStore T) (coll : String) : LmdbStore T :=
  let r := s.readDb (objDb coll)
  if r.2 then { r.1 with disk := r.1.disk.clear (objDb coll) } else r.1

/-- The object goes, if its collection is there; LMDB does not take an empty key. -/
def eraseObject (s : LmdbStore T) (coll id : String) : Option (LmdbStore T) :=
  let r := s.readDb (objDb coll)
  if r.2 then
    if id = "" then none else some { r.1 with disk := r.1.disk.erase (objDb coll) id }
  else some r.1

def deleteObject (s : LmdbStore T) (coll id : String) : Option (LmdbStore T) := do
  let s ← s.eraseObject coll id
  if s.hasAnyTtl then s.clearExpiry coll id else some s

def putObjectAt (s : LmdbStore T) (coll id : String) (obj : Value) (expireAt : UInt64) :
    Option (LmdbStore T) := do
  let s ← s.putStr (objDb coll) id (Text.ofValue obj)
  let s ← s.putStr expDb (expKey coll id) (Text.ofNat expireAt.toNat)
  some { s with hasAnyTtl := true }

def expiryOf (s : LmdbStore T) (coll id : String) : LmdbStore T × Option ℕ := s.readExpiry coll id

/-- The expiry keys that are due, each with its collection and id. -/
def deadEntries (now : ℕ) (es : List (String × Value)) : List (String × String × String) :=
  es.filterMap fun e =>
    e.2.asU64.bind fun exp =>
      if now < exp then none
      else (splitOnce '\x00' e.1).map fun p => (e.1, p.1, p.2)

/-- One dead entry of a sweep. -/
def sweepOne (s : LmdbStore T) (d : String × String × String) : LmdbStore T :=
  let r := s.readDb (objDb d.2.1)
  if r.2 then
    { r.1 with disk := (r.1.disk.erase (objDb d.2.1) d.2.2).erase expDb d.1 }
  else r.1

def sweepExpired (s : LmdbStore T) (now : ℕ) : LmdbStore T × ℕ := if s.hasAnyTtl then
    let r := s.readDb expDb
    if r.2 then
      let r := r.1.entries expDb
      let dead := deadEntries now r.2
      (dead.foldl sweepOne r.1, dead.length)
    else (r.1, 0)
  else (s, 0)

/-! ### The operations that the trait gives -/

def mget (now : ℕ) (coll : String) :
    LmdbStore T → List String → LmdbStore T × List (Option Value)
  | s, [] => (s, [])
  | s, k :: ks =>
    let r := s.getObject now coll k
    let rest := mget now coll r.1 ks
    (rest.1, r.2 :: rest.2)

def change (s : LmdbStore T) (coll key : String) : Change → Option (LmdbStore T)
  | .keep => some s
  | .put v => s.putObject coll key v
  | .delete => s.deleteObject coll key

def update {α : Type} (now : ℕ) (s : LmdbStore T) (coll key : String)
    (f : Option Value → Change × α) : Option (LmdbStore T × α) :=
  let cur := s.getObject now coll key
  let r := f cur.2
  (cur.1.change coll key r.1).map fun s => (s, r.2)

def setMembers (now : ℕ) (s : LmdbStore T) (coll key : String) : LmdbStore T × List String :=
  let r := s.getObject now coll key
  (r.1, IndexStore.membersOf r.2)

end LmdbStore

/-! ### Histories of a store -/

/-- A call of a store; `reopen` closes the store and opens it again. -/
inductive StoreCall where
  | putObject (coll id : String) (obj : Value)
  | putObjectAt (coll id : String) (obj : Value) (expireAt : UInt64)
  | putBatch (items : List (String × String × Value))
  | getObject (coll id : String)
  | mget (coll : String) (keys : List String)
  | scanEntries (coll : String)
  | deleteObject (coll id : String)
  | expiryOf (coll id : String)
  | sweepExpired (nowMs : ℕ)
  | cas (coll key : String) (expect : Option Value) (new : Value)
  | incr (coll key : String) (delta : ℤ)
  | setMembers (coll key : String)
  | setAdd (coll key member : String)
  | setRemove (coll key member : String)
  | reopen

/-- What a call returns.  A scan lists its entries in any order. -/
inductive StoreAnswer where
  | done
  | value (v : Option Value)
  | values (vs : List (Option Value))
  | entries (es : Multiset (String × Value))
  | expiry (e : Option ℕ)
  | count (n : ℕ)
  | flag (b : Bool)
  | number (n : Option ℤ)
  | members (ms : List String)

namespace StoreCall

/-- The collections that the call names. -/
def colls : StoreCall → List String
  | .putObject c _ _ | .putObjectAt c _ _ _ | .getObject c _ | .mget c _ | .scanEntries c
  | .deleteObject c _ | .expiryOf c _ | .cas c _ _ _ | .incr c _ _ | .setMembers c _
  | .setAdd c _ _ | .setRemove c _ _ => [c]
  | .putBatch items => items.map Prod.fst
  | .sweepExpired _ | .reopen => []

/-- The keys that the call names, with their collections. -/
def keys : StoreCall → List (String × String)
  | .putObject c k _ | .putObjectAt c k _ _ | .getObject c k | .deleteObject c k | .expiryOf c k
  | .cas c k _ _ | .incr c k _ | .setMembers c k | .setAdd c k _ | .setRemove c k _ => [(c, k)]
  | .mget c ks => ks.map fun k => (c, k)
  | .putBatch items => items.map fun item => (item.1, item.2.1)
  | .scanEntries _ | .sweepExpired _ | .reopen => []

/-- The values that the call is given to write. -/
def values : StoreCall → List Value
  | .putObject _ _ v | .putObjectAt _ _ v _ | .cas _ _ _ v => [v]
  | .putBatch items => items.map fun item => item.2.2
  | .getObject _ _ | .mget _ _ | .scanEntries _ | .deleteObject _ _ | .expiryOf _ _
  | .sweepExpired _ | .incr _ _ _ | .setMembers _ _ | .setAdd _ _ _ | .setRemove _ _ _ | .reopen => []

/-- No collection has a NUL in its name, and LMDB takes the keys and their expiry keys. -/
def InLimits (call : StoreCall) : Prop := (∀ c ∈ call.colls, '\x00' ∉ c.toList) ∧
    ∀ p ∈ call.keys, LmdbStore.ValidKey p.2 ∧ LmdbStore.ValidKey (LmdbStore.expKey p.1 p.2)

instance (call : StoreCall) : Decidable call.InLimits := inferInstanceAs (Decidable (_ ∧ _))

/-- The call on a store as the trait has it, such as the in-memory store, which lives on when it is
reopened. -/
def onStore {St : Type} [IndexStore St] (now : ℕ) (t : St) : StoreCall → St × StoreAnswer
  | .putObject c k v => (IndexStore.putObject t c k v, .done)
  | .putObjectAt c k v e => (IndexStore.putObjectAt t c k v e.toNat, .done)
  | .putBatch items => (IndexStore.putBatch t items, .done)
  | .getObject c k => (t, .value (IndexStore.getObject now t c k))
  | .mget c ks => (t, .values (IndexStore.mget now t c ks))
  | .scanEntries c => (t, .entries (IndexStore.scanEntries now t c))
  | .deleteObject c k => (IndexStore.deleteObject t c k, .done)
  | .expiryOf c k => (t, .expiry (IndexStore.expiryOf t c k))
  | .sweepExpired nowMs =>
    let r := IndexStore.sweepExpired t nowMs
    (r.1, .count r.2)
  | .cas c k expect new =>
    let r := IndexStore.cas now t c k expect new
    (r.1, .flag r.2)
  | .incr c k delta =>
    let r := IndexStore.incr now t c k delta
    (r.1, .number r.2)
  | .setMembers c k => (t, .members (IndexStore.setMembers now t c k))
  | .setAdd c k m =>
    let r := IndexStore.setAdd now t c k m
    (r.1, .flag r.2)
  | .setRemove c k m =>
    let r := IndexStore.setRemove now t c k m
    (r.1, .flag r.2)
  | .reopen => (t, .done)

/-- The call on the durable store. -/
def onLmdb {T : Type} [Text T] (now : ℕ) (s : LmdbStore T) :
    StoreCall → Option (LmdbStore T × StoreAnswer)
  | .putObject c k v => (s.putObject c k v).map fun s => (s, .done)
  | .putObjectAt c k v e => (s.putObjectAt c k v e).map fun s => (s, .done)
  | .putBatch items => (s.putBatch items).map fun s => (s, .done)
  | .getObject c k => some ((s.getObject now c k).map id .value)
  | .mget c ks => some ((s.mget now c ks).map id .values)
  | .scanEntries c => some ((s.scanEntries now c).map id fun es => .entries (Multiset.ofList es))
  | .deleteObject c k => (s.deleteObject c k).map fun s => (s, .done)
  | .expiryOf c k => some ((s.expiryOf c k).map id .expiry)
  | .sweepExpired nowMs => some ((s.sweepExpired nowMs).map id .count)
  | .cas c k expect new => (s.update now c k (Change.cas expect new)).map fun r => r.map id .flag
  | .incr c k delta => (s.update now c k (Change.incr delta)).map fun r => r.map id .number
  | .setMembers c k => some ((s.setMembers now c k).map id .members)
  | .setAdd c k m => (s.update now c k (Change.setAdd m)).map fun r => r.map id .flag
  | .setRemove c k m => (s.update now c k (Change.setRemove m)).map fun r => r.map id .flag
  | .reopen => some (s.reopen, .done)

end StoreCall

/-- The answers of the in-memory store to calls at the given times. -/
def MemoryStore.answers (t : MemoryStore) : List (ℕ × StoreCall) → List StoreAnswer
  | [] => []
  | c :: calls =>
    let r := c.2.onStore c.1 t
    r.2 :: r.1.answers calls

/-- The answers of the durable store, unless a call panics. -/
def LmdbStore.answers {T : Type} [Text T] (s : LmdbStore T) :
    List (ℕ × StoreCall) → Option (List StoreAnswer)
  | [] => some []
  | c :: calls => do
    let r ← c.2.onLmdb c.1 s
    let rest ← r.1.answers calls
    some (r.2 :: rest)

/-- The store after calls at the given times, unless one panics. -/
def LmdbStore.after {T : Type} [Text T] (s : LmdbStore T) :
    List (ℕ × StoreCall) → Option (LmdbStore T)
  | [] => some s
  | c :: calls => (c.2.onLmdb c.1 s).bind fun r => r.1.after calls

/-! ### Histories with `clear_collection` -/

/-- A call, or `clear_collection`. -/
inductive StoreOp where
  | call (c : StoreCall)
  | clearCollection (coll : String)

namespace StoreOp

def onMemory (now : ℕ) (t : MemoryStore) : StoreOp → MemoryStore
  | .call c => (c.onStore now t).1
  | .clearCollection coll => IndexStore.clearCollection t coll

def onLmdb {T : Type} [Text T] (now : ℕ) (s : LmdbStore T) : StoreOp → Option (LmdbStore T)
  | .call c => (c.onLmdb now s).map Prod.fst
  | .clearCollection coll => some (s.clearCollection coll)

end StoreOp

/-- The in-memory store after operations at the given times. -/
def MemoryStore.runOps (t : MemoryStore) (ops : List (ℕ × StoreOp)) : MemoryStore :=
  ops.foldl (fun t op => op.2.onMemory op.1 t) t

/-- The durable store after operations at the given times, unless one panics. -/
def LmdbStore.runOps {T : Type} [Text T] (s : LmdbStore T) (ops : List (ℕ × StoreOp)) :
    Option (LmdbStore T) :=
  exec (fun s (op : ℕ × StoreOp) => op.2.onLmdb op.1 s) s ops

end Stplr
