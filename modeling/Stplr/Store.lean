import Stplr.Lib.Nested
import Stplr.Value

/-!
# The storage seam

`IndexStore` is the shard-local object and set store.  The class carries the operations a backend
implements; the read-modify-write operations that the trait gives once for every backend (`cas`,
`incr`, `setAdd`, `setRemove`, `setMembers`, `putBatch`) are defined over them.  Every operation
that reads the wall clock takes it as the argument `now` (epoch milliseconds).

`MemoryStore` is the reference backend: a map of maps of objects and, beside it, one of absolute
expiry times.  Expiry is lazy: a key whose expiry is `≤ now` reads as absent.
-/

namespace Stplr

open Lib

/-- The operations of a store backend. -/
class IndexStore (St : Type) where
  putObject : St → String → String → Value → St
  getObject : ℕ → St → String → String → Option Value
  /-- The `(id, obj)` pairs of a collection. -/
  scanEntries : ℕ → St → String → List (String × Value)
  clearCollection : St → String → St
  deleteObject : St → String → String → St
  /-- Writes an object with an absolute expiry. -/
  putObjectAt : St → String → String → Value → ℕ → St
  expiryOf : St → String → String → Option ℕ
  /-- Drops the entries whose expiry is at most the given time, and counts them. -/
  sweepExpired : St → ℕ → St × ℕ

namespace IndexStore

variable {St : Type} [IndexStore St]

/-- Many puts, one after the other. -/
def putBatch (s : St) (items : List (String × String × Value)) : St :=
  items.foldl (fun s item => putObject s item.1 item.2.1 item.2.2) s

/-- One value (or none) per key, in input order. -/
def mget (now : ℕ) (s : St) (coll : String) (keys : List String) : List (Option Value) :=
  keys.map fun k => getObject now s coll k

/-- The integer an `incr` starts from: `0` for an absent key, else a JSON integer or a numeric
string; `none` for any other value. -/
def counterOf : Option Value → Option ℤ
  | none => some 0
  | some v => v.asI64 <|> (v.asStr.bind fun s => parseI64 (trim s.toList))

/-- `i64::wrapping_add`. -/
def wrappingAdd (a b : ℤ) : ℤ := Int.bmod (a + b) (2 ^ 64)

/-- The members of the set stored as `v`: a value that is not an array of strings has none. -/
def membersOf (v : Option Value) : List String := (v.bind Value.asStrings).getD []

def setMembers (now : ℕ) (s : St) (coll key : String) : List String :=
  membersOf (getObject now s coll key)

end IndexStore

/-- What a read-modify-write does to its key. -/
inductive Change where
  | keep
  | put (v : Value)
  | delete

/-! What the operations do to a key that holds `cur`, and what they return. -/

namespace Change

/-- Compare-and-set: writes `new` iff the current value is `expect`. -/
def cas (expect : Option Value) (new : Value) (cur : Option Value) : Change × Bool :=
  if cur = expect then (.put new, true) else (.keep, false)

/-- Atomic integer add; `none` (and no write) when the value is not an integer. -/
def incr (delta : ℤ) (cur : Option Value) : Change × Option ℤ := match IndexStore.counterOf cur with
  | none => (.keep, none)
  | some n =>
    let next := IndexStore.wrappingAdd n delta
    (.put (.int next), some next)

/-- Adds a member; `true` if it was not present. -/
def setAdd (member : String) (cur : Option Value) : Change × Bool :=
  let arr := IndexStore.membersOf cur
  if member ∈ arr then (.keep, false) else (.put (Value.ofStrings (arr ++ [member])), true)

/-- Removes a member; `true` if it was present.  The key goes when the set empties. -/
def setRemove (member : String) (cur : Option Value) : Change × Bool :=
  let arr := IndexStore.membersOf cur
  let kept := arr.filter fun m => m ≠ member
  if kept.length = arr.length then (.keep, false)
  else if kept = [] then (.delete, true)
  else (.put (Value.ofStrings kept), true)

end Change

namespace IndexStore

variable {St : Type} [IndexStore St]

def change (s : St) (coll key : String) : Change → St
  | .keep => s
  | .put v => putObject s coll key v
  | .delete => deleteObject s coll key

/-- A read-modify-write: one read, and at most one write. -/
def update {α : Type} (now : ℕ) (s : St) (coll key : String) (f : Option Value → Change × α) :
    St × α :=
  let r := f (getObject now s coll key)
  (change s coll key r.1, r.2)

def cas (now : ℕ) (s : St) (coll key : String) (expect : Option Value) (new : Value) : St × Bool :=
  update now s coll key (Change.cas expect new)

def incr (now : ℕ) (s : St) (coll key : String) (delta : ℤ) : St × Option ℤ :=
  update now s coll key (Change.incr delta)

def setAdd (now : ℕ) (s : St) (coll key member : String) : St × Bool :=
  update now s coll key (Change.setAdd member)

def setRemove (now : ℕ) (s : St) (coll key member : String) : St × Bool :=
  update now s coll key (Change.setRemove member)

end IndexStore

/-! ### The in-memory store -/

/-- Objects and expiry times by collection and id. -/
structure MemoryStore where
  objects : Nested String Value
  expiry : Nested String ℕ

namespace MemoryStore

/-- The empty store. -/
def new : MemoryStore := ⟨∅, ∅⟩

def isExpired (now : ℕ) (s : MemoryStore) (coll id : String) : Bool :=
  match s.expiry.get coll id with
  | some exp => exp ≤ now
  | none => false

def clearExpiry (s : MemoryStore) (coll id : String) : MemoryStore :=
  { s with expiry := s.expiry.erase coll id }

/-- A plain write clears any prior expiry. -/
def putObject (s : MemoryStore) (coll id : String) (obj : Value) : MemoryStore :=
  { s.clearExpiry coll id with objects := s.objects.insert coll id obj }

def getObject (now : ℕ) (s : MemoryStore) (coll id : String) : Option Value :=
  if s.isExpired now coll id then none else s.objects.get coll id

def scanEntries (now : ℕ) (s : MemoryStore) (coll : String) : List (String × Value) :=
  (s.objects.entries coll).filter fun e => !s.isExpired now coll e.1

def clearCollection (s : MemoryStore) (coll : String) : MemoryStore :=
  { objects := AList.erase coll s.objects, expiry := AList.erase coll s.expiry }

def deleteObject (s : MemoryStore) (coll id : String) : MemoryStore :=
  { objects := s.objects.erase coll id, expiry := s.expiry.erase coll id }

def putObjectAt (s : MemoryStore) (coll id : String) (obj : Value) (expireAt : ℕ) : MemoryStore :=
  { objects := s.objects.insert coll id obj, expiry := s.expiry.insert coll id expireAt }

/-- The `(coll, id)` pairs whose expiry is at most `now`. -/
def deadKeys (s : MemoryStore) (now : ℕ) : List (String × String) :=
  s.expiry.keys.flatMap fun coll =>
    ((s.expiry.entries coll).filter fun e => e.2 ≤ now).map fun e => (coll, e.1)

def sweepExpired (s : MemoryStore) (now : ℕ) : MemoryStore × ℕ :=
  let dead := s.deadKeys now
  (dead.foldl (fun s d => s.deleteObject d.1 d.2) s, dead.length)

instance : IndexStore MemoryStore where
  putObject := putObject
  getObject := getObject
  scanEntries := scanEntries
  clearCollection := clearCollection
  deleteObject := deleteObject
  putObjectAt := putObjectAt
  expiryOf s coll id := s.expiry.get coll id
  sweepExpired := sweepExpired

end MemoryStore

end Stplr
