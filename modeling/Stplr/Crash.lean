import Stplr.Lib.Transactions
import Stplr.Lmdb

/-!
# The transactions of the durable store

The calls of `LmdbStore` that write, cut into their LMDB transactions.  A crash keeps the transactions
that have been committed; `reopen` then starts from what they left on disk.  To open a handle of a
sub-database that is there is a transaction as well, but it changes nothing on disk, so it is not
listed apart from the one that follows it.
-/

namespace Stplr

open Lib

namespace LmdbStore

variable {T : Type} [Text T]

/-- The value and the expiry time on disk. -/
def stored (s : LmdbStore T) (coll id : String) : Option Value × Option ℕ :=
  ((s.disk.get (objDb coll) id).bind Text.toValue,
    (s.disk.get expDb (expKey coll id)).bind Text.toNat)

/-- `db` on a name that is not cached creates the sub-database in a transaction of its own. -/
def createTxn (name : String) : Txn (LmdbStore T) := fun s => s.db name

def putTxn (name key : String) (val : T) : Txn (LmdbStore T) := fun s =>
  if ValidKey key then some { s with disk := s.disk.insert name key val } else none

def eraseTxn (name key : String) : Txn (LmdbStore T) := fun s =>
  some { s with disk := s.disk.erase name key }

/-- `clear_expiry`, when the guard is up. -/
def clearTxns (ttl : Bool) (coll id : String) : List (Txn (LmdbStore T)) :=
  if ttl then [createTxn expDb, eraseTxn expDb (expKey coll id)] else []

def putTxns (ttl : Bool) (coll id : String) (obj : Value) : List (Txn (LmdbStore T)) :=
  [createTxn (objDb coll), putTxn (objDb coll) id (Text.ofValue obj)] ++ clearTxns ttl coll id

def deleteTxns (ttl : Bool) (coll id : String) : List (Txn (LmdbStore T)) :=
  [fun s => s.eraseObject coll id] ++ clearTxns ttl coll id

/-- The guard goes up after the last transaction. -/
def putAtTxns (coll id : String) (obj : Value) (expireAt : UInt64) : List (Txn (LmdbStore T)) :=
  [createTxn (objDb coll), putTxn (objDb coll) id (Text.ofValue obj)] ++ [createTxn expDb, fun s =>
      (putTxn expDb (expKey coll id) (Text.ofNat expireAt.toNat) s).map fun s =>
        { s with hasAnyTtl := true }]

def batchTxns (ttl : Bool) (items : List (String × String × Value)) : List (Txn (LmdbStore T)) :=
  if items = [] then []
  else
    items.map (fun item => createTxn (objDb item.1)) ++ (if ttl then [createTxn expDb] else []) ++
      [fun s => items.foldlM (putItem ttl) s]

/-- One transaction for each dead entry. -/
def sweepTxns (s : LmdbStore T) (now : ℕ) : List (Txn (LmdbStore T)) :=
  if s.hasAnyTtl ∧ (s.readDb expDb).2 then
    (fun s => some ((s.readDb expDb).1.entries expDb).1) ::
      (deadEntries now ((s.readDb expDb).1.entries expDb).2).map fun d s => some (s.sweepOne d)
  else [fun s => some (if s.hasAnyTtl then (s.readDb expDb).1 else s)]

/-- The read of a read-modify-write. -/
def readTxn (now : ℕ) (coll id : String) : Txn (LmdbStore T) := fun s =>
  some (s.getObject now coll id).1

def changeTxns (ttl : Bool) (coll id : String) : Change → List (Txn (LmdbStore T))
  | .keep => []
  | .put v => putTxns ttl coll id v
  | .delete => deleteTxns ttl coll id

def updateTxns {α : Type} (now : ℕ) (s : LmdbStore T) (coll id : String)
    (f : Option Value → Change × α) : List (Txn (LmdbStore T)) :=
  readTxn now coll id :: changeTxns s.hasAnyTtl coll id (f (s.getObject now coll id).2).1

end LmdbStore

namespace StoreCall

open LmdbStore

variable {T : Type} [Text T]

/-- The transactions of a call on the store `s`. -/
def txns (now : ℕ) (s : LmdbStore T) : StoreCall → List (Txn (LmdbStore T))
  | .putObject c k v => putTxns s.hasAnyTtl c k v
  | .putObjectAt c k v e => putAtTxns c k v e
  | .putBatch items => batchTxns s.hasAnyTtl items
  | .deleteObject c k => deleteTxns s.hasAnyTtl c k
  | .sweepExpired nowMs => sweepTxns s nowMs
  | .cas c k expect new => updateTxns now s c k (Change.cas expect new)
  | .incr c k delta => updateTxns now s c k (Change.incr delta)
  | .setAdd c k m => updateTxns now s c k (Change.setAdd m)
  | .setRemove c k m => updateTxns now s c k (Change.setRemove m)
  -- reads and a reopen leave the disk alone
  | call => [fun s => (call.onLmdb now s).map Prod.fst]

end StoreCall

end Stplr
