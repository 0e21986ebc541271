import Stplr.ChangeFeed
import Stplr.Form
import Stplr.Ingest

/-!
# Sequence keys

The ingest queue and the change log store their entries under zero-padded sequence numbers, and LMDB
iterates in the order of the bytes.  Here the databases are as LMDB has them, with texts as keys, and so
are the loops of both `compact`s and the recovery of `open`.
-/

namespace Stplr

/-- `format!("{seq:020}")`. -/
def paddedKey (seq : ℕ) : String := String.ofList ((Nat.toDigits 10 seq).leftpad 20 '0')

def IngestQueue.key (seq : ℕ) : String := paddedKey seq

def LmdbChangeLog.key (seq : ℕ) : String := paddedKey seq

/-- A database with texts as keys, in the order of their bytes. -/
structure TextDb (V : Type) where
  entries : List (List UInt8 × V)
  sorted : entries.Pairwise fun a b => a.1 < b.1

namespace TextDb

variable {V : Type}

/-- The number in a key; keys that are no text are left out by `flatten`. -/
def seqOf (k : List UInt8) : Option ℕ := (fromUtf8 k).bind fun t => parseUsize t.toList

/-- The loops of both `compact`s, which break at the first number that they do not want and go on after
a key that is no number. -/
def collectKeys (want : ℕ → Bool) : List (List UInt8 × V) → List (List UInt8)
  | [] => []
  | e :: es =>
    match seqOf e.1 with
    | some seq => if want seq then e.1 :: collectKeys want es else []
    | none => collectKeys want es

/-- The keys that `IngestQueue::compact` deletes. -/
def appliedKeys (db : TextDb V) (committed : ℕ) : List (List UInt8) :=
  collectKeys (fun seq => seq ≤ committed) db.entries

/-- The keys that `LmdbChangeLog::compact` deletes. -/
def keysBelow (db : TextDb V) (before : ℕ) : List (List UInt8) :=
  collectKeys (fun seq => seq < before) db.entries

/-- The number that `open` finds in the last key. -/
def lastSeq (db : TextDb V) : Option ℕ := (db.entries.getLast?.map Prod.fst).bind seqOf

end TextDb

end Stplr
