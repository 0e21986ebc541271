import Stplr.Lib.SortedMap
import Stplr.Value
import Mathlib.Data.String.Basic

/-!
# Role-based access control

A `Policy` maps bearer tokens to principals; the grants of a principal scope operations to a
collection, or to all of them.  `Policy.parse` reads it from a text of entries
`token:coll:perms;token:coll:perms;...`.
-/

namespace Stplr

open Lib

/-- The kind of access that a request needs. -/
inductive Op where
  | read
  | write
  /-- Destructive removal. -/
  | delete
  | admin
deriving DecidableEq

/-- A set of operations on a collection.  The collection `*` stands for any collection, and for
requests that are about none. -/
structure Grant where
  coll : String
  read : Bool
  write : Bool
  delete : Bool
  admin : Bool
deriving DecidableEq

/-- Whether the grant is for the operation; `admin` implies every other. -/
def Grant.permits (g : Grant) : Op → Bool
  | .read => g.read || g.admin
  | .write => g.write || g.admin
  | .delete => g.delete || g.admin
  | .admin => g.admin

/-- Whether the grant is for the collection. -/
def Grant.covers (g : Grant) (coll : Option String) : Bool := if g.coll = "*" then true
  else match coll with
    | some c => g.coll = c
    | none => false

def Grant.allows (g : Grant) (coll : Option String) (op : Op) : Bool := g.covers coll && g.permits op

/-- An identity and what it may do. -/
structure Principal where
  name : String
  grants : List Grant
deriving DecidableEq

def Principal.allows (p : Principal) (coll : Option String) (op : Op) : Bool :=
  p.grants.any fun g => g.allows coll op

structure Policy where
  tokens : SortedMap String Principal

namespace Policy

def principal (p : Policy) (token : String) : Option Principal := p.tokens.find? token

/-- `tokens.entry(token).or_insert_with(..).grants.push(grant)`. -/
def push (tokens : SortedMap String Principal) (token : String) (grant : Grant) :
    SortedMap String Principal :=
  let p := (tokens.find? token).getD ⟨token, []⟩
  tokens.put token { p with grants := p.grants ++ [grant] }

/-- One letter of the permissions of an entry. -/
def addPerm (entry : List Char) (g : Grant) : Char → Except String Grant
  | 'r' => .ok { g with read := true }
  | 'w' => .ok { g with write := true }
  | 'd' => .ok { g with delete := true }
  | 'a' => .ok { g with admin := true }
  | other => .error ("bad permission '" ++ other.toString ++ "' in '" ++ String.ofList entry ++
      "' (want r/w/d/a)")

/-- An entry `token:coll:perms`. -/
def parseEntry (entry : List Char) : Except String (String × Grant) := match entry.splitOn ':' with
  | [token, coll, perms] =>
    if trim token = [] ∨ trim coll = [] then
      .error ("bad policy entry '" ++ String.ofList entry ++ "': empty token or coll")
    else do
      let g ← (trim perms).foldlM (addPerm entry)
        ⟨String.ofList (trim coll), false, false, false, false⟩
      return (String.ofList (trim token), g)
  | _ => .error ("bad policy entry '" ++ String.ofList entry ++ "' (want token:coll:perms)")

/-- The entries of the text. -/
def entries (spec : String) : List (List Char) :=
  ((spec.toList.splitOn ';').map trim).filter (· ≠ [])

def parse (spec : String) : Except String Policy := do
  let tokens ← (entries spec).foldlM (fun tokens entry => do
    let (token, grant) ← parseEntry entry
    return push tokens token grant) SortedMap.empty
  if tokens.entries = [] then .error "empty policy" else return ⟨tokens⟩

end Policy

end Stplr
