import Stplr.Form
import Stplr.Json
import Stplr.ShardCall

/-!
# The binary protocol

A connection carries requests, each an opcode and its fields (`len:u32-be` and the bytes), and the
replies, each a status and for a `GET` that finds something a payload.  A request is read
(`readFrame`), and then asks one call of the shard (`Frame.call`).  Fields become strings in two ways: a
`SET` replaces what is not UTF-8, and the other operations take the empty string then.

`handle` is the loop that serves one connection to a shard whose store does not fail; the clock readings
of its passes are given.  A `Conn` gets its input in pieces, and whatever serves its frames may also drop
it.  A `SET` goes through the writer task.  With one connection its batch is that write, and the reply
comes after the commit.  `Stplr.Writer` has the task itself, and the connection to a durable shard.  The
counters of operations are left out.
-/

namespace Stplr

namespace Proto

/-! ### Frames -/

def opGet : UInt8 := 1

def opSet : UInt8 := 2

def opSadd : UInt8 := 3

def opSrem : UInt8 := 4

def opDel : UInt8 := 5

def opPing : UInt8 := 6

def opAuth : UInt8 := 7

/-- Done, or present. -/
def stOk : UInt8 := 0

/-- Absent, or false. -/
def stAbsent : UInt8 := 1

def stTrue : UInt8 := 2

/-- `write_u32` of `n as u32`. -/
def u32Bytes (n : ℕ) : List UInt8 :=
  [UInt8.ofNat (n / 2 ^ 24), UInt8.ofNat (n / 2 ^ 16), UInt8.ofNat (n / 2 ^ 8), UInt8.ofNat n]

/-- `read_u32`. -/
def readU32 : List UInt8 → Option (ℕ × List UInt8)
  | a :: b :: c :: d :: rest =>
    some (a.toNat * 2 ^ 24 + b.toNat * 2 ^ 16 + c.toNat * 2 ^ 8 + d.toNat, rest)
  | _ => none

def readField (input : List UInt8) : Option (List UInt8 × List UInt8) := do
  let (n, rest) ← readU32 input
  if n ≤ rest.length then some (rest.take n, rest.drop n) else none

def asStr (b : List UInt8) : String := (fromUtf8 b).getD ""

/-- What a client sends. -/
inductive Frame where
  | get (coll key : List UInt8)
  | set (coll key val : List UInt8)
  | sadd (coll key member : List UInt8)
  | srem (coll key member : List UInt8)
  | del (coll key : List UInt8)
  | ping
  | auth (token : List UInt8)

namespace Frame

def op : Frame → UInt8
  | .get _ _ => opGet
  | .set _ _ _ => opSet
  | .sadd _ _ _ => opSadd
  | .srem _ _ _ => opSrem
  | .del _ _ => opDel
  | .ping => opPing
  | .auth _ => opAuth

def fields : Frame → List (List UInt8)
  | .get coll key | .del coll key => [coll, key]
  | .set coll key x | .sadd coll key x | .srem coll key x => [coll, key, x]
  | .ping => []
  | .auth token => [token]

def bytes (f : Frame) : List UInt8 := f.op :: f.fields.flatMap fun b => u32Bytes b.length ++ b

/-- The lengths of the fields fit in 32 bits. -/
def Fits (f : Frame) : Prop := ∀ b ∈ f.fields, b.length < 2 ^ 32

instance (f : Frame) : Decidable f.Fits := inferInstanceAs (Decidable (∀ b ∈ _, _))

end Frame

/-- The frame of an opcode other than `AUTH`, and what is left of the input; nothing at an unknown opcode
or when the input ends. -/
def readFrame (op : UInt8) (input : List UInt8) : Option (Frame × List UInt8) :=
  if op = opGet then do
    let (coll, input) ← readField input
    let (key, input) ← readField input
    return (.get coll key, input)
  else if op = opSet then do
    let (coll, input) ← readField input
    let (key, input) ← readField input
    let (val, input) ← readField input
    return (.set coll key val, input)
  else if op = opSadd then do
    let (coll, input) ← readField input
    let (key, input) ← readField input
    let (member, input) ← readField input
    return (.sadd coll key member, input)
  else if op = opSrem then do
    let (coll, input) ← readField input
    let (key, input) ← readField input
    let (member, input) ← readField input
    return (.srem coll key member, input)
  else if op = opDel then do
    let (coll, input) ← readField input
    let (key, input) ← readField input
    return (.del coll key, input)
  else if op = opPing then some (.ping, input)
  else none

/-! ### The server -/

/-- The value that a `SET` writes: JSON, or else a string. -/
def valueOf (codec : JsonCodec) (val : List UInt8) : Value :=
  (codec.fromSlice val).getD (.str (fromUtf8Lossy val))

/-- What a frame asks of the shard. -/
def Frame.call (codec : JsonCodec) : Frame → Option ShardCall
  | .get coll key => some (.object (asStr coll) (asStr key))
  | .set coll key val =>
    some (.writeBatch [(fromUtf8Lossy coll, fromUtf8Lossy key, valueOf codec val)])
  | .sadd coll key member => some (.setAdd (asStr coll) (asStr key) (asStr member))
  | .srem coll key member => some (.setRemove (asStr coll) (asStr key) (asStr member))
  | .del coll key => some (.deleteObject (asStr coll) (asStr key))
  | .ping | .auth _ => none

/-- The reply to a `GET`. -/
def getReply (codec : JsonCodec) : Option Value → List UInt8
  | some v => stOk :: (u32Bytes (codec.toVec v).length ++ codec.toVec v)
  | none => [stAbsent]

def flagReply (b : Bool) : List UInt8 := [if b then stTrue else stAbsent]

/-- The reply to a frame, from what the shard has answered. -/
def Frame.reply (codec : JsonCodec) : Frame → ShardAnswer → List UInt8
  | .get _ _, a => getReply codec a.object
  | .sadd _ _ _, a | .srem _ _ _, a => flagReply a.holds
  | .set _ _ _, _ | .del _ _, _ | .ping, _ | .auth _, _ => [stOk]

variable {St : Type} [IndexStore St]

/-- The shard after a frame, and the reply. -/
def answer (codec : JsonCodec) (now : ℕ) (sh : Shard St) (f : Frame) : Shard St × List UInt8 :=
  match f.call codec with
  | none => (sh, [stOk])
  | some c =>
    let r := c.onShard now sh
    (r.1, f.reply codec r.2)

/-- The loop of `handle`, with the clock readings of its passes: the shard at the end, and the
replies. -/
def handle (codec : JsonCodec) (token : Option String) :
    List ℕ → Bool → Shard St → List UInt8 → Shard St × List (List UInt8)
  | now :: times, authed, sh, op :: input =>
    if op = opAuth then
      match readField input with
      | none => (sh, [])
      | some (presented, input) =>
        if token.all fun t => presented = utf8Bytes t then
          let r := handle codec token times true sh input
          (r.1, [stOk] :: r.2)
        else (sh, [[stAbsent]])
    else if authed then
      match readFrame op input with
      | none => (sh, [])
      | some (f, input) =>
        let (sh, reply) := answer codec now sh f
        let r := handle codec token times authed sh input
        (r.1, reply :: r.2)
    else (sh, [])
  | _, _, sh, _ => (sh, [])

/-! ### Connections while the requests arrive

`handle` has all of its input.  A `Conn` gets it in pieces, cut anywhere, and a pass of the loop waits
until the whole frame is there. -/

/-- What serves the frames other than `AUTH`, at a time: the shard after a frame, and the reply unless the
connection is dropped. -/
abbrev Service (σ : Type) := ℕ → σ → Frame → σ × Option (List UInt8)

/-- A shard whose store does not fail. -/
def service (codec : JsonCodec) : Service (Shard St) :=
  fun now sh f => (answer codec now sh f).map id some

structure Conn (σ : Type) where
  /-- What has arrived and is not read. -/
  input : List UInt8
  authed : Bool
  shard : σ
  /-- What was sent. -/
  output : List UInt8
  closed : Bool

inductive ConnLabel where
  | arrive (bytes : List UInt8)
  /-- A pass of the loop, with its clock reading. -/
  | pass (now : ℕ)

def opcodes : List UInt8 := [opGet, opSet, opSadd, opSrem, opDel, opPing]

namespace Conn

variable {σ : Type} (serve : Service σ)

/-- A pass of the loop, if its frame is there. -/
def pass (token : Option String) (now : ℕ) (c : Conn σ) : Option (Conn σ) := match c.input with
  | [] => none
  | op :: input =>
    if op = opAuth then
      match readField input with
      | none => none
      | some (presented, input) =>
        if token.all fun t => presented = utf8Bytes t then
          some { c with input, authed := true, output := c.output ++ [stOk] }
        else some { c with input, authed := false, output := c.output ++ [stAbsent], closed := true }
    else if c.authed then
      match readFrame op input with
      | none => if op ∈ opcodes then none else some { c with closed := true }
      | some (f, input) =>
        match serve now c.shard f with
        | (shard, some reply) => some { c with input, shard, output := c.output ++ reply }
        | (shard, none) => some { c with input, shard, closed := true }
    else some { c with closed := true }

def step (token : Option String) (c : Conn σ) : ConnLabel → Option (Conn σ)
  | .arrive bytes => if c.closed then none else some { c with input := c.input ++ bytes }
  | .pass now => if c.closed then none else c.pass serve token now

end Conn

/-! ### A client -/

/-- What an operation returns; a `GET` gives the bytes of the value. -/
inductive OpResult where
  | done
  | flag (b : Bool)
  | value (payload : Option (List UInt8))
deriving DecidableEq

/-- The next reply, for a client that knows the opcode of its request, and what is left. -/
def readReply (op : UInt8) : List UInt8 → Option (OpResult × List UInt8)
  | [] => none
  | st :: input =>
    if op = opGet then
      if st = stOk then (readField input).map fun r => (.value (some r.1), r.2)
      else if st = stAbsent then some (.value none, input)
      else none
    else if op = opSadd ∨ op = opSrem then
      if st = stTrue then some (.flag true, input)
      else if st = stAbsent then some (.flag false, input)
      else none
    else if st = stOk then some (.done, input)
    else none

/-- The replies to requests with these opcodes, one after the other. -/
def readReplies : List UInt8 → List UInt8 → Option (List OpResult × List UInt8)
  | [], input => some ([], input)
  | op :: ops, input => do
    let (r, input) ← readReply op input
    let (rs, input) ← readReplies ops input
    return (r :: rs, input)

/-- The replies to requests on an open connection. -/
def talk (codec : JsonCodec) (token : Option String) (sh : Shard St) (frames : List (ℕ × Frame)) :
    List (List UInt8) :=
  (handle codec token (frames.map Prod.fst) true sh (frames.flatMap fun f => f.2.bytes)).2

end Proto

end Stplr
