import Stplr.Form
import Stplr.Json
import Stplr.ShardCall
import Mathlib.Data.List.DropRight

/-!
# The RESP front end

Commands come as arrays of bulk strings or as inline commands, keys live in one collection, and keys
and values are text: what is not UTF-8 is replaced.  The stream is given by the reads that deliver it
(`Reader`), so that a line or a payload may end in a later read than it begins.

A command is read (`readCommand`), its name and arguments are made out (`request`), and it is served
by a program that makes calls of the shard (`program`, `serve`).  `handle` is the loop of one connection; the clock readings of its passes are given.
Unchecked arithmetic wraps.
-/

namespace Stplr

namespace Resp

/-! ### Bytes -/

def lf : UInt8 := 10

def cr : UInt8 := 13

def dollar : UInt8 := 36

def star : UInt8 := 42

def plus : UInt8 := 43

def minus : UInt8 := 45

def colon : UInt8 := 58

def crlf : List UInt8 := [cr, lf]

/-- Bytes as text. -/
def s (b : List UInt8) : String := fromUtf8Lossy b

/-- `to_ascii_uppercase` of bytes as text. -/
def upper (b : List UInt8) : String := String.ofList ((s b).toList.map Char.toUpper)

/-- `to_ascii_lowercase`. -/
def lower (t : String) : String := String.ofList (t.toList.map Char.toLower)

/-! ### Encoders -/

def simple (t : String) : List UInt8 := plus :: utf8Bytes t ++ crlf

def err (t : String) : List UInt8 := minus :: utf8Bytes t ++ crlf

def int (n : ℤ) : List UInt8 := colon :: utf8Bytes (toString n) ++ crlf

def bulk : Option (List UInt8) → List UInt8
  | some d => dollar :: utf8Bytes (toString d.length) ++ crlf ++ d ++ crlf
  | none => utf8Bytes "$-1\r\n"

/-- A stored value: the text of a string, and anything else as JSON. -/
def bulkValue (codec : JsonCodec) : Option Value → List UInt8
  | none => bulk none
  | some (.str t) => bulk (some (utf8Bytes t))
  | some v => bulk (some (codec.toVec v))

def arrayHeader (n : ℕ) : List UInt8 := star :: utf8Bytes (toString n) ++ crlf

/-! ### Reading a command -/

/-- What a connection still delivers, read by read; the first is the rest of the buffer. -/
abbrev Reader := List (List UInt8)

/-- The bytes up to the first `stop`, that one included, or to the end. -/
def readUntil (stop : UInt8) : Reader → List UInt8 × Reader
  | [] => ([], [])
  | chunk :: rest =>
    match chunk.dropWhile (· ≠ stop) with
    | [] => (chunk ++ (readUntil stop rest).1, (readUntil stop rest).2)
    | b :: post => (chunk.takeWhile (· ≠ stop) ++ [b], post :: rest)

/-- The next `n` bytes, if there are so many. -/
def readExact : ℕ → Reader → Option (List UInt8 × Reader)
  | n, [] => if n = 0 then some ([], []) else none
  | n, chunk :: rest =>
    if n ≤ chunk.length then some (chunk.take n, chunk.drop n :: rest)
    else (readExact (n - chunk.length) rest).map fun r => (chunk ++ r.1, r.2)

/-- A line feed or a carriage return. -/
def isEol (b : UInt8) : Bool := b = lf ∨ b = cr

/-- The next line without the line feeds and carriage returns at its end. -/
def readLine (r : Reader) : Option (List UInt8 × Reader) :=
  let line := (readUntil lf r).1
  if line = [] then none
  else some (line.rdropWhile isEol, (readUntil lf r).2)

/-- Why there is no command: the end (`Ok(None)`), or an error or panic. -/
inductive ReadEnd where
  | eof
  | failed
deriving DecidableEq

/-- A length; anything that is not one counts as zero. -/
def parseLen (digits : List UInt8) : ℕ := (parseUsize (s digits).toList).getD 0

/-- The greatest size of an allocation, `isize::MAX`. -/
def maxAlloc : ℕ := 2 ^ 63 - 1

/-- `size_of::<Vec<u8>>()`. -/
def vecSize : ℕ := 24

/-- A bulk string: `$`, its length, the bytes and two more. -/
def readBulk (r : Reader) : Except ReadEnd (List UInt8 × Reader) := match readLine r with
  | some (b :: digits, r) =>
    if b = dollar then
      if maxAlloc < parseLen digits then .error .failed
      else match readExact (parseLen digits) r with
        | none => .error .failed
        | some (data, r) =>
          match readExact 2 r with
          | none => .error .failed
          | some (_, r) => .ok (data, r)
    else .error .eof
  | _ => .error .eof

/-- The loop over the arguments. -/
def readArgs : ℕ → Reader → Except ReadEnd (List (List UInt8) × Reader)
  | 0, r => .ok ([], r)
  | n + 1, r => do
    let (data, r) ← readBulk r
    let (args, r) ← readArgs n r
    return (data :: args, r)

/-- `u8::is_ascii_whitespace`. -/
def isWhitespace (b : UInt8) : Bool := b.toNat ∈ [9, 10, 12, 13, 32]

/-- One command: an array of bulk strings, or a line of words. -/
def readCommand (r : Reader) : Except ReadEnd (List (List UInt8) × Reader) := match readLine r with
  | none => .error .eof
  | some ([], r) => .ok ([], r)
  | some (b :: line, r) =>
    if b = star then
      if maxAlloc < parseLen line * vecSize then .error .failed else readArgs (parseLen line) r
    else .ok (((b :: line).splitOnP isWhitespace).filter (· ≠ []), r)

/-- A command as a client sends it. -/
def encode (cmd : List (List UInt8)) : List UInt8 :=
  arrayHeader cmd.length ++ cmd.flatMap fun arg => bulk (some arg)

/-- There is a `Vec<Vec<u8>>` of this content. -/
def Representable (cmd : List (List UInt8)) : Prop :=
  cmd.length * vecSize ≤ maxAlloc ∧ ∀ arg ∈ cmd, arg.length ≤ maxAlloc

instance (cmd : List (List UInt8)) : Decidable (Representable cmd) :=
  inferInstanceAs (Decidable (_ ∧ _))

/-- Calling `read_command` again and again returns these commands and then the end of the stream. -/
def Yields : Reader → List (List (List UInt8)) → Prop
  | r, [] => readCommand r = .error .eof
  | r, cmd :: cmds => ∃ r', readCommand r = .ok (cmd, r') ∧ Yields r' cmds

/-! ### Requests -/

/-- The single keyspace. -/
def coll : String := "kv"

/-- A command with its arguments, other than `AUTH` and `QUIT`. -/
inductive Request where
  | ping (msg : Option (List UInt8))
  /-- `SELECT` and `CLIENT`. -/
  | accepted
  | hello
  | command
  | info
  | dbsize
  | get (key : String)
  | set (key val : String) (ttlMs : ℕ)
  | getset (key val : String)
  | del (keys : List String)
  | exist (keys : List String)
  /-- The `INCR` family; `none` if the amount is not an integer. -/
  | incr (key : String) (delta : Option ℤ)
  | sadd (key : String) (members : List String)
  | srem (key : String) (members : List String)
  | smembers (key : String)
  | scard (key : String)
  | sismember (key member : String)
  | scan (cursor : String) (count : ℕ) (start : Option String)
  | type (key : String)
  | unknown (name : String)

/-- The options of `SET`, taken in pairs: the last `EX` or `PX` counts. -/
def ttlOption : List (List UInt8) → ℕ → ℕ
  | name :: val :: rest, ttlMs =>
    ttlOption rest <| if upper name = "EX" then parseLen val * 1000 % 2 ^ 64
      else if upper name = "PX" then parseLen val
      else ttlMs
  | _, ttlMs => ttlMs

/-- `trim_end_matches('*')`. -/
def trimStars (p : String) : String := String.ofList (p.toList.rdropWhile (· = '*'))

/-- The options of `SCAN`: the number of keys, and the prefix, which is what stands before the stars at
the end. -/
def scanOption : List (List UInt8) → ℕ × Option String → ℕ × Option String
  | name :: val :: rest, (count, start) =>
    scanOption rest <| if upper name = "COUNT" then ((parseUsize (s val).toList).getD 10, start)
      else if upper name = "MATCH" then (count, some (trimStars (s val)))
      else (count, start)
  | _, opts => opts

/-- The request of a command, which is given by its name in upper case and its arguments. -/
def request (cmd : String) (args : List (List UInt8)) : Request := match cmd, args with
  | "PING", args => .ping args.head?
  | "SELECT", _ | "CLIENT", _ => .accepted
  | "HELLO", _ => .hello
  | "COMMAND", _ => .command
  | "INFO", _ => .info
  | "DBSIZE", _ => .dbsize
  | "GET", [k] => .get (s k)
  | "SET", k :: v :: opts => .set (s k) (s v) (ttlOption opts 0)
  | "GETSET", [k, v] => .getset (s k) (s v)
  | "DEL", k :: ks => .del ((k :: ks).map s)
  | "EXISTS", k :: ks => .exist ((k :: ks).map s)
  | "INCR", [k] => .incr (s k) (some 1)
  | "DECR", [k] => .incr (s k) (some (-1))
  | "INCRBY", [k, n] => .incr (s k) (parseI64 (s n).toList)
  | "DECRBY", [k, n] => .incr (s k) ((parseI64 (s n).toList).map fun n => Int.bmod (-n) (2 ^ 64))
  | "SADD", k :: m :: ms => .sadd (s k) ((m :: ms).map s)
  | "SREM", k :: m :: ms => .srem (s k) ((m :: ms).map s)
  | "SMEMBERS", [k] => .smembers (s k)
  | "SCARD", [k] => .scard (s k)
  | "SISMEMBER", [k, m] => .sismember (s k) (s m)
  | "SCAN", c :: opts => .scan (s c) (scanOption opts (10, none)).1 (scanOption opts (10, none)).2
  | "TYPE", [k] => .type (s k)
  | cmd, _ => .unknown cmd

/-! ### Serving -/

/-- The members that the queries find in a stored value: the strings of an array. -/
def queriedMembers : Option Value → List String
  | some (.arr xs) => xs.filterMap Value.asStr
  | _ => []

/-- The key after which a `SCAN` goes on.  The cursor `0` stands for the start, and for the end. -/
def scanAfter (cursor : String) : Option String := if cursor = "0" then none else some cursor

/-- The next cursor of a `SCAN` that has found the keys of a page. -/
def nextCursor (count : ℕ) (keys : List String) : String :=
  if keys.length < count then "0" else keys.getLast?.getD "0"

def typeName : Option Value → String
  | none => "none"
  | some (.arr _) => "set"
  | some _ => "string"

def notInteger : List UInt8 := err "ERR value is not an integer or out of range"

/-- One call, whose answer makes the reply. -/
def ask (c : ShardCall) (reply : ShardAnswer → List UInt8) : ShardProg (List UInt8) :=
  .call c fun a => .ret (reply a)

/-- Deletes the keys that are there, and counts them from `n` on. -/
def delProg : List String → ℕ → ShardProg (List UInt8)
  | [], n => .ret (int n)
  | key :: keys, n => .call (.object coll key) fun a =>
    if a.object.isSome then .call (.deleteObject coll key) fun _ => delProg keys (n + 1)
    else delProg keys n

/-- Counts the keys that are there. -/
def existProg : List String → ℕ → ShardProg (List UInt8)
  | [], n => .ret (int n)
  | key :: keys, n => .call (.object coll key) fun a =>
    existProg keys (if a.object.isSome then n + 1 else n)

/-- Adds or removes members one by one, and counts the changes. -/
def changeProg (change : String → ShardCall) : List String → ℕ → ShardProg (List UInt8)
  | [], n => .ret (int n)
  | m :: members, n => .call (change m) fun a =>
    changeProg change members (if a.holds then n + 1 else n)

/-- The calls of a request, and its reply. -/
def program (codec : JsonCodec) : Request → ShardProg (List UInt8)
  | .ping (some msg) => .ret (bulk (some msg))
  | .ping none => .ret (simple "PONG")
  | .accepted => .ret (simple "OK")
  | .hello => .ret (err "ERR unknown command 'HELLO'")
  | .command => .ret (arrayHeader 0)
  | .info => .ret (bulk (some (utf8Bytes "# Server\r\nstplr_resp:1\r\n")))
  | .dbsize =>
    ask (.scanRange coll none none none (2 ^ 64 - 1)) fun a => int a.found.length
  | .get key => ask (.object coll key) fun a => bulkValue codec a.object
  | .set key val ttlMs =>
    ask (if 0 < ttlMs then .writeObjectTtl coll key (.str val) ttlMs
      else .writeObject coll key (.str val)) fun _ => simple "OK"
  | .getset key val => .call (.object coll key) fun old =>
    ask (.writeObject coll key (.str val)) fun _ => bulkValue codec old.object
  | .del keys => delProg keys 0
  | .exist keys => existProg keys 0
  | .incr _ none => .ret notInteger
  | .incr key (some delta) => ask (.incr coll key delta) fun a => a.sum.elim notInteger int
  | .sadd key members => changeProg (.setAdd coll key) members 0
  | .srem key members => changeProg (.setRemove coll key) members 0
  | .smembers key => ask (.object coll key) fun a =>
    let members := queriedMembers a.object
    arrayHeader members.length ++ members.flatMap fun m => bulk (some (utf8Bytes m))
  | .scard key => ask (.object coll key) fun a => int (queriedMembers a.object).length
  | .sismember key member =>
    ask (.object coll key) fun a => int (if member ∈ queriedMembers a.object then 1 else 0)
  | .scan cursor count start =>
    ask (.scanRange coll (scanAfter cursor) start none count) fun a =>
      arrayHeader 2 ++ bulk (some (utf8Bytes (nextCursor count a.found))) ++
        arrayHeader a.found.length ++ a.found.flatMap fun k => bulk (some (utf8Bytes k))
  | .type key => ask (.object coll key) fun a => simple (typeName a.object)
  | .unknown name => .ret (err ("ERR unknown command '" ++ lower name ++ "'"))

variable {St : Type} [IndexStore St]

/-- The shard after a request, and the reply. -/
def serve (codec : JsonCodec) (now : ℕ) (sh : Shard St) (req : Request) : Shard St × List UInt8 :=
  (program codec req).run (fun sh c => c.onShard now sh) sh

/-- What an open connection does with a command. -/
def respond (codec : JsonCodec) (now : ℕ) (sh : Shard St) (name : List UInt8)
    (args : List (List UInt8)) : Shard St × List UInt8 :=
  serve codec now sh (request (upper name) args)

/-- The commands that are allowed before authentication. -/
def allowed (cmd : String) : Bool := cmd ∈ ["AUTH", "PING", "QUIT", "HELLO"]

/-- The last argument of an `AUTH` is the token. -/
def presents (token : String) (args : List (List UInt8)) : Bool :=
  args.getLast? = some (utf8Bytes token)

/-- The loop of `handle`, with the clock readings of its passes: the shard at the end, and the
replies. -/
def handle (codec : JsonCodec) (token : Option String) :
    List ℕ → Bool → Shard St → Reader → Shard St × List (List UInt8)
  | [], _, sh, _ => (sh, [])
  | now :: times, authed, sh, r =>
    match readCommand r with
    | .error _ => (sh, [])
    | .ok ([], r) => handle codec token times authed sh r
    | .ok (name :: args, r) =>
      -- the rest of the connection after a reply
      let reply (authed : Bool) (sh : Shard St) (out : List UInt8) :=
        let rest := handle codec token times authed sh r
        (rest.1, out :: rest.2)
      if !authed && !allowed (upper name) then
        reply authed sh (err "NOAUTH Authentication required.")
      else if upper name = "AUTH" then
        match token with
        | some t =>
          if presents t args then reply true sh (simple "OK")
          else reply authed sh (err "WRONGPASS invalid username-password pair")
        | none => reply authed sh (err "ERR Client sent AUTH, but no password is set")
      else if upper name = "QUIT" then (sh, [simple "OK"])
      else
        let answer := respond codec now sh name args
        reply authed answer.1 answer.2

/-! ### A client that scans -/

/-- The arguments of a `SCAN` for the keys with a prefix; the cursor `0` starts it. -/
def scanArgs (start : Option String) (count : ℕ) (after : Option String) : List (List UInt8) :=
  utf8Bytes (after.getD "0") ::
    ((start.toList.flatMap fun p => [utf8Bytes "MATCH", utf8Bytes (p ++ "*")]) ++
      [utf8Bytes "COUNT", utf8Bytes (toString count)])

/-- What a client makes of the reply: the keys, and the cursor that it passes on unless that is `0`. -/
def scanPage (now : ℕ) (sh : Shard St) (start : Option String) (count : ℕ) (after : Option String) :
    List String × Option String :=
  match request "SCAN" (scanArgs start count after) with
  | .scan cursor count start =>
    let keys := sh.scanRange now coll (scanAfter cursor) start none count
    (keys, scanAfter (nextCursor count keys))
  | _ => ([], none)

end Resp

end Stplr
