import Stplr.Net
import Stplr.ShardCall

/-!
# The two transports of a shard

`InProcessShardClient` calls the shard directly (`ShardCall.onShard`).  `HttpShardClient` turns the call
into a request to the shard's HTTP server (`Wire.request`), whose handlers read it (`Server.callOf`),
call the shard and answer with a JSON object (`Server.respond`), which the client reads (`readAnswer`).

A document is printed on one side and scanned on the other.  What comes out differs from what went in
for some doubles, since `serde_json` reads them with best-effort precision (`Wire.scan`), and reading
fails for documents that are nested too deep.  The network does not fail here; a request that is rejected
(`none`) is answered with an error status and a text that is not JSON.
-/

namespace Stplr

/-! ### Documents on the wire -/

mutual
/-- The document of a value. -/
def Json.ofValue : Value → Json
  | .null => .null
  | .bool b => .bool b
  | .int n => .int n
  | .float bits => .float (some bits)
  | .str s => .str s
  | .arr xs => .arr (ofValues xs)
  | .obj fields => .obj (ofFields fields)

def Json.ofValues : List Value → List Json
  | [] => []
  | x :: xs => Json.ofValue x :: ofValues xs

def Json.ofFields : List (String × Value) → List (String × Json)
  | [] => []
  | (k, x) :: fields => (k, Json.ofValue x) :: ofFields fields
end

/-- The connection to a shard: how doubles and lengths come out in texts, and the base URL. -/
structure Wire where
  /-- The double that is scanned from the text of a double, unless it is too large. -/
  refloat : UInt64 → Option UInt64
  /-- The length of the text of a document. -/
  size : Json → ℕ
  base : String

namespace Wire

mutual
/-- The document that is scanned from the text of a document. -/
def scan (w : Wire) : Json → Json
  | .float bits => .float (bits.bind w.refloat)
  | .arr xs => .arr (scans w xs)
  | .obj fields => .obj (scanFields w fields)
  | .null => .null
  | .bool b => .bool b
  | .int n => .int n
  | .str s => .str s

def scans (w : Wire) : List Json → List Json
  | [] => []
  | x :: xs => w.scan x :: scans w xs

def scanFields (w : Wire) : List (String × Json) → List (String × Json)
  | [] => []
  | (k, x) :: fields => (k, w.scan x) :: scanFields w fields
end

/-! ### The client's requests -/

/-- The longest URI that `http` accepts. -/
def uriLimit : ℕ := 65534

def get (w : Wire) (path : String) (form : List (String × String)) : Option Request :=
  if (w.base ++ path).utf8ByteSize + 1 + (encodeForm form).length ≤ uriLimit then
    some ⟨.get, path, some (encodeForm form), false, Body.empty⟩
  else none

def post (w : Wire) (path : String) (fields : List (String × Json)) : Request :=
  ⟨.post, path, none, true, ⟨w.size (.obj fields), some (w.scan (.obj fields))⟩⟩

def strings (xs : List String) : Json := .arr (xs.map .str)

def numbers (ns : List ℕ) : Json := .arr (ns.map fun n : ℕ => .int n)

def pairs (es : List (String × Value)) : Json :=
  .arr (es.map fun e => .arr [.str e.1, Json.ofValue e.2])

/-- The request for a call.  A batch is not an operation of the client. -/
def request (w : Wire) : ShardCall → Option Request
  | .object c k => w.get "/object" [("coll", c), ("key", k)]
  | .mget c ks => w.post "/mget" [("coll", .str c), ("keys", strings ks)]
  | .scanRange c after start stop limit =>
    w.get "/scan" ([("coll", c), ("limit", toString limit)] ++ after.toList.map (("after", ·)) ++
      start.toList.map (("prefix", ·)) ++ stop.toList.map (("end", ·)))
  | .scanBuckets c bs after limit =>
    w.post "/scanBuckets" [("coll", .str c), ("buckets", numbers bs), ("after", after.elim .null .str),
      ("limit", .int limit)]
  | .setAdd c k m => w.post "/setAdd" [("coll", .str c), ("key", .str k), ("member", .str m)]
  | .setRemove c k m => w.post "/setRemove" [("coll", .str c), ("key", .str k), ("member", .str m)]
  | .writeObject c k v =>
    w.post "/write" [("coll", .str c), ("key", .str k), ("obj", Json.ofValue v)]
  | .writeObjectTtl c k v ttl =>
    w.post "/write" [("coll", .str c), ("key", .str k), ("obj", Json.ofValue v), ("ttlMs", .int ttl)]
  | .writeBatch _ => none
  | .deleteObject c k => w.post "/deleteObject" [("coll", .str c), ("key", .str k)]
  | .cas c k expect new =>
    w.post "/cas" [("coll", .str c), ("key", .str k), ("expect", expect.elim .null Json.ofValue),
      ("new", Json.ofValue new)]
  | .incr c k delta => w.post "/incr" [("coll", .str c), ("key", .str k), ("delta", .int delta)]
  | .exportEntries c bs => w.post "/export" [("coll", .str c), ("buckets", numbers bs)]
  | .importEntries c es => w.post "/import" [("coll", .str c), ("entries", pairs es)]
  | .dropBuckets c bs => w.post "/dropBuckets" [("coll", .str c), ("buckets", numbers bs)]
  | .leaseAcquire k holder ttl =>
    w.post "/leaseAcquire" [("key", .str k), ("holder", .str holder), ("ttlMs", .int ttl)]

end Wire

/-! ### The server -/

namespace Json

def string? : Json → Option String
  | .str s => some s
  | _ => none

def int? : Json → Option ℤ
  | .int n => some n
  | _ => none

def nat? (doc : Json) : Option ℕ := doc.int?.map Int.toNat

def list? {α : Type} (f : Json → Option α) : Json → Option (List α)
  | .arr xs => xs.mapM f
  | _ => none

/-- A field of a struct as a `Value`. -/
def fieldValue (doc : Json) : Option Value := doc.toValue (recursionLimit - 1)

/-- `(String, Value)`, in a list that is a field of a struct. -/
def entry? : Json → Option (String × Value)
  | .arr [.str k, v] => (v.toValue (recursionLimit - 3)).map (k, ·)
  | _ => none

end Json

namespace Server

/-- `Json<..>`: the fields of a struct. -/
def readBody (fields : List Field) (req : Request) : Option (List (String × Option Json)) :=
  if req.isJson ∧ req.body.size ≤ jsonLimit then do
    let doc ← req.body.doc
    readStruct fields doc
  else none

/-- A field of a struct, read at its type. -/
def field {α : Type} (b : List (String × Option Json)) (name : String) (f : Json → Option α) :
    Option α :=
  (b.lookup name).join.bind f

/-- An `Option` field: null and a field that is left out are nothing. -/
def option {α : Type} (b : List (String × Option Json)) (name : String) (f : Json → Option α) :
    Option (Option α) :=
  match (b.lookup name).join with
  | none | some .null => some none
  | some doc => (f doc).map some

def defaultScanLimit : ℕ := 1000

/-- The cap on `limit` of `/scanBuckets`. -/
def scanBucketsCap : ℕ := 100000

def ok : Value := .obj [("ok", .bool true)]

section Handlers

variable (req : Request)

def object : Option ShardCall := do
  let form := parseForm (req.query.getD [])
  let coll ← requiredField form "coll"
  let key ← requiredField form "key"
  return .object coll key

def scan : Option ShardCall := do
  let form := parseForm (req.query.getD [])
  let coll ← requiredField form "coll"
  let after ← formField form "after"
  let start ← formField form "prefix"
  let stop ← formField form "end"
  let limit ← match ← formField form "limit" with
    | some limit => parseUsize limit.toList
    | none => some defaultScanLimit
  return .scanRange coll after start stop (min limit scanCap)

def mget : Option ShardCall := do
  let b ← readBody mgetBody req
  let coll ← field b "coll" Json.string?
  let keys ← field b "keys" (Json.list? Json.string?)
  return .mget coll keys

def scanBuckets : Option ShardCall := do
  let b ← readBody scanBucketsBody req
  let coll ← field b "coll" Json.string?
  let buckets ← field b "buckets" (Json.list? Json.nat?)
  let after ← option b "after" Json.string?
  let limit := (field b "limit" Json.nat?).getD defaultScanLimit
  return .scanBuckets coll buckets after (min limit scanBucketsCap)

/-- `set_add` and `set_remove`. -/
def setCall (call : String → String → String → ShardCall) : Option ShardCall := do
  let b ← readBody setBody req
  let coll ← field b "coll" Json.string?
  let key ← field b "key" Json.string?
  let member ← field b "member" Json.string?
  return call coll key member

def setAdd : Option ShardCall := setCall req .setAdd

def setRemove : Option ShardCall := setCall req .setRemove

def write : Option ShardCall := do
  let b ← readBody writeBody req
  let coll ← field b "coll" Json.string?
  let key ← field b "key" Json.string?
  let obj ← field b "obj" Json.fieldValue
  match ← option b "ttlMs" Json.nat? with
  | some ttl =>
    if 0 < ttl then return .writeObjectTtl coll key obj ttl else return .writeObject coll key obj
  | none => return .writeObject coll key obj

def cas : Option ShardCall := do
  let b ← readBody casBody req
  let coll ← field b "coll" Json.string?
  let key ← field b "key" Json.string?
  let expect ← option b "expect" Json.fieldValue
  let new ← field b "new" Json.fieldValue
  return .cas coll key expect new

def incr : Option ShardCall := do
  let b ← readBody incrBody req
  let coll ← field b "coll" Json.string?
  let key ← field b "key" Json.string?
  let delta ← field b "delta" Json.int?
  return .incr coll key delta

def deleteObject : Option ShardCall := do
  let b ← readBody deleteBody req
  let coll ← field b "coll" Json.string?
  let key ← field b "key" Json.string?
  return .deleteObject coll key

/-- `export` and `drop_buckets`. -/
def bucketCall (call : String → List ℕ → ShardCall) : Option ShardCall := do
  let b ← readBody bucketBody req
  let coll ← field b "coll" Json.string?
  let buckets ← field b "buckets" (Json.list? Json.nat?)
  return call coll buckets

def exportEntries : Option ShardCall := bucketCall req .exportEntries

def dropBuckets : Option ShardCall := bucketCall req .dropBuckets

def importEntries : Option ShardCall := do
  let b ← readBody importBody req
  let coll ← field b "coll" Json.string?
  let entries ← field b "entries" (Json.list? Json.entry?)
  return .importEntries coll entries

def leaseAcquire : Option ShardCall := do
  let b ← readBody leaseBody req
  let key ← field b "key" Json.string?
  let holder ← field b "holder" Json.string?
  let ttl ← field b "ttlMs" Json.nat?
  return .leaseAcquire key holder ttl

/-- The call that the handler of a request makes, unless the request is rejected. -/
def callOf : Option ShardCall := match req.method, req.path with
  | .get, "/object" => object req
  | .get, "/scan" => scan req
  | .post, "/mget" => mget req
  | .post, "/scanBuckets" => scanBuckets req
  | .post, "/setAdd" => setAdd req
  | .post, "/setRemove" => setRemove req
  | .post, "/write" => write req
  | .post, "/cas" => cas req
  | .post, "/incr" => incr req
  | .post, "/deleteObject" => deleteObject req
  | .post, "/export" => exportEntries req
  | .post, "/import" => importEntries req
  | .post, "/dropBuckets" => dropBuckets req
  | .post, "/leaseAcquire" => leaseAcquire req
  | _, _ => none

end Handlers

variable {St : Type} [IndexStore St] (now : ℕ) (sh : Shard St)

/-- What a handler does with its call, and its response.  There is no handler for a batch. -/
def respond : ShardCall → Shard St × Value
  | .object c k => (sh, .obj [("object", (sh.object now c k).getD .null)])
  | .mget c ks => (sh, .obj [("values", .arr ((sh.mget now c ks).map fun v => v.getD .null))])
  | .scanRange c after start stop limit =>
    (sh, .obj [("keys", Value.ofStrings (sh.scanRange now c after start stop limit))])
  | .scanBuckets c bs after limit =>
    (sh, .obj [("keys", Value.ofStrings (sh.scanBuckets now c bs after limit))])
  | .setAdd c k m =>
    let r := sh.setAdd now c k m
    (r.1, .obj [("added", .bool r.2)])
  | .setRemove c k m =>
    let r := sh.setRemove now c k m
    (r.1, .obj [("removed", .bool r.2)])
  | .writeObject c k v => (sh.writeObject c k v, ok)
  | .writeObjectTtl c k v ttl => (sh.writeObjectTtl now c k v ttl, ok)
  | .writeBatch items => (sh.writeBatch items, ok)
  | .cas c k expect new =>
    let r := sh.cas now c k expect new
    (r.1, .obj [("set", .bool r.2)])
  | .incr c k delta =>
    let r := sh.incr now c k delta
    (r.1, .obj [("value", r.2.elim .null .int)])
  | .deleteObject c k => (sh.deleteObject c k, ok)
  | .exportEntries c bs =>
    (sh, .obj [("entries", .arr ((sh.exportEntries now c bs).map fun e => .arr [.str e.1, e.2]))])
  | .importEntries c es => (sh.importEntries c es, ok)
  | .dropBuckets c bs =>
    let r := sh.dropBuckets now c bs
    (r.1, .obj [("dropped", .int r.2)])
  | .leaseAcquire k holder ttl =>
    let r := sh.leaseAcquire now k holder ttl
    (r.1, .obj [("expiresMs", .int r.2.lease.expiresMs), ("granted", .bool r.2.granted),
      ("holder", .str r.2.lease.holder), ("token", .int r.2.lease.token)])

/-- The shard after a request, and the response, unless the request is rejected. -/
def serve (req : Request) : Option (Shard St × Value) := (callOf req).map (respond now sh)

end Server

/-! ### The client's answers -/

namespace Value

/-- `Value::as_bool`. -/
def asBool : Value → Option Bool
  | .bool b => some b
  | _ => none

/-- `serde_json::from_value::<Vec<Option<Value>>>`. -/
def asOptions : Value → Option (List (Option Value))
  | .arr xs => some (xs.map fun x => if x = .null then none else some x)
  | _ => none

/-- `serde_json::from_value::<(String, Value)>`. -/
def asEntry : Value → Option (String × Value)
  | .arr [.str k, v] => some (k, v)
  | _ => none

/-- `serde_json::from_value::<Vec<(String, Value)>>`. -/
def asEntries : Value → Option (List (String × Value))
  | .arr xs => xs.mapM asEntry
  | _ => none

end Value

/-- What the client makes of the response to a call. -/
def readAnswer : ShardCall → Value → ShardAnswer
  | .object _ _, v => .value ((v.get? "object").filter fun o => o ≠ .null)
  | .mget _ _, v => .values (((v.get? "values").getD .null).asOptions.getD [])
  | .scanRange _ _ _ _ _, v | .scanBuckets _ _ _ _, v =>
    .keys (((v.get? "keys").getD .null).asStrings.getD [])
  | .setAdd _ _ _, v => .flag (((v.get? "added").bind Value.asBool).getD false)
  | .setRemove _ _ _, v => .flag (((v.get? "removed").bind Value.asBool).getD false)
  | .cas _ _ _ _, v => .flag (((v.get? "set").bind Value.asBool).getD false)
  | .incr _ _ _, v => .number ((v.get? "value").bind Value.asI64)
  | .exportEntries _ _, v =>
    .entries (Multiset.ofList (((v.get? "entries").getD .null).asEntries.getD []))
  | .dropBuckets _ _, v => .count (((v.get? "dropped").bind Value.asU64).getD 0)
  | .leaseAcquire _ _ _, v =>
    .lease ⟨((v.get? "granted").bind Value.asBool).getD false,
      ((v.get? "holder").bind Value.asStr).getD "",
      ((v.get? "expiresMs").bind Value.asU64).getD 0, ((v.get? "token").bind Value.asU64).getD 0⟩
  | .writeObject _ _ _, _ | .writeObjectTtl _ _ _ _, _ | .writeBatch _, _ | .deleteObject _ _, _
  | .importEntries _ _, _ => .done

/-- `post_ok` looks at the status only. -/
def ShardCall.postOk : ShardCall → Bool
  | .writeObject _ _ _ | .writeObjectTtl _ _ _ _ | .deleteObject _ _ | .importEntries _ _ => true
  | _ => false

/-- A call through `HttpShardClient`: the shard after it, and the answer unless it is an error. -/
def Wire.call {St : Type} [IndexStore St] (w : Wire) (now : ℕ) (sh : Shard St) (call : ShardCall) :
    Shard St × Option ShardAnswer :=
  match (w.request call).bind (Server.serve now sh) with
  | none => (sh, none)
  | some (sh, response) =>
    if call.postOk then (sh, some .done)
    else (sh, (w.scan (.ofValue response)).asValue.map (readAnswer call))

end Stplr
