import Stplr.Form
import Stplr.Json
import Stplr.Rbac

/-!
# The HTTP front ends and their authorisation layer

`Router.routes` are the routes of a shard and of a coordinator, each with what its handler reads from
the request.  The collection that a handler acts on is the `coll` it reads (`Router.target`).  In
front of them `policyLayer` looks for a collection in the request by itself: in the query string, and
for a `POST` without one in the body.
-/

namespace Stplr

inductive Method where
  | get
  | head
  | post
  | other
deriving DecidableEq

/-- A request body: its length in bytes, and the JSON document that it is, if it is one. -/
structure Body where
  size : ℕ
  doc : Option Json

def Body.empty : Body := ⟨0, none⟩

/-- A request with a body of type `β`. -/
structure HttpRequest (β : Type) where
  method : Method
  path : String
  query : Option (List UInt8)
  /-- The content type says that the body is JSON. -/
  isJson : Bool
  body : β

def HttpRequest.map {β γ : Type} (f : β → γ) (req : HttpRequest β) : HttpRequest γ :=
  ⟨req.method, req.path, req.query, req.isJson, f req.body⟩

abbrev Request := HttpRequest Body

/-! ### The handlers' side -/

/-- What a handler takes from a request before it runs: `none` if the request is rejected, and
otherwise the collection that it acts on, if any. -/
abbrev Extractor := Request → Option (Option String)

/-- A handler that reads nothing of the request. -/
def noInput : Extractor := fun _ => some none

/-- `Query<..>` without a collection: `KeyQ`, `BackupQ`. -/
def queryKey (name : String) : Extractor := fun req => do
  let form := parseForm (req.query.getD [])
  let _ ← requiredField form name
  return none

/-- `Query<ObjQ>`. -/
def objQ : Extractor := fun req => do
  let form := parseForm (req.query.getD [])
  let coll ← requiredField form "coll"
  let _ ← requiredField form "key"
  return some coll

/-- `Query<ScanQ>`. -/
def scanQ : Extractor := fun req => do
  let form := parseForm (req.query.getD [])
  let coll ← requiredField form "coll"
  let _ ← formField form "after"
  let _ ← formField form "prefix"
  let _ ← formField form "end"
  match ← formField form "limit" with
  | some limit =>
    let _ ← parseUsize limit.toList
    return some coll
  | none => return some coll

/-- The length of the body that `Json<..>` accepts. -/
def jsonLimit : ℕ := 2 * 1024 * 1024

/-- `Json<..>` of a struct.  If it has a field `coll`, that is the collection. -/
def jsonBody (fields : List Field) : Extractor := fun req =>
  if req.isJson ∧ req.body.size ≤ jsonLimit then do
    let doc ← req.body.doc
    let struct ← readStruct fields doc
    return stringField struct "coll"
  else none

def mgetBody : List Field := [.required "coll" .string, .required "keys" .strings]

def scanBucketsBody : List Field :=
  [.required "coll" .string, .required "buckets" .usizes, .optional "after" .string,
    .defaulted "limit" .usize]

def setBody : List Field :=
  [.required "coll" .string, .required "key" .string, .required "member" .string]

def writeBody : List Field :=
  [.required "coll" .string, .required "key" .string, .required "obj" .value,
    .optional "ttlMs" .u64]

def deleteBody : List Field := [.required "coll" .string, .required "key" .string]

def bucketBody : List Field := [.required "coll" .string, .required "buckets" .usizes]

def importBody : List Field := [.required "coll" .string, .required "entries" .entries]

def casBody : List Field :=
  [.required "coll" .string, .required "key" .string, .optional "expect" .value,
    .required "new" .value]

def incrBody : List Field :=
  [.required "coll" .string, .required "key" .string, .required "delta" .i64]

def leaseBody : List Field :=
  [.required "key" .string, .required "holder" .string, .required "ttlMs" .u64]

def rebalanceBody : List Field := [.required "nodes" .strings]

def drainBody : List Field := [.required "node" .string]

structure Route where
  path : String
  method : Method
  extract : Extractor

def Route.get (path : String) (extract : Extractor) : Route := ⟨path, .get, extract⟩

def Route.post (path : String) (extract : Extractor) : Route := ⟨path, .post, extract⟩

/-- The front ends.  A coordinator may take part in the election, and have an ingest queue. -/
inductive Router where
  | shard
  | coordinator (elected queued : Bool)

namespace Router

open Route

def shardRoutes : List Route :=
  [get "/health" noInput, get "/metrics" noInput, get "/caps" noInput, get "/object" objQ,
    post "/mget" (jsonBody mgetBody), get "/scan" scanQ,
    post "/scanBuckets" (jsonBody scanBucketsBody), post "/setAdd" (jsonBody setBody),
    post "/setRemove" (jsonBody setBody), post "/write" (jsonBody writeBody),
    post "/cas" (jsonBody casBody), post "/incr" (jsonBody incrBody),
    post "/deleteObject" (jsonBody deleteBody), post "/export" (jsonBody bucketBody),
    post "/import" (jsonBody importBody), post "/dropBuckets" (jsonBody bucketBody),
    post "/backup" (queryKey "dest"), post "/leaseAcquire" (jsonBody leaseBody)]

def coordRoutes : List Route := [get "/health" noInput, get "/metrics" noInput, get "/object" objQ,
    post "/mget" (jsonBody mgetBody), get "/scan" scanQ, post "/write" (jsonBody writeBody),
    post "/cas" (jsonBody casBody), post "/incr" (jsonBody incrBody),
    post "/setAdd" (jsonBody setBody), post "/setRemove" (jsonBody setBody),
    post "/deleteObject" (jsonBody deleteBody), get "/route" (queryKey "key"),
    get "/members" noInput, get "/partitions" noInput]

/-- What `app_with_leadership` adds. -/
def leadershipRoutes : List Route :=
  [get "/leader" noInput, post "/admin/rebalance" (jsonBody rebalanceBody),
    post "/admin/drain" (jsonBody drainBody)]

/-- What `add_ingest_routes` adds. -/
def ingestRoutes : List Route :=
  [post "/enqueue" (jsonBody writeBody), get "/ingest/status" noInput]

def routes : Router → List Route
  | .shard => shardRoutes
  | .coordinator elected queued =>
    coordRoutes ++ (if elected then leadershipRoutes else []) ++ if queued then ingestRoutes else []

/-- A `GET` route also serves `HEAD`. -/
def serves (r : Route) (req : Request) : Bool :=
  r.path = req.path && (r.method = req.method || r.method = .get && req.method = .head)

/-- The collection that the handler of the request acts on: `none` if no handler runs, `some none` if
it acts on no collection. -/
def target (router : Router) (req : Request) : Option (Option String) := do
  let r ← router.routes.find? fun r => serves r req
  r.extract req

end Router

/-! ### The layer's side -/

/-- The access that a path needs. -/
def opOf (path : String) : Op := if "/admin".toList.isPrefixOf path.toList then .admin
  else if path ∈ ["/object", "/scan", "/mget", "/scanBuckets", "/export", "/caps", "/members",
      "/partitions", "/route", "/leader", "/ingest/status"] then .read
  else if path ∈ ["/deleteObject", "/dropBuckets"] then .delete
  else .write

/-- The bytes of `coll=`. -/
def collEquals : List UInt8 := [99, 111, 108, 108, 61]

/-- The first part of the query string that starts with `coll=`, decoded.  The outer `none` is a
panic. -/
def collFromQuery (q : List UInt8) : Option (Option String) :=
  match (q.splitOn Ascii.ampersand).findSome? fun p => p.dropPrefix? collEquals with
  | some v => (percentDecode v).map some
  | none => some none

def collFromBody (body : Body) : Option String := do
  let doc ← body.doc
  let v ← doc.asValue
  let coll ← v.get? "coll"
  coll.asStr

/-- The length of the body that the layer buffers. -/
def bufferLimit : ℕ := 2 ^ 20

namespace HttpRequest

variable {β : Type} (size : β → ℕ) (empty : β) (coll : β → Option String)

/-- What the layer finds in the query string.  The outer `none` is a panic. -/
def queryColl (req : HttpRequest β) : Option (Option String) := match req.query with
  | some q => collFromQuery q
  | none => some none

/-- `to_bytes(body, 1 << 20).await.unwrap_or_default()`. -/
def buffered (req : HttpRequest β) : HttpRequest β :=
  { req with body := if size req.body ≤ bufferLimit then req.body else empty }

/-- The collection that the layer finds, and the request that it would hand on.  The outer `none` is
a panic. -/
def inspect (req : HttpRequest β) : Option (Option String × HttpRequest β) := do
  let queryColl ← req.queryColl
  if queryColl = none ∧ req.method = .post then
    let handed := req.buffered size empty
    return (coll handed.body, handed)
  else return (queryColl, req)

end HttpRequest

def Request.inspect (req : Request) : Option (Option String × Request) :=
  HttpRequest.inspect Body.size .empty collFromBody req

/-- The token of an `Authorization` header. -/
def bearer (header : Option String) : Option String := do
  let h ← header
  let token ← h.toList.dropPrefix? "Bearer ".toList
  return String.ofList token

inductive Verdict where
  /-- The request goes on to the router. -/
  | forward (req : Request)
  | unauthorized
  | forbidden
  | panicked

/-- `policy_layer`; `header` is the `Authorization` header, if it is readable text. -/
def policyLayer (policy : Policy) (header : Option String) (req : Request) : Verdict :=
  if req.path = "/health" ∨ req.path = "/metrics" then .forward req
  else match bearer header with
    | none => .unauthorized
    | some token => match req.inspect with
      | none => .panicked
      | some (coll, req') => match policy.principal token with
        | some p => if p.allows coll (opOf req.path) then .forward req' else .forbidden
        | none => .unauthorized

/-! ### The layer on bytes -/

/-- A request with the bytes of its body. -/
abbrev RawRequest := HttpRequest (List UInt8)

namespace RawRequest

variable (scan : List UInt8 → Option Json)

/-- The body, where `scan` reads the document. -/
def readBody (bytes : List UInt8) : Body := ⟨bytes.length, scan bytes⟩

def request (raw : RawRequest) : Request := raw.map (readBody scan)

/-- The collection that the bytes contain. -/
def coll (raw : RawRequest) : Option String := collFromBody (readBody scan raw.body)

def inspect (raw : RawRequest) : Option (Option String × RawRequest) :=
  HttpRequest.inspect List.length [] (fun bytes => collFromBody (readBody scan bytes)) raw

end RawRequest

end Stplr
