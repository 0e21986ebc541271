import Stplr.Net
import Stplr.Proto
import Stplr.Resp

/-!
# The listeners of a shard

`stplrd` serves one shard over HTTP and, if it is told to, over the binary protocol and over RESP.
`Args.listeners` is what `main` starts, each listener with what it lets clients in by: the policy or
else the token for HTTP, and always the token for the other two.  TLS and binding the addresses are left
out.

An `Access` is a store operation that was executed for a client.  `Proto.accesses` and
`Resp.accesses` follow the loops of the two connections and `Guard.accesses` a request through the
HTTP router, and note the operations with the token that the client has presented before.
-/

namespace Stplr

/-! ### The configuration -/

/-- The options that decide which listeners a shard has, and what guards them. -/
structure Args where
  bind : String
  binBind : Option String
  respBind : Option String
  authToken : Option String
  policy : Option String
  /-- An operating system passes no argument as long as this. -/
  short : ∀ token ∈ authToken, (utf8Bytes token).length < 2 ^ 32

/-- What stands before the HTTP router. -/
inductive Guard where
  | requirePolicy (policy : Policy)
  | requireBearer (token : Option String)

inductive Listener where
  | binary (token : Option String)
  | resp (token : Option String)
  | http (guard : Guard)

/-- An address of the command line; `isAddr` tells which texts are socket addresses. -/
def parseAddr (isAddr : String → Bool) (flag addr : String) : Except String Unit :=
  if isAddr addr then .ok ()
  else .error ("bad " ++ flag ++ " '" ++ addr ++ "': invalid socket address syntax")

/-- What `main` starts in the role of a shard. -/
def Args.listeners (isAddr : String → Bool) (args : Args) : Except String (List Listener) := do
  args.binBind.forM (parseAddr isAddr "--bin-bind")
  args.respBind.forM (parseAddr isAddr "--resp-bind")
  parseAddr isAddr "--bind" args.bind
  let guard ← match args.policy with
    | some spec => (Policy.parse spec).map Guard.requirePolicy
    | none => .ok (.requireBearer args.authToken)
  return args.binBind.toList.map (fun _ => .binary args.authToken) ++
    args.respBind.toList.map (fun _ => .resp args.authToken) ++ [.http guard]

/-! ### Accesses -/

/-- A store operation that was executed: the token that the client had presented, the kind of access,
and the collection, if it is about one. -/
structure Access where
  token : Option String
  op : Op
  coll : Option String
deriving DecidableEq

/-- The token is of a principal that may do this. -/
def Policy.permits (policy : Policy) (a : Access) : Bool :=
  (a.token.bind policy.principal).any fun p => p.allows a.coll a.op

namespace Proto

variable {St : Type} [IndexStore St]

/-- The access that a frame asks for. -/
def Frame.access : Frame → Option (Op × String)
  | .get coll _ => some (.read, asStr coll)
  | .set coll _ _ => some (.write, fromUtf8Lossy coll)
  | .sadd coll _ _ | .srem coll _ _ => some (.write, asStr coll)
  | .del coll _ => some (.delete, asStr coll)
  | .ping | .auth _ => none

/-- What a connection executes: the loop of `handle`, with the token that was presented last. -/
def accesses (codec : JsonCodec) (token : Option String) :
    List ℕ → Bool → Option String → Shard St → List UInt8 → List Access
  | now :: times, authed, who, sh, op :: input =>
    if op = opAuth then
      match readField input with
      | none => []
      | some (presented, input) =>
        if token.all fun t => presented = utf8Bytes t then
          accesses codec token times true (fromUtf8 presented) sh input
        else []
    else if authed then
      match readFrame op input with
      | none => []
      | some (f, input) =>
        f.access.toList.map (fun a => ⟨who, a.1, some a.2⟩) ++
          accesses codec token times authed who (answer codec now sh f).1 input
    else []
  | _, _, _, _, _ => []

end Proto

namespace Resp

variable {St : Type} [IndexStore St]

/-- The kinds of access of a request to the keyspace. -/
def Request.ops : Request → List Op
  | .dbsize | .get _ | .exist _ | .smembers _ | .scard _ | .sismember _ _ | .scan _ _ _ | .type _ =>
    [.read]
  | .set _ _ _ | .incr _ (some _) | .sadd _ _ | .srem _ _ => [.write]
  | .getset _ _ => [.read, .write]
  | .del _ => [.delete]
  | .ping _ | .accepted | .hello | .command | .info | .incr _ none | .unknown _ => []

/-- What a connection executes: the loop of `handle`, with the token that was presented last. -/
def accesses (codec : JsonCodec) (token : Option String) :
    List ℕ → Bool → Option String → Shard St → Reader → List Access
  | [], _, _, _, _ => []
  | now :: times, authed, who, sh, r =>
    match readCommand r with
    | .error _ => []
    | .ok ([], r) => accesses codec token times authed who sh r
    | .ok (name :: args, r) =>
      if !authed && !allowed (upper name) then accesses codec token times authed who sh r
      else if upper name = "AUTH" then
        match token with
        | some t =>
          if presents t args then accesses codec token times true (some t) sh r
          else accesses codec token times authed who sh r
        | none => accesses codec token times authed who sh r
      else if upper name = "QUIT" then []
      else
        (request (upper name) args).ops.map (fun op => ⟨who, op, some coll⟩) ++
          accesses codec token times authed who (respond codec now sh name args).1 r

end Resp

/-! ### HTTP -/

/-- The layer of `require_bearer`. -/
def bearerLayer (token header : Option String) (req : Request) : Verdict := match token with
  | none => .forward req
  | some t =>
    if req.path = "/health" ∨ req.path = "/metrics" then .forward req
    else if bearer header = some t then .forward req
    else .unauthorized

def Guard.layer : Guard → Option String → Request → Verdict
  | .requirePolicy policy => policyLayer policy
  | .requireBearer token => bearerLayer token

/-- The routes whose handlers do not use the store. -/
def storeless (path : String) : Bool := path ∈ ["/health", "/metrics", "/caps"]

/-- What a request to the shard's router executes behind the guard. -/
def Guard.accesses (guard : Guard) (header : Option String) (req : Request) : List Access :=
  match guard.layer header req with
  | .forward req =>
    if storeless req.path then []
    else (Router.shard.target req).toList.map fun coll => ⟨bearer header, opOf req.path, coll⟩
  | _ => []

/-- `HeaderValue::to_str` accepts it: visible ASCII characters, blanks and tabs. -/
def isReadable (header : String) : Bool :=
  header.toList.all fun c => c = '\t' || (32 ≤ c.toNat && c.toNat < 127)

/-- Some client of the listener gets the access, at this state of the shard. -/
def Listener.Executes {St : Type} [IndexStore St] (codec : JsonCodec) (sh : Shard St) (a : Access) :
    Listener → Prop
  | .binary token => ∃ times input, a ∈ Proto.accesses codec token times token.isNone none sh input
  | .resp token => ∃ times r, a ∈ Resp.accesses codec token times token.isNone none sh r
  | .http guard => ∃ header req, (∀ h ∈ header, isReadable h = true) ∧ a ∈ guard.accesses header req

end Stplr
