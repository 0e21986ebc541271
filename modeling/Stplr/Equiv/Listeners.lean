import Stplr.Equiv.Auth
import Stplr.Equiv.Net
import Stplr.Equiv.Resp
import Stplr.Listeners

/-!
# What a token and a policy guard

The accesses that are noted for a connection are all that it does with the shard: without any, it
leaves the shard alone and replies the same for every shard (`Proto.binary_without_accesses`,
`Resp.resp_without_accesses`).

`policy_guards_iff` says for which configurations a policy holds on every listener.  Over HTTP a
principal can name a collection of its own to the layer and another one to the handler, so it gets
whatever it has been granted on all collections.  The other two listeners do not see the policy, so there
the token of the configuration has to be a principal's with every access.  A token without a policy
holds on all of them (`token_guards`).
-/

namespace Stplr

open List
open Option (bind_eq_some_iff some)

variable {St : Type} [IndexStore St] {codec : JsonCodec} {sh : Shard St}

/-- The kinds of access to a store. -/
def storeOps : List Op := [.read, .write, .delete]

/-! ### Grants -/

namespace Principal

variable {p : Principal} {op : Op}

/-- What is allowed without a collection is allowed by a wildcard grant. -/
theorem allows_none_iff :
    p.allows none op = true ↔ ∃ g ∈ p.grants, g.coll = "*" ∧ g.permits op = true := by
  rw [allows, any_eq_true]
  constructor
  · rintro ⟨g, hg, hallow⟩
    obtain ⟨hcovers, hpermits⟩ := Grant.allows_iff.mp hallow
    refine ⟨g, hg, ?_, hpermits⟩
    by_contra hstar
    cases (Grant.covers_iff hstar none).mp hcovers
  · rintro ⟨g, hg, hstar, hpermits⟩
    exact ⟨g, hg, Grant.allows_iff.mpr ⟨Grant.covers_of_wildcard hstar none, hpermits⟩⟩

theorem allows_of_allows_none (h : p.allows none op = true) (coll : Option String) :
    p.allows coll op = true := by
  obtain ⟨g, hg, hstar, hpermits⟩ := allows_none_iff.mp h
  exact any_eq_true.mpr
    ⟨g, hg, Grant.allows_iff.mpr ⟨Grant.covers_of_wildcard hstar coll, hpermits⟩⟩

/-- A text of grants cannot name the collection `:`, so only a wildcard is for it. -/
theorem allows_none_of_colon {spec : String} {policy : Policy} {token : String}
    (hparse : Policy.parse spec = .ok policy) (hp : policy.principal token = some p)
    (h : p.allows (some ":") op = true) : p.allows none op = true := by
  obtain ⟨g, hg, hallow⟩ := any_eq_true.mp h
  obtain ⟨hcovers, hpermits⟩ := Grant.allows_iff.mp hallow
  refine allows_none_iff.mpr ⟨g, hg, ?_, hpermits⟩
  by_contra hstar
  have hcoll : ":" = g.coll := some.inj ((Grant.covers_iff hstar _).mp hcovers)
  have hname := Policy.nameable_of_parse hparse hp hg
  rw [← hcoll] at hname
  exact absurd hname (by decide +kernel)

end Principal

theorem Policy.permits_iff {policy : Policy} {a : Access} : policy.permits a = true ↔
    ∃ token p, a.token = some token ∧ policy.principal token = some p ∧
      p.allows a.coll a.op = true := by
  unfold permits
  rw [Option.any_eq_true]
  simp only [bind_eq_some_iff]
  constructor
  · rintro ⟨p, ⟨token, htoken, hp⟩, hallow⟩
    exact ⟨token, p, htoken, hp, hallow⟩
  · rintro ⟨token, p, htoken, hp, hallow⟩
    exact ⟨p, ⟨token, htoken, hp⟩, hallow⟩

/-! ### HTTP -/

/-- A route for the access whose handler reads the collection from the body. -/
def disguisedPath : Op → String
  | .read => "/mget"
  | .delete => "/deleteObject"
  | .write | .admin => "/write"

/-- A request that names a collection to the layer and another one to the handler. -/
def disguised (op : Op) (coll coll' : String) : Request where
  method := .post
  path := disguisedPath op
  query := some (collEquals ++ formEncode coll)
  isJson := true
  body := ⟨64, some (.obj
    [("coll", .str coll'), ("key", .str "k"), ("keys", .arr []), ("obj", .int 1)])⟩

theorem opOf_disguisedPath : ∀ op ∈ storeOps, opOf (disguisedPath op) = op := by decide

theorem collFromQuery_formEncode (coll : String) :
    collFromQuery (collEquals ++ formEncode coll) = some (some coll) := by
  have hfree : Ascii.ampersand ∉ collEquals ++ formEncode coll := by
    rw [mem_append, not_or]
    exact ⟨by decide, not_mem_formEncode (Or.inl rfl) coll⟩
  have hsplit : (collEquals ++ formEncode coll).splitOn Ascii.ampersand
      = [collEquals ++ formEncode coll] :=
    calc (collEquals ++ formEncode coll).splitOn Ascii.ampersand
        = ([Ascii.ampersand].intercalate [collEquals ++ formEncode coll]).splitOn
            Ascii.ampersand := by simp
      _ = [collEquals ++ formEncode coll] :=
        splitOn_intercalate _ (by simpa using hfree) (by simp)
  have hdrop : (collEquals ++ formEncode coll).dropPrefix? collEquals = some (formEncode coll) :=
    dropPrefix?_append_of_beq _ (by decide)
  rw [collFromQuery, hsplit, findSome?_cons, hdrop]
  show (percentDecode (formEncode coll)).map some = _
  rw [percentDecode_formEncode]
  rfl

theorem inspect_disguised (op : Op) (coll coll' : String) :
    (disguised op coll coll').inspect = some (some coll, disguised op coll coll') := by
  show (collFromQuery (collEquals ++ formEncode coll)).bind _ = _
  rw [collFromQuery_formEncode]
  rfl

theorem bearer_append (token : String) : bearer (some ("Bearer " ++ token)) = some token := by
  have hdrop : ("Bearer " ++ token).toList.dropPrefix? "Bearer ".toList = some token.toList := by
    rw [String.toList_append]
    exact dropPrefix?_append_of_beq _ (beq_self_eq_true _)
  show (("Bearer " ++ token).toList.dropPrefix? "Bearer ".toList).bind _ = _
  rw [hdrop]
  exact congrArg some (String.ofList_toList)

theorem eq_append_of_bearer {header : Option String} {token : String}
    (h : bearer header = some token) : header = some ("Bearer " ++ token) := by
  cases header with
  | none => cases h
  | some text =>
    obtain ⟨cs, hdrop, hcs⟩ := bind_eq_some_iff.mp (show
      (text.toList.dropPrefix? "Bearer ".toList).bind (fun cs => some (String.ofList cs))
        = some token from h)
    obtain ⟨start, htext, hstart⟩ := dropPrefix?_eq_some_iff.mp hdrop
    obtain rfl := some.inj hcs
    rw [eq_of_beq hstart] at htext
    refine congrArg some (String.toList_injective ?_)
    rw [htext, String.toList_append]
    exact congrArg _ String.toList_ofList.symm

theorem isReadable_bearer (token : String) :
    isReadable ("Bearer " ++ token) = isReadable token := by
  have hstart : ("Bearer ".toList.all fun c => c = '\t' || (32 ≤ c.toNat && c.toNat < 127)) = true := by
    decide
  rw [isReadable, String.toList_append, all_append, hstart, Bool.true_and, isReadable]

theorem path_of_inspect {req req' : Request} {coll : Option String}
    (h : req.inspect = some (coll, req')) : req'.path = req.path := by
  obtain ⟨found, -, hfound⟩ := bind_eq_some_iff.mp h
  split_ifs at hfound
  · cases hfound
    rfl
  · cases hfound
    rfl

/-- The shard has no administrative routes. -/
theorem opOf_mem_storeOps {req : Request} {coll : Option String}
    (h : Router.shard.target req = some coll) : opOf req.path ∈ storeOps := by
  have hroutes : ∀ r ∈ Router.shardRoutes, opOf r.path ∈ storeOps := by
    simp only [Router.shardRoutes, Route.get, Route.post, forall_mem_cons]
    decide
  obtain ⟨r, hr, -⟩ := bind_eq_some_iff.mp h
  have hserves := find?_some hr
  rw [Router.serves, Bool.and_eq_true, decide_eq_true_eq] at hserves
  rw [← hserves.1]
  exact hroutes r (mem_of_find?_eq_some hr)

variable {op : Op}

/-- A principal gets an access that it has on one collection on every other. -/
theorem executes_disguised {policy : Policy} {token : String} {p : Principal} {coll : String}
    (hread : isReadable token = true) (hp : policy.principal token = some p) (hop : op ∈ storeOps)
    (hallow : p.allows (some coll) op = true) (coll' : String) :
    (Listener.http (.requirePolicy policy)).Executes codec sh ⟨some token, op, some coll'⟩ := by
  have hpath := opOf_disguisedPath op hop
  have hopen : disguisedPath op ≠ "/health" ∧ disguisedPath op ≠ "/metrics" := by
    cases op <;> decide
  have hstore : storeless (disguisedPath op) = false := by
    cases op <;> decide
  have hlayer : policyLayer policy (some ("Bearer " ++ token)) (disguised op coll coll')
      = .forward (disguised op coll coll') := by
    rw [← hpath] at hallow
    exact (forward_iff hopen).mpr
      ⟨token, some coll, p, bearer_append token, inspect_disguised op coll coll', hp, hallow⟩
  refine ⟨some ("Bearer " ++ token), disguised op coll coll', ?_, ?_⟩
  · rintro text ⟨⟩
    rw [isReadable_bearer, hread]
  · show _ ∈ Guard.accesses (.requirePolicy policy) _ _
    rw [Guard.accesses, Guard.layer, hlayer]
    show _ ∈ if storeless (disguisedPath op) then [] else _
    have htarget : Router.shard.target (disguised op coll coll') = some (some coll') := by
      cases op <;> rfl
    rw [hstore, htarget, bearer_append]
    show _ ∈ [(⟨some token, opOf (disguisedPath op), some coll'⟩ : Access)]
    rw [hpath]
    exact mem_singleton_self _

/-- An access over HTTP is of a principal that has it on some collection. -/
theorem exists_principal_of_executes {policy : Policy} {a : Access}
    (h : (Listener.http (.requirePolicy policy)).Executes codec sh a) :
    ∃ token p coll, isReadable token = true ∧ a.token = some token ∧
      policy.principal token = some p ∧ a.op ∈ storeOps ∧ p.allows coll a.op = true := by
  obtain ⟨header, req, hread, ha⟩ := h
  unfold Guard.accesses at ha
  split at ha
  next req' hlayer =>
    have hforward : policyLayer policy header req = .forward req' := hlayer
    by_cases hstore : storeless req'.path = true
    · rw [if_pos hstore] at ha
      cases ha
    · rw [if_neg hstore] at ha
      obtain ⟨coll', htarget, rfl⟩ := mem_map.mp ha
      have hprobe : ¬(req.path = "/health" ∨ req.path = "/metrics") := by
        intro hprobe
        rw [policyLayer, if_pos hprobe] at hforward
        obtain rfl := Verdict.forward.inj hforward
        refine hstore (decide_eq_true ?_)
        obtain hpath | hpath := hprobe <;> simp [hpath]
      obtain ⟨token, coll, p, htoken, hins, hp, hallow⟩ :=
        (forward_iff (not_or.mp hprobe)).mp hforward
      have htext := hread _ (eq_append_of_bearer htoken)
      rw [isReadable_bearer] at htext
      rw [← path_of_inspect hins] at hallow
      exact ⟨token, p, coll, htext, htoken, hp, opOf_mem_storeOps (Option.mem_toList.mp htarget),
        hallow⟩
  next => cases ha

variable (codec sh) in
/-- **What the policy guards over HTTP**: the accesses of principals whose grants are for all
collections. -/
theorem http_guarded_iff {spec : String} {policy : Policy} (hparse : Policy.parse spec = .ok policy) :
    (∀ a, (Listener.http (.requirePolicy policy)).Executes codec sh a → policy.permits a = true) ↔
      ∀ token p, isReadable token = true → policy.principal token = some p → ∀ op ∈ storeOps,
        ∀ coll, p.allows coll op = true → p.allows none op = true := by
  constructor
  · intro h token p hread hp op hop coll hallow
    cases coll with
    | none => exact hallow
    | some coll =>
      obtain ⟨token', p', htoken, hp', hallow'⟩ :=
        Policy.permits_iff.mp (h _ (executes_disguised hread hp hop hallow ":"))
      obtain rfl := some.inj htoken
      obtain rfl : p = p' := some.inj (hp.symm.trans hp')
      exact Principal.allows_none_of_colon hparse hp hallow'
  · intro h a hexec
    obtain ⟨token, p, coll, hread, htoken, hp, hop, hallow⟩ := exists_principal_of_executes hexec
    have hnone := h token p hread hp a.op hop coll hallow
    exact Policy.permits_iff.mpr
      ⟨token, p, htoken, hp, Principal.allows_of_allows_none hnone a.coll⟩

/-! ### The token of the configuration -/

/-- A listener that asks for one token: the policy guards it if this is the token of a principal with
every access to what is accessed. -/
theorem guarded_by_token_iff {policy : Policy} {E : Access → Prop} {token coll : Option String}
    (hall : ∀ a, E a → ∀ t, token = some t → a.token = some t ∧ a.op ∈ storeOps ∧
      ∀ p : Principal, p.allows coll a.op = true → p.allows a.coll a.op = true)
    (hsome : ∀ op ∈ storeOps, ∃ coll', E ⟨token, op, coll'⟩ ∧ ∀ t p, policy.principal t = some p →
      p.allows coll' op = true → p.allows coll op = true) :
    (∀ a, E a → policy.permits a = true) ↔ ∃ t p, token = some t ∧ policy.principal t = some p ∧
      ∀ op ∈ storeOps, p.allows coll op = true := by
  constructor
  · intro h
    have hop : ∀ op ∈ storeOps, ∃ t p, token = some t ∧ policy.principal t = some p ∧
        p.allows coll op = true := by
      intro op hop
      obtain ⟨coll', hE, hcoll⟩ := hsome op hop
      obtain ⟨t, p, ht, hp, hallow⟩ := Policy.permits_iff.mp (h _ hE)
      exact ⟨t, p, ht, hp, hcoll t p hp hallow⟩
    obtain ⟨t, p, ht, hp, -⟩ := hop .read (by decide)
    refine ⟨t, p, ht, hp, fun op hmem => ?_⟩
    obtain ⟨t', p', ht', hp', hallow⟩ := hop op hmem
    obtain rfl : t = t' := some.inj (ht.symm.trans ht')
    obtain rfl : p = p' := some.inj (hp.symm.trans hp')
    exact hallow
  · rintro ⟨t, p, ht, hp, hops⟩ a ha
    obtain ⟨htoken, hop, hcoll⟩ := hall a ha t ht
    exact Policy.permits_iff.mpr ⟨t, p, htoken, hp, hcoll p (hops a.op hop)⟩

/-! ### The binary protocol -/

namespace Proto

variable {f : Frame} (op : Op)

theorem mem_storeOps_of_access {a : Op × String} (h : f.access = some a) : a.1 ∈ storeOps := by
  cases f with
  | ping => cases h
  | auth token => cases h
  | _ =>
    obtain rfl := some.inj h
    simp [storeOps]

section Passes

variable {token who : Option String} {input rest : List UInt8}

theorem accesses_of_not_at (h : ∀ f rest, ¬Frame.At f input rest) (times : List ℕ) (authed : Bool)
    (who : Option String) (sh : Shard St) :
    accesses codec token times authed who sh input = [] := by
  match times, input with
  | [], input => rfl
  | now :: times, [] => rfl
  | now :: times, op :: body =>
    rw [accesses]
    split_ifs with hop hauthed
    · cases hfield : readField body with
      | none => rfl
      | some r => exact absurd ⟨body, by rw [hop]; rfl, r.2, hfield, rfl⟩ (h (.auth r.1) r.2)
    · cases hread : readFrame op body with
      | none => rfl
      | some r =>
        obtain ⟨rfl, hreads⟩ := reads_of_readFrame hread
        exact absurd ⟨body, rfl, hreads⟩ (h r.1 r.2)
    · rfl

theorem accesses_auth {b : List UInt8} (h : (Frame.auth b).At input rest) (now : ℕ)
    (times : List ℕ) (authed : Bool) (who : Option String) :
    accesses codec token (now :: times) authed who sh input
      = if token.all fun t => b = utf8Bytes t then
          accesses codec token times true (fromUtf8 b) sh rest
        else [] := by
  obtain ⟨body, rfl, rest', hfield, rfl⟩ := h
  rw [accesses, if_pos (show (Frame.auth b).op = opAuth from rfl), hfield]

variable {f : Frame} (hop : f.op ≠ opAuth) (h : f.At input rest)
include hop h

theorem accesses_frame (now : ℕ) (times : List ℕ) (who : Option String) :
    accesses codec token (now :: times) true who sh input
      = f.access.toList.map (fun a => ⟨who, a.1, some a.2⟩) ++
        accesses codec token times true who (answer codec now sh f).1 rest := by
  obtain ⟨body, rfl, hreads⟩ := h
  rw [accesses, if_neg hop, if_pos rfl, readFrame_of_reads hop hreads]

theorem accesses_frame_locked (times : List ℕ) (who : Option String) :
    accesses codec token times false who sh input = [] := by
  obtain ⟨body, rfl, -⟩ := h
  cases times with
  | nil => rfl
  | cons now times =>
    rw [accesses, if_neg hop]
    rfl

end Passes

/-- Accesses are executed for clients that have presented the token. -/
theorem token_of_mem_accesses {token : String} {times : List ℕ} {authed : Bool}
    {who : Option String} (hwho : authed = true → who = some token) {sh : Shard St}
    {input : List UInt8} {a : Access}
    (ha : a ∈ accesses codec (some token) times authed who sh input) :
    a.token = some token ∧ a.op ∈ storeOps := by
  induction times generalizing authed who sh input with
  | nil => cases ha
  | cons now times ih =>
    by_cases hat : ∃ f rest, Frame.At f input rest
    · obtain ⟨f, rest, hat⟩ := hat
      by_cases hop : f.op = opAuth
      · obtain ⟨b, rfl⟩ := Frame.eq_auth hop
        rw [accesses_auth hat] at ha
        split_ifs at ha with hpresented
        · have hbytes : utf8Bytes token = b := by simpa [eq_comm] using hpresented
          exact ih (fun _ => fromUtf8_eq_some.mpr hbytes) ha
        · cases ha
      · cases authed with
        | false =>
          rw [accesses_frame_locked hop hat] at ha
          cases ha
        | true =>
          rw [accesses_frame hop hat] at ha
          obtain ha | ha := mem_append.mp ha
          · obtain ⟨x, hx, rfl⟩ := mem_map.mp ha
            exact ⟨hwho rfl, mem_storeOps_of_access (Option.mem_toList.mp hx)⟩
          · exact ih hwho ha
    · push Not at hat
      rw [accesses_of_not_at hat] at ha
      cases ha

/-- **The accesses are all that a connection does with the shard**: without any it does not change the
shard, and replies the same for every shard. -/
theorem binary_without_accesses {token : Option String} {times : List ℕ} {authed : Bool}
    {who : Option String} {input : List UInt8}
    (h : accesses codec token times authed who sh input = []) :
    ∃ replies, ∀ sh' : Shard St, handle codec token times authed sh' input = (sh', replies) := by
  induction times generalizing authed who input with
  | nil => exact ⟨[], fun sh' => by cases input <;> rfl⟩
  | cons now times ih =>
    by_cases hat : ∃ f rest, Frame.At f input rest
    · obtain ⟨f, rest, hat⟩ := hat
      by_cases hop : f.op = opAuth
      · obtain ⟨b, rfl⟩ := Frame.eq_auth hop
        rw [accesses_auth hat] at h
        split_ifs at h with hpresented
        · obtain ⟨replies, hreplies⟩ := ih h
          refine ⟨[stOk] :: replies, fun sh' => ?_⟩
          rw [handle_auth hat, if_pos hpresented, hreplies]
        · refine ⟨[[stAbsent]], fun sh' => ?_⟩
          rw [handle_auth hat, if_neg hpresented]
      · cases authed with
        | false => exact ⟨[], fun sh' => handle_frame_locked hop hat _ sh'⟩
        | true =>
          rw [accesses_frame hop hat] at h
          obtain ⟨hnone, hrest⟩ := append_eq_nil_iff.mp h
          -- a frame without an access is a `PING`, which leaves the shard as it is
          cases f with
          | ping =>
            obtain ⟨replies, hreplies⟩ := ih hrest
            refine ⟨[stOk] :: replies, fun sh' => ?_⟩
            have hanswer : answer codec now sh' .ping = (sh', [stOk]) := rfl
            rw [handle_frame hop hat, hanswer, hreplies]
          | auth b => exact absurd rfl hop
          | _ => cases hnone
    · push Not at hat
      exact ⟨[], fun sh' => handle_of_not_at hat _ authed sh'⟩

/-- A `GET` before authentication. -/
theorem binary_without_accesses_locked : ∃ replies, ∀ sh : Shard MemoryStore,
    handle sampleJson (some "t") [0] false sh (Frame.get [58] [107]).bytes = (sh, replies) :=
  binary_without_accesses (show accesses sampleJson (some "t") [0] false none
    (⟨"s0", MemoryStore.new⟩ : Shard MemoryStore) _ = [] by decide +kernel)

/-- A frame for the access, to the collection `:`. -/
def probe : Op → Frame
  | .read => .get [58] [107]
  | .delete => .del [58] [107]
  | .write | .admin => .set [58] [107] [49]

theorem access_probe : ∀ op ∈ storeOps, (probe op).access = some (op, ":") := by decide +kernel

theorem probe_op_ne : (probe op).op ≠ opAuth := by
  cases op <;> decide

theorem at_bytes (hf : f.Fits) (rest : List UInt8) : f.At (f.bytes ++ rest) rest :=
  ⟨_, rfl, reads_bytes hf rest⟩

theorem at_probe : (probe op).At (probe op).bytes [] := by
  have hfits : (probe op).Fits := by cases op <;> decide
  simpa using at_bytes hfits []

end Proto

/-- A client that presents the token, if there is one, gets every access to the collection `:`. -/
theorem executes_binary {token : Option String}
    (hshort : ∀ t ∈ token, (utf8Bytes t).length < 2 ^ 32) (hop : op ∈ storeOps) :
    (Listener.binary token).Executes codec sh ⟨token, op, some ":"⟩ := by
  have hprobe : ∀ sh : Shard St, (⟨token, op, some ":"⟩ : Access) ∈
      Proto.accesses codec token [0] true token sh (Proto.probe op).bytes := by
    intro sh
    rw [Proto.accesses_frame (Proto.probe_op_ne op) (Proto.at_probe op), Proto.access_probe op hop]
    exact mem_cons_self ..
  cases token with
  | none => exact ⟨[0], _, hprobe sh⟩
  | some t =>
    refine ⟨[0, 0], (Proto.Frame.auth (utf8Bytes t)).bytes ++ (Proto.probe op).bytes, ?_⟩
    have hfits : (Proto.Frame.auth (utf8Bytes t)).Fits := by
      intro b hb
      obtain rfl := mem_singleton.mp hb
      exact hshort t rfl
    rw [Proto.accesses_auth (Proto.at_bytes hfits _), if_pos (by simp), fromUtf8_eq_some.mpr rfl]
    exact hprobe sh

variable (codec sh) in
/-- **What the policy guards over the binary protocol**: nothing, unless the token of the configuration
is a principal's with every access to all collections. -/
theorem binary_guarded_iff {spec : String} {policy : Policy}
    (hparse : Policy.parse spec = .ok policy) {token : Option String}
    (hshort : ∀ t ∈ token, (utf8Bytes t).length < 2 ^ 32) :
    (∀ a, (Listener.binary token).Executes codec sh a → policy.permits a = true) ↔
      ∃ t p, token = some t ∧ policy.principal t = some p ∧
        ∀ op ∈ storeOps, p.allows none op = true := by
  apply guarded_by_token_iff
  · rintro a ⟨times, input, ha⟩ t rfl
    obtain ⟨htoken, hop⟩ := Proto.token_of_mem_accesses (by simp) ha
    exact ⟨htoken, hop, fun p hallow => Principal.allows_of_allows_none hallow a.coll⟩
  · intro op hop
    exact ⟨some ":", executes_binary hshort hop,
      fun t p hp hallow => Principal.allows_none_of_colon hparse hp hallow⟩

/-! ### RESP -/

namespace Resp

theorem mem_storeOps_of_ops {req : Request} (h : op ∈ req.ops) : op ∈ storeOps := by
  have hops : req.ops ⊆ storeOps := by
    unfold Request.ops storeOps
    split <;> simp
  exact hops h

variable {name : List UInt8}

/-- Before authentication only `PING` and `HELLO` are served, which are no accesses. -/
theorem ops_of_allowed (h : allowed (upper name) = true) (hauth : upper name ≠ "AUTH")
    (hquit : upper name ≠ "QUIT") (args : List (List UInt8)) :
    (request (upper name) args).ops = [] := by
  obtain hname | hname := eq_ping_or_hello h hauth hquit
  · rw [hname]
    rfl
  · rw [hname]
    rfl

/-- Accesses are to the keyspace, and executed for clients that have presented the token. -/
theorem token_of_mem_accesses {token : String} {times : List ℕ} {authed : Bool}
    {who : Option String} (hwho : authed = true → who = some token) {sh : Shard St} {r : Reader}
    {a : Access} (ha : a ∈ accesses codec (some token) times authed who sh r) :
    a.token = some token ∧ a.op ∈ storeOps ∧ a.coll = some coll := by
  induction times generalizing authed who sh r with
  | nil => cases ha
  | cons now times ih =>
    rw [accesses] at ha
    split at ha
    next => cases ha
    next r' hr => exact ih hwho ha
    next name args r' hr =>
      split_ifs at ha with hlocked hauth hquit
      · exact ih hwho ha
      · dsimp only at ha
        split_ifs at ha with hargs
        · exact ih (fun _ => rfl) ha
        · exact ih hwho ha
      · cases ha
      · obtain ha | ha := mem_append.mp ha
        · obtain ⟨op, hop, rfl⟩ := mem_map.mp ha
          cases authed with
          | false =>
            have hallow : allowed (upper name) = true := by simpa using hlocked
            rw [ops_of_allowed hallow hauth hquit] at hop
            cases hop
          | true => exact ⟨hwho rfl, mem_storeOps_of_ops hop, rfl⟩
        · exact ih hwho ha

variable (St codec) in
/-- A request without accesses does not look at the shard. -/
theorem serve_of_ops_eq_nil (h : req.ops = []) :
    ∃ out, ∀ (now : ℕ) (sh : Shard St), serve codec now sh req = (sh, out) := by
  cases req with
  | ping msg => cases msg <;> exact ⟨_, fun now sh => rfl⟩
  | incr key delta =>
    cases delta with
    | none => exact ⟨_, fun now sh => rfl⟩
    | some d => cases h
  | accepted | hello | command | info | unknown => exact ⟨_, fun now sh => rfl⟩
  | _ => cases h

/-- **The accesses are all that a connection does with the shard**: without any it does not change the
shard, and replies the same for every shard. -/
theorem resp_without_accesses {times : List ℕ} {authed : Bool} {who : Option String}
    {r : Reader} (h : accesses codec token times authed who sh r = []) :
    ∃ replies, ∀ sh' : Shard St, handle codec token times authed sh' r = (sh', replies) := by
  induction times generalizing authed who r with
  | nil => exact ⟨[], fun sh' => rfl⟩
  | cons now times ih =>
    -- the reply of this pass does not depend on the shard, nor do those of the others
    have hreply : ∀ {authed' : Bool} {who' : Option String} {r' : Reader},
        accesses codec token times authed' who' sh r' = [] → ∀ out : List UInt8,
        ∃ replies, ∀ sh' : Shard St, ((handle codec token times authed' sh' r').1,
          out :: (handle codec token times authed' sh' r').2) = (sh', replies) := by
      intro authed' who' r' h' out
      obtain ⟨replies, hreplies⟩ := ih h'
      exact ⟨out :: replies, fun sh' => by rw [hreplies]⟩
    cases hr : readCommand r with
    | error e => exact ⟨[], fun sh' => by rw [handle, hr]⟩
    | ok cmd =>
      obtain ⟨cmd, r'⟩ := cmd
      simp only [accesses, handle, hr] at h ⊢
      cases cmd with
      | nil => exact ih h
      | cons name args =>
        dsimp only at h ⊢
        split_ifs at h ⊢ with hlocked hauth hquit
        · exact hreply h _
        · cases token with
          | none => exact hreply h _
          | some t =>
            dsimp only at h ⊢
            split_ifs at h ⊢ with hargs
            · exact hreply h _
            · exact hreply h _
        · exact ⟨[simple "OK"], fun sh' => rfl⟩
        · obtain ⟨hops, hrest⟩ := append_eq_nil_iff.mp h
          obtain ⟨out, hout⟩ := serve_of_ops_eq_nil St codec (map_eq_nil_iff.mp hops)
          have hrespond : ∀ sh' : Shard St, respond codec now sh' name args = (sh', out) :=
            fun sh' => hout now sh'
          simp only [hrespond] at hrest ⊢
          exact hreply hrest out

theorem resp_without_accesses_locked : ∃ replies, ∀ sh : Shard MemoryStore,
    handle sampleJson (some "t") [0, 1] false sh [encode [utf8Bytes "GET", [107]]] = (sh, replies) :=
  resp_without_accesses (show accesses sampleJson (some "t") [0, 1] false none
    (⟨"s0", MemoryStore.new⟩ : Shard MemoryStore) _ = [] by decide +kernel)

/-- A command for the access. -/
def probe : Op → List UInt8 × List (List UInt8)
  | .read => (utf8Bytes "GET", [[107]])
  | .delete => (utf8Bytes "DEL", [[107]])
  | .write | .admin => (utf8Bytes "SET", [[107], [118]])

theorem ops_probe : ∀ op ∈ storeOps, (request (upper (probe op).1) (probe op).2).ops = [op] := by
  decide +kernel

theorem representable_auth {t : String} (h : (utf8Bytes t).length < 2 ^ 32) :
    Representable [utf8Bytes "AUTH", utf8Bytes t] := by
  have hauth : (utf8Bytes "AUTH").length = 4 := by decide
  refine ⟨show 2 * vecSize ≤ maxAlloc by decide, ?_⟩
  simp only [mem_cons, not_mem_nil, or_false, forall_eq_or_imp, forall_eq, hauth]
  unfold maxAlloc
  omega

end Resp

/-- A client that presents the token, if there is one, gets every access to the keyspace. -/
theorem executes_resp (hshort : ∀ t ∈ token, (utf8Bytes t).length < 2 ^ 32) (hop : op ∈ storeOps) :
    (Listener.resp token).Executes codec sh ⟨token, op, some Resp.coll⟩ := by
  have hrep : Resp.Representable ((Resp.probe op).1 :: (Resp.probe op).2) := by
    cases op <;> decide
  have hauth : Resp.upper (Resp.probe op).1 ≠ "AUTH" := by
    cases op <;> decide
  have hquit : Resp.upper (Resp.probe op).1 ≠ "QUIT" := by
    cases op <;> decide
  have hprobe : ∀ r : Resp.Reader,
      r.flatten = Resp.encode ((Resp.probe op).1 :: (Resp.probe op).2) ++ [] →
      (⟨token, op, some Resp.coll⟩ : Access) ∈ Resp.accesses codec token [0] true token sh r := by
    intro r hr
    obtain ⟨r', hread, -⟩ := Resp.readCommand_of_flatten hrep hr
    simp [Resp.accesses, hread, hauth, hquit, Resp.ops_probe op hop]
  cases token with
  | none => exact ⟨[0], [Resp.encode ((Resp.probe op).1 :: (Resp.probe op).2)], hprobe _ (by simp)⟩
  | some t =>
    obtain ⟨r', hread, hr'⟩ := Resp.readCommand_of_flatten (Resp.representable_auth (hshort t rfl))
      (r := [Resp.encode [utf8Bytes "AUTH", utf8Bytes t] ++
        Resp.encode ((Resp.probe op).1 :: (Resp.probe op).2)]) flatten_singleton
    refine ⟨[0, 0], [Resp.encode [utf8Bytes "AUTH", utf8Bytes t] ++
      Resp.encode ((Resp.probe op).1 :: (Resp.probe op).2)], ?_⟩
    have hname : Resp.upper (utf8Bytes "AUTH") = "AUTH" := by decide
    have hallow : Resp.allowed "AUTH" = true := by decide
    simpa [Resp.accesses, hread, hname, hallow, Resp.presents] using hprobe r' (by rw [hr', append_nil])

variable (codec sh) in
/-- **What the policy guards over RESP**: nothing, unless the token of the configuration is a
principal's with every access to the keyspace. -/
theorem resp_guarded_iff {policy : Policy} {token : Option String}
    (hshort : ∀ t ∈ token, (utf8Bytes t).length < 2 ^ 32) :
    (∀ a, (Listener.resp token).Executes codec sh a → policy.permits a = true) ↔
      ∃ t p, token = some t ∧ policy.principal t = some p ∧
        ∀ op ∈ storeOps, p.allows (some Resp.coll) op = true := by
  apply guarded_by_token_iff
  · rintro a ⟨times, r, ha⟩ t rfl
    obtain ⟨htoken, hop, hcoll⟩ := Resp.token_of_mem_accesses (by simp) ha
    exact ⟨htoken, hop, fun p hallow => by rw [hcoll]; exact hallow⟩
  · intro op hop
    exact ⟨some Resp.coll, executes_resp hshort hop, fun t p hp hallow => hallow⟩

/-! ### The configurations -/

theorem ok_of_bind {α : Type} {x : Except String Unit} {k : Except String α} {a : α}
    (h : (x >>= fun _ => k) = .ok a) : k = .ok a := by
  cases x with
  | error e => cases h
  | ok u => exact h

/-- With a policy, the listeners of a shard that starts. -/
theorem listeners_eq {isAddr : String → Bool} {args : Args} {spec : String} {policy : Policy}
    {ls : List Listener} (hspec : args.policy = some spec) (hparse : Policy.parse spec = .ok policy)
    (h : args.listeners isAddr = .ok ls) :
    ls = args.binBind.toList.map (fun _ => .binary args.authToken) ++
      args.respBind.toList.map (fun _ => .resp args.authToken) ++ [.http (.requirePolicy policy)] := by
  unfold Args.listeners at h
  rw [hspec] at h
  dsimp only at h
  rw [hparse] at h
  exact (Except.ok.inj (ok_of_bind (ok_of_bind (ok_of_bind h)))).symm

/-- **A policy on every listener.**  A shard that starts with a policy executes accesses only for
tokens that the policy allows them to, whatever the requests, exactly if

* no principal with a token that a header can carry has an access on some collections only,
* with a binary listener, there is a token, and it is that of a principal with every access to all
  collections,
* with a RESP listener, there is a token, and it is that of a principal with every access to `kv`. -/
theorem policy_guards_iff (codec : JsonCodec) (sh : Shard St) (isAddr : String → Bool) (args : Args)
    (spec : String) (policy : Policy) (ls : List Listener) (hspec : args.policy = some spec)
    (hparse : Policy.parse spec = .ok policy) (hstart : args.listeners isAddr = .ok ls) :
    (∀ l ∈ ls, ∀ a, l.Executes codec sh a → policy.permits a = true) ↔
      (∀ token p, isReadable token = true → policy.principal token = some p → ∀ op ∈ storeOps,
        ∀ coll, p.allows coll op = true → p.allows none op = true) ∧
      (args.binBind ≠ none → ∃ t p, args.authToken = some t ∧ policy.principal t = some p ∧
        ∀ op ∈ storeOps, p.allows none op = true) ∧
      (args.respBind ≠ none → ∃ t p, args.authToken = some t ∧ policy.principal t = some p ∧
        ∀ op ∈ storeOps, p.allows (some Resp.coll) op = true) := by
  have hoption : ∀ (addr : Option String) (l : Listener) (P : Listener → Prop),
      (∀ l' ∈ addr.toList.map (fun _ => l), P l') ↔ (addr ≠ none → P l) := by
    intro addr l P
    cases addr <;> simp
  rw [listeners_eq hspec hparse hstart, forall_mem_append, forall_mem_append, hoption,
    hoption, forall_mem_singleton, http_guarded_iff codec sh hparse,
    binary_guarded_iff codec sh hparse args.short, resp_guarded_iff codec sh args.short, and_comm]

/-- The policy that gives the token `t` these permissions on all collections. -/
def wildcardPolicy (r w d : Bool) : Policy := ⟨Policy.push .empty "t" ⟨"*", r, w, d, false⟩⟩

/-- All three listeners, and a token that the policy gives every access. -/
def guardedArgs : Args where
  bind := "0.0.0.0:8100"
  binBind := some "0.0.0.0:8101"
  respBind := some "0.0.0.0:6379"
  authToken := some "t"
  policy := some "t:*:rwd"
  short := by decide

theorem policy_guards_iff_guardedArgs :
    let ls := [.binary (some "t"), .resp (some "t"),
      .http (.requirePolicy (wildcardPolicy true true true))]
    guardedArgs.listeners (fun _ => true) = .ok ls ∧
    ∀ l ∈ ls, ∀ a, l.Executes sampleJson (⟨"s0", MemoryStore.new⟩ : Shard MemoryStore) a →
      (wildcardPolicy true true true).permits a = true := by
  intro ls
  have hstart : guardedArgs.listeners (fun _ => true) = .ok ls := rfl
  have hall : ∀ op ∈ storeOps, (⟨"t", [⟨"*", true, true, true, false⟩]⟩ : Principal).allows none op
      = true := by decide
  refine ⟨hstart, (policy_guards_iff sampleJson ⟨"s0", MemoryStore.new⟩ (fun _ => true) guardedArgs
    "t:*:rwd" (wildcardPolicy true true true) ls rfl rfl hstart).mpr ⟨?_, ?_, ?_⟩⟩
  · intro token p _ hp op hop coll _
    have hmem : (token, p) ∈ [("t", (⟨"t", [⟨"*", true, true, true, false⟩]⟩ : Principal))] :=
      Lib.SortedMap.find?_eq_some.mp hp
    cases mem_singleton.mp hmem
    exact hall op hop
  · exact fun _ => ⟨"t", _, rfl, rfl, hall⟩
  · exact fun _ => ⟨"t", _, rfl, rfl, fun op hop => Principal.allows_of_allows_none (hall op hop) _⟩

/-- A binary listener beside a policy that allows reading only. -/
def openArgs : Args where
  bind := "0.0.0.0:8100"
  binBind := some "0.0.0.0:8101"
  respBind := none
  authToken := none
  policy := some "t:*:r"
  short := by decide

/-- A client writes to `kv` without a token. -/
theorem policy_ignored_openArgs :
    let set := (Proto.Frame.set [107, 118] [107] [49]).bytes
    let sh : Shard MemoryStore := ⟨"s0", MemoryStore.new⟩
    Policy.parse "t:*:r" = .ok (wildcardPolicy true false false) ∧
    openArgs.listeners (fun _ => true)
      = .ok [.binary none, .http (.requirePolicy (wildcardPolicy true false false))] ∧
    (⟨none, .write, some "kv"⟩ : Access) ∈ Proto.accesses sampleJson none [0] true none sh set ∧
    ((Proto.handle sampleJson none [0] true sh set).1.object 0 "kv" "k").isSome ∧
    (wildcardPolicy true false false).permits ⟨none, .write, some "kv"⟩ = false := by
  intro set sh
  refine ⟨rfl, rfl, ?_, ?_, rfl⟩
  · decide +kernel
  · decide +kernel

/-- An access behind `require_bearer` is for a client with the token. -/
theorem token_of_mem_bearer {t : String} {header : Option String} {req : Request} {a : Access}
    (ha : a ∈ (Guard.requireBearer (some t)).accesses header req) : a.token = some t := by
  simp only [Guard.accesses, Guard.layer, bearerLayer] at ha
  by_cases hprobe : req.path = "/health" ∨ req.path = "/metrics"
  · -- the open routes do not use the store
    have hstore : storeless req.path = true := by
      obtain hpath | hpath := hprobe <;> simp [hpath, storeless]
    simp [hprobe, hstore] at ha
  · by_cases hbearer : bearer header = some t
    · rw [if_neg hprobe, if_pos hbearer] at ha
      dsimp only at ha
      split_ifs at ha
      · cases ha
      · obtain ⟨coll, -, rfl⟩ := mem_map.mp ha
        exact hbearer
    · simp [hprobe, hbearer] at ha

/-- **A token on every listener.**  A shard that starts with a token and without a policy executes
accesses only for clients that have presented the token, over HTTP and on the other listeners. -/
theorem token_guards (codec : JsonCodec) (sh : Shard St) (isAddr : String → Bool) (args : Args)
    (t : String) (ls : List Listener) (htoken : args.authToken = some t) (hpolicy : args.policy = none)
    (hstart : args.listeners isAddr = .ok ls) :
    ∀ l ∈ ls, ∀ a, l.Executes codec sh a → a.token = some t := by
  intro l hl a ha
  have hmem : l = .binary (some t) ∨ l = .resp (some t) ∨ l = .http (.requireBearer (some t)) := by
    unfold Args.listeners at hstart
    rw [hpolicy, htoken] at hstart
    obtain rfl := Except.ok.inj (ok_of_bind (ok_of_bind (ok_of_bind hstart)))
    simp only [mem_append, mem_map, mem_singleton] at hl
    obtain (⟨-, -, rfl⟩ | ⟨-, -, rfl⟩) | rfl := hl <;> simp
  obtain rfl | rfl | rfl := hmem
  · obtain ⟨times, input, ha⟩ := ha
    exact (Proto.token_of_mem_accesses (by simp) ha).1
  · obtain ⟨times, r, ha⟩ := ha
    exact (Resp.token_of_mem_accesses (by simp) ha).1
  · obtain ⟨header, req, -, ha⟩ := ha
    exact token_of_mem_bearer ha

theorem token_guards_guardedArgs :
    let ls := [.binary (some "t"), .resp (some "t"), .http (.requireBearer (some "t"))]
    ({ guardedArgs with policy := none } : Args).listeners (fun _ => true) = .ok ls ∧
    ∀ l ∈ ls, ∀ a, l.Executes sampleJson (⟨"s0", MemoryStore.new⟩ : Shard MemoryStore) a →
      a.token = some "t" :=
  ⟨rfl, token_guards sampleJson _ (fun _ => true) { guardedArgs with policy := none } "t" _ rfl rfl rfl⟩

end Stplr
