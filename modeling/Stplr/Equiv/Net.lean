import Stplr.Equiv.Form
import Stplr.Equiv.Rbac
import Stplr.Net
import Mathlib.Data.FinEnum

/-!
# What the authorisation layer confines a token to

The layer authorises the collection that it finds in the request, and the handler acts on the one
that it reads itself.  A token is confined to its grants on a request exactly when the two agree, or
the layer finds none and asks for a wildcard grant (`confined_iff`).

Two ways in which they differ are looked at on their own: how a collection is decoded
(`query_decoded_alike_iff`), and what is handed on of the body (`body_intact_iff`).
-/

namespace Stplr

open List Option

namespace Grant

variable {g : Grant} {op : Op}

theorem covers_of_wildcard (h : g.coll = "*") (coll : Option String) : g.covers coll = true := by
  unfold covers
  rw [if_pos h]

theorem covers_iff (h : g.coll ≠ "*") (coll : Option String) :
    g.covers coll = true ↔ coll = some g.coll := by
  unfold covers
  rw [if_neg h]
  cases coll with
  | none => simp
  | some c => simp [eq_comm]

theorem allows_iff {coll : Option String} :
    g.allows coll op = true ↔ g.covers coll = true ∧ g.permits op = true := by
  rw [allows, Bool.and_eq_true]

end Grant

/-- On the request the token of every policy is confined to its grants: if the layer forwards the
request and the handler runs, then the token is for a principal that may do so on the collection the
handler acts on. -/
def Confined (router : Router) (req : Request) : Prop :=
  ∀ spec policy, Policy.parse spec = .ok policy → ∀ header req',
    policyLayer policy header req = .forward req' → ∀ coll, router.target req' = some coll →
      ∃ token p, bearer header = some token ∧ policy.principal token = some p ∧
        p.allows coll (opOf req.path) = true

/-- What it takes for the layer to forward a request. -/
theorem forward_iff {policy : Policy} {header : Option String} {req req' : Request}
    (hopen : req.path ≠ "/health" ∧ req.path ≠ "/metrics") :
    policyLayer policy header req = .forward req' ↔ ∃ token coll p, bearer header = some token ∧
      req.inspect = some (coll, req') ∧ policy.principal token = some p ∧
      p.allows coll (opOf req.path) = true := by
  rw [policyLayer, if_neg (by simp [hopen])]
  constructor
  · intro h
    split at h
    next => cases h
    next token htoken =>
      split at h
      next => cases h
      next coll r hins =>
        split at h
        next p hp =>
          split_ifs at h with hallow
          obtain rfl := Verdict.forward.inj h
          exact ⟨token, coll, p, htoken, hins, hp, hallow⟩
        next => cases h
  · rintro ⟨token, coll, p, htoken, hins, hp, hallow⟩
    rw [htoken]
    dsimp only
    rw [hins]
    dsimp only
    rw [hp]
    dsimp only
    rw [if_pos hallow]

/-- **When a request confines tokens to their grants.**  On a request other than `/health` and
`/metrics`, to the shard or to the coordinator, every token of every policy is confined to its grants
iff whenever the layer finds a collection that a policy can name, and not `*`, the handler acts on
that very collection, if it runs. -/
theorem confined_iff (router : Router) (req : Request)
    (hopen : req.path ≠ "/health" ∧ req.path ≠ "/metrics") :
    Confined router req ↔ ∀ coll req', req.inspect = some (some coll, req') →
      Policy.Nameable coll → coll ≠ "*" → ∀ coll', router.target req' = some coll' →
        coll' = some coll := by
  constructor
  · intro h coll req' hins hname hstar coll' htarget
    -- the token that may do everything on `coll`, and nothing else
    have hallow : (⟨coll, true, true, true, true⟩ : Grant).allows (some coll) (opOf req.path) = true :=
      Grant.allows_iff.mpr ⟨(Grant.covers_iff hstar _).mpr rfl, by cases opOf req.path <;> rfl⟩
    have hforward : policyLayer (Policy.fullGrant coll) (some "Bearer t") req = .forward req' :=
      (forward_iff hopen).mpr ⟨"t", some coll, ⟨"t", [⟨coll, true, true, true, true⟩]⟩,
        by decide +kernel, hins, rfl, by simpa [Principal.allows] using hallow⟩
    obtain ⟨token, p, htoken, hp, hp'⟩ := h _ _ (Policy.parse_fullGrant hname) _ _ hforward coll'
      htarget
    obtain rfl : "t" = token := some.inj htoken
    obtain rfl : ⟨"t", [⟨coll, true, true, true, true⟩]⟩ = p := some.inj hp
    obtain ⟨g, hg, hga⟩ := any_eq_true.mp hp'
    obtain rfl := mem_singleton.mp hg
    exact (Grant.covers_iff hstar coll').mp (Grant.allows_iff.mp hga).1
  · intro h spec policy hparse header req' hforward coll' htarget
    obtain ⟨token, coll, p, htoken, hins, hp, hallow⟩ := (forward_iff hopen).mp hforward
    refine ⟨token, p, htoken, hp, ?_⟩
    obtain ⟨g, hg, hga⟩ := any_eq_true.mp hallow
    refine any_eq_true.mpr ⟨g, hg, ?_⟩
    obtain ⟨hcovers, hpermits⟩ := Grant.allows_iff.mp hga
    refine Grant.allows_iff.mpr ⟨?_, hpermits⟩
    by_cases hstar : g.coll = "*"
    · exact Grant.covers_of_wildcard hstar coll'
    · obtain rfl := (Grant.covers_iff hstar coll).mp hcovers
      have hname := Policy.nameable_of_parse hparse hp hg
      exact (Grant.covers_iff hstar coll').mpr (h g.coll req' hins hname hstar coll' htarget)

/-- A write to `secret` with `coll=kv` in the query string. -/
def disguisedWrite : Request := ⟨.post, "/write", some (collEquals ++ [107, 118]), true, 44,
    some (.obj [("coll", .str "secret"), ("key", .str "k"), ("obj", .int 1)])⟩

/-- The layer finds `kv` and the handler acts on `secret`. -/
theorem not_confined_disguisedWrite : ¬Confined .shard disguisedWrite := by
  rw [confined_iff .shard disguisedWrite (by decide)]
  intro h
  have heq := h "kv" disguisedWrite rfl (by decide +kernel) (by decide) (some "secret") rfl
  exact absurd heq (by decide)

/-- A token that may only read and write `kv` writes to `secret`. -/
theorem write_escapes_grant : ∃ policy p, Policy.parse "app:kv:rw" = .ok policy ∧
    policy.principal "app" = some p ∧ bearer (some "Bearer app") = some "app" ∧
    policyLayer policy (some "Bearer app") disguisedWrite = .forward disguisedWrite ∧
    Router.shard.target disguisedWrite = some (some "secret") ∧
    p.allows (some "secret") (opOf disguisedWrite.path) = false := by
  refine ⟨⟨Policy.push .empty "app" ⟨"kv", true, true, false, false⟩⟩,
    ⟨"app", [⟨"kv", true, true, false, false⟩]⟩, rfl, rfl, rfl, rfl, rfl, by decide +kernel⟩

/-! ### The collection in a query string -/

/-- What follows `coll=` in the part of the query string that the layer decodes. -/
def collPart (q : List UInt8) : Option (List UInt8) :=
  (q.splitOn Ascii.ampersand).findSome? fun p => p.dropPrefix? collEquals

theorem collFromQuery_of_collPart {q v : List UInt8} (h : collPart q = some v) :
    collFromQuery q = (percentDecode v).map some := by
  rw [collFromQuery, show (q.splitOn Ascii.ampersand).findSome? _ = some v from h]

/-- The part that the layer decodes is a field of the form. -/
theorem mem_parseForm_of_collPart {q v : List UInt8} (h : collPart q = some v) :
    ("coll", formDecode v) ∈ parseForm q := by
  obtain ⟨part, hpart, hdrop⟩ := exists_of_findSome?_eq_some h
  obtain ⟨start, rfl, hstart⟩ := dropPrefix?_eq_some_iff.mp hdrop
  obtain rfl := eq_of_beq hstart
  refine mem_map.mpr ⟨collEquals ++ v, mem_filter.mpr ⟨hpart, by simp [collEquals]⟩, ?_⟩
  have hname : formDecode ((collEquals ++ v).takeWhile (· ≠ Ascii.equals)) = "coll" := by
    rw [show (collEquals ++ v).takeWhile (· ≠ Ascii.equals) = [99, 111, 108, 108] from rfl]
    decide +kernel
  have hvalue : ((collEquals ++ v).dropWhile (· ≠ Ascii.equals)).drop 1 = v := rfl
  rw [hname, hvalue]

theorem requiredField_eq {form : List (String × String)} {name value value' : String}
    (h : requiredField form name = some value) (hmem : (name, value') ∈ form) : value' = value := by
  have hfilter : (name, value') ∈ form.filter fun e => e.1 = name := mem_filter.mpr ⟨hmem, by simp⟩
  unfold requiredField formField at h
  split at h
  next hnil =>
    rw [hnil] at hfilter
    cases hfilter
  next e hone =>
    rw [hone] at hfilter
    obtain rfl := mem_singleton.mp hfilter
    exact some.inj h
  next => cases h

/-- **When the layer decodes as the handlers do.**  For every text: the layer's decoder returns what
the `Query` extractor reads iff the text has no percent sign that the two read differently.  So when
the layer finds the text behind `coll=` in a query string which the extractor accepts, the collection
that is authorised is the one that is accessed iff there is no such sign. -/
theorem query_decoded_alike_iff (s : String) :
    (percentDecode (utf8Bytes s) = some (formDecode (utf8Bytes s)) ↔ ¬Misread (utf8Bytes s)) ∧
    ∀ q coll, collPart q = some (utf8Bytes s) → requiredField (parseForm q) "coll" = some coll →
      (collFromQuery q = some (some coll) ↔ ¬Misread (utf8Bytes s)) := by
  have hiff := percentDecode_eq_some_formDecode_iff (utf8Bytes s)
  refine ⟨hiff, fun q coll hpart hfield => ?_⟩
  have hcoll := requiredField_eq hfield (mem_parseForm_of_collPart hpart)
  rw [← hiff, hcoll, collFromQuery_of_collPart hpart, map_eq_some_iff]
  constructor
  · rintro ⟨a, ha, heq⟩
    rw [ha, some.inj heq]
  · intro h
    exact ⟨coll, h, rfl⟩

/-- `GET /object?coll=my+%6bv&key=k`. -/
theorem query_decoded_alike_myKv :
    let q : List UInt8 := utf8Bytes "coll=my+%6bv&key=k"
    ¬Misread (utf8Bytes "my+%6bv") ∧ percentDecode (utf8Bytes "my+%6bv") = some "my kv" ∧
      requiredField (parseForm q) "coll" = some "my kv" ∧ collFromQuery q = some (some "my kv") := by
  intro q
  have hclean : ¬Misread (utf8Bytes "my+%6bv") := by decide +kernel
  have hpart : collPart q = some (utf8Bytes "my+%6bv") := by decide +kernel
  have hfield : requiredField (parseForm q) "coll" = some "my kv" := by decide +kernel
  obtain ⟨hdecode, hquery⟩ := query_decoded_alike_iff "my+%6bv"
  refine ⟨hclean, ?_, hfield, (hquery q "my kv" hpart hfield).mpr hclean⟩
  rw [hdecode.mpr hclean]
  decide +kernel

/-- A plus sign before a digit is read as a control character, and two bytes that end inside a
character are a panic. -/
theorem percentDecode_misreads :
    percentDecode (utf8Bytes "%+5") = some (String.ofList [Char.ofNat 5]) ∧
    formDecode (utf8Bytes "%+5") = "% 5" ∧
    percentDecode (utf8Bytes "%1é") = none ∧ formDecode (utf8Bytes "%1é") = "%1é" := by
  decide +kernel

/-! ### The body that the handler receives -/

/-- The layer does the same before and after the bodies are read. -/
theorem HttpRequest.inspect_map {β γ : Type} (f : β → γ) {size : γ → ℕ} {empty : β}
    {coll : γ → Option String} (req : HttpRequest β) :
    (req.map f).inspect size (f empty) coll
      = (req.inspect (size ∘ f) empty (coll ∘ f)).map (Prod.map id (map f)) := by
  have hbuf : (req.map f).buffered size (f empty) = (req.buffered (size ∘ f) empty).map f := by
    unfold buffered map
    dsimp only [Function.comp_apply]
    split_ifs <;> rfl
  unfold inspect
  rw [hbuf]
  cases hq : req.queryColl with
  | none =>
    rw [show (req.map f).queryColl = none from hq]
    rfl
  | some found =>
    rw [show (req.map f).queryColl = some found from hq]
    change (if found = none ∧ req.method = .post then some _ else some _) = Option.map _
      (if found = none ∧ req.method = .post then some _ else some _)
    split_ifs <;> rfl

namespace RawRequest

variable {scan : List UInt8 → Option Json} {raw : RawRequest}

theorem inspect_request (hscan : scan [] = none) (raw : RawRequest) :
    (raw.request scan).inspect = (raw.inspect scan).map fun r => (r.1, r.2.request scan) := by
  have hempty : readBody scan [] = .empty := by rw [readBody, hscan]; rfl
  rw [Request.inspect, ← hempty]
  exact HttpRequest.inspect_map (readBody scan) raw

/-- What the layer finds in a `POST`, and what it hands on. -/
theorem inspect_post (hpost : raw.method = .post) :
    (raw.queryColl = some none ∧ raw.inspect scan
        = some (coll scan (raw.buffered List.length []), raw.buffered List.length [])) ∨
      (∃ c, raw.queryColl = some (some c) ∧ raw.inspect scan = some (some c, raw)) ∨
      raw.inspect scan = none := by
  unfold inspect HttpRequest.inspect
  cases raw.queryColl with
  | none => exact .inr (.inr rfl)
  | some found =>
    cases found with
    | none => exact .inl ⟨rfl, by simp [hpost, coll]⟩
    | some c => exact .inr (.inl ⟨c, rfl, by simp⟩)

theorem buffered_eq_iff :
    (raw.buffered List.length []).body = raw.body ↔ raw.body.length ≤ bufferLimit := by
  unfold HttpRequest.buffered
  dsimp only
  split_ifs with hle
  · exact iff_of_true rfl hle
  · refine iff_of_false (fun h => ?_) hle
    rw [← h] at hle
    exact hle (Nat.zero_le _)

/-- The layer leaves the body as it is, and decides on the collection in it. -/
def Intact (scan : List UInt8 → Option Json) (raw : RawRequest) (found : Option String)
    (handed : RawRequest) : Prop :=
  handed.body = raw.body ∧ found = raw.coll scan

/-- **When the body is handed on unchanged.**  For every authorised `POST` that the layer forwards:
the handler receives the bytes that the client sent, and the decision was about the collection in
them, iff the query string has a collection and it is the one in the bytes, or it has none and the
layer can buffer the bytes. -/
theorem body_intact_iff (scan : List UInt8 → Option Json) (hscan : scan [] = none) (policy : Policy)
    (header : Option String) (raw : RawRequest) (hpost : raw.method = .post)
    (hopen : raw.path ≠ "/health" ∧ raw.path ≠ "/metrics") (req' : Request)
    (hforward : policyLayer policy header (raw.request scan) = .forward req') :
    ∃ token p found handed, bearer header = some token ∧ policy.principal token = some p ∧
      p.allows found (opOf raw.path) = true ∧ raw.inspect scan = some (found, handed) ∧
      req' = handed.request scan ∧
      (Intact scan raw found handed ↔ raw.queryColl = some none ∧ raw.body.length ≤ bufferLimit ∨
        ∃ c, raw.queryColl = some (some c) ∧ raw.coll scan = some c) := by
  obtain ⟨token, found, p, htoken, hinspect, hp, hallows⟩ := (forward_iff hopen).mp hforward
  rw [inspect_request hscan] at hinspect
  obtain ⟨⟨found', handed⟩, hraw, heq⟩ := map_eq_some_iff.mp hinspect
  obtain ⟨rfl, rfl⟩ := Prod.mk.inj heq
  refine ⟨token, p, found', handed, htoken, hp, hallows, hraw, rfl, ?_⟩
  rcases @inspect_post scan raw hpost with ⟨hquery, hbuffered⟩ | ⟨c, hquery, hkept⟩ | hnone
  · -- the body has been buffered
    obtain ⟨rfl, rfl⟩ := Prod.mk.inj (some.inj (hbuffered.symm.trans hraw))
    have hno : ¬∃ c, raw.queryColl = some (some c) ∧ raw.coll scan = some c := by simp [hquery]
    rw [or_iff_left hno, and_iff_right hquery, ← buffered_eq_iff, Intact]
    refine and_iff_left_of_imp fun hbytes => ?_
    rw [coll, hbytes, coll]
  · obtain ⟨rfl, rfl⟩ := Prod.mk.inj (some.inj (hkept.symm.trans hraw))
    have hno : ¬(raw.queryColl = some none ∧ raw.body.length ≤ bufferLimit) := by simp [hquery]
    rw [or_iff_right hno, Intact, and_iff_right rfl]
    constructor
    · exact fun h => ⟨c, hquery, h.symm⟩
    · rintro ⟨c', hc', hcoll⟩
      rw [hquery] at hc'
      rw [hcoll, some.inj hc']
  · rw [hnone] at hraw
    cases hraw

/-- The text of an import. -/
def importText : List UInt8 := utf8Bytes "\x7b\"coll\":\"kv\",\"entries\":[]\x7d"

def importDoc : Json := .obj [("coll", .str "kv"), ("entries", .arr [])]

/-- A reader that knows the import, also with spaces behind it. -/
def scanImport (b : List UInt8) : Option Json :=
  if importText <+: b ∧ ∀ c ∈ b.drop importText.length, c = Ascii.space then some importDoc else none

/-- An import with spaces behind it. -/
def paddedImport (spaces : ℕ) : RawRequest :=
  ⟨.post, "/import", none, true, importText ++ List.replicate spaces Ascii.space⟩

theorem scan_paddedImport (spaces : ℕ) :
    scanImport (paddedImport spaces).body = some importDoc := by
  refine if_pos ⟨prefix_append .., fun c hc => ?_⟩
  rw [paddedImport, drop_left] at hc
  exact eq_of_mem_replicate hc

/-- A policy with one token, which may do everything. -/
def everything : Policy := ⟨Policy.push .empty "t" ⟨"*", true, true, true, true⟩⟩

section PaddedImport

variable (spaces : ℕ)

/-- What the layer hands on. -/
def handedImport : RawRequest := (paddedImport spaces).buffered List.length []

theorem length_paddedImport : (paddedImport spaces).body.length = spaces + 26 := by
  have htext : importText.length = 26 := by decide +kernel
  rw [paddedImport, length_append, length_replicate, htext, Nat.add_comm]

theorem forward_paddedImport :
    policyLayer everything (some "Bearer t") ((paddedImport spaces).request scanImport)
      = .forward ((handedImport spaces).request scanImport) := by
  have hempty : scanImport [] = none := by decide
  have hinspect := inspect_request hempty (paddedImport spaces)
  have hpath : ((paddedImport spaces).request scanImport).path = "/import" := rfl
  refine (forward_iff ?_).mpr ⟨"t", _, ⟨"t", [⟨"*", true, true, true, true⟩]⟩, by decide +kernel,
    hinspect, rfl, ?_⟩
  · rw [hpath]
    decide
  · rw [hpath]
    simp [Principal.allows, Grant.allows, Grant.covers, Grant.permits, opOf]

theorem target_paddedImport (h : spaces + 26 ≤ jsonLimit) :
    Router.shard.target ((paddedImport spaces).request scanImport) = some (some "kv") := by
  rw [← length_paddedImport] at h
  have hbody : readBody scanImport (paddedImport spaces).body
      = ⟨(paddedImport spaces).body.length, some importDoc⟩ := by
    rw [readBody, scan_paddedImport]
  show jsonBody importBody ((paddedImport spaces).request scanImport) = _
  rw [jsonBody, request, HttpRequest.map, hbody, if_pos ⟨rfl, h⟩]
  rfl

theorem target_handedImport (h : bufferLimit < spaces + 26) :
    (handedImport spaces).body = [] ∧
      Router.shard.target ((handedImport spaces).request scanImport) = none := by
  rw [← length_paddedImport] at h
  have hempty : (handedImport spaces).body = [] := if_neg (Nat.not_le.mpr h)
  refine ⟨hempty, ?_⟩
  show jsonBody importBody ((handedImport spaces).request scanImport) = none
  rw [jsonBody, request, HttpRequest.map, hempty]
  rfl

end PaddedImport

theorem body_intact_import :
    ∃ found handed, (paddedImport 0).inspect scanImport = some (found, handed) ∧
      Intact scanImport (paddedImport 0) found handed := by
  obtain ⟨-, -, found, handed, -, -, -, hinspect, -, hiff⟩ := body_intact_iff scanImport (by decide)
    everything (some "Bearer t") (paddedImport 0) rfl (by decide) _ (forward_paddedImport 0)
  exact ⟨found, handed, hinspect, hiff.mpr (Or.inl ⟨rfl, by decide +kernel⟩)⟩

/-- The handler of an import of more than one MiB, which it would accept, is given an empty body, and
refuses that. -/
theorem large_import_lost : (paddedImport (2 ^ 20)).body.length = 2 ^ 20 + 26 ∧
    2 ^ 20 + 26 ≤ jsonLimit ∧
    Router.shard.target ((paddedImport (2 ^ 20)).request scanImport) = some (some "kv") ∧
    ∃ req', policyLayer everything (some "Bearer t") ((paddedImport (2 ^ 20)).request scanImport)
        = .forward req' ∧ req'.body.size = 0 ∧ Router.shard.target req' = none := by
  obtain ⟨hempty, hrefused⟩ := target_handedImport (2 ^ 20) (by decide)
  refine ⟨length_paddedImport _, by decide, target_paddedImport _ (by decide), _,
    forward_paddedImport _, ?_, hrefused⟩
  rw [request, HttpRequest.map, hempty]
  rfl

end RawRequest

end Stplr
