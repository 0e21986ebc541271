import Stplr.Equiv.Auth
import Stplr.Equiv.Lmdb
import Stplr.Lib.Machine
import Stplr.Writer

/-!
# Requests and replies stay in step

The bytes of the requests arrive in pieces, between any two passes of the loop.  What is there of the
stream starts with the next frame or with a beginning of it; a pass serves the frame when it is complete
(`pass_eq`), so the passes serve the requests in order (`steps_exec`).

A connection whose input is all there runs as `handle` (`passes_eq_handle`).

A reply to a known opcode ends where it says (`readReply_append`), so there is one way to cut the
replies (`replies_unique`).  `streams_in_step` puts both together, for a shard that does not fail, and for
a durable one as long as LMDB takes what is written.  A `SET` that it does not take is acknowledged all
the same, and the next one drops the connection (`set_unexecuted`).
-/

namespace Stplr

open Lib List LmdbStore
open Option (some)

namespace Proto

variable {codec : JsonCodec} {token : Option String}

/-! ### Frames in a stream -/

theorem readField_eq_some {input b rest : List UInt8} : readField input = some (b, rest) ↔
    ∃ n body, readU32 input = some (n, body) ∧ n ≤ body.length ∧ body.take n = b ∧
      body.drop n = rest := by
  unfold readField
  cases readU32 input with
  | none => simp
  | some r =>
    obtain ⟨n, body⟩ := r
    constructor
    · intro h
      dsimp only [Option.bind_eq_bind, Option.bind_some] at h
      split_ifs at h with hle
      obtain ⟨rfl, rfl⟩ := Prod.mk.inj (some.inj h)
      exact ⟨n, body, rfl, hle, rfl, rfl⟩
    · rintro ⟨n', body', hr, hle, rfl, rfl⟩
      obtain ⟨rfl, rfl⟩ := Prod.mk.inj (some.inj hr)
      exact if_pos hle

theorem readU32_mono {input rest : List UInt8} {n : ℕ} (h : readU32 input = some (n, rest))
    (more : List UInt8) : readU32 (input ++ more) = some (n, rest ++ more) := by
  unfold readU32 at h
  split at h
  · obtain ⟨rfl, rfl⟩ := Prod.mk.inj (some.inj h)
    rfl
  · cases h

/-- A field that is there stays there when more arrives. -/
theorem readField_mono {input b rest : List UInt8} (h : readField input = some (b, rest))
    (more : List UInt8) : readField (input ++ more) = some (b, rest ++ more) := by
  obtain ⟨n, body, hn, hle, rfl, rfl⟩ := readField_eq_some.mp h
  refine readField_eq_some.mpr ⟨n, body ++ more, readU32_mono hn more, ?_, ?_, ?_⟩
  · rw [length_append]
    omega
  · exact take_append_of_le_length hle
  · exact drop_append_of_le_length hle

variable {bs : List (List UInt8)}

theorem Reads.mono (more : List UInt8) : ∀ {input rest : List UInt8},
    Reads bs input rest → Reads bs (input ++ more) (rest ++ more) := by
  induction bs with
  | nil => rintro input rest rfl; rfl
  | cons b bs ih =>
    rintro input rest ⟨next, hfield, hrest⟩
    exact ⟨next ++ more, readField_mono hfield more, ih hrest⟩

theorem Reads.unique :
    ∀ {bs' : List (List UInt8)} {input rest rest' : List UInt8}, Reads bs input rest →
      Reads bs' input rest' → bs.length = bs'.length → bs = bs' ∧ rest = rest' := by
  induction bs with
  | nil =>
    rintro bs' input rest rest' rfl h' hlen
    obtain rfl := length_eq_zero_iff.mp hlen.symm
    exact ⟨rfl, h'⟩
  | cons b bs ih =>
    rintro bs' input rest rest' ⟨next, hfield, hrest⟩ h' hlen
    cases bs' with
    | nil => cases hlen
    | cons b' bs' =>
      obtain ⟨next', hfield', hrest'⟩ := h'
      obtain ⟨rfl, rfl⟩ := Prod.mk.inj (some.inj (hfield.symm.trans hfield'))
      obtain ⟨rfl, rfl⟩ := ih hrest hrest' (Nat.succ.inj hlen)
      exact ⟨rfl, rfl⟩

namespace Frame

variable {f : Frame}

/-- The opcode says how many fields there are, and with them it says the frame. -/
theorem eq_of_fields {f' : Frame} (hop : f.op = f'.op) :
    f.fields.length = f'.fields.length ∧ (f.fields = f'.fields → f = f') := by
  cases f <;> cases f' <;> first
    | exact absurd hop (of_decide_eq_false rfl)
    | exact ⟨rfl, fun _ => rfl⟩
    | exact ⟨rfl, fun h => by simp only [fields, cons.injEq, and_true] at h; simp [h]⟩

theorem At.unique {f' : Frame} {input rest rest' : List UInt8} (h : f.At input rest)
    (h' : f'.At input rest') : f = f' ∧ rest = rest' := by
  obtain ⟨body, rfl, hreads⟩ := h
  obtain ⟨body', hinput, hreads'⟩ := h'
  obtain ⟨hop, rfl⟩ := cons.inj hinput
  obtain ⟨hlen, heq⟩ := eq_of_fields hop
  obtain ⟨hfields, hrest⟩ := hreads.unique hreads' hlen
  exact ⟨heq hfields, hrest⟩

theorem At.mono {input rest : List UInt8} (h : f.At input rest) (more : List UInt8) :
    f.At (input ++ more) (rest ++ more) := by
  obtain ⟨body, rfl, hreads⟩ := h
  exact ⟨body ++ more, rfl, hreads.mono more⟩

theorem at_bytes (hf : f.Fits) (rest : List UInt8) : f.At (f.bytes ++ rest) rest :=
  ⟨_, rfl, reads_bytes hf rest⟩

/-- An `AUTH` presents the token. -/
def right (token : Option String) : Frame → Bool
  | .auth b => token.all fun t => b = utf8Bytes t
  | _ => true

end Frame

/-! ### Passes -/

namespace Conn

variable {σ : Type} {serve : Service σ} {c c' : Conn σ} {now : ℕ} {f : Frame}

section Served

variable (hauth : ∀ now sh b, serve now sh (.auth b) = (sh, some [stOk])) (hauthed : c.authed = true)
  (hright : f.right token = true) {sh : σ} {reply : List UInt8}
  (hserve : serve now c.shard f = (sh, some reply))
include hauth hauthed hright hserve

/-- A pass serves the frame that is there. -/
theorem pass_of_at {rest : List UInt8} (h : f.At c.input rest) : c.pass serve token now
    = some { c with input := rest, shard := sh, output := c.output ++ reply } := by
  obtain ⟨body, hinput, hreads⟩ := h
  unfold pass
  rw [hinput]
  by_cases hop : f.op = opAuth
  · obtain ⟨b, rfl⟩ := Frame.eq_auth hop
    obtain ⟨_, hfield, rfl⟩ := hreads
    rw [hauth] at hserve
    obtain ⟨rfl, hreply⟩ := Prod.mk.inj hserve
    obtain rfl := some.inj hreply
    rw [Frame.right] at hright
    simp only [hop, if_true, hfield, hright]
    rw [← hauthed]
  · simp only [hop, if_false, hauthed, if_true, readFrame_of_reads hop hreads, hserve]

omit hauth hright hserve in
/-- A pass waits until there is a frame. -/
theorem exists_at_of_pass {body : List UInt8} (hinput : c.input = f.op :: body)
    (h : c.pass serve token now = some c') : ∃ f' rest, Frame.At f' c.input rest := by
  unfold pass at h
  rw [hinput] at h ⊢
  by_cases hop : f.op = opAuth
  · simp only [hop, if_true] at h
    cases hfield : readField body with
    | none => rw [hfield] at h; cases h
    | some r => exact ⟨.auth r.1, r.2, body, by rw [hop]; rfl, r.2, hfield, rfl⟩
  · simp only [hop, if_false, hauthed, if_true] at h
    cases hread : readFrame f.op body with
    | none =>
      have hmem : f.op ∈ opcodes := by
        cases f with
        | auth => exact absurd rfl hop
        | _ => simp [Frame.op, opcodes]
      rw [hread] at h
      simp [hmem] at h
    | some r =>
      obtain ⟨hop', hreads⟩ := reads_of_readFrame hread
      exact ⟨r.1, r.2, body, by rw [hop'], hreads⟩

/-- **A pass of the loop**, when the stream goes on with a frame: it takes the frame and nothing else. -/
theorem pass_eq (hf : f.Fits) {more tail : List UInt8} (hstream : c.input ++ more = f.bytes ++ tail)
    (h : c.pass serve token now = some c') : ∃ rest, c.input = f.bytes ++ rest ∧
      c' = { c with input := rest, shard := sh, output := c.output ++ reply } := by
  obtain ⟨op, body, hinput⟩ : ∃ op body, c.input = op :: body := by
    cases hc : c.input with
    | nil =>
      unfold pass at h
      rw [hc] at h
      cases h
    | cons op body => exact ⟨op, body, rfl⟩
  have hop : op = f.op := by
    rw [hinput] at hstream
    exact (cons.inj hstream).1
  obtain ⟨f', rest, hat⟩ := exists_at_of_pass hauthed (hop ▸ hinput) h
  have hat' : f'.At (f.bytes ++ tail) (rest ++ more) := hstream ▸ hat.mono more
  obtain ⟨rfl, htail⟩ := hat'.unique (Frame.at_bytes hf tail)
  refine ⟨rest, append_cancel_right (hstream.trans ?_), ?_⟩
  · rw [← htail, append_assoc]
  · rw [pass_of_at hauth hauthed hright hserve hat] at h
    exact (some.inj h).symm

end Served

/-- The passes at these times, up to the first one for which the loop waits. -/
def passes (serve : Service σ) (token : Option String) : List ℕ → Conn σ → Conn σ
  | [], c => c
  | now :: ts, c => (c.step serve token (.pass now)).elim c (passes serve token ts)

theorem passes_of_closed (h : c.closed = true) (ts : List ℕ) : c.passes serve token ts = c := by
  cases ts with
  | nil => rfl
  | cons now ts => simp [passes, step, h]

/-- **A connection whose input is all there runs as `handle`**: its passes lead to the same shard and
send the same replies. -/
theorem passes_eq_handle {St : Type} [IndexStore St] (ts : List ℕ) (authed : Bool) (sh : Shard St)
    (input output : List UInt8) :
    let c := passes (service codec) token ts ⟨input, authed, sh, output, false⟩
    let r := handle codec token ts authed sh input
    c.shard = r.1 ∧ c.output = output ++ r.2.flatten := by
  induction ts generalizing authed sh input output with
  | nil => simp [passes, handle]
  | cons now ts ih =>
    rw [passes, step, if_neg Bool.false_ne_true, pass]
    cases input with
    | nil => simp [handle]
    | cons op body =>
      rw [handle]
      by_cases hop : op = opAuth
      · simp only [hop, if_true]
        cases readField body with
        | none => simp
        | some r =>
          dsimp only
          split_ifs with hright
          · simpa using ih true sh r.2 (output ++ [stOk])
          · simp [passes_of_closed]
      · simp only [hop, if_false]
        cases authed with
        | false => simp [passes_of_closed]
        | true =>
          rw [if_pos rfl, if_pos rfl]
          cases readFrame op body with
          | none => by_cases hmem : op ∈ opcodes <;> simp [hmem, passes_of_closed]
          | some r =>
            simpa [service, Prod.map] using ih true (answer codec now sh r.1).1 r.2
              (output ++ (answer codec now sh r.1).2)

end Conn

/-! ### Runs -/

/-- What arrives in a run. -/
def arrivals : List ConnLabel → List UInt8
  | [] => []
  | .arrive bytes :: ls => bytes ++ arrivals ls
  | .pass _ :: ls => arrivals ls

/-- The clock readings of the passes of a run. -/
def times : List ConnLabel → List ℕ
  | [] => []
  | .arrive _ :: ls => times ls
  | .pass now :: ls => now :: times ls

/-- The bytes of requests, as they are sent. -/
def stream (frames : List Frame) : List UInt8 := frames.flatMap Frame.bytes

/-- What carries out the calls of a shard, at a time, unless they panic. -/
abbrev Calls (σ : Type) := ℕ → σ → ShardCall → Option (σ × ShardAnswer)

namespace Frame

variable {σ : Type}

/-- The operation of a frame. -/
def perform (codec : JsonCodec) (call : Calls σ) (now : ℕ) (sh : σ) (f : Frame) :
    Option (σ × ShardAnswer) :=
  match f.call codec with
  | none => some (sh, .done)
  | some c => call now sh c

/-- Its result. -/
def result (codec : JsonCodec) : Frame → ShardAnswer → OpResult
  | .get _ _, a => .value (a.object.map codec.toVec)
  | .sadd _ _ _, a | .srem _ _ _, a => .flag a.holds
  | .set _ _ _, _ | .del _ _, _ | .ping, _ | .auth _, _ => .done

end Frame

variable {σ : Type}

/-- The operations one after the other: the shard after them, and their results. -/
def performAll (codec : JsonCodec) (call : Calls σ) :
    σ → List (ℕ × Frame) → Option (σ × List OpResult)
  | sh, [] => some (sh, [])
  | sh, (now, f) :: fs => do
    let (sh, a) ← f.perform codec call now sh
    let (sh, results) ← performAll codec call sh fs
    return (sh, f.result codec a :: results)

/-- The connection `c'` has served the next requests on `c`, as many as there were passes, and these
were answered as in `answered`. -/
structure Steps (codec : JsonCodec) (call : Calls σ) (frames : List Frame) (ls : List ConnLabel)
    (c c' : Conn σ) (answered : List (Frame × ShardAnswer)) : Prop where
  authed : c'.authed = true
  opened : c'.closed = false
  input : c.input ++ arrivals ls = stream (frames.take (times ls).length) ++ c'.input
  requests : answered.map Prod.fst = frames.take (times ls).length
  count : (times ls).length ≤ frames.length
  shard : performAll codec call c.shard ((times ls).zip frames)
    = some (c'.shard, answered.map fun x => x.1.result codec x.2)
  output : c'.output = c.output ++ (answered.map fun x => x.1.reply codec x.2).flatten

/-- **The passes serve the requests in order**, however these arrive. -/
theorem steps_exec {serve : Service σ} {call : Calls σ} {I : σ → Prop} {A : Frame → Prop}
    (hauth : ∀ now sh b, serve now sh (.auth b) = (sh, some [stOk]))
    (hserve : ∀ now sh f, I sh → A f → ∃ sh' a, f.perform codec call now sh = some (sh', a) ∧
      serve now sh f = (sh', some (f.reply codec a)) ∧ I sh')
    (ls : List ConnLabel) : ∀ {frames : List Frame} {c c' : Conn σ},
    c.authed = true → c.closed = false → I c.shard →
    (∀ f ∈ frames, (f.Fits ∧ f.right token = true) ∧ A f) →
    c.input ++ arrivals ls <+: stream frames → exec (Conn.step serve token) c ls = some c' →
    I c'.shard ∧ ∃ answered, Steps codec call frames ls c c' answered := by
  induction ls with
  | nil =>
    intro frames c c' hauthed hopen hI _ _ hrun
    obtain rfl := some.inj hrun
    exact ⟨hI, [], hauthed, hopen, by simp [arrivals, times, stream], rfl, Nat.zero_le _, rfl,
      (append_nil _).symm⟩
  | cons l ls ih =>
    intro frames c c' hauthed hopen hI hframes hstream hrun
    rw [exec_cons, Option.bind_eq_some_iff] at hrun
    obtain ⟨c₁, hstep, hrun⟩ := hrun
    cases l with
    | arrive bytes =>
      rw [Conn.step, if_neg (by simp [hopen])] at hstep
      obtain rfl := some.inj hstep
      rw [arrivals, ← append_assoc] at hstream
      obtain ⟨hI', answered, h⟩ := ih (c := { c with input := c.input ++ bytes }) hauthed hopen hI
        hframes hstream hrun
      refine ⟨hI', answered, h.authed, h.opened, ?_, h.requests, h.count, h.shard, h.output⟩
      rw [arrivals, ← append_assoc]
      exact h.input
    | pass now =>
      rw [Conn.step, if_neg (by simp [hopen])] at hstep
      rw [arrivals] at hstream
      obtain ⟨more, hmore⟩ := hstream
      cases frames with
      | nil =>
        -- nothing is sent any more, so nothing can be served
        have hempty : c.input = [] := by
          have hnil := append_eq_nil_iff.mp hmore
          exact (append_eq_nil_iff.mp hnil.1).1
        unfold Conn.pass at hstep
        rw [hempty] at hstep
        cases hstep
      | cons f fs =>
        obtain ⟨⟨hfits, hright⟩, hA⟩ := hframes f (mem_cons_self ..)
        obtain ⟨sh, a, hperform, hreply, hI₁⟩ := hserve now c.shard f hI hA
        rw [stream, flatMap_cons, append_assoc] at hmore
        obtain ⟨rest, hinput, rfl⟩ := Conn.pass_eq hauth hauthed hright hreply hfits hmore hstep
        rw [hinput, append_assoc, append_cancel_left_eq, ← append_assoc] at hmore
        obtain ⟨hI', answered, h⟩ := ih
          (c := { c with input := rest, shard := sh, output := c.output ++ f.reply codec a })
          hauthed hopen hI₁ (fun f' hf' => hframes f' (mem_cons_of_mem _ hf')) ⟨more, hmore⟩ hrun
        refine ⟨hI', (f, a) :: answered, h.authed, h.opened, ?_, ?_, Nat.succ_le_succ h.count, ?_, ?_⟩
        · rw [arrivals, times, length_cons, take_succ_cons, stream, flatMap_cons,
            append_assoc, hinput, append_assoc]
          exact congrArg _ h.input
        · exact congrArg (cons f) h.requests
        · rw [times, zip_cons_cons, performAll, hperform]
          dsimp only [Option.bind_eq_bind, Option.bind_some]
          rw [h.shard]
          rfl
        · rw [h.output, map_cons, flatten_cons, append_assoc]

/-! ### Cutting the replies -/

/-- The length of the payload fits in 32 bits. -/
def OpResult.Fits : OpResult → Prop
  | .value (some payload) => payload.length < 2 ^ 32
  | _ => True

/-- A reply ends where it says. -/
theorem readReply_append {op : UInt8} {r rest : List UInt8} {res : OpResult}
    (h : readReply op r = some (res, rest)) (more : List UInt8) :
    readReply op (r ++ more) = some (res, rest ++ more) := by
  cases r with
  | nil => cases h
  | cons st input =>
    rw [readReply] at h
    rw [cons_append, readReply]
    split_ifs at h ⊢
    · obtain ⟨r, hfield, heq⟩ := Option.map_eq_some_iff.mp h
      obtain ⟨rfl, rfl⟩ := Prod.mk.inj heq
      rw [readField_mono hfield more]
      rfl
    all_goals
      obtain ⟨rfl, rfl⟩ := Prod.mk.inj (some.inj h)
      rfl

theorem readReply_getReply {o : Option Value} (hfits : (OpResult.value (o.map codec.toVec)).Fits) :
    readReply opGet (getReply codec o) = some (.value (o.map codec.toVec), []) := by
  cases o with
  | none => rfl
  | some v =>
    have hfield := readField_append hfits []
    rw [append_nil] at hfield
    rw [getReply, readReply, if_pos rfl, if_pos rfl, hfield]
    rfl

/-- The reply of the server carries the result of the operation. -/
theorem readReply_reply {f : Frame} {a : ShardAnswer} (hfits : (f.result codec a).Fits) :
    readReply f.op (f.reply codec a) = some (f.result codec a, []) := by
  cases f with
  | get coll key => exact readReply_getReply hfits
  | sadd coll key member =>
    have hflag : ∀ b, readReply opSadd (flagReply b) = some (.flag b, []) := by
      rintro (_ | _) <;> rfl
    exact hflag _
  | srem coll key member =>
    have hflag : ∀ b, readReply opSrem (flagReply b) = some (.flag b, []) := by
      rintro (_ | _) <;> rfl
    exact hflag _
  | _ => rfl

/-- A whole reply to the opcode. -/
def IsReply (op : UInt8) (r : List UInt8) : Prop := ∃ res, readReply op r = some (res, [])

/-- **There is one way to cut a stream of replies.** -/
theorem replies_unique {ops : List UInt8} {rs : List (List UInt8)} (h : List.Forall₂ IsReply ops rs) :
    ∀ {rs' : List (List UInt8)}, List.Forall₂ IsReply ops rs' → rs.flatten = rs'.flatten →
      rs = rs' := by
  induction h with
  | nil =>
    rintro rs' h' -
    cases h'
    rfl
  | @cons op r ops rs hr _ ih =>
    rintro rs' h' hflat
    cases h' with
    | cons hr' hrs' =>
      rw [flatten_cons, flatten_cons] at hflat
      obtain ⟨res, hr⟩ := hr
      obtain ⟨res', hr'⟩ := hr'
      -- both first replies are read off the same bytes, so they leave the same rest
      have hread := readReply_append hr rs.flatten
      rw [hflat, readReply_append hr', nil_append, nil_append] at hread
      have hrest := (Prod.mk.inj (some.inj hread)).2
      rw [hrest] at hflat
      rw [append_cancel_right hflat, ih hrs' hrest.symm]

/-- What a client reads is what the operations returned, and the replies are whole. -/
theorem readReplies_replies {answered : List (Frame × ShardAnswer)}
    (hfits : ∀ res ∈ answered.map fun x => x.1.result codec x.2, res.Fits) :
    readReplies (answered.map fun x => x.1.op) (answered.map fun x => x.1.reply codec x.2).flatten
        = some (answered.map fun x => x.1.result codec x.2, []) ∧
      List.Forall₂ IsReply (answered.map fun x => x.1.op)
        (answered.map fun x => x.1.reply codec x.2) := by
  induction answered with
  | nil => exact ⟨rfl, .nil⟩
  | cons x answered ih =>
    rw [map_cons, forall_mem_cons] at hfits
    have hread := readReply_reply hfits.1
    obtain ⟨hrest, hwhole⟩ := ih hfits.2
    refine ⟨?_, .cons ⟨_, hread⟩ hwhole⟩
    rw [map_cons, map_cons, flatten_cons, readReplies, readReply_append hread, nil_append]
    dsimp only [Option.bind_eq_bind, Option.bind_some]
    rw [hrest]
    rfl

/-! ### The stream of requests and the stream of replies -/

/-- The passes have executed the first frames, as many as there were passes, and nothing else.  The
opcodes tell how to cut what was sent, in one way, into a reply to each of these, and what is read are
their results.  When all bytes have arrived and the loop waits, all frames are served. -/
structure InStep (codec : JsonCodec) (token : Option String) (serve : Service σ) (call : Calls σ)
    (frames : List Frame) (ls : List ConnLabel) (sh : σ) (c : Conn σ) : Prop where
  count : (times ls).length ≤ frames.length
  executed : ∃ results, performAll codec call sh ((times ls).zip frames) = some (c.shard, results) ∧
    ((∀ res ∈ results, res.Fits) →
      readReplies ((frames.take (times ls).length).map Frame.op) c.output = some (results, []) ∧
      ∃! rs, List.Forall₂ IsReply ((frames.take (times ls).length).map Frame.op) rs ∧
        rs.flatten = c.output)
  all : arrivals ls = stream frames → (∀ now, c.step serve token (.pass now) = none) →
    (times ls).length = frames.length

/-- A service that does the operations of its frames, and replies with their answers, keeps in step. -/
theorem inStep_of_serves {serve : Service σ} {call : Calls σ} {I : σ → Prop} {A : Frame → Prop}
    (hauth : ∀ now sh b, serve now sh (.auth b) = (sh, some [stOk]))
    (hserve : ∀ now sh f, I sh → A f → ∃ sh' a, f.perform codec call now sh = some (sh', a) ∧
      serve now sh f = (sh', some (f.reply codec a)) ∧ I sh')
    {frames : List Frame} (hframes : ∀ f ∈ frames, (f.Fits ∧ f.right token = true) ∧ A f)
    {ls : List ConnLabel} (hsent : arrivals ls <+: stream frames) {sh : σ} (hI : I sh) {c : Conn σ}
    (hrun : exec (Conn.step serve token) ⟨[], true, sh, [], false⟩ ls = some c) :
    InStep codec token serve call frames ls sh c := by
  obtain ⟨hI', answered, h⟩ := steps_exec (c := ⟨[], true, sh, [], false⟩) hauth hserve ls rfl rfl hI
    hframes hsent hrun
  refine ⟨h.count, ⟨_, h.shard, fun hfits => ?_⟩, fun hall hwait => ?_⟩
  · obtain ⟨hread, hwhole⟩ := readReplies_replies hfits
    have hout : c.output = (answered.map fun x => x.1.reply codec x.2).flatten := h.output
    rw [← h.requests, map_map, hout]
    exact ⟨hread, _, ⟨hwhole, rfl⟩, fun rs hrs => replies_unique hrs.1 hwhole hrs.2⟩
  · by_contra hne
    have hlt : (times ls).length < frames.length := lt_of_le_of_ne h.count hne
    -- the next frame is there, so the loop does not wait
    have hinput : c.input =
        (frames.get ⟨_, hlt⟩).bytes ++ stream (frames.drop ((times ls).length + 1)) := by
      have hin := h.input
      rw [nil_append, hall] at hin
      nth_rewrite 1 [← take_append_drop (times ls).length frames] at hin
      rw [stream, flatMap_append, drop_eq_getElem_cons hlt, flatMap_cons] at hin
      exact (append_cancel_left hin).symm
    obtain ⟨⟨hf, hright⟩, hA⟩ := hframes _ (get_mem frames ⟨_, hlt⟩)
    obtain ⟨_, _, -, hreply, -⟩ := hserve 0 c.shard _ hI' hA
    have hnone := hwait 0
    rw [Conn.step, if_neg (by simp [h.opened]), Conn.pass_of_at hauth h.authed hright hreply
      (hinput ▸ Frame.at_bytes hf _)] at hnone
    cases hnone

/-- LMDB takes what the frame asks for: no collection has a NUL in its name, and a key that may be
written or deleted has 1 to 511 bytes; the name of a collection that may be written fits too, and it is
one of `C`. -/
def Frame.Taken (C : Finset String) : Frame → Prop
  | .get coll _ => NulFree (asStr coll)
  | .set coll key _ => Takes C (fromUtf8Lossy coll, fromUtf8Lossy key, .null)
  | .sadd coll key _ | .srem coll key _ => Takes C (asStr coll, asStr key, .null)
  | .del coll key => NulFree (asStr coll) ∧ ValidKey (asStr key)
  | .ping | .auth _ => True

instance (C : Finset String) (f : Frame) : Decidable (f.Taken C) := by
  cases f <;> unfold Frame.Taken <;> infer_instance

/-- A durable shard on which no write has panicked, with room for the collections `C`. -/
structure Sound {T : Type} (C : Finset String) (d : DurableShard T) : Prop where
  lock : d.poisoned = false
  writer : d.writerGone = false
  fits : Fits C d.store

variable {T : Type} [Text T] {C : Finset String} {d : DurableShard T} {f : Frame}

/-- The call of a frame that LMDB takes does not panic. -/
theorem Sound.call (h : Sound C d) (hroom : C.card < maxDbs) (now : ℕ) (hf : f.Taken C) {c : ShardCall}
    (hc : f.call codec = some c) : ∃ s' a, c.onLmdb now d.store = some (s', a) ∧ Fits C s' := by
  cases f with
  | get coll key =>
    obtain rfl := some.inj hc
    exact ⟨_, _, rfl, h.fits.opened (getObject_opened ..)⟩
  | set coll key val =>
    obtain rfl := some.inj hc
    obtain ⟨s', hs', hl⟩ := h.fits.putBatch hroom (show
      ∀ item ∈ [(fromUtf8Lossy coll, fromUtf8Lossy key, valueOf codec val)], _ by
        simpa using ⟨hf.used, hf.name, hf.key⟩)
    exact ⟨s', .done, congrArg (Option.map _) hs', hl.fits⟩
  | sadd coll key member | srem coll key member =>
    obtain rfl := some.inj hc
    obtain ⟨s', b, hs', hfits⟩ := h.fits.update hroom hf now _
    exact ⟨s', .flag b, congrArg (Option.map _) hs', hfits⟩
  | del coll key =>
    obtain rfl := some.inj hc
    obtain ⟨s', hs', hfits⟩ := h.fits.deleteObject hroom (asStr coll) hf.2
    exact ⟨s', .done, congrArg (Option.map _) hs', hfits⟩
  | ping | auth => cases hc

/-- The shard does the operation of such a frame, and replies with its answer. -/
theorem Sound.serves (h : Sound C d) (hroom : C.card < maxDbs) (now : ℕ) (hf : f.Taken C) :
    ∃ d' a, f.perform codec DurableShard.call now d = some (d', a) ∧
      DurableShard.service codec now d f = (d', some (f.reply codec a)) ∧ Sound C d' := by
  unfold Frame.perform DurableShard.service
  cases hc : f.call codec with
  | none =>
    refine ⟨d, .done, rfl, ?_, h⟩
    cases f with
    | ping | auth => rfl
    | _ => cases hc
  | some c =>
    obtain ⟨s', a, hs', hfits⟩ := h.call hroom now hf hc
    have hcall : d.call now c = some ({ d with store := s' }, a) := congrArg (Option.map _) hs'
    refine ⟨{ d with store := s' }, a, hcall, ?_, h.lock, h.writer, hfits⟩
    dsimp only
    by_cases hset : f.op = opSet
    · have hok : f.reply codec a = [stOk] := by
        cases f with
        | set => rfl
        | _ => exact absurd hset (of_decide_eq_false rfl)
      simp [hset, DurableShard.set, h.lock, h.writer, hcall, hok]
    · simp [hset, h.lock, hcall]

/-- **Requests and replies stay in step.**  On an authenticated connection the bytes of the frames
arrive in any pieces, between any two passes.  The passes of a connection to a shard that does not fail
keep in step with them, and so do those of a connection to a durable shard, if LMDB takes what the frames
ask for and there are fewer collections than handles. -/
theorem streams_in_step (codec : JsonCodec) (token : Option String) {frames : List Frame}
    (hframes : ∀ f ∈ frames, f.Fits ∧ f.right token = true) {ls : List ConnLabel}
    (hsent : arrivals ls <+: stream frames) :
    (∀ {St : Type} [IndexStore St] (sh : Shard St) {c : Conn (Shard St)},
      exec (Conn.step (service codec) token) ⟨[], true, sh, [], false⟩ ls = some c →
      InStep codec token (service codec) (fun now sh call => some (call.onShard now sh)) frames ls
        sh c) ∧
    ∀ {T : Type} [Text T] {C : Finset String} {s : LmdbStore T} {c : Conn (DurableShard T)},
      C.card < maxDbs → Fits C s → (∀ f ∈ frames, f.Taken C) →
      exec (Conn.step (DurableShard.service codec) token) ⟨[], true, ⟨s, false, false⟩, [], false⟩ ls
        = some c →
      InStep codec token (DurableShard.service codec) DurableShard.call frames ls ⟨s, false, false⟩
        c := by
  constructor
  · intro St _ sh c hrun
    refine inStep_of_serves (I := fun _ => True) (A := fun _ => True) (fun _ _ _ => rfl)
      (fun now sh f _ _ => ?_) (fun f hf => ⟨hframes f hf, trivial⟩) hsent trivial hrun
    cases f <;> exact ⟨_, _, rfl, rfl, trivial⟩
  · intro T _ C s c hroom hfits htaken hrun
    exact inStep_of_serves (I := Sound C) (A := Frame.Taken C) (fun _ _ _ => rfl)
      (fun now d f hd hf => hd.serves hroom now hf) (fun f hf => ⟨hframes f hf, htaken f hf⟩) hsent
      ⟨rfl, rfl, hfits⟩ hrun

/-- A request of each kind of reply, behind the token `t`. -/
def sampleFrames : List Frame :=
  [.ping, .set [107, 118] [107] [49], .get [107, 118] [107], .sadd [107, 118] [115] [109], .auth [116]]

/-- The first frame and a piece of the second one arrive before the first pass. -/
def sampleRun : List ConnLabel :=
  [.arrive ((stream sampleFrames).take 5), .pass 1, .arrive ((stream sampleFrames).drop 5), .pass 2,
    .pass 3, .pass 4, .pass 5]

theorem streams_in_step_sample :
    ∃ c : Conn (DurableShard Value), exec (Conn.step (DurableShard.service sampleJson) (some "t"))
        ⟨[], true, ⟨LmdbStore.new, false, false⟩, [], false⟩ sampleRun = some c ∧
      readReplies (sampleFrames.map Frame.op) c.output
        = some ([.done, .done, .value (some [49]), .flag true, .done], []) := by
  have hsome : (exec (Conn.step (DurableShard.service sampleJson) (some "t"))
      (⟨[], true, ⟨LmdbStore.new, false, false⟩, [], false⟩ : Conn (DurableShard Value))
      sampleRun).isSome = true := by decide +kernel
  obtain ⟨c, hrun⟩ := Option.isSome_iff_exists.mp hsome
  have hperformed : (performAll sampleJson DurableShard.call
      (⟨LmdbStore.new, false, false⟩ : DurableShard Value) ((times sampleRun).zip sampleFrames)).map
        Prod.snd = some [.done, .done, .value (some [49]), .flag true, .done] := by decide +kernel
  have hframes : ∀ f ∈ sampleFrames, f.Fits ∧ f.right (some "t") = true := by decide +kernel
  have hsent : arrivals sampleRun <+: stream sampleFrames := by decide +kernel
  have htaken : ∀ f ∈ sampleFrames, f.Taken {"kv"} := by decide +kernel
  obtain ⟨results, hall, hread⟩ := ((streams_in_step sampleJson (some "t") hframes hsent).2
    (by decide) (Fits.new _) htaken hrun).executed
  rw [hall] at hperformed
  obtain rfl := some.inj hperformed
  exact ⟨c, hrun, (hread (by simp [OpResult.Fits])).1⟩

/-- On a durable shard a `SET` with an empty key is acknowledged, although it cannot be executed, and
the next `SET` drops the connection. -/
theorem set_unexecuted :
    let d : DurableShard Value := ⟨LmdbStore.new, false, false⟩
    let sets : List Frame := [.set [107, 118] [] [49], .set [107, 118] [107] [49]]
    ((Frame.set [107, 118] [] [49]).perform sampleJson DurableShard.call 0 d).isNone ∧
    (exec (Conn.step (DurableShard.service sampleJson) none) ⟨[], true, d, [], false⟩
        [.arrive (stream sets), .pass 0, .pass 1]).map
      (fun c => (c.output, c.closed, c.shard.store.disk.get (objDb "kv") "",
        c.shard.store.disk.get (objDb "kv") "k")) = some ([stOk], true, none, none) := by
  decide +kernel

end Proto

end Stplr
