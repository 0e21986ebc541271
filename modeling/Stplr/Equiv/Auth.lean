import Stplr.Equiv.Proto
import Stplr.Resp

/-!
# Connections before and after authentication

A connection with a token is locked until it reads an `AUTH` with this token.  While it is locked it
does not touch the shard, and its replies do not depend on it.  Afterwards it behaves as one without a
token, except that `AUTH` looks at the token.

In the binary protocol everything but the right `AUTH` closes a locked connection, so this has to be
the first frame (`Proto.Unlocks`).  In RESP only `QUIT` and malformed commands do; other commands are
refused and the connection stays open (`Resp.Unlocks`).  What holds for every list of clock readings
holds at every point of the connection.
-/

namespace Stplr

open Option

variable {St : Type} [IndexStore St]

/-! ### The binary protocol -/

namespace Proto

/-- The input starts with this frame, and `rest` is what follows. -/
def Frame.At (f : Frame) (input rest : List UInt8) : Prop :=
  ∃ body, input = f.op :: body ∧ Reads f.fields body rest

/-- The first frame is an `AUTH` with the token. -/
def Unlocks (token : String) (input rest : List UInt8) : Prop :=
  (Frame.auth (utf8Bytes token)).At input rest

/-- None of the first `n` frames is an `AUTH`. -/
def NoAuth : ℕ → List UInt8 → Prop
  | 0, _ => True
  | n + 1, input => input.head? ≠ some opAuth ∧ ∀ f rest, Frame.At f input rest → NoAuth n rest

variable {codec : JsonCodec}

theorem Frame.eq_auth {f : Frame} (h : f.op = opAuth) : ∃ b, f = .auth b := by
  cases f with
  | auth b => exact ⟨b, rfl⟩
  | _ => simp [Frame.op, opGet, opSet, opSadd, opSrem, opDel, opPing, opAuth] at h

variable {input : List UInt8} {token : String}

/-- The frame that is read is the one that is there. -/
theorem reads_of_readFrame {op : UInt8} {f : Frame} {rest : List UInt8}
    (h : readFrame op input = some (f, rest)) : f.op = op ∧ Reads f.fields input rest := by
  unfold readFrame at h
  split_ifs at h with hget hset hsadd hsrem hdel hping
  · simp only [bind_eq_bind, bind_eq_some_iff, Prod.exists] at h
    obtain ⟨coll, i₁, h₁, key, i₂, h₂, h⟩ := h
    cases h
    exact ⟨hget.symm, i₁, h₁, _, h₂, rfl⟩
  · simp only [bind_eq_bind, bind_eq_some_iff, Prod.exists] at h
    obtain ⟨coll, i₁, h₁, key, i₂, h₂, x, i₃, h₃, h⟩ := h
    cases h
    exact ⟨hset.symm, i₁, h₁, i₂, h₂, _, h₃, rfl⟩
  · simp only [bind_eq_bind, bind_eq_some_iff, Prod.exists] at h
    obtain ⟨coll, i₁, h₁, key, i₂, h₂, x, i₃, h₃, h⟩ := h
    cases h
    exact ⟨hsadd.symm, i₁, h₁, i₂, h₂, _, h₃, rfl⟩
  · simp only [bind_eq_bind, bind_eq_some_iff, Prod.exists] at h
    obtain ⟨coll, i₁, h₁, key, i₂, h₂, x, i₃, h₃, h⟩ := h
    cases h
    exact ⟨hsrem.symm, i₁, h₁, i₂, h₂, _, h₃, rfl⟩
  · simp only [bind_eq_bind, bind_eq_some_iff, Prod.exists] at h
    obtain ⟨coll, i₁, h₁, key, i₂, h₂, h⟩ := h
    cases h
    exact ⟨hdel.symm, i₁, h₁, _, h₂, rfl⟩
  · cases h
    exact ⟨hping.symm, rfl⟩

section Passes

variable {token : Option String} {input rest : List UInt8}

/-- Where no frame starts, the connection ends. -/
theorem handle_of_not_at (h : ∀ f rest, ¬Frame.At f input rest) (times : List ℕ) (authed : Bool)
    (sh : Shard St) : handle codec token times authed sh input = (sh, []) := by
  match times, input with
  | [], input => rfl
  | now :: times, [] => rfl
  | now :: times, op :: body =>
    rw [handle]
    split_ifs with hop hauthed
    · cases hfield : readField body with
      | none => rfl
      | some r => exact absurd ⟨body, by rw [hop]; rfl, r.2, hfield, rfl⟩ (h (.auth r.1) r.2)
    · cases hread : readFrame op body with
      | none => rfl
      | some r =>
        obtain ⟨rfl, hreads⟩ := reads_of_readFrame hread
        exact absurd ⟨body, rfl, hreads⟩ (h r.1 r.2)
    · rfl

theorem handle_auth {b : List UInt8} (h : (Frame.auth b).At input rest) (now : ℕ) (times : List ℕ)
    (authed : Bool) (sh : Shard St) : handle codec token (now :: times) authed sh input
      = if token.all fun t => b = utf8Bytes t then
          ((handle codec token times true sh rest).1,
            [stOk] :: (handle codec token times true sh rest).2)
        else (sh, [[stAbsent]]) := by
  obtain ⟨body, rfl, rest', hfield, rfl⟩ := h
  rw [handle, if_pos (show (Frame.auth b).op = opAuth from rfl), hfield]

variable {f : Frame} (hop : f.op ≠ opAuth) (h : f.At input rest)
include hop h

theorem handle_frame (now : ℕ) (times : List ℕ) (sh : Shard St) :
    handle codec token (now :: times) true sh input
      = ((handle codec token times true (answer codec now sh f).1 rest).1,
        (answer codec now sh f).2 ::
          (handle codec token times true (answer codec now sh f).1 rest).2) := by
  obtain ⟨body, rfl, hreads⟩ := h
  rw [handle, if_neg hop, if_pos rfl, readFrame_of_reads hop hreads]

/-- Without authentication a frame closes the connection. -/
theorem handle_frame_locked (times : List ℕ) (sh : Shard St) :
    handle codec token times false sh input = (sh, []) := by
  obtain ⟨body, rfl, -⟩ := h
  cases times with
  | nil => rfl
  | cons now times =>
    rw [handle, if_neg hop]
    rfl

end Passes

/-- A connection without authentication ends with its first frame, and the shard is not looked at. -/
theorem handle_locked (h : ∀ rest, ¬Unlocks token input rest) (times : List ℕ) :
    ∃ replies, ∀ sh : Shard St, handle codec (some token) times false sh input = (sh, replies) := by
  by_cases hat : ∃ f rest, Frame.At f input rest
  · obtain ⟨f, rest, hat⟩ := hat
    by_cases hop : f.op = opAuth
    · obtain ⟨b, rfl⟩ := Frame.eq_auth hop
      have hwrong : b ≠ utf8Bytes token := by
        rintro rfl
        exact h rest hat
      cases times with
      | nil => exact ⟨[], fun sh => rfl⟩
      | cons now times =>
        refine ⟨[[stAbsent]], fun sh => ?_⟩
        rw [handle_auth hat, if_neg (by simpa using hwrong)]
    · exact ⟨[], fun sh => handle_frame_locked hop hat times sh⟩
  · push Not at hat
    exact ⟨[], fun sh => handle_of_not_at hat times false sh⟩

/-- Until the next `AUTH` the token does not matter to an open connection. -/
theorem handle_unlocked (token token' : Option String) (times : List ℕ) (sh : Shard St)
    (h : NoAuth times.length input) :
    handle codec token times true sh input = handle codec token' times true sh input := by
  induction times generalizing sh input with
  | nil => cases input <;> rfl
  | cons now times ih =>
    by_cases hat : ∃ f rest, Frame.At f input rest
    · obtain ⟨f, rest, hat⟩ := hat
      have hop : f.op ≠ opAuth := by
        intro hop
        obtain ⟨body, rfl, -⟩ := hat
        exact h.1 (by rw [hop]; rfl)
      rw [handle_frame hop hat, handle_frame hop hat, ih _ (h.2 f rest hat)]
    · push Not at hat
      rw [handle_of_not_at hat, handle_of_not_at hat]

end Proto

/-! ### RESP -/

namespace Resp

variable {codec : JsonCodec}

/-- The connection reads an `AUTH` with the token in its pass `n`, before it is closed, and `rest` is
what follows. -/
inductive Unlocks (token : String) : Reader → ℕ → Reader → Prop where
  | auth {r rest name args} (hr : readCommand r = .ok (name :: args, rest))
    (hname : upper name = "AUTH") (hargs : presents token args = true) : Unlocks token r 1 rest
  | blank {r r' n rest} (hr : readCommand r = .ok ([], r')) (h : Unlocks token r' n rest) :
    Unlocks token r (n + 1) rest
  | other {r r' n rest name args} (hr : readCommand r = .ok (name :: args, r'))
    (hauth : ¬(upper name = "AUTH" ∧ presents token args = true)) (hquit : upper name ≠ "QUIT")
    (h : Unlocks token r' n rest) : Unlocks token r (n + 1) rest

/-- None of the first `n` commands is an `AUTH`. -/
def NoAuth : ℕ → Reader → Prop
  | 0, _ => True
  | n + 1, r =>
    match readCommand r with
    | .error _ => True
    | .ok ([], r') => NoAuth n r'
    | .ok (name :: _, r') => upper name ≠ "AUTH" ∧ NoAuth n r'

theorem eq_ping_or_hello {name : List UInt8} (h : allowed (upper name) = true)
    (hauth : upper name ≠ "AUTH") (hquit : upper name ≠ "QUIT") :
    upper name = "PING" ∨ upper name = "HELLO" := by
  have hmem := of_decide_eq_true h
  simp only [List.mem_cons, List.not_mem_nil, or_false] at hmem
  obtain hname | hname | hname | hname := hmem
  · exact absurd hname hauth
  · exact .inl hname
  · exact absurd hname hquit
  · exact .inr hname

variable (St codec) in
/-- `PING` and `HELLO`, which a locked connection serves, do not look at the shard. -/
theorem respond_allowed {name : List UInt8} (h : allowed (upper name) = true)
    (hauth : upper name ≠ "AUTH") (hquit : upper name ≠ "QUIT") (args : List (List UInt8)) :
    ∃ out, ∀ (now : ℕ) (sh : Shard St), respond codec now sh name args = (sh, out) := by
  obtain hping | hhello := eq_ping_or_hello h hauth hquit
  · cases args with
    | nil => exact ⟨simple "PONG", fun now sh => by rw [respond, hping]; rfl⟩
    | cons msg args => exact ⟨bulk (some msg), fun now sh => by rw [respond, hping]; rfl⟩
  · exact ⟨err "ERR unknown command 'HELLO'", fun now sh => by rw [respond, hhello]; rfl⟩

variable (St codec) in
/-- A locked connection refuses or answers a command without the shard, and goes on, unless this is
the right `AUTH` or a `QUIT`. -/
theorem handle_locked_succ {token : String} {name : List UInt8} {args : List (List UInt8)}
    (hr : readCommand r = .ok (name :: args, r'))
    (hauth : ¬(upper name = "AUTH" ∧ presents token args = true)) (hquit : upper name ≠ "QUIT") :
    ∃ out, ∀ (now : ℕ) (times : List ℕ) (sh : Shard St),
      handle codec (some token) (now :: times) false sh r
        = ((handle codec (some token) times false sh r').1,
          out :: (handle codec (some token) times false sh r').2) := by
  by_cases hallow : allowed (upper name) = true
  · by_cases hname : upper name = "AUTH"
    · refine ⟨err "WRONGPASS invalid username-password pair", fun now times sh => ?_⟩
      have hargs : presents token args = false := by simpa [hname] using hauth
      rw [hname] at hallow
      simp [handle, hr, hallow, hname, hargs]
    · obtain ⟨out, hout⟩ := respond_allowed St codec hallow hname hquit args
      refine ⟨out, fun now times sh => ?_⟩
      simp [handle, hr, hallow, hname, hquit, hout]
  · refine ⟨err "NOAUTH Authentication required.", fun now times sh => ?_⟩
    simp [handle, hr, hallow]

theorem handle_locked_blank {token : Option String} {authed : Bool}
    (hr : readCommand r = .ok ([], r')) (now : ℕ) (times : List ℕ) (sh : Shard St) :
    handle codec token (now :: times) authed sh r = handle codec token times authed sh r' := by
  rw [handle, hr]

/-- **A locked connection does not touch the shard**, and its replies are the same for every shard. -/
theorem handle_locked {token : String} (h : ∀ n rest, ¬Unlocks token r n rest) (times : List ℕ) :
    ∃ replies, ∀ sh : Shard St, handle codec (some token) times false sh r = (sh, replies) := by
  induction times generalizing r with
  | nil => exact ⟨[], fun sh => rfl⟩
  | cons now times ih =>
    cases hr : readCommand r with
    | error e => exact ⟨[], fun sh => by rw [handle, hr]⟩
    | ok p =>
      obtain ⟨cmd, r'⟩ := p
      cases cmd with
      | nil =>
        obtain ⟨replies, hreplies⟩ := ih fun n rest hu => h (n + 1) rest (.blank hr hu)
        exact ⟨replies, fun sh => by rw [handle_locked_blank hr, hreplies]⟩
      | cons name args =>
        by_cases hquit : upper name = "QUIT"
        · refine ⟨[simple "OK"], fun sh => ?_⟩
          have hallow : allowed "QUIT" = true := by decide
          simp [handle, hr, hquit, hallow]
        · have hauth : ¬(upper name = "AUTH" ∧ presents token args = true) :=
            fun hu => h 1 r' (.auth hr hu.1 hu.2)
          obtain ⟨replies, hreplies⟩ := ih fun n rest hu => h (n + 1) rest (.other hr hauth hquit hu)
          obtain ⟨out, hout⟩ := handle_locked_succ St codec hr hauth hquit
          exact ⟨out :: replies, fun sh => by rw [hout, hreplies]⟩

variable (St codec) in
/-- The passes up to the right `AUTH` leave the shard alone, and then the connection is open. -/
theorem handle_unlocks {token : String} (h : Unlocks token r n rest) :
    ∃ replies, ∀ (times : List ℕ) (sh : Shard St), n ≤ times.length →
      handle codec (some token) times false sh r
        = ((handle codec (some token) (times.drop n) true sh rest).1,
          replies ++ (handle codec (some token) (times.drop n) true sh rest).2) := by
  induction h with
  | auth hr hname hargs =>
    refine ⟨[simple "OK"], fun times sh hlen => ?_⟩
    have hallow : allowed "AUTH" = true := by decide
    cases times with
    | nil => simp at hlen
    | cons now times => simp [handle, hr, hname, hallow, hargs]
  | blank hr _ ih =>
    obtain ⟨replies, hreplies⟩ := ih
    refine ⟨replies, fun times sh hlen => ?_⟩
    cases times with
    | nil => simp at hlen
    | cons now times =>
      rw [handle_locked_blank hr, hreplies times sh (by simpa using hlen), List.drop_succ_cons]
  | other hr hauth hquit _ ih =>
    obtain ⟨replies, hreplies⟩ := ih
    obtain ⟨out, hout⟩ := handle_locked_succ St codec hr hauth hquit
    refine ⟨out :: replies, fun times sh hlen => ?_⟩
    cases times with
    | nil => simp at hlen
    | cons now times =>
      rw [hout, hreplies times sh (by simpa using hlen), List.drop_succ_cons]
      rfl

/-- Until the next `AUTH` the token does not matter to an open connection. -/
theorem handle_unlocked (token token' : Option String) (times : List ℕ) (sh : Shard St)
    (h : NoAuth times.length r) :
    handle codec token times true sh r = handle codec token' times true sh r := by
  induction times generalizing sh r with
  | nil => rfl
  | cons now times ih =>
    rw [List.length_cons, NoAuth] at h
    cases hr : readCommand r with
    | error e => rw [handle, handle, hr]
    | ok p =>
      obtain ⟨cmd, r'⟩ := p
      rw [hr] at h
      cases cmd with
      | nil => rw [handle_locked_blank hr, handle_locked_blank hr, ih sh h]
      | cons name args =>
        have hrest := fun sh => ih sh h.2
        by_cases hquit : upper name = "QUIT"
        · simp [handle, hr, hquit]
        · simp [handle, hr, h.1, hquit, hrest]

end Resp

/-! ### The gate -/

/-- **Nothing leaks or changes before authentication**, in either protocol: while no `AUTH` with the
token has been read, the shard is as it was after every pass and the replies are the same for every
shard.  What follows the first such `AUTH` is handled, up to the next `AUTH`, as by a connection
without a token. -/
theorem auth_gate (St : Type) [IndexStore St] (codec : JsonCodec) (token : String) :
    (∀ input, (∀ rest, ¬Proto.Unlocks token input rest) → ∀ times, ∃ replies, ∀ sh : Shard St,
      Proto.handle codec (some token) times false sh input = (sh, replies)) ∧
    (∀ input rest, Proto.Unlocks token input rest → ∃ reply, ∀ now times (sh : Shard St),
      Proto.NoAuth times.length rest →
      Proto.handle codec (some token) (now :: times) false sh input
        = ((Proto.handle codec none times true sh rest).1,
          reply :: (Proto.handle codec none times true sh rest).2)) ∧
    (∀ r, (∀ n rest, ¬Resp.Unlocks token r n rest) → ∀ times, ∃ replies, ∀ sh : Shard St,
      Resp.handle codec (some token) times false sh r = (sh, replies)) ∧
    ∀ r n rest, Resp.Unlocks token r n rest → ∃ replies, ∀ times (sh : Shard St), n ≤ times.length →
      Resp.NoAuth (times.drop n).length rest →
      Resp.handle codec (some token) times false sh r
        = ((Resp.handle codec none (times.drop n) true sh rest).1,
          replies ++ (Resp.handle codec none (times.drop n) true sh rest).2) := by
  refine ⟨fun input h times => Proto.handle_locked h times, fun input rest h => ?_,
    fun r h times => Resp.handle_locked h times, fun r n rest h => ?_⟩
  · refine ⟨[Proto.stOk], fun now times sh hfree => ?_⟩
    rw [Proto.handle_auth h, if_pos (by simp), Proto.handle_unlocked (some token) none times sh hfree]
  · obtain ⟨replies, hreplies⟩ := Resp.handle_unlocks St codec h
    refine ⟨replies, fun times sh hlen hfree => ?_⟩
    rw [hreplies times sh hlen, Resp.handle_unlocked (some token) none (times.drop n) sh hfree]

/-- A RESP connection that sends `PING`, `AUTH t` and `GET k`. -/
def pingAuthGet : Resp.Reader := [utf8Bytes "PING\r\nAUTH t\r\n", utf8Bytes "GET k\r\n"]

theorem auth_gate_pingAuthGet :
    Resp.Unlocks "t" pingAuthGet 2 [[], utf8Bytes "GET k\r\n"] ∧ ∃ replies,
      ∀ sh : Shard MemoryStore, Resp.handle sampleJson (some "t") [0, 0, 0] false sh pingAuthGet
        = (sh, replies ++ [Resp.bulkValue sampleJson (sh.object 0 "kv" "k")]) := by
  have hping : Resp.readCommand pingAuthGet
      = .ok ([utf8Bytes "PING"], [utf8Bytes "AUTH t\r\n", utf8Bytes "GET k\r\n"]) := rfl
  have hauth : Resp.readCommand [utf8Bytes "AUTH t\r\n", utf8Bytes "GET k\r\n"]
      = .ok ([utf8Bytes "AUTH", utf8Bytes "t"], [[], utf8Bytes "GET k\r\n"]) := rfl
  have hu : Resp.Unlocks "t" pingAuthGet 2 [[], utf8Bytes "GET k\r\n"] :=
    .other hping (by decide) (by decide) (.auth hauth (by decide) (by decide))
  have hfree : Resp.NoAuth 1 [[], utf8Bytes "GET k\r\n"] := by
    refine ⟨?_, trivial⟩
    decide
  obtain ⟨replies, hreplies⟩ := (auth_gate MemoryStore sampleJson "t").2.2.2 _ _ _ hu
  exact ⟨hu, replies, fun sh => hreplies [0, 0, 0] sh (by decide) hfree⟩

/-- A binary connection that sends `PING`, `AUTH t` and a `SET` is closed at the `PING`: what follows
the `AUTH` is not handled, although an open connection handles it. -/
theorem auth_after_ping_unread :
    let sh : Shard MemoryStore := ⟨"s0", MemoryStore.new⟩
    let set := (Proto.Frame.set [107, 118] [107] [104]).bytes
    let auth := (Proto.Frame.auth (utf8Bytes "t")).bytes
    (∀ times, Proto.handle sampleJson (some "t") times false sh
      (Proto.Frame.ping.bytes ++ auth ++ set) = (sh, [])) ∧
    Proto.Unlocks "t" (auth ++ set) set ∧
    (Proto.handle sampleJson none [0] true sh set).2 = [[Proto.stOk]] := by
  intro sh set auth
  refine ⟨fun times => ?_, ?_, rfl⟩
  · cases times <;> rfl
  · exact ⟨_, rfl, Proto.reads_bytes (by decide) set⟩

end Stplr
