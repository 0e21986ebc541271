import Stplr.Equiv.Requests

/-!
# Counters

A call of the `INCR` family adds a signed amount to the integer under a key.  `CounterCall.delta` is
the amount that the client asks for, in unbounded integers; what the shard adds is a 64-bit number
that is congruent to it (`CounterCall.machine_eq`), and the sum wraps.  So a call is exact or
refused if and only if the true sum is an `i64` (`CounterCall.exactOrRefused_iff`), and a history is
if and only if this holds throughout (`counters_exact_iff`).  `counter_wraps` are two calls that
wrap.
-/

namespace Stplr

open Lib IndexStore Option

/-- The commands that count. -/
inductive CounterCommand where
  | incr
  | decr
  | incrBy (amount : List UInt8)
  | decrBy (amount : List UInt8)

namespace CounterCommand

def name : CounterCommand → List UInt8
  | incr => utf8Bytes "INCR"
  | decr => utf8Bytes "DECR"
  | incrBy _ => utf8Bytes "INCRBY"
  | decrBy _ => utf8Bytes "DECRBY"

def args (key : List UInt8) : CounterCommand → List (List UInt8)
  | incr | decr => [key]
  | incrBy amount | decrBy amount => [key, amount]

/-- What is to be added; nothing if the amount is not an `i64`. -/
def delta : CounterCommand → Option ℤ
  | incr => some 1
  | decr => some (-1)
  | incrBy amount => parseI64 (Resp.s amount).toList
  | decrBy amount => (parseI64 (Resp.s amount).toList).map fun n => -n

/-- What the shard is told to add: the negation of an `i64` is one. -/
def machine : CounterCommand → Option ℤ
  | incr => some 1
  | decr => some (-1)
  | incrBy amount => parseI64 (Resp.s amount).toList
  | decrBy amount => (parseI64 (Resp.s amount).toList).map fun n => Int.bmod (-n) (2 ^ 64)

variable (cmd : CounterCommand)

theorem request_eq (key : List UInt8) :
    Resp.request (Resp.upper cmd.name) (cmd.args key) = .incr (Resp.s key) cmd.machine := by
  cases cmd with
  | incr => rfl
  | decr => rfl
  | incrBy amount =>
    rw [name, show Resp.upper (utf8Bytes "INCRBY") = "INCRBY" by decide]
    rfl
  | decrBy amount =>
    rw [name, show Resp.upper (utf8Bytes "DECRBY") = "DECRBY" by decide]
    rfl

/-- The two amounts are congruent. -/
theorem machine_eq :
    ∃ f : ℤ → ℤ, cmd.machine = cmd.delta.map f ∧ ∀ cur d, wrappingAdd cur (f d) = wrappingAdd cur d := by
  cases cmd with
  | incr | decr => exact ⟨id, rfl, fun _ _ => rfl⟩
  | incrBy amount => exact ⟨fun d => d, map_id'.symm, fun _ _ => rfl⟩
  | decrBy amount =>
    refine ⟨fun d => Int.bmod d (2 ^ 64), ?_, fun cur d => ?_⟩
    · rw [machine, delta, map_map]
      rfl
    · rw [wrappingAdd, wrappingAdd, Int.add_bmod_bmod]

end CounterCommand

/-- A call that counts: `incr`, or a command. -/
inductive CounterCall where
  | incr (coll key : String) (delta : ℤ)
  | command (cmd : CounterCommand) (key : List UInt8)

/-- What `incr` returns, or a command replies. -/
inductive CounterReply where
  | direct (n : Option ℤ)
  | wire (bytes : List UInt8)

namespace CounterCall

def coll : CounterCall → String
  | incr coll _ _ => coll
  | command _ _ => Resp.coll

def key : CounterCall → String
  | incr _ key _ => key
  | command _ key => Resp.s key

def delta : CounterCall → Option ℤ
  | incr _ _ delta => some delta
  | command cmd _ => cmd.delta

def machine : CounterCall → Option ℤ
  | incr _ _ delta => some delta
  | command cmd _ => cmd.machine

/-- How a sum is reported, or a refusal. -/
def reply : CounterCall → Option ℤ → CounterReply
  | incr _ _ _, r => .direct r
  | command _ _, r => .wire (r.elim Resp.notInteger Resp.int)

/-- The call on a shard. -/
def onShard {St : Type} [IndexStore St] (codec : JsonCodec) (now : ℕ) (sh : Shard St) :
    CounterCall → Shard St × CounterReply
  | incr coll key delta => (sh.incr now coll key delta).map id .direct
  | command cmd key => (Resp.respond codec now sh cmd.name (cmd.args key)).map id .wire

/-- The call as a program. -/
def program (codec : JsonCodec) : CounterCall → ShardProg CounterReply
  | incr coll key delta => .call (.incr coll key delta) fun a => .ret (.direct a.sum)
  | command cmd key =>
    (Resp.program codec (Resp.request (Resp.upper cmd.name) (cmd.args key))).map .wire

variable {St : Type} [IndexStore St] {codec : JsonCodec} {now : ℕ} {sh : Shard St}

theorem run_program (c : CounterCall) :
    (c.program codec).run (fun sh c => c.onShard now sh) sh = c.onShard codec now sh := by
  cases c with
  | incr coll key delta => rfl
  | command cmd key =>
    rw [program, Prog.run_map]
    rfl

/-- Both kinds of calls go through `incr`, unless the amount is not an integer. -/
theorem onShard_eq (c : CounterCall) : c.onShard codec now sh
    = c.machine.elim (sh, c.reply none) fun d => (sh.incr now c.coll c.key d).map id c.reply := by
  cases c with
  | incr coll key delta => rfl
  | command cmd key =>
    rw [onShard, Resp.respond, cmd.request_eq, machine]
    cases cmd.machine <;> rfl

theorem machine_eq (c : CounterCall) :
    ∃ f : ℤ → ℤ, c.machine = c.delta.map f ∧ ∀ cur d, wrappingAdd cur (f d) = wrappingAdd cur d := by
  cases c with
  | incr coll key delta => exact ⟨id, rfl, fun _ _ => rfl⟩
  | command cmd key => exact cmd.machine_eq

theorem reply_some_ne_none (c : CounterCall) (n : ℤ) : c.reply (some n) ≠ c.reply none := by
  cases c with
  | incr coll key delta => simp [reply]
  | command cmd key =>
    -- the first bytes are a colon and a minus
    intro h
    have hbytes : Resp.int n = Resp.notInteger := CounterReply.wire.inj h
    exact absurd (List.cons.inj hbytes).1 (by decide)

/-! ### One call -/

/-- The call returns the exact sum and stores it, or it is refused and changes nothing. -/
def ExactOrRefused (codec : JsonCodec) (now : ℕ) (sh : Shard St) (c : CounterCall) : Prop :=
  (∃ cur d, counterOf (sh.object now c.coll c.key) = some cur ∧ c.delta = some d ∧
    (c.onShard codec now sh).2 = c.reply (some (cur + d)) ∧
    ∀ t, (c.onShard codec now sh).1.object t c.coll c.key = some (.int (cur + d))) ∨
  (c.onShard codec now sh).2 = c.reply none ∧ (c.onShard codec now sh).1 = sh

/-- The true sum is an `i64`, if there are two integers to add. -/
def Fits (now : ℕ) (sh : Shard St) (c : CounterCall) : Prop :=
  ∀ cur d, counterOf (sh.object now c.coll c.key) = some cur → c.delta = some d →
    -2 ^ 63 ≤ cur + d ∧ cur + d < 2 ^ 63

theorem fits_of {c : CounterCall} (cur d : ℤ)
    (hcur : counterOf (sh.object now c.coll c.key) = some cur) (hd : c.delta = some d)
    (hsum : -2 ^ 63 ≤ cur + d ∧ cur + d < 2 ^ 63) : c.Fits now sh := by
  intro cur' d' hcur' hd'
  rw [← some.inj (hcur.symm.trans hcur'), ← some.inj (hd.symm.trans hd')]
  exact hsum

variable (sh) in
/-- What a call does with an integer and an amount. -/
theorem onShard_of_add {c : CounterCall} {cur d : ℤ}
    (hcur : counterOf (sh.object now c.coll c.key) = some cur) (hd : c.delta = some d) :
    c.onShard codec now sh = (sh.writeObject c.coll c.key (.int (wrappingAdd cur d)),
      c.reply (some (wrappingAdd cur d))) := by
  obtain ⟨f, hf, hadd⟩ := c.machine_eq
  have hcur' : counterOf (getObject now sh.store c.coll c.key) = some cur := hcur
  rw [onShard_eq, hf, hd, map_some, elim_some, Shard.incr, IndexStore.incr, update, Change.incr,
    hcur']
  dsimp only
  rw [hadd]
  rfl

variable (sh) in
/-- A call is refused if the value is not an integer, or the amount is none. -/
theorem onShard_of_not {c : CounterCall}
    (h : counterOf (sh.object now c.coll c.key) = none ∨ c.delta = none) :
    c.onShard codec now sh = (sh, c.reply none) := by
  obtain ⟨f, hf, -⟩ := c.machine_eq
  rw [onShard_eq, hf]
  cases hd : c.delta with
  | none => rfl
  | some d =>
    have hcur : counterOf (getObject now sh.store c.coll c.key) = none :=
      h.resolve_right fun hnone => by cases hd.symm.trans hnone
    rw [map_some, elim_some, Shard.incr, IndexStore.incr, update, Change.incr, hcur]
    rfl

/-- The sums that counters write are read back. -/
def ReadsSums (St : Type) [IndexStore St] : Prop :=
  ∀ (sh : Shard St) (c k : String) (cur d : ℤ) (t : ℕ),
    (sh.writeObject c k (.int (wrappingAdd cur d))).object t c k = some (.int (wrappingAdd cur d))

theorem readsSums_of_cells [LawfulCells St] : ReadsSums St := by
  intro sh c k cur d t
  rw [Shard.object_writeObject, if_pos ⟨rfl, rfl⟩]

theorem readsSums_texts (T : Type) [Text T] : ReadsSums (TextStore T) := by
  intro sh c k cur d t
  have hget : IndexStore.getObject t
      (IndexStore.putObject sh.store.mem c k (.int (wrappingAdd cur d))) c k = some _ :=
    (LawfulCells.getObject_putObject ..).trans (if_pos ⟨rfl, rfl⟩)
  exact (congrArg (Option.bind · (Text.reread T)) hget).trans (Text.exact_wrappingAdd cur d)

/-- **A call is exact or refused iff the true sum fits.** -/
theorem exactOrRefused_iff (hsums : ReadsSums St) (c : CounterCall) :
    c.ExactOrRefused codec now sh ↔ c.Fits now sh := by
  by_cases hnot : counterOf (sh.object now c.coll c.key) = none ∨ c.delta = none
  · refine iff_of_true (.inr ?_) fun cur d hcur hd => ?_
    · rw [onShard_of_not sh hnot]
      exact ⟨rfl, rfl⟩
    · rcases hnot with h | h
      · cases hcur.symm.trans h
      · cases hd.symm.trans h
  · rw [not_or] at hnot
    obtain ⟨cur, hcur⟩ := ne_none_iff_exists'.mp hnot.1
    obtain ⟨d, hd⟩ := ne_none_iff_exists'.mp hnot.2
    have hstored : ∀ t, (c.onShard codec now sh).1.object t c.coll c.key
        = some (.int (wrappingAdd cur d)) := by
      intro t
      rw [onShard_of_add sh hcur hd]
      exact hsums sh _ _ cur d t
    constructor
    · rintro (⟨cur', d', hcur', hd', -, hexact⟩ | ⟨hreply, -⟩)
      · obtain rfl := some.inj (hcur.symm.trans hcur')
        obtain rfl := some.inj (hd.symm.trans hd')
        have hsum : wrappingAdd cur d = cur + d :=
          Value.int.inj (some.inj ((hstored now).symm.trans (hexact now)))
        refine fits_of cur d hcur hd ?_
        rw [← hsum, wrappingAdd]
        have hlow := Int.le_bmod (x := cur + d) (m := 2 ^ 64) (by decide)
        have hhigh := Int.bmod_lt (x := cur + d) (m := 2 ^ 64) (by decide)
        omega
      · rw [onShard_of_add sh hcur hd] at hreply
        exact absurd hreply (c.reply_some_ne_none _)
    · intro hfits
      obtain ⟨hlow, hhigh⟩ := hfits cur d hcur hd
      have hsum : wrappingAdd cur d = cur + d := Int.bmod_eq_of_le_mul_two (by omega) (by omega)
      rw [hsum] at hstored
      refine .inl ⟨cur, d, hcur, hd, ?_, hstored⟩
      rw [onShard_of_add sh hcur hd, hsum]

/-! ### On a durable shard -/

/-- The call on a durable shard, unless it panics. -/
def onLmdb {T : Type} [Text T] (codec : JsonCodec) (now : ℕ) (s : LmdbStore T) (c : CounterCall) :
    Option (LmdbStore T × CounterReply) :=
  (c.program codec).run? (fun s call => call.onLmdb now s) s

open LmdbStore

theorem all_program (c : CounterCall) :
    (c.program codec).All fun call => ∃ d, call = .incr c.coll c.key d := by
  cases c with
  | incr coll key delta => exact ⟨⟨delta, rfl⟩, fun _ => trivial⟩
  | command cmd key =>
    rw [program, Prog.all_map, cmd.request_eq]
    cases cmd.machine with
    | none => trivial
    | some d => exact ⟨⟨d, rfl⟩, fun _ => trivial⟩

theorem sim_onLmdb {T : Type} [Text T] {C : Finset String} {s : LmdbStore T}
    {sh : Shard (TextStore T)} (h : Sim C s sh.store) {c : CounterCall} (hc : Accepts C c.coll c.key) :
    ∃ s', c.onLmdb codec now s = some (s', (c.onShard codec now sh).2) ∧
      Sim C s' (c.onShard codec now sh).1.store := by
  rw [← c.run_program]
  refine Prog.run?_of_sim (f := fun s call => call.onLmdb now s) (g := fun sh call => call.onShard now sh)
    (R := fun (s : LmdbStore T) (sh : Shard (TextStore T)) => Sim C s sh.store) ?_ c.all_program h
  rintro s sh _ hR ⟨d, rfl⟩
  obtain ⟨s', hs', hsim⟩ := hR.update now hc (Change.incr d)
  exact ⟨s', congrArg (Option.map _) hs', hsim⟩

end CounterCall

/-! ### Histories -/

/-- **Counters are exact or refused exactly as long as the sums fit**: on every shard each call of a
history is, iff each true sum is an `i64`.  A durable shard replies like the store without handles that
it stands for, for keys that LMDB takes, and of that store the same is true. -/
theorem counters_exact_iff (codec : JsonCodec) (calls : List (ℕ × CounterCall)) :
    (∀ (St : Type) [IndexStore St] [LawfulCells St] (sh : Shard St),
      Throughout (fun sh c => c.2.onShard codec c.1 sh)
          (fun sh c => c.2.ExactOrRefused codec c.1 sh) sh calls ↔
        Throughout (fun sh c => c.2.onShard codec c.1 sh) (fun sh c => c.2.Fits c.1 sh) sh calls) ∧
    ∀ (T : Type) [Text T] (C : Finset String) (s : LmdbStore T) (sh : Shard (TextStore T)),
      LmdbStore.Sim C s sh.store → (∀ c ∈ calls, LmdbStore.Accepts C c.2.coll c.2.key) →
      answers? (fun s c => c.2.onLmdb codec c.1 s) s calls
          = some (answers (fun sh c => c.2.onShard codec c.1 sh) sh calls) ∧
        (Throughout (fun sh c => c.2.onShard codec c.1 sh)
            (fun sh c => c.2.ExactOrRefused codec c.1 sh) sh calls ↔
          Throughout (fun sh c => c.2.onShard codec c.1 sh) (fun sh c => c.2.Fits c.1 sh) sh calls) := by
  constructor
  · intro St _ _ sh
    exact throughout_congr (fun sh c => c.2.exactOrRefused_iff CounterCall.readsSums_of_cells) sh calls
  · intro T _ C s sh hsim hcalls
    refine ⟨?_, throughout_congr (fun sh c => c.2.exactOrRefused_iff (CounterCall.readsSums_texts T))
      sh calls⟩
    exact answers?_of_sim (f := fun s (c : ℕ × CounterCall) => c.2.onLmdb codec c.1 s)
      (g := fun sh (c : ℕ × CounterCall) => c.2.onShard codec c.1 sh)
      (A := fun c => LmdbStore.Accepts C c.2.coll c.2.key)
      (R := fun (s : LmdbStore T) (sh : Shard (TextStore T)) => LmdbStore.Sim C s sh.store)
      (fun s sh c hR hc => CounterCall.sim_onLmdb hR hc) hsim hcalls

/-- A shard that holds a numeric string. -/
def stringCounter : Shard MemoryStore :=
  Shard.writeObject ⟨"s0", MemoryStore.new⟩ "kv" "n" (.str " 41 ")

/-- Counting up and down. -/
def countCalls : List (ℕ × CounterCall) :=
  [(0, .command .incr (utf8Bytes "n")), (1, .command (.decrBy (utf8Bytes "2")) (utf8Bytes "n")),
    (2, .incr "kv" "n" 60)]

theorem counters_exact_countCalls :
    Throughout (fun sh c => c.2.onShard sampleJson c.1 sh)
      (fun sh c => c.2.ExactOrRefused sampleJson c.1 sh) stringCounter countCalls := by
  refine ((counters_exact_iff sampleJson countCalls).1 MemoryStore stringCounter).mpr ?_
  refine ⟨?_, ?_, ?_, trivial⟩
  · exact CounterCall.fits_of 41 1 (by decide) (by decide) (by decide)
  · exact CounterCall.fits_of 42 (-2) (by decide) (by decide) (by decide)
  · exact CounterCall.fits_of 40 60 (by decide) (by decide) (by decide)

/-- `INCR` of the greatest `i64` gives the least, and so does `DECRBY` of the least from `0`. -/
theorem counter_wraps :
    let max := Shard.writeObject ⟨"s0", MemoryStore.new⟩ "kv" "n" (.int (2 ^ 63 - 1))
    let least := utf8Bytes "-9223372036854775808"
    let empty : Shard MemoryStore := ⟨"s0", MemoryStore.new⟩
    (Resp.respond sampleJson 0 max (utf8Bytes "INCR") [utf8Bytes "n"]).2
      = Resp.int (-9223372036854775808) ∧
    (Resp.respond sampleJson 0 empty (utf8Bytes "DECRBY") [utf8Bytes "n", least]).2
      = Resp.int (-9223372036854775808) := by
  exact ⟨rfl, rfl⟩

end Stplr
