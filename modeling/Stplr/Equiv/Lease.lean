import Stplr.Equiv.Shard
import Mathlib.Data.List.Sort

/-!
# Leases on one shard: mutual exclusion and fencing

`evaluate_cases` says once what an acquire can do.  A log of attempts on one lease record is a
`Chain` when every attempt decides on the record its predecessor left; tokens grow along a chain
and change with the holder (`Chain.token_le`), and a record that has not lapsed denies every
other holder (`Chain.denied`).  The attempts on one key of a shard form a chain (`chain_leaseLog`),
whatever else the shard executes in between, since no operation on another collection reaches the
lease cell (`ShardOp.exec_frame`) and a stored lease reads back as itself (`Lease.fromValue_toValue`).

A holder that re-acquires before its lease has lapsed may move its expiry back; so exclusion is
promised up to the expiry of a grant that the same holder has not shortened since
(`leaseLog_exclusive_fenced`).
-/

namespace Stplr

open List Option

/-! ### The transition -/

/-- What an acquire can do: a denial, a renewal, a grant over a lapsed record, a first grant. -/
theorem evaluate_cases (cur : Option Lease) (holder : String) (ttl now : ℕ) :
    (∃ l, cur = some l ∧ l.holder ≠ holder ∧ now < l.expiresMs ∧
      evaluate cur holder ttl now = ⟨false, l⟩) ∨
    (∃ l, cur = some l ∧ l.holder = holder ∧ now < l.expiresMs ∧
      evaluate cur holder ttl now = ⟨true, ⟨holder, (now + ttl) % 2 ^ 64, l.token⟩⟩) ∨
    (∃ l, cur = some l ∧ l.expiresMs ≤ now ∧ evaluate cur holder ttl now
      = ⟨true, ⟨holder, (now + ttl) % 2 ^ 64, (l.token + 1) % 2 ^ 64⟩⟩) ∨
    (cur = none ∧ evaluate cur holder ttl now = ⟨true, ⟨holder, (now + ttl) % 2 ^ 64, 1⟩⟩) := by
  cases cur with
  | none => exact .inr (.inr (.inr ⟨rfl, rfl⟩))
  | some l =>
    rw [evaluate]
    by_cases hlt : now < l.expiresMs
    · by_cases hh : l.holder = holder
      · rw [if_pos ⟨hh, hlt⟩]
        exact .inr (.inl ⟨l, rfl, hh, hlt, rfl⟩)
      · rw [if_neg (fun h => hh h.1), if_pos hlt]
        exact .inl ⟨l, rfl, hh, hlt, rfl⟩
    · rw [if_neg (fun h => hlt h.2), if_neg hlt]
      exact .inr (.inr (.inl ⟨l, rfl, Nat.le_of_not_lt hlt, rfl⟩))

variable {cur : Option Lease} {l : Lease} (key : String)

/-- A grant is to the caller. -/
theorem evaluate_holder {holder : String} {ttl now : ℕ}
    (h : (evaluate cur holder ttl now).granted = true) :
    (evaluate cur holder ttl now).lease.holder = holder := by
  rcases evaluate_cases cur holder ttl now with
    ⟨l, _, _, _, he⟩ | ⟨l, _, _, _, he⟩ | ⟨l, _, _, he⟩ | ⟨_, he⟩ <;> rw [he] at h ⊢
  exact absurd h Bool.false_ne_true

/-- The numbers of the record are `u64`s. -/
def Lease.Fits (l : Lease) : Prop := l.expiresMs < 2 ^ 64 ∧ l.token < 2 ^ 64

theorem Value.asU64_lt {v : Value} {n : ℕ} (h : v.asU64 = some n) : n < 2 ^ 64 := by
  unfold Value.asU64 at h
  split at h
  · split_ifs at h with hi
    obtain rfl := some.inj h
    omega
  · cases h

theorem Lease.fits_of_fromValue {v : Value} (h : Lease.fromValue v = some l) : l.Fits := by
  unfold Lease.fromValue at h
  split at h
  · simp only [Option.bind_eq_bind, bind_eq_some_iff] at h
    obtain ⟨_, _, _, _, _, _, _, _, e, he, t, ht, hl⟩ := h
    obtain rfl := some.inj hl
    exact ⟨Value.asU64_lt he, Value.asU64_lt ht⟩
  · simp only [Option.bind_eq_bind, bind_eq_some_iff] at h
    obtain ⟨_, _, e, he, t, ht, hl⟩ := h
    obtain rfl := some.inj hl
    exact ⟨Value.asU64_lt he, Value.asU64_lt ht⟩
  · cases h

/-- What an acquire reports are `u64`s. -/
theorem evaluate_fits (h : ∀ l ∈ cur, l.Fits) (holder : String) (ttl now : ℕ) :
    (evaluate cur holder ttl now).lease.Fits := by
  have hmod : ∀ n : ℕ, n % 2 ^ 64 < 2 ^ 64 := fun n => Nat.mod_lt _ (by decide)
  rcases evaluate_cases cur holder ttl now with
    ⟨l, hl, _, _, he⟩ | ⟨l, hl, _, _, he⟩ | ⟨l, _, _, he⟩ | ⟨_, he⟩ <;> rw [he]
  · exact h l hl
  · exact ⟨hmod _, (h l hl).2⟩
  · exact ⟨hmod _, hmod _⟩
  · exact ⟨hmod _, Nat.one_lt_two_pow (by decide)⟩

/-- A record whose numbers fit in a `u64` survives storing and re-reading. -/
theorem Lease.fromValue_toValue (h : l.Fits) : Lease.fromValue l.toValue = some l := by
  have hu : ∀ n : ℕ, n < 2 ^ 64 → Value.asU64 (.int n) = some n := by
    intro n hn
    rw [Value.asU64, if_pos ⟨by omega, by omega⟩, Int.toNat_natCast]
  have hh : (l.toValue.get? "holder") = some (.str l.holder) := rfl
  have hx : (l.toValue.get? "expires_ms") = some (.int l.expiresMs) := rfl
  have hk : (l.toValue.get? "token") = some (.int l.token) := rfl
  rw [toValue] at hh hx hk ⊢
  simp [fromValue, hh, hx, hk, hu _ h.1, hu _ h.2, Value.asStr]

/-! ### Chains of attempts -/

/-- An acquire attempt on a lease record: when, by whom, for how long, the record it found, its
outcome and the record it left. -/
structure Attempt where
  time : ℕ
  holder : String
  ttlMs : ℕ
  before : Option Lease
  outcome : LeaseOutcome
  after : Option Lease
deriving DecidableEq

/-- Every attempt decides by `evaluate` on the record its predecessor left, and stores exactly
its grants. -/
def Chain : Option Lease → List Attempt → Prop
  | _, [] => True
  | cur, a :: log =>
    a.before = cur ∧ a.outcome = evaluate cur a.holder a.ttlMs a.time ∧
      a.after = (if a.outcome.granted then some a.outcome.lease else cur) ∧ Chain a.after log

variable {pre : List Attempt}

theorem Chain.drop {a : Attempt} {post : List Attempt} (h : Chain cur (pre ++ a :: post)) :
    a.outcome = evaluate a.before a.holder a.ttlMs a.time ∧
      a.after = (if a.outcome.granted then some a.outcome.lease else a.before) ∧
      Chain a.after post := by
  induction pre generalizing cur with
  | nil =>
    obtain ⟨rfl, ho, ha, hc⟩ := h
    exact ⟨ho, ha, hc⟩
  | cons p pre ih => exact ih h.2.2.2

/-- What the attempt computes fits in a `u64`: the new expiry if it is granted, and the new token if
it finds a lapsed record. -/
def Attempt.Fits (a : Attempt) : Prop := (a.outcome.granted = true → a.time + a.ttlMs < 2 ^ 64) ∧
    ∀ l ∈ a.before, l.expiresMs ≤ a.time → l.token + 1 < 2 ^ 64

instance (a : Attempt) : Decidable a.Fits := inferInstanceAs (Decidable (_ ∧ _))

/-- No number that an attempt of the log computes exceeds a `u64`. -/
def NoOverflow (log : List Attempt) : Prop := ∀ a ∈ log, a.Fits

theorem NoOverflow.tail {a : Attempt} {log : List Attempt} (h : NoOverflow (a :: log)) :
    NoOverflow log :=
  fun b hb => h b (mem_cons_of_mem a hb)

variable {log post : List Attempt} {b : Attempt} {mid : List Attempt} {a : Attempt}

/-- Along a chain tokens do not decrease, and an outcome with the token of an earlier record has
its holder. -/
theorem Chain.token_le (h : Chain (some l) log) (hfit : NoOverflow log) :
    ∀ a ∈ log, l.token ≤ a.outcome.lease.token ∧
      (a.outcome.lease.token = l.token → a.outcome.lease.holder = l.holder) := by
  induction log generalizing l with
  | nil => simp
  | cons b log ih =>
    obtain ⟨hbefore, ho, ha, hc⟩ := h
    -- the record `b` reports is at least `l`, and it is what the rest of the chain starts from
    have hb : l.token ≤ b.outcome.lease.token ∧
        (b.outcome.lease.token = l.token → b.outcome.lease.holder = l.holder) ∧
        b.after = some b.outcome.lease := by
      rcases evaluate_cases (some l) b.holder b.ttlMs b.time with
        ⟨l', hl, _, _, he⟩ | ⟨l', hl, hh, _, he⟩ | ⟨l', hl, hlapsed, he⟩ | ⟨hl, _⟩
      · obtain rfl := some.inj hl
        rw [ha, ho, he]
        exact ⟨le_rfl, fun _ => rfl, rfl⟩
      · obtain rfl := some.inj hl
        rw [ha, ho, he]
        exact ⟨le_rfl, fun _ => hh.symm, rfl⟩
      · obtain rfl := some.inj hl
        rw [ha, ho, he, Nat.mod_eq_of_lt ((hfit b (mem_cons_self ..)).2 l hbefore hlapsed)]
        exact ⟨Nat.le_succ _, fun heq => absurd heq (Nat.succ_ne_self _), rfl⟩
      · exact absurd hl (some_ne_none l)
    intro a hmem
    rcases mem_cons.mp hmem with rfl | hmem
    · exact ⟨hb.1, hb.2.1⟩
    · rw [hb.2.2] at hc
      obtain ⟨h1, h2⟩ := ih hc hfit.tail a hmem
      refine ⟨hb.1.trans h1, fun heq => ?_⟩
      have hmid : b.outcome.lease.token = l.token := le_antisymm (heq ▸ h1) hb.1
      rw [h2 (heq.trans hmid.symm), hb.2.1 hmid]

/-- A record that outlives the attempt `b` and is not shortened by its holder before `b` denies
`b` to every other holder. -/
theorem Chain.denied {e : ℕ} (h : Chain (some l) (mid ++ b :: post)) (hl : e ≤ l.expiresMs)
    (hb : b.time < e) (hne : b.holder ≠ l.holder) (htime : ∀ m ∈ mid, m.time ≤ b.time)
    (hkeep : ∀ m ∈ mid, m.outcome.granted = true → m.holder = l.holder →
      e ≤ m.outcome.lease.expiresMs) : b.outcome.granted = false := by
  induction mid generalizing l with
  | nil =>
    obtain ⟨_, ho, _, _⟩ := h
    rcases evaluate_cases (some l) b.holder b.ttlMs b.time with
      ⟨l', _, _, _, he⟩ | ⟨l', hl', hh, _, _⟩ | ⟨l', hl', hexp, _⟩ | ⟨hl', _⟩
    · rw [ho, he]
    · obtain rfl := some.inj hl'
      exact absurd hh.symm hne
    · obtain rfl := some.inj hl'
      omega
    · exact absurd hl' (some_ne_none l)
  | cons m mid ih =>
    obtain ⟨_, ho, ha, hc⟩ := h
    have hm := htime m (mem_cons_self ..)
    have hkeep' := fun x hx => hkeep x (mem_cons_of_mem m hx)
    have htime' := fun x hx => htime x (mem_cons_of_mem m hx)
    rcases evaluate_cases (some l) m.holder m.ttlMs m.time with
      ⟨l', hl', _, _, he⟩ | ⟨l', hl', hh, _, he⟩ | ⟨l', hl', hexp, _⟩ | ⟨hl', _⟩
    · -- denied: the record stays
      obtain rfl := some.inj hl'
      have hafter : m.after = some l := by rw [ha, ho, he]; rfl
      exact ih (hafter ▸ hc) hl hne htime' hkeep'
    · -- renewed by the holder, not before `e`
      obtain rfl := some.inj hl'
      have hg : m.outcome.granted = true := by rw [ho, he]
      have hexp := hkeep m (mem_cons_self ..) hg hh.symm
      have hafter : m.after = some m.outcome.lease := by rw [ha, hg]; rfl
      have hholder : m.outcome.lease.holder = l.holder := by rw [ho, he]; exact hh.symm
      rw [hafter] at hc
      refine ih hc hexp (fun h => hne (h.trans hholder)) htime' ?_
      intro x hx hgx hhx
      exact hkeep' x hx hgx (hhx.trans hholder)
    · obtain rfl := some.inj hl'
      omega
    · exact absurd hl' (some_ne_none l)

/-- The attempt does not move back the expiry of a lease that it renews. -/
def Attempt.Extends (a : Attempt) : Prop :=
  ∀ l ∈ a.before, l.holder = a.holder → a.time < l.expiresMs → l.expiresMs ≤ a.time + a.ttlMs

/-- Of two attempts in order, both granted: the token does not decrease, and the lease of another
holder has expired. -/
def Attempt.Fences (a b : Attempt) : Prop := a.outcome.granted = true → b.outcome.granted = true →
    a.outcome.lease.token ≤ b.outcome.lease.token ∧
      (a.holder ≠ b.holder → a.outcome.lease.expiresMs ≤ b.time)

/-- When no renewal moves an expiry back, a record denies every other holder until it expires. -/
theorem Chain.expired (h : Chain (some l) log) (hfit : NoOverflow log)
    (hext : ∀ a ∈ log, a.Extends) (htime : log.Pairwise (·.time ≤ ·.time)) :
    ∀ b ∈ log, b.outcome.granted = true → l.holder ≠ b.holder → l.expiresMs ≤ b.time := by
  induction log generalizing l with
  | nil => simp
  | cons m log ih =>
    obtain ⟨hbefore, ho, ha, hc⟩ := h
    obtain ⟨hle, htime⟩ := pairwise_cons.mp htime
    have hext' : ∀ a ∈ log, a.Extends := fun a hm => hext a (mem_cons_of_mem m hm)
    intro b hmem hg hne
    rcases evaluate_cases (some l) m.holder m.ttlMs m.time with
      ⟨l', hl, _, _, he⟩ | ⟨l', hl, hh, hlt, he⟩ | ⟨l', hl, hexp, _⟩ | ⟨hl, _⟩
    · -- denied: the record stays
      obtain rfl := some.inj hl
      rw [ho, he] at ha
      rw [ha] at hc
      rcases mem_cons.mp hmem with rfl | hmem
      · rw [ho, he] at hg
        cases hg
      · exact ih hc hfit.tail hext' htime b hmem hg hne
    · -- renewed: the holder stays and the expiry does not move back
      obtain rfl := some.inj hl
      have hnew := (hfit m (mem_cons_self ..)).1 (by rw [ho, he])
      rw [ho, he, Nat.mod_eq_of_lt hnew] at ha
      rw [ha] at hc
      rcases mem_cons.mp hmem with rfl | hmem
      · exact absurd hh hne
      · have hlater := ih hc hfit.tail hext' htime b hmem hg (fun heq => hne (hh.trans heq))
        exact (hext m (mem_cons_self ..) l hbefore hh hlt).trans hlater
    · -- lapsed: every later attempt comes after the expiry
      obtain rfl := some.inj hl
      rcases mem_cons.mp hmem with rfl | hmem
      · exact hexp
      · exact hexp.trans (hle b hmem)
    · exact absurd hl (some_ne_none l)

/-- **The grants of a chain are fenced** when no renewal moves an expiry back. -/
theorem Chain.fences (h : Chain cur log) (hfit : NoOverflow log) (hext : ∀ a ∈ log, a.Extends)
    (htime : log.Pairwise (·.time ≤ ·.time)) : log.Pairwise Attempt.Fences := by
  induction log generalizing cur with
  | nil => exact List.Pairwise.nil
  | cons a log ih =>
    obtain ⟨_, ho, ha, hc⟩ := h
    obtain ⟨_, htime⟩ := pairwise_cons.mp htime
    have hext' : ∀ b ∈ log, b.Extends := fun b hm => hext b (mem_cons_of_mem a hm)
    refine pairwise_cons.mpr ⟨fun b hmem hga hgb => ?_, ih hc hfit.tail hext' htime⟩
    rw [hga, if_pos rfl] at ha
    rw [ha] at hc
    have hholder : a.outcome.lease.holder = a.holder := by
      rw [ho] at hga ⊢
      exact evaluate_holder hga
    refine ⟨(hc.token_le hfit.tail b hmem).1, fun hne => ?_⟩
    exact hc.expired hfit.tail hext' htime b hmem hgb (hholder ▸ hne)

/-! ### The attempts on one key of a shard -/

variable {St : Type} [IndexStore St] [LawfulStore St]

/-- An event at a shard: an acquire on some lease key, or another operation. -/
inductive LeaseEvent where
  | acquire (key holder : String) (ttlMs : ℕ)
  | other (op : ShardOp)

/-- The shard after an event at clock reading `t`. -/
def LeaseEvent.exec (t : ℕ) (sh : Shard St) : LeaseEvent → Shard St
  | .acquire key holder ttlMs => (sh.leaseAcquire t key holder ttlMs).1
  | .other op => op.exec t sh

/-- The shard after a sequence of timed events. -/
def leaseExec (sh : Shard St) (evs : List (ℕ × LeaseEvent)) : Shard St :=
  evs.foldl (fun sh e => e.2.exec e.1 sh) sh

/-- The lease record that a reader at clock `now` finds under `key`. -/
def storedLease (now : ℕ) (sh : Shard St) (key : String) : Option Lease :=
  (sh.object now leaseColl key).bind Lease.fromValue

/-- The attempts on `key`, each with the record found before it and the one found after it. -/
def leaseLog (key : String) : Shard St → List (ℕ × LeaseEvent) → List Attempt
  | _, [] => []
  | sh, (t, .acquire k holder ttlMs) :: evs =>
    let r := sh.leaseAcquire t k holder ttlMs
    if k = key then
      ⟨t, holder, ttlMs, storedLease t sh key, r.2, storedLease t r.1 key⟩ :: leaseLog key r.1 evs
    else leaseLog key r.1 evs
  | sh, (t, .other op) :: evs => leaseLog key (op.exec t sh) evs

/-- The events other than lease calls stay off the lease collection. -/
def OffLease (evs : List (ℕ × LeaseEvent)) : Prop :=
  ∀ e ∈ evs, ∀ op, e.2 = .other op → leaseColl ∉ op.colls

theorem storedLease_congr_now {sh : Shard St} {key : String}
    (h : sh.expiryAt leaseColl key = none) (t t' : ℕ) :
    storedLease t sh key = storedLease t' sh key := by
  rw [storedLease, storedLease, Shard.object_congr_now h t t']

omit [LawfulStore St] in
/-- A record that is read has `u64`s. -/
theorem fits_storedLease {t : ℕ} {sh : Shard St} {key : String} :
    ∀ l ∈ storedLease t sh key, l.Fits := by
  intro l hl
  obtain ⟨v, -, hv⟩ := bind_eq_some_iff.mp hl
  exact Lease.fits_of_fromValue hv

omit [LawfulStore St] in
theorem leaseAcquire_eq (t : ℕ) (sh : Shard St) (key holder : String) (ttl : ℕ) :
    sh.leaseAcquire t key holder ttl =
      (if (evaluate (storedLease t sh key) holder ttl t).granted then
        sh.writeObject leaseColl key (evaluate (storedLease t sh key) holder ttl t).lease.toValue
      else sh, evaluate (storedLease t sh key) holder ttl t) := by
  unfold Shard.leaseAcquire IndexStore.update Change.lease storedLease Shard.object Shard.writeObject
  dsimp only
  split_ifs <;> rfl

/-- An acquire on one key leaves the record of another alone. -/
theorem leaseAcquire_other (t : ℕ) {sh : Shard St} {key k : String} (holder : String) (ttl : ℕ)
    (hk : k ≠ key) (h : sh.expiryAt leaseColl key = none) :
    (∀ t', storedLease t' (sh.leaseAcquire t k holder ttl).1 key = storedLease t' sh key) ∧
      (sh.leaseAcquire t k holder ttl).1.expiryAt leaseColl key = none := by
  rw [leaseAcquire_eq]
  dsimp only
  split_ifs
  · refine ⟨fun t' => ?_, Shard.expiryAt_writeObject sh _ h⟩
    rw [storedLease, Shard.object_writeObject, if_neg (fun hd => hk hd.2.symm), storedLease]
  · exact ⟨fun _ => rfl, h⟩

/-- An acquire leaves its own record as `evaluate` says. -/
theorem leaseAcquire_self {t : ℕ} {sh : Shard St} {key holder : String} {ttl : ℕ}
    (h : sh.expiryAt leaseColl key = none) :
    (∀ t', storedLease t' (sh.leaseAcquire t key holder ttl).1 key =
      if (evaluate (storedLease t sh key) holder ttl t).granted then
        some (evaluate (storedLease t sh key) holder ttl t).lease
      else storedLease t sh key) ∧
      (sh.leaseAcquire t key holder ttl).1.expiryAt leaseColl key = none := by
  rw [leaseAcquire_eq]
  dsimp only
  split_ifs
  · refine ⟨fun t' => ?_, Shard.expiryAt_writeObject sh _ h⟩
    rw [storedLease, Shard.object_writeObject, if_pos ⟨rfl, rfl⟩, bind_some,
      Lease.fromValue_toValue (evaluate_fits fits_storedLease holder ttl t)]
  · exact ⟨fun t' => storedLease_congr_now h t' t, h⟩

variable (evs : List (ℕ × LeaseEvent))

/-- The attempts on one key form a chain from the record stored at the start. -/
theorem chain_leaseLog :
    ∀ (sh : Shard St) (t₀ : ℕ), sh.expiryAt leaseColl key = none → OffLease evs →
      Chain (storedLease t₀ sh key) (leaseLog key sh evs) := by
  induction evs with
  | nil => intro sh t₀ _ _; exact trivial
  | cons e evs ih =>
    intro sh t₀ hexp hoff
    have hoff' : OffLease evs := fun x hx => hoff x (mem_cons_of_mem _ hx)
    obtain ⟨t, ev⟩ := e
    cases ev with
    | acquire k holder ttl =>
      rw [leaseLog]
      by_cases hk : k = key
      · subst hk
        rw [if_pos rfl]
        obtain ⟨hst, hexp'⟩ := leaseAcquire_self hexp
        refine ⟨storedLease_congr_now hexp t t₀, ?_, ?_, ?_⟩
        · rw [storedLease_congr_now hexp t₀ t, leaseAcquire_eq]
        · dsimp only
          rw [hst t, leaseAcquire_eq, storedLease_congr_now hexp t₀ t]
        · exact ih _ t hexp' hoff'
      · rw [if_neg hk]
        obtain ⟨hst, hexp'⟩ := leaseAcquire_other t holder ttl hk hexp
        rw [← hst t₀]
        exact ih _ t₀ hexp' hoff'
    | other op =>
      rw [leaseLog]
      obtain ⟨hobj, hexp'⟩ := ShardOp.exec_frame t sh op (hoff _ (mem_cons_self ..) op rfl) hexp
      have hst : storedLease t₀ (op.exec t sh) key = storedLease t₀ sh key := by
        rw [storedLease, hobj, storedLease]
      rw [← hst]
      exact ih _ t₀ hexp' hoff'

omit [LawfulStore St] in
theorem leaseLog_append (evs' : List (ℕ × LeaseEvent)) :
    ∀ sh : Shard St, leaseLog key sh (evs ++ evs')
      = leaseLog key sh evs ++ leaseLog key (leaseExec sh evs) evs' := by
  induction evs with
  | nil => intro sh; rfl
  | cons e evs ih =>
    intro sh
    obtain ⟨t, ev⟩ := e
    cases ev with
    | acquire k holder ttl =>
      rw [cons_append, leaseLog, leaseLog, ih]
      split_ifs <;> rfl
    | other op =>
      rw [cons_append, leaseLog, leaseLog, ih]
      rfl

omit [LawfulStore St] in
theorem leaseLog_times :
    ∀ sh : Shard St, ((leaseLog key sh evs).map Attempt.time).Sublist (evs.map Prod.fst) := by
  induction evs with
  | nil => intro sh; exact List.Sublist.refl _
  | cons e evs ih =>
    intro sh
    obtain ⟨t, ev⟩ := e
    cases ev with
    | acquire k holder ttl =>
      rw [leaseLog, map_cons]
      dsimp only
      split_ifs
      · exact (ih _).cons_cons t
      · exact (ih _).cons t
    | other op =>
      rw [leaseLog, map_cons]
      exact (ih _).cons t

/-- One event keeps the lease cell without expiry and does not lower the stored token. -/
theorem LeaseEvent.exec_token {key : String} {t : ℕ} {ev : LeaseEvent} {sh : Shard St}
    (hexp : sh.expiryAt leaseColl key = none) (hoff : OffLease [(t, ev)])
    (hfit : NoOverflow (leaseLog key sh [(t, ev)])) :
    (ev.exec t sh).expiryAt leaseColl key = none ∧ ∀ now l, storedLease now sh key = some l →
      ∃ l', storedLease now (ev.exec t sh) key = some l' ∧ l.token ≤ l'.token := by
  cases ev with
  | acquire k holder ttl =>
    by_cases hk : k = key
    · subst hk
      rw [leaseLog, if_pos rfl] at hfit
      obtain ⟨hst, hexp'⟩ := leaseAcquire_self hexp
      refine ⟨hexp', fun now l hl => ?_⟩
      rw [storedLease_congr_now hexp now t] at hl
      rw [exec, hst now, hl]
      rcases evaluate_cases (some l) holder ttl t with
        ⟨l', hl', _, _, he⟩ | ⟨l', hl', _, _, he⟩ | ⟨l', hl', hlapsed, he⟩ | ⟨hl', _⟩
      · rw [he]; exact ⟨l, rfl, le_rfl⟩
      · obtain rfl := some.inj hl'
        rw [he]; exact ⟨_, rfl, le_rfl⟩
      · obtain rfl := some.inj hl'
        have hnext := (hfit _ (mem_cons_self ..)).2 l hl hlapsed
        rw [he, Nat.mod_eq_of_lt hnext]; exact ⟨_, rfl, Nat.le_succ _⟩
      · exact absurd hl' (some_ne_none l)
    · obtain ⟨hst, hexp'⟩ := leaseAcquire_other t holder ttl hk hexp
      exact ⟨hexp', fun now l hl => ⟨l, (hst now).trans hl, le_rfl⟩⟩
  | other op =>
    obtain ⟨hobj, hexp'⟩ := ShardOp.exec_frame t sh op (hoff _ (mem_cons_self ..) op rfl) hexp
    refine ⟨hexp', fun now l hl => ⟨l, ?_, le_rfl⟩⟩
    rw [← hl, storedLease, exec, hobj, storedLease]

/-- A sequence of events keeps the lease cell without expiry and does not lower the stored
token. -/
theorem leaseExec_token {key : String} (evs : List (ℕ × LeaseEvent)) :
    ∀ sh : Shard St, sh.expiryAt leaseColl key = none → OffLease evs →
      NoOverflow (leaseLog key sh evs) →
      (leaseExec sh evs).expiryAt leaseColl key = none ∧ ∀ now l, storedLease now sh key = some l →
        ∃ l', storedLease now (leaseExec sh evs) key = some l' ∧ l.token ≤ l'.token := by
  induction evs with
  | nil => intro sh hexp _ _; exact ⟨hexp, fun _ l hl => ⟨l, hl, le_rfl⟩⟩
  | cons e evs ih =>
    intro sh hexp hoff hfit
    have hsplit : leaseLog key sh (e :: evs)
        = leaseLog key sh [e] ++ leaseLog key (leaseExec sh [e]) evs := leaseLog_append key [e] evs sh
    rw [hsplit] at hfit
    have hoff1 : OffLease [e] := fun x hx => hoff x (by simp_all)
    obtain ⟨hexp', hstep⟩ := LeaseEvent.exec_token hexp hoff1
      (fun a ha => hfit a (mem_append_left _ ha))
    obtain ⟨hexp'', hrest⟩ := ih _ hexp' (fun x hx => hoff x (mem_cons_of_mem _ hx))
      (fun a ha => hfit a (mem_append_right _ ha))
    refine ⟨hexp'', fun now l hl => ?_⟩
    obtain ⟨l₁, hl₁, hle₁⟩ := hstep now l hl
    obtain ⟨l₂, hl₂, hle₂⟩ := hrest now l₁ hl₁
    exact ⟨l₂, hl₂, hle₁.trans hle₂⟩

/-! ### The guarantees -/

/-- The plain form of exclusion: a grant to one holder denies every other holder until its
expiry. -/
def Exclusive (log : List Attempt) : Prop :=
  ∀ pre a mid b post, log = pre ++ a :: (mid ++ b :: post) → a.outcome.granted = true →
    b.holder ≠ a.holder → b.time < a.outcome.lease.expiresMs → b.outcome.granted = false

/-- Exclusion up to the holder's own renewals: a grant denies every other holder until its expiry
as long as no renewal by the same holder has moved the expiry back in between. -/
def ExclusiveUnlessShortened (log : List Attempt) : Prop :=
  ∀ pre a mid b post, log = pre ++ a :: (mid ++ b :: post) → a.outcome.granted = true →
    b.holder ≠ a.holder → b.time < a.outcome.lease.expiresMs →
    (∀ m ∈ mid, m.outcome.granted = true → m.holder = a.holder →
      a.outcome.lease.expiresMs ≤ m.outcome.lease.expiresMs) → b.outcome.granted = false

/-- A holder may shorten its own lease: `A` renews at 10 with a ttl of 5, and `B` is granted the
lease at 20 although `A`'s first grant ran to 100. -/
theorem not_exclusive_of_short_renewal :
    let evs : List (ℕ × LeaseEvent) := [(0, .acquire leaderKey "A" 100),
      (10, .acquire leaderKey "A" 5), (20, .acquire leaderKey "B" 7)]
    let sh : Shard MemoryStore := ⟨"s0", MemoryStore.new⟩
    sh.expiryAt leaseColl leaderKey = none ∧ OffLease evs ∧
      (evs.map Prod.fst).Pairwise (· ≤ ·) ∧ NoOverflow (leaseLog leaderKey sh evs) ∧
      ¬Exclusive (leaseLog leaderKey sh evs) := by
  intro evs sh
  have hlog : leaseLog leaderKey sh evs =
      [⟨0, "A", 100, none, ⟨true, ⟨"A", 100, 1⟩⟩, some ⟨"A", 100, 1⟩⟩,
       ⟨10, "A", 5, some ⟨"A", 100, 1⟩, ⟨true, ⟨"A", 15, 1⟩⟩, some ⟨"A", 15, 1⟩⟩,
       ⟨20, "B", 7, some ⟨"A", 15, 1⟩, ⟨true, ⟨"B", 27, 2⟩⟩, some ⟨"B", 27, 2⟩⟩] := by
    decide
  refine ⟨by decide, ?_, by decide, ?_, ?_⟩
  · intro e he op hop
    simp only [evs, mem_cons, not_mem_nil, or_false] at he
    rcases he with rfl | rfl | rfl <;> cases hop
  · rw [hlog]
    unfold NoOverflow
    decide
  · intro h
    rw [hlog] at h
    exact absurd (h [] _ [_] _ [] rfl rfl (by decide) (by decide)) (by decide)

theorem fenced_of_chain (h : Chain cur log) (hfit : NoOverflow log) (heq : log = pre ++ a :: (mid ++ b :: post))
    (ha : a.outcome.granted = true) :
    a.outcome.lease.token ≤ b.outcome.lease.token ∧ (b.outcome.lease.token = a.outcome.lease.token →
        b.outcome.lease.holder = a.outcome.lease.holder) := by
  rw [heq] at h
  obtain ⟨_, hafter, hc⟩ := h.drop
  rw [ha, if_pos rfl] at hafter
  rw [hafter] at hc
  exact hc.token_le (fun x hx => hfit x (by rw [heq]; simp [hx])) b (by simp)

/-- In a chain a grant is to the caller of the attempt. -/
theorem Chain.holder_of_granted (h : Chain cur log) (hmem : a ∈ log) (hg : a.outcome.granted = true)
    : a.outcome.lease.holder = a.holder := by
  obtain ⟨pre, post, rfl⟩ := append_of_mem hmem
  obtain ⟨ho, _, _⟩ := h.drop
  rw [ho] at hg ⊢
  exact evaluate_holder hg

/-- Two grants in the order of a chain: the later token is not smaller, and equal only for one
holder. -/
theorem Chain.fenced (h : Chain cur log) (hfit : NoOverflow log) (heq : log = pre ++ a :: (mid ++ b :: post))
    (ha : a.outcome.granted = true) (hb : b.outcome.granted = true) :
    a.outcome.lease.token ≤ b.outcome.lease.token ∧
      (b.outcome.lease.token = a.outcome.lease.token → b.holder = a.holder) := by
  obtain ⟨hle, himp⟩ := fenced_of_chain h hfit heq ha
  refine ⟨hle, fun ht => ?_⟩
  rw [← h.holder_of_granted (by rw [heq]; simp) hb, ← h.holder_of_granted (by rw [heq]; simp) ha]
  exact himp ht

theorem Chain.exclusive (h : Chain cur log) (hsorted : (log.map Attempt.time).Pairwise (· ≤ ·)) :
    ExclusiveUnlessShortened log := by
  intro pre a mid b post heq ha hne hlt hkeep
  have hah := h.holder_of_granted (a := a) (by rw [heq]; simp) ha
  rw [heq] at h hsorted
  obtain ⟨_, hafter, hc⟩ := h.drop
  rw [ha, if_pos rfl] at hafter
  rw [hafter] at hc
  have hmid : ∀ m ∈ mid, m.time ≤ b.time := by
    intro m hm
    rw [map_append, map_cons, map_append, map_cons] at hsorted
    have h1 := (pairwise_append.mp hsorted).2.1
    have h2 := (pairwise_append.mp (pairwise_cons.mp h1).2).2.2
    exact h2 _ (mem_map_of_mem hm) _ (mem_cons_self ..)
  exact hc.denied le_rfl hlt (fun h => hne (h.trans hah)) hmid
    (fun m hm hg hh => hkeep m hm hg (hh.trans hah))

/-- Grants with one token went to one holder. -/
theorem Chain.holder_eq_of_token_eq {cur : Option Lease} {log : List Attempt} (h : Chain cur log)
    (hfit : NoOverflow log) {a b : Attempt} (ha : a ∈ log) (hb : b ∈ log) (hga : a.outcome.granted = true)
    (hgb : b.outcome.granted = true) (ht : a.outcome.lease.token = b.outcome.lease.token) :
    a.holder = b.holder := by
  -- whichever of the two comes first
  obtain ⟨pre, post, heq⟩ := append_of_mem ha
  rw [heq, mem_append, mem_cons] at hb
  rcases hb with hb | rfl | hb
  · obtain ⟨pre', mid, rfl⟩ := append_of_mem hb
    rw [append_assoc, cons_append] at heq
    exact (h.fenced hfit heq hgb hga).2 ht
  · rfl
  · obtain ⟨mid, post', rfl⟩ := append_of_mem hb
    exact ((h.fenced hfit heq hga hgb).2 ht.symm).symm

/-- A denied call leaves the record unchanged and reports exactly it. -/
theorem Chain.reports_of_denied (h : Chain cur log) (ha : a ∈ log) (hd : a.outcome.granted = false)
    : a.before = some a.outcome.lease ∧ a.after = a.before := by
  obtain ⟨pre, post, rfl⟩ := append_of_mem ha
  obtain ⟨ho, hafter, _⟩ := h.drop
  rw [hd, if_neg (by decide)] at hafter
  refine ⟨?_, hafter⟩
  rcases evaluate_cases a.before a.holder a.ttlMs a.time with
    ⟨l, hl, _, _, he⟩ | ⟨l, _, _, _, he⟩ | ⟨l, _, _, he⟩ | ⟨_, he⟩
  · rw [hl, ho, he]
  all_goals
    rw [ho, he] at hd
    exact absurd hd.symm Bool.false_ne_true

/-- The stored token does not decrease along a part of the events. -/
theorem storedLease_token_le {key : String} {sh : Shard St} {e₁ e₂ : List (ℕ × LeaseEvent)}
    (hexp : sh.expiryAt leaseColl key = none) (hoff : OffLease (e₁ ++ e₂))
    (hfit : NoOverflow (leaseLog key sh (e₁ ++ e₂))) {now : ℕ} {l : Lease}
    (hl : storedLease now (leaseExec sh e₁) key = some l) :
    ∃ l', storedLease now (leaseExec sh (e₁ ++ e₂)) key = some l' ∧ l.token ≤ l'.token := by
  rw [leaseLog_append] at hfit
  have hmid := (leaseExec_token e₁ sh hexp (fun x hx => hoff x (mem_append_left _ hx))
    (fun a ha => hfit a (mem_append_left _ ha))).1
  have hend := (leaseExec_token e₂ (leaseExec sh e₁) hmid
    (fun x hx => hoff x (mem_append_right _ hx))
    (fun a ha => hfit a (mem_append_right _ ha))).2 now l hl
  rwa [leaseExec, leaseExec, ← foldl_append] at hend

/-- **Leases on one shard are exclusive and fenced.**  For the attempts on one lease key, in any
order with operations on other collections and at non-decreasing clock readings: (1) a grant
denies every other holder until its expiry, unless its holder shortened it; (2) the stored token
never decreases, grants with one token went to one holder, and a change of holder strictly
increases the token; (3) a denied call leaves the record unchanged and reports exactly it. -/
theorem leaseLog_exclusive_fenced (key : String) (sh : Shard St)
    (evs : List (ℕ × LeaseEvent)) (hexp : sh.expiryAt leaseColl key = none) (hoff : OffLease evs)
    (htime : (evs.map Prod.fst).Pairwise (· ≤ ·)) (hfit : NoOverflow (leaseLog key sh evs)) :
    ExclusiveUnlessShortened (leaseLog key sh evs) ∧
    (∀ e₁ e₂ e₃, evs = e₁ ++ e₂ ++ e₃ → ∀ now l, storedLease now (leaseExec sh e₁) key = some l →
      ∃ l', storedLease now (leaseExec sh (e₁ ++ e₂)) key = some l' ∧ l.token ≤ l'.token) ∧
    (∀ a ∈ leaseLog key sh evs, ∀ b ∈ leaseLog key sh evs, a.outcome.granted = true →
      b.outcome.granted = true → a.outcome.lease.token = b.outcome.lease.token →
      a.holder = b.holder) ∧
    (∀ pre a mid b post, leaseLog key sh evs = pre ++ a :: (mid ++ b :: post) →
      a.outcome.granted = true → b.outcome.granted = true → a.holder ≠ b.holder →
      a.outcome.lease.token < b.outcome.lease.token) ∧
    (∀ a ∈ leaseLog key sh evs, a.outcome.granted = false →
      a.before = some a.outcome.lease ∧ a.after = a.before) := by
  have hchain := chain_leaseLog key evs sh 0 hexp hoff
  refine ⟨hchain.exclusive (htime.sublist (leaseLog_times key evs sh)), ?_, ?_, ?_, ?_⟩
  · intro e₁ e₂ e₃ heq now l hl
    have hlog : leaseLog key sh evs = leaseLog key sh (e₁ ++ e₂) ++
        leaseLog key (leaseExec sh (e₁ ++ e₂)) e₃ := by rw [heq, leaseLog_append]
    exact storedLease_token_le hexp (fun x hx => hoff x (heq ▸ mem_append_left _ hx))
      (fun a ha => hfit a (hlog ▸ mem_append_left _ ha)) hl
  · exact fun a ha b hb hga hgb ht => hchain.holder_eq_of_token_eq hfit ha hb hga hgb ht
  · intro pre a mid b post heq ha hb hne
    obtain ⟨hle, himp⟩ := hchain.fenced hfit heq ha hb
    exact lt_of_le_of_ne hle (fun h => hne (himp h.symm).symm)
  · exact fun a ha hd => hchain.reports_of_denied ha hd

/-- Two holders racing for the lease of a fresh shard, with a write to another collection in
between. -/
theorem leaseLog_exclusive_fenced_race :
    ExclusiveUnlessShortened (leaseLog leaderKey ⟨"s0", MemoryStore.new⟩
      [(0, .acquire leaderKey "A" 100), (5, .other (.writeObject "kv" "x" .null)),
       (20, .acquire leaderKey "B" 7), (200, .acquire leaderKey "B" 7)]) := by
  refine (leaseLog_exclusive_fenced leaderKey ⟨"s0", MemoryStore.new⟩ _ (by decide) ?_ (by decide)
    (by unfold NoOverflow; decide)).1
  intro e he op hop
  simp only [mem_cons, not_mem_nil, or_false] at he
  rcases he with rfl | rfl | rfl | rfl <;> cases hop
  decide

end Stplr
