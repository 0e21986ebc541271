import Stplr.Equiv.CallCells
import Stplr.System

/-!
# What a trace says about a cell

`lastValue` is the value of a cell after the writes that have completed in a trace.  A read is
judged by its own interval: nothing was pending on its cell when it was invoked (`Settled`) and no
write of the cell was invoked or returned before it did (`Untouched`).  `Answers` says that every
such read of a trace returned the last value.
-/

namespace Stplr

open Lib List

/-- The call writes the cell. -/
def Call.WritesTo (call : Call) (c k : String) : Prop :=
  call.op.isWrite = true ∧ call.coll = c ∧ call.key = k

instance (call : Call) (c k : String) : Decidable (call.WritesTo c k) :=
  inferInstanceAs (Decidable (_ ∧ _))

def Event.call : Event → Call
  | .inv _ call | .ret _ call _ => call

/-- What an event makes of the value of a cell: a write takes effect when it returns. -/
def Event.apply (c k : String) (v : Option Value) : Event → Option Value
  | .inv _ _ => v
  | .ret _ call _ => if call.coll = c ∧ call.key = k then call.op.result v else v

/-- The value of a cell after the completed calls of a trace, starting from `val`. -/
def lastValue (val : String → String → Option Value) (trace : List Event) (c k : String) :
    Option Value :=
  trace.foldl (Event.apply c k) (val c k)

/-- Every write of the cell that is invoked in the trace returns in it. -/
def Settled (trace : List Event) (c k : String) : Prop :=
  ∀ i call, Event.inv i call ∈ trace → call.WritesTo c k → ∃ r, Event.ret i call r ∈ trace

/-- No write of the cell is invoked or returns. -/
def Untouched (trace : List Event) (c k : String) : Prop := ∀ e ∈ trace, ¬e.call.WritesTo c k

/-- Every read that overlaps no write of its cell returned the last value. -/
def Answers (val : String → String → Option Value) (trace : List Event) : Prop :=
  ∀ pre mid post i call r, trace = pre ++ .inv i call :: (mid ++ .ret i call r :: post) →
    call.op = .get → Settled pre call.coll call.key → Untouched mid call.coll call.key →
    r = .value (lastValue val pre call.coll call.key)

variable {val : String → String → Option Value} {trace : List Event} {c k : String}

theorem lastValue_append (t t' : List Event) :
    lastValue val (t ++ t') c k = t'.foldl (Event.apply c k) (lastValue val t c k) :=
  foldl_append

theorem lastValue_concat_inv (i : ℕ) (call : Call) :
    lastValue val (trace ++ [.inv i call]) c k = lastValue val trace c k := by
  rw [lastValue_append]
  rfl

variable {e : Event} {t : CallState} {id i : ℕ}

/-- Only writes of the cell change its value. -/
theorem Event.apply_of_not_writesTo (h : ¬e.call.WritesTo c k) (v : Option Value) :
    e.apply c k v = v := by
  cases e with
  | inv i call => rfl
  | ret i call r =>
    change (if call.coll = c ∧ call.key = k then call.op.result v else v) = v
    split_ifs with hck
    · have hget : call.op = .get := by
        cases hop : call.op <;> first | rfl | exact absurd ⟨by rw [Event.call, hop]; rfl, hck⟩ h
      rw [hget]
      rfl
    · rfl

theorem Untouched.foldl_apply {mid : List Event} (h : Untouched mid c k) (v : Option Value) :
    mid.foldl (Event.apply c k) v = v := by
  induction mid generalizing v with
  | nil => rfl
  | cons e mid ih =>
    rw [foldl_cons, Event.apply_of_not_writesTo (h e (mem_cons_self ..))]
    exact ih (fun e he => h e (mem_cons_of_mem _ he)) v

/-- Where a given event of a longer trace is. -/
theorem append_cons_eq_concat {α : Type} {l pre post : List α} {e x : α}
    (h : l ++ [e] = pre ++ x :: post) :
    (post = [] ∧ l = pre ∧ e = x) ∨ ∃ post', post = post' ++ [e] ∧ l = pre ++ x :: post' := by
  rcases eq_nil_or_concat' post with rfl | ⟨post', y, rfl⟩
  · obtain ⟨rfl, hx⟩ := append_inj' h rfl
    exact .inl ⟨rfl, rfl, (cons.inj hx).1⟩
  · rw [← cons_append, ← append_assoc] at h
    obtain ⟨rfl, hx⟩ := append_inj' h rfl
    obtain rfl := (cons.inj hx).1
    exact .inr ⟨post', rfl, rfl⟩

theorem Answers.nil : Answers val [] := by
  intro pre mid post i call r h
  exact absurd h.symm (by simp)

/-- Any event but the return of a read keeps the answers right. -/
theorem Answers.concat (h : Answers val trace)
    (he : ∀ i call r, e = .ret i call r → call.op = .get → ∀ pre mid,
      trace = pre ++ .inv i call :: mid → Settled pre call.coll call.key →
      Untouched mid call.coll call.key → r = .value (lastValue val pre call.coll call.key)) :
    Answers val (trace ++ [e]) := by
  intro pre mid post i call r heq hget hset hun
  rw [← cons_append, ← append_assoc] at heq
  rcases append_cons_eq_concat heq with ⟨-, htr, rfl⟩ | ⟨post', -, htr⟩
  · exact he i call r rfl hget pre mid htr hset hun
  · rw [append_assoc, cons_append] at htr
    exact h pre mid post' i call r htr hget hset hun

/-! ### The calls and the trace -/

/-- The call writes the cell and has not returned. -/
def CallState.PendingOn (t : CallState) (c k : String) : Prop :=
  t.call.WritesTo c k ∧ t.pc.isReturned = false

instance (t : CallState) (c k : String) : Decidable (t.PendingOn c k) :=
  inferInstanceAs (Decidable (_ ∧ _))

/-- The call is in the gate of the bucket. -/
def CallState.inGateOf (b : ℕ) (t : CallState) : Bool :=
  t.pc.inGate && decide (bucketOf t.call.key = b)

theorem CallState.retEvents_returned {r : Reply} (h : t.pc = .returned r) :
    t.retEvents id = [.ret id t.call r] := by
  rw [retEvents, h]

theorem CallState.retEvents_of_not (h : t.pc.isReturned = false) : t.retEvents id = [] := by
  unfold retEvents
  cases hp : t.pc <;> simp_all [CallPc.isReturned]

/-- The trace and the threads tell the same story. -/
structure LogInv (calls : List CallState) (trace : List Event) : Prop where
  invoked : ∀ (i : ℕ) (t : CallState), calls[i]? = some t → .inv i t.call ∈ trace
  known : ∀ i call, .inv i call ∈ trace → ∃ t, calls[i]? = some t ∧ t.call = call
  returned : ∀ i call r, .ret i call r ∈ trace →
    ∃ t, calls[i]? = some t ∧ t.call = call ∧ t.pc = .returned r

/-- A read that is about to return has its answer. -/
def Reads (val : String → String → Option Value) (calls : List CallState) (trace : List Event) :
    Prop :=
  ∀ (i : ℕ) (t : CallState) (rep : Reply), calls[i]? = some t → t.call.op = .get → t.pc = .returning rep →
    ∀ pre mid, trace = pre ++ .inv i t.call :: mid → Settled pre t.call.coll t.call.key →
      Untouched mid t.call.coll t.call.key →
      rep = .value (lastValue val pre t.call.coll t.call.key)

theorem getElem?_concat_cases {α : Type} {l : List α} {a u : α} (h : (l ++ [a])[i]? = some u) :
    l[i]? = some u ∨ (i = l.length ∧ u = a) := by
  rw [getElem?_append] at h
  split_ifs at h with hlt
  · exact .inl h
  · obtain ⟨h0, hu⟩ := List.getElem?_eq_some_iff.mp h
    have hi : i - l.length = 0 := Nat.lt_one_iff.mp h0
    refine .inr ⟨by omega, ?_⟩
    rw [← hu]
    simp [hi]

theorem getElem?_concat_of_some {α : Type} {l : List α} {u : α} (h : l[i]? = some u) (a : α) :
    (l ++ [a])[i]? = some u := by
  rwa [List.getElem?_append_left (List.getElem?_eq_some_iff.mp h).1]

namespace LogInv

variable {calls : List CallState} {trace : List Event}

/-- A read that overlaps no write finds none pending. -/
theorem not_pendingOn (h : LogInv calls trace) {pre mid : List Event}
    (htr : trace = pre ++ e :: mid) (he : ¬e.call.WritesTo c k) (hset : Settled pre c k)
    (hun : Untouched mid c k) (i : ℕ) (t : CallState) (ht : calls[i]? = some t) :
    ¬t.PendingOn c k := by
  rintro ⟨hw, hr⟩
  have hinv := h.invoked i t ht
  rw [htr, mem_append, mem_cons] at hinv
  rcases hinv with hpre | rfl | hmid
  · obtain ⟨r, hret⟩ := hset i t.call hpre hw
    obtain ⟨u, hu, -, hpc⟩ := h.returned i t.call r (htr ▸ mem_append_left _ hret)
    obtain rfl := Option.some.inj (ht.symm.trans hu)
    rw [hpc] at hr
    cases hr
  · exact he hw
  · exact hun _ hmid hw

/-- A pending call has not returned in the trace. -/
theorem not_returned (h : LogInv calls trace) (ht : calls[i]? = some t)
    (hr : t.pc.isReturned = false) (r : Reply) : .ret i t.call r ∉ trace := by
  intro hret
  obtain ⟨u, hu, -, hpc⟩ := h.returned i t.call r hret
  obtain rfl := Option.some.inj (ht.symm.trans hu)
  rw [hpc] at hr
  cases hr

theorem invoke (h : LogInv calls trace) (call : Call) :
    LogInv (calls ++ [⟨call, .waiting⟩]) (trace ++ [.inv calls.length call]) where
  invoked := by
    intro i t ht
    rcases getElem?_concat_cases ht with ht | ⟨rfl, rfl⟩
    · exact mem_append_left _ (h.invoked i t ht)
    · exact mem_append_right _ (mem_singleton.mpr rfl)
  known := by
    intro i call' hm
    rcases mem_append.mp hm with hm | hm
    · obtain ⟨t, ht, hc⟩ := h.known i call' hm
      exact ⟨t, getElem?_concat_of_some ht _, hc⟩
    · obtain ⟨rfl, rfl⟩ := Event.inv.inj (mem_singleton.mp hm)
      exact ⟨⟨call', .waiting⟩, by simp, rfl⟩
  returned := by
    intro i call' r hm
    rcases mem_append.mp hm with hm | hm
    · obtain ⟨t, ht, hc⟩ := h.returned i call' r hm
      exact ⟨t, getElem?_concat_of_some ht _, hc⟩
    · cases mem_singleton.mp hm

/-- A step of a call, with its return event if it returns. -/
theorem step (h : LogInv calls trace) {id : ℕ} {t t' : CallState} (ht : calls[id]? = some t)
    (hr : t.pc.isReturned = false) (hcall : t'.call = t.call) :
    LogInv (calls.set id t') (trace ++ t'.retEvents id) where
  invoked := by
    intro i u hu
    refine mem_append_left _ ?_
    rcases getElem?_set_cases hu with ⟨rfl, rfl⟩ | ⟨-, hu⟩
    · rw [hcall]
      exact h.invoked i t ht
    · exact h.invoked i u hu
  known := by
    intro i call hm
    have hm : .inv i call ∈ trace := by
      rcases mem_append.mp hm with hm | hm
      · exact hm
      · unfold CallState.retEvents at hm
        split at hm
        · cases mem_singleton.mp hm
        · cases hm
    obtain ⟨u, hu, hc⟩ := h.known i call hm
    by_cases hid : id = i
    · subst hid
      obtain rfl := Option.some.inj (ht.symm.trans hu)
      exact ⟨t', by simp [(List.getElem?_eq_some_iff.mp ht).1], hcall.trans hc⟩
    · exact ⟨u, by rwa [List.getElem?_set_ne hid], hc⟩
  returned := by
    intro i call r hm
    rcases mem_append.mp hm with hm | hm
    · obtain ⟨u, hu, hc, hpc⟩ := h.returned i call r hm
      have hid : id ≠ i := by
        rintro rfl
        obtain rfl := Option.some.inj (ht.symm.trans hu)
        rw [hpc] at hr
        cases hr
      exact ⟨u, by rwa [getElem?_set_ne hid], hc, hpc⟩
    · unfold CallState.retEvents at hm
      split at hm
      case h_1 reply hp =>
        obtain ⟨rfl, rfl, rfl⟩ := Event.ret.inj (mem_singleton.mp hm)
        exact ⟨t', by simp [(List.getElem?_eq_some_iff.mp ht).1], rfl, hp⟩
      case h_2 => cases hm

end LogInv

end Stplr
