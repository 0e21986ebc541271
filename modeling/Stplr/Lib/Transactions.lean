import Mathlib.Data.List.Basic

/-!
# Operations that commit several transactions

A transaction is a partial function on the state, `none` when it is not committed.  An operation is
a list of transactions (`runTxns`); a crash keeps those that have been committed, which are the
first ones.

`AtomicFrom f ts s` says that wherever an operation is cut, `f` reads as before it or as after it.
It holds when at most one transaction changes `f` (`AtomicFrom.of_keeps`, `AtomicFrom.of_once`).
When two parts of an observation are changed one after the other, it holds iff one of them stays as
it is (`atomicFrom_pair_iff`).
-/

namespace Stplr.Lib

open Option

variable {σ α β : Type*}

abbrev Txn (σ : Type*) := σ → Option σ

/-- The transactions one after the other. -/
def runTxns : List (Txn σ) → σ → Option σ
  | [], s => some s
  | t :: ts, s => (t s).bind (runTxns ts)

theorem runTxns_append (ts ts' : List (Txn σ)) : ∀ s : σ,
    runTxns (ts ++ ts') s = (runTxns ts s).bind (runTxns ts') := by
  induction ts with
  | nil => exact fun _ => rfl
  | cons t ts ih =>
    intro s
    rw [List.cons_append, runTxns, runTxns, bind_assoc]
    exact bind_congr fun s₁ _ => ih s₁

/-- The transaction does not change what `f` reads. -/
def Txn.Keeps (f : σ → α) (t : Txn σ) : Prop := ∀ s s', t s = some s' → f s' = f s

/-- Wherever the operation is cut, `f` reads as before it or as after it. -/
def AtomicFrom (f : σ → α) (ts : List (Txn σ)) (s : σ) : Prop :=
  ∀ s', runTxns ts s = some s' → ∀ n s₁, runTxns (ts.take n) s = some s₁ → f s₁ = f s ∨ f s₁ = f s'

variable {f : σ → α} {g : σ → β} {ts ts' : List (Txn σ)} {t : Txn σ} {s s' : σ}

/-- A relation that every transaction keeps to holds from the start to the end. -/
theorem runTxns_rel {R : σ → σ → Prop} (hrefl : ∀ s, R s s)
    (htrans : ∀ {s s₁ s'}, R s s₁ → R s₁ s' → R s s')
    (h : ∀ t ∈ ts, ∀ s s', t s = some s' → R s s') (hrun : runTxns ts s = some s') : R s s' := by
  induction ts generalizing s with
  | nil =>
    rw [← some.inj hrun]
    exact hrefl s
  | cons t ts ih =>
    obtain ⟨s₁, hs₁, hrun⟩ := bind_eq_some_iff.mp hrun
    exact htrans (h t (List.mem_cons_self ..) s s₁ hs₁)
      (ih (fun t' ht' => h t' (List.mem_cons_of_mem _ ht')) hrun)

theorem runTxns_keeps (h : ∀ t ∈ ts, Txn.Keeps f t) (hrun : runTxns ts s = some s') :
    f s' = f s :=
  runTxns_rel (R := fun s s' => f s' = f s) (fun _ => rfl) (fun h₁ h₂ => h₂.trans h₁) h hrun

theorem AtomicFrom.of_keeps (h : ∀ t ∈ ts, Txn.Keeps f t) : AtomicFrom f ts s :=
  fun _ _ _ _ hcut => .inl (runTxns_keeps (fun t ht => h t (List.mem_of_mem_take ht)) hcut)

variable {s₁ : σ}

/-- A cut of two operations one after the other is in the first one, or in the second one. -/
theorem runTxns_take_append {n : ℕ} (h : runTxns ((ts ++ ts').take n) s = some s₁) :
    (∃ m, runTxns (ts.take m) s = some s₁) ∨
      ∃ m s₂, runTxns ts s = some s₂ ∧ runTxns (ts'.take m) s₂ = some s₁ := by
  rw [List.take_append, runTxns_append] at h
  by_cases hn : n ≤ ts.length
  · obtain ⟨s₂, hs₂, h⟩ := bind_eq_some_iff.mp h
    rw [Nat.sub_eq_zero_of_le hn, List.take_zero] at h
    exact .inl ⟨n, hs₂.trans h⟩
  · rw [List.take_of_length_le (Nat.le_of_not_le hn)] at h
    obtain ⟨s₂, hs₂, h⟩ := bind_eq_some_iff.mp h
    exact .inr ⟨_, s₂, hs₂, h⟩

/-- One transaction changes `f`. -/
theorem AtomicFrom.of_once (ts : List (Txn σ)) (h : ∀ t ∈ ts, Txn.Keeps f t)
    (h' : ∀ t ∈ ts', Txn.Keeps f t) :
    AtomicFrom f (ts ++ t :: ts') s := by
  intro s' hrun n s₁ hcut
  rcases runTxns_take_append hcut with ⟨m, hcut⟩ | ⟨m, s₂, hs₂, hcut⟩
  · exact .inl (runTxns_keeps (fun t ht => h t (List.mem_of_mem_take ht)) hcut)
  · cases m with
    | zero =>
      obtain rfl := some.inj hcut
      exact .inl (runTxns_keeps h hs₂)
    | succ m =>
      rw [runTxns_append, hs₂, bind_some] at hrun
      obtain ⟨s₃, hs₃, hrun⟩ := bind_eq_some_iff.mp hrun
      rw [List.take_succ_cons, runTxns, hs₃, bind_some] at hcut
      refine .inr ?_
      rw [runTxns_keeps h' hrun, runTxns_keeps (fun t ht => h' t (List.mem_of_mem_take ht)) hcut]

/-- A first transaction that does not change `f`. -/
theorem atomicFrom_cons_iff (ht : Txn.Keeps f t) (hs : t s = some s₁) :
    AtomicFrom f (t :: ts) s ↔ AtomicFrom f ts s₁ := by
  have hrun : ∀ ts, runTxns (t :: ts) s = runTxns ts s₁ := by
    intro ts
    rw [runTxns, hs, bind_some]
  have hf : f s₁ = f s := ht s s₁ hs
  constructor
  · intro h s' hs' n s₂ hcut
    rw [hf]
    exact h s' ((hrun ts).trans hs') (n + 1) s₂ ((hrun _).trans hcut)
  · intro h s' hs' n s₂ hcut
    cases n with
    | zero =>
      obtain rfl := some.inj hcut
      exact .inl rfl
    | succ n =>
      rw [← hf]
      exact h s' ((hrun ts).symm.trans hs') n s₂ ((hrun _).symm.trans hcut)

/-- First `f` is changed and then `g`: between the two, `f` is new and `g` is old. -/
theorem atomicFrom_pair_iff (hf : ∀ s, AtomicFrom f ts s) (hfg : ∀ t ∈ ts, Txn.Keeps g t)
    (hg : ∀ s, AtomicFrom g ts' s) (hgf : ∀ t ∈ ts', Txn.Keeps f t)
    (hrun : runTxns (ts ++ ts') s = some s') :
    AtomicFrom (fun s => (f s, g s)) (ts ++ ts') s ↔ f s' = f s ∨ g s' = g s := by
  obtain ⟨s₂, hs₂, hrest⟩ := bind_eq_some_iff.mp ((runTxns_append ts ts' s).symm.trans hrun)
  have hf₂ : f s' = f s₂ := runTxns_keeps hgf hrest
  have hg₂ : g s₂ = g s := runTxns_keeps hfg hs₂
  constructor
  · intro h
    have hcut : runTxns ((ts ++ ts').take ts.length) s = some s₂ := by
      rw [List.take_left]
      exact hs₂
    rcases h s' hrun _ _ hcut with heq | heq
    · exact .inl (hf₂.trans (Prod.mk.inj heq).1)
    · exact .inr ((Prod.mk.inj heq).2.symm.trans hg₂)
  · intro h s'' hrun' n s₁ hcut
    obtain rfl := some.inj (hrun.symm.trans hrun')
    simp only [Prod.mk.injEq]
    rcases runTxns_take_append hcut with ⟨m, hcut⟩ | ⟨m, s₃, hs₃, hcut⟩
    · have hgs : g s₁ = g s := runTxns_keeps (fun t ht => hfg t (List.mem_of_mem_take ht)) hcut
      have hfs := hf s s₂ hs₂ m s₁ hcut
      grind
    · obtain rfl := some.inj (hs₂.symm.trans hs₃)
      have hfs : f s₁ = f s₂ := runTxns_keeps (fun t ht => hgf t (List.mem_of_mem_take ht)) hcut
      have hgs := hg s₂ s' hrest m s₁ hcut
      grind

end Stplr.Lib
