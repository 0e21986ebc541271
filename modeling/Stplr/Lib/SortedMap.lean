import Mathlib.Data.List.Induction
import Mathlib.Data.List.Sort
import Mathlib.Order.Basic

/-!
# Ordered key/value tables

`SortedMap κ β` is a table iterated in ascending key order, as a B-tree database is.  The entries
are strictly ascending by construction, so a key occurs once and the last entry has the greatest
key.  Everything is stated through membership in `entries`.

`group` collects the values of equal keys, in order, as repeated `entry(k).or_default().push(v)`
does; `mem_group` says which entries result.
-/

namespace Stplr.Lib

open List

/-- A table with strictly ascending keys. -/
structure SortedMap (κ β : Type*) [LinearOrder κ] where
  entries : List (κ × β)
  sorted : entries.Pairwise fun a b => a.1 < b.1

namespace SortedMap

variable {κ β : Type*} [LinearOrder κ]

/-- The empty table. -/
def empty : SortedMap κ β := ⟨[], List.Pairwise.nil⟩

/-- Inserts or overwrites an entry. -/
def put (m : SortedMap κ β) (k : κ) (b : β) : SortedMap κ β where
  entries := m.entries.filter (fun e => e.1 < k) ++ (k, b) :: m.entries.filter (fun e => k < e.1)
  sorted := by
    rw [List.pairwise_append, List.pairwise_cons]
    refine ⟨m.sorted.filter _, ⟨?_, m.sorted.filter _⟩, ?_⟩
    · intro e he
      simpa using (List.mem_filter.mp he).2
    · intro e he e' he'
      have h1 : e.1 < k := by simpa using (List.mem_filter.mp he).2
      rcases List.mem_cons.mp he' with rfl | he'
      · exact h1
      · have h2 : k < e'.1 := by simpa using (List.mem_filter.mp he').2
        exact h1.trans h2

/-- Removes every entry whose key is listed. -/
def eraseAll (m : SortedMap κ β) (ks : List κ) : SortedMap κ β where
  entries := m.entries.filter fun e => e.1 ∉ ks
  sorted := m.sorted.filter _

/-- The greatest key. -/
def lastKey (m : SortedMap κ β) : Option κ := m.entries.getLast?.map Prod.fst

variable {k : κ} {b : β} {e : κ × β} {m : SortedMap κ β} {l : List (κ × β)}

theorem mem_put : e ∈ (m.put k b).entries ↔ e = (k, b) ∨ (e.1 ≠ k ∧ e ∈ m.entries) := by
  simp only [put, mem_append, mem_cons, mem_filter, decide_eq_true_eq]
  constructor
  · rintro (⟨he, hlt⟩ | rfl | ⟨he, hlt⟩)
    · exact .inr ⟨hlt.ne, he⟩
    · exact .inl rfl
    · exact .inr ⟨hlt.ne', he⟩
  · rintro (rfl | ⟨hne, he⟩)
    · exact .inr (.inl rfl)
    · rcases lt_or_gt_of_ne hne with hlt | hlt
      · exact .inl ⟨he, hlt⟩
      · exact .inr (.inr ⟨he, hlt⟩)

/-- A key greater than all others is put at the end. -/
theorem entries_put_of_lt (h : ∀ e ∈ m.entries, e.1 < k) (b : β) :
    (m.put k b).entries = m.entries ++ [(k, b)] := by
  have hleft : m.entries.filter (fun e => e.1 < k) = m.entries :=
    filter_eq_self.mpr fun e he => decide_eq_true (h e he)
  have hright : m.entries.filter (fun e => k < e.1) = [] :=
    filter_eq_nil_iff.mpr fun e he => by simpa using (h e he).le
  simp only [put, hleft, hright]

theorem mem_eraseAll {ks : List κ} : e ∈ (m.eraseAll ks).entries ↔ e ∈ m.entries ∧ e.1 ∉ ks := by
  simp [eraseAll]

/-- The last key bounds every key, and is one. -/
theorem lastKey_spec (h : m.lastKey = some k) :
    (∃ b, (k, b) ∈ m.entries) ∧ ∀ e ∈ m.entries, e.1 ≤ k := by
  obtain ⟨e, he, rfl⟩ := Option.map_eq_some_iff.mp h
  obtain ⟨init, hinit⟩ := getLast?_eq_some_iff.mp he
  refine ⟨⟨e.2, by rw [hinit]; simp⟩, ?_⟩
  intro e' he'
  have hs := m.sorted
  rw [hinit] at hs he'
  rcases mem_append.mp he' with h1 | h1
  · exact ((pairwise_append.mp hs).2.2 e' h1 e (by simp)).le
  · rw [mem_singleton.mp h1]

theorem lastKey_eq_none : m.lastKey = none ↔ m.entries = [] := by
  simp [lastKey]

theorem nodup_keys (m : SortedMap κ β) : (m.entries.map Prod.fst).Nodup :=
  pairwise_map.mpr (m.sorted.imp fun h => h.ne)

/-- A key is stored with one value. -/
theorem eq_of_mem {b' : β} (h : (k, b) ∈ m.entries) (h' : (k, b') ∈ m.entries) : b = b' :=
  (Prod.mk.inj (inj_on_of_nodup_map m.nodup_keys h h' rfl)).2

theorem lookup_eq_some : m.entries.lookup k = some b ↔ (k, b) ∈ m.entries := by
  rw [lookup_eq_some_iff]
  constructor
  · rintro ⟨l, l', hl, -⟩
    rw [hl]
    simp
  · intro h
    obtain ⟨l, l', hl⟩ := append_of_mem h
    refine ⟨l, l', hl, fun p hp => ?_⟩
    have hsorted := m.sorted
    rw [hl, pairwise_append] at hsorted
    simpa using (hsorted.2.2 p hp (k, b) (mem_cons_self ..)).ne'

/-- What is found after an entry has been put. -/
theorem lookup_put (m : SortedMap κ β) (k : κ) (b : β) (k' : κ) :
    (m.put k b).entries.lookup k' = if k' = k then some b else m.entries.lookup k' := by
  ext b'
  rw [lookup_eq_some, mem_put]
  split_ifs with hk
  · simp [hk, eq_comm]
  · simp [hk, lookup_eq_some]

/-! ### Grouping -/

/-- The value stored under a key. -/
def find? (m : SortedMap κ β) (k : κ) : Option β := (m.entries.find? fun e => e.1 = k).map Prod.snd

theorem find?_eq_some : m.find? k = some b ↔ (k, b) ∈ m.entries := by
  rw [find?, Option.map_eq_some_iff]
  constructor
  · rintro ⟨⟨k', b'⟩, hf, rfl⟩
    have hk : k' = k := by simpa using find?_some hf
    rw [← hk]
    exact mem_of_find?_eq_some hf
  · intro h
    cases hf : m.entries.find? fun e => e.1 = k with
    | none => exact absurd (find?_eq_none.mp hf _ h) (by simp)
    | some e =>
      obtain ⟨k', b'⟩ := e
      have hk : k' = k := by simpa using find?_some hf
      have he := mem_of_find?_eq_some hf
      rw [hk] at he
      exact ⟨_, rfl, eq_of_mem he h⟩

/-- What is found after an entry has been put. -/
theorem find?_put (m : SortedMap κ β) (k : κ) (b : β) (k' : κ) :
    (m.put k b).find? k' = if k' = k then some b else m.find? k' := by
  ext b'
  rw [find?_eq_some, mem_put]
  split_ifs with hk
  · simp [hk, eq_comm]
  · simp [hk, find?_eq_some]

/-- Appends a value to those stored under a key. -/
def push (m : SortedMap κ (List β)) (k : κ) (b : β) : SortedMap κ (List β) :=
  m.put k ((m.find? k).getD [] ++ [b])

/-- The values of equal keys collected in order. -/
def group (l : List (κ × β)) : SortedMap κ (List β) := l.foldl (fun m e => m.push e.1 e.2) empty

/-- The values of one key, in order. -/
def valuesOf (l : List (κ × β)) (k : κ) : List β := (l.filter fun e => e.1 = k).map Prod.snd

theorem mem_valuesOf : b ∈ valuesOf l k ↔ (k, b) ∈ l := by
  simp only [valuesOf, mem_map, mem_filter, decide_eq_true_eq]
  constructor
  · rintro ⟨⟨k', b'⟩, ⟨hm, rfl⟩, rfl⟩
    exact hm
  · intro h
    exact ⟨(k, b), ⟨h, rfl⟩, rfl⟩

/-- The entries of a grouped list: each key that occurs, with all of its values. -/
theorem mem_group {vs : List β} : (k, vs) ∈ (group l).entries ↔ vs = valuesOf l k ∧ vs ≠ [] := by
  induction l using reverseRecOn generalizing k vs with
  | nil =>
    simp only [group, foldl_nil, empty, not_mem_nil, valuesOf, filter_nil,
      map_nil, false_iff, not_and, not_not]
    exact id
  | append_singleton l e ih =>
    have hfind : ((group l).find? e.1).getD [] = valuesOf l e.1 := by
      cases hf : (group l).find? e.1 with
      | some vs => exact (ih.mp (find?_eq_some.mp hf)).1
      | none =>
        by_contra hne
        have := find?_eq_some.mpr (ih.mpr ⟨rfl, fun h => hne h.symm⟩)
        rw [hf] at this
        exact absurd this (Option.some_ne_none _).symm
    have hgroup : group (l ++ [e]) = (group l).push e.1 e.2 := by
      rw [group, foldl_append]
      rfl
    have hvals : valuesOf (l ++ [e]) k = valuesOf l k ++ if e.1 = k then [e.2] else [] := by
      rw [valuesOf, filter_append, map_append, valuesOf]
      by_cases hk : e.1 = k <;> simp [hk]
    rw [hgroup, push, hfind, mem_put, hvals, ih]
    by_cases hk : e.1 = k
    · subst hk
      rw [if_pos rfl, Prod.mk.injEq]
      constructor
      · rintro (⟨_, rfl⟩ | ⟨hne, _⟩)
        · exact ⟨rfl, by simp⟩
        · exact absurd rfl hne
      · rintro ⟨rfl, _⟩
        exact .inl ⟨rfl, rfl⟩
    · rw [if_neg hk, append_nil, Prod.mk.injEq]
      constructor
      · rintro (⟨rfl, _⟩ | ⟨_, h⟩)
        · exact absurd rfl hk
        · exact h
      · intro h
        exact .inr ⟨fun h' => hk h'.symm, h⟩

theorem exists_mem_group (h : (k, b) ∈ l) : ∃ vs, (k, vs) ∈ (group l).entries ∧ b ∈ vs := by
  have hv := mem_valuesOf.mpr h
  exact ⟨_, mem_group.mpr ⟨rfl, ne_nil_of_mem hv⟩, hv⟩

theorem getD_find?_group (l : List (κ × β)) (k : κ) :
    ((group l).find? k).getD [] = valuesOf l k := by
  cases hf : (group l).find? k with
  | some vs => exact (mem_group.mp (find?_eq_some.mp hf)).1
  | none =>
    by_contra hne
    have hsome := find?_eq_some.mpr (mem_group.mpr ⟨rfl, fun h => hne h.symm⟩)
    rw [hf] at hsome
    cases hsome

end SortedMap

end Stplr.Lib
