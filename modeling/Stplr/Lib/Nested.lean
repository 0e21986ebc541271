import Mathlib.Data.Finset.Dedup
import Mathlib.Data.List.AList

/-!
# Two-level maps

`Nested κ β` is a map from `κ` to maps from `κ` to `β`, the shape of a store that keeps one
inner map per namespace.  Only the three-argument lookup `Nested.get` is observable: an inner map
that is absent and one that is empty read the same.  Everything a client needs is the effect of
`insert`, `erase`, `create` and `clear` on `get` and the correspondence of `entries` and `cells` with
`get` (`mem_entries`, `nodup_entries`, `mem_cells`).
-/

namespace Stplr.Lib

open Option
open AList (lookup_eq_none lookup_insert lookup_insert_ne mem_insert)

/-- A map of maps. -/
abbrev Nested (κ β : Type) := AList fun _ : κ => AList fun _ : κ => β

namespace Nested

variable {κ β : Type} [DecidableEq κ]

/-- The value at `(c, k)`. -/
def get (m : Nested κ β) (c k : κ) : Option β := (m.lookup c).bind fun inner => inner.lookup k

/-- Sets `(c, k)`, creating the inner map when it is missing. -/
def insert (m : Nested κ β) (c k : κ) (b : β) : Nested κ β :=
  AList.insert c (((m.lookup c).getD ∅).insert k b) m

/-- Removes `(c, k)`; an absent inner map stays absent. -/
def erase (m : Nested κ β) (c k : κ) : Nested κ β := match m.lookup c with
  | some inner => AList.insert c (inner.erase k) m
  | none => m

/-- Makes sure that there is an inner map at `c`. -/
def create (m : Nested κ β) (c : κ) : Nested κ β := if c ∈ m then m else AList.insert c ∅ m

/-- Empties the inner map at `c`, if there is one. -/
def clear (m : Nested κ β) (c : κ) : Nested κ β := if c ∈ m then AList.insert c ∅ m else m

/-- The pairs of the inner map at `c`. -/
def entries (m : Nested κ β) (c : κ) : List (κ × β) := match m.lookup c with
  | some inner => inner.entries.map fun e => (e.1, e.2)
  | none => []

/-- The places that hold a value. -/
def cells (m : Nested κ β) : Finset (κ × κ) :=
  (m.keys.flatMap fun c => (m.entries c).map fun e => (c, e.1)).toFinset

variable (m : Nested κ β) (c : κ) (k c' : κ) (b : β)

@[simp] theorem get_empty : get (∅ : Nested κ β) c k = none := by
  simp [get]

theorem get_insert (c' k' : κ) :
    (m.insert c k b).get c' k' = if c' = c ∧ k' = k then some b else m.get c' k' := by
  unfold get insert
  by_cases hc : c' = c
  · subst hc
    rw [lookup_insert, bind_some]
    by_cases hk : k' = k
    · subst hk
      rw [lookup_insert, if_pos ⟨rfl, rfl⟩]
    · rw [lookup_insert_ne hk, if_neg (fun h => hk h.2)]
      cases m.lookup c' <;> simp
  · rw [lookup_insert_ne hc, if_neg (fun h => hc h.1)]

theorem get_erase (k c' k' : κ) :
    (m.erase c k).get c' k' = if c' = c ∧ k' = k then none else m.get c' k' := by
  unfold erase
  split
  · rename_i inner hin
    unfold get
    by_cases hc : c' = c
    · subst hc
      rw [lookup_insert, bind_some, hin, bind_some]
      by_cases hk : k' = k
      · subst hk
        rw [AList.lookup_erase, if_pos ⟨rfl, rfl⟩]
      · rw [AList.lookup_erase_ne hk, if_neg (fun h => hk h.2)]
    · rw [lookup_insert_ne hc, if_neg (fun h => hc h.1)]
  · rename_i hnone
    split_ifs with h
    · rw [h.1, get, hnone, bind_none]
    · rfl

theorem get_create (k' : κ) : (m.create c).get c' k' = m.get c' k' := by
  unfold create
  split_ifs with h
  · rfl
  · unfold get
    by_cases hc : c' = c
    · rw [hc, lookup_insert, lookup_eq_none.mpr h]
      simp
    · rw [lookup_insert_ne hc]

theorem get_clear (k' : κ) : (m.clear c).get c' k' = if c' = c then none else m.get c' k' := by
  unfold clear
  split_ifs with hmem hc hc
  · rw [hc, get, lookup_insert]
    rfl
  · rw [get, lookup_insert_ne hc]
    rfl
  · rw [hc, get, lookup_eq_none.mpr hmem]
    rfl
  · rfl

@[simp] theorem mem_clear : c' ∈ m.clear c ↔ c' ∈ m := by
  unfold clear
  split_ifs with hmem
  · rw [mem_insert]
    exact ⟨fun hc => hc.elim (fun he => he ▸ hmem) id, .inr⟩
  · rfl

/-- The whole inner map goes. -/
theorem get_erase_outer (k' : κ) :
    get (AList.erase c m) c' k' = if c' = c then none else m.get c' k' := by
  split_ifs with hc
  · rw [hc, get, AList.lookup_erase]
    rfl
  · rw [get, AList.lookup_erase_ne hc]
    rfl

@[simp] theorem mem_create : c' ∈ m.create c ↔ c' = c ∨ c' ∈ m := by
  unfold create
  split_ifs with h
  · exact ⟨.inr, fun hc => hc.elim (fun he => he ▸ h) id⟩
  · exact mem_insert m

@[simp] theorem mem_insert : c' ∈ m.insert c k b ↔ c' = c ∨ c' ∈ m := AList.mem_insert m

@[simp] theorem mem_erase : c' ∈ m.erase c k ↔ c' ∈ m := by
  unfold erase
  split
  · rename_i inner hin
    have hmem : c ∈ m := AList.lookup_isSome.mp (by rw [hin]; rfl)
    rw [AList.mem_insert]
    exact ⟨fun hc => hc.elim (fun he => he ▸ hmem) id, .inr⟩
  · rfl

theorem mem_of_get {m : Nested κ β} {c k : κ} {b : β} (h : m.get c k = some b) : c ∈ m := by
  unfold get at h
  obtain ⟨inner, hin, -⟩ := bind_eq_some_iff.mp h
  exact AList.lookup_isSome.mp (by rw [hin]; rfl)

theorem mem_entries : (k, b) ∈ m.entries c ↔ m.get c k = some b := by
  unfold entries get
  cases hm : m.lookup c with
  | none => simp
  | some inner =>
    simp only [bind_some, List.mem_map, Prod.mk.injEq]
    rw [← mem_def, AList.mem_lookup_iff]
    constructor
    · rintro ⟨⟨k', b'⟩, he, rfl, rfl⟩
      exact he
    · intro he
      exact ⟨⟨k, b⟩, he, rfl, rfl⟩

theorem get_eq_none {m : Nested κ β} {c : κ} (h : m.entries c = []) (k : κ) : m.get c k = none := by
  refine eq_none_iff_forall_ne_some.mpr fun b hb => ?_
  have hmem := (mem_entries m c k b).mpr hb
  rw [h] at hmem
  exact absurd hmem List.not_mem_nil

theorem mem_cells : (c, k) ∈ m.cells ↔ (m.get c k).isSome := by
  simp only [cells, List.mem_toFinset, List.mem_flatMap, List.mem_map, Prod.mk.injEq,
    isSome_iff_exists]
  constructor
  · rintro ⟨c', -, e, he, rfl, rfl⟩
    exact ⟨e.2, (mem_entries ..).mp he⟩
  · rintro ⟨b, hb⟩
    exact ⟨c, AList.mem_keys.mp (mem_of_get hb), (k, b), (mem_entries ..).mpr hb, rfl, rfl⟩

theorem nodup_entries : ((m.entries c).map Prod.fst).Nodup := by
  unfold entries
  cases m.lookup c with
  | none => simp
  | some inner =>
    rw [List.map_map]
    exact inner.nodupKeys

theorem entries_of_notMem {m : Nested κ β} {c : κ} (h : c ∉ m) : m.entries c = [] := by
  unfold entries
  rw [lookup_eq_none.mpr h]

end Nested

end Stplr.Lib
