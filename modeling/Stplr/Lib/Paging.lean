import Mathlib.Data.Finset.Sort
import Mathlib.Data.List.Sort
import Mathlib.Order.Basic

/-!
# Reading an ascending list page by page

A page holds the first `limit` keys after a cursor (`page`), and its own cursor is its last key if
it is full (`cursor`).  `follow` feeds the cursors back until there is none; `follow_eq` says that it
then has read every key once, in order.  When one key stands for the end, a page that ends with this key
stops the reader (`follow_of_cutAt`, `follow_of_not_cutAt`).

`gatherPages` is a loop that reads pages and keeps the keys that are wanted, up to a limit of its
own.  Its pages may change a state on the way; `gatherPages_eq` gives the closed form as long as an
invariant of that state fixes what a page holds, and `gatherPages_counted_le` bounds the pages read.

The first `n` elements of a set are found in any subset that holds them (`take_sort_eq`).
-/

namespace Stplr.Lib

open List

variable {α : Type*} [LinearOrder α]

/-- The keys greater than the cursor. -/
def above (after : Option α) (l : List α) : List α := l.filter fun k => after.all (· < k)

/-- The first `limit` keys after the cursor. -/
def page (limit : ℕ) (l : List α) (after : Option α) : List α := (above after l).take limit

/-- The last key of a full page. -/
def cursor (limit : ℕ) (p : List α) : Option α := if limit ≤ p.length then p.getLast? else none

@[simp] theorem above_none (l : List α) : above none l = l := by
  rw [above, filter_eq_self]
  intro k _
  rfl

variable {k : α} {after : Option α} {l : List α} {limit : ℕ} {c : α} {n : ℕ} {x : α}

theorem mem_above : k ∈ above after l ↔ k ∈ l ∧ ∀ a ∈ after, a < k := by
  simp [above, Option.all_eq_true]

omit [LinearOrder α] in
/-- There is no cursor just when the page is not full. -/
theorem cursor_eq_none_iff (hlimit : 0 < limit) {p : List α} :
    cursor limit p = none ↔ p.length < limit := by
  unfold cursor
  split_ifs with hfull
  · rw [getLast?_eq_none_iff, ← length_eq_zero_iff]
    omega
  · exact iff_of_true rfl (Nat.lt_of_not_le hfull)

theorem le_getLast? (h : l.Pairwise (· < ·)) (hc : l.getLast? = some c) (hk : k ∈ l) : k ≤ c := by
  obtain ⟨init, rfl⟩ := getLast?_eq_some_iff.mp hc
  rw [pairwise_append] at h
  rcases mem_append.mp hk with hk | hk
  · exact (h.2.2 k hk c (mem_singleton_self c)).le
  · exact (mem_singleton.mp hk).le

/-- The keys after the last key of a page are those that the page left out. -/
theorem above_getLast? (h : l.Pairwise (· < ·)) (hc : ((above after l).take n).getLast? = some c) :
    above (some c) l = (above after l).drop n := by
  have hsorted : (above after l).Pairwise (· < ·) := h.filter _
  have hmem : c ∈ (above after l).take n := mem_of_getLast? hc
  have hafter : ∀ a ∈ after, a < c := (mem_above.mp (mem_of_mem_take hmem)).2
  -- a key after `c` is after the old cursor as well
  have hsplit : above (some c) l = (above after l).filter fun k => c < k := by
    rw [above, above, filter_filter]
    refine filter_congr fun k _ => ?_
    by_cases hk : c < k
    · have hall : after.all (· < k) = true :=
        (Option.all_eq_true ..).mpr fun a ha => decide_eq_true ((hafter a ha).trans hk)
      simp [hk, hall]
    · simp [hk]
  rw [hsplit]
  nth_rewrite 1 [← take_append_drop n (above after l)]
  rw [← take_append_drop n (above after l), pairwise_append] at hsorted
  rw [filter_append, filter_eq_nil_iff.mpr, nil_append, filter_eq_self]
  · intro k hk
    exact decide_eq_true (hsorted.2.2 c hmem k hk)
  · intro k hk
    rw [decide_eq_true_eq, not_lt]
    exact le_getLast? hsorted.1 hc hk

/-! ### The first elements of a set -/

/-- An element is among the first `n` if fewer than `n` are smaller. -/
theorem mem_take_iff (h : l.Pairwise (· < ·)) : ∀ {n : ℕ},
    x ∈ l.take n ↔ x ∈ l ∧ (l.filter (· < x)).length < n := by
  induction l with
  | nil => simp
  | cons a l ih =>
    obtain ⟨ha, hl⟩ := pairwise_cons.mp h
    intro n
    cases n with
    | zero => simp
    | succ n =>
      rw [take_succ_cons, mem_cons, mem_cons, ih hl]
      constructor
      · rintro (rfl | ⟨hx, hlt⟩)
        · have hnone : (x :: l).filter (· < x) = [] := by
            rw [filter_eq_nil_iff]
            intro y hy
            rcases mem_cons.mp hy with rfl | hy
            · simp
            · simpa using (ha y hy).le
          exact ⟨.inl rfl, by rw [hnone]; exact Nat.succ_pos n⟩
        · refine ⟨.inr hx, ?_⟩
          rw [filter_cons_of_pos (by simpa using ha x hx), length_cons]
          omega
      · rintro ⟨rfl | hx, hlt⟩
        · exact .inl rfl
        · rw [filter_cons_of_pos (by simpa using ha x hx), length_cons] at hlt
          exact .inr ⟨hx, by omega⟩

omit [LinearOrder α] in
/-- Leaving elements out changes the first `n` only if one of them is left out. -/
theorem take_filter_eq_take_iff {p : α → Bool} : ∀ {n : ℕ},
    (l.filter p).take n = l.take n ↔ ∀ x ∈ l.take n, p x = true := by
  induction l with
  | nil => simp
  | cons a l ih =>
    intro n
    cases n with
    | zero => simp
    | succ n =>
      by_cases ha : p a = true
      · rw [filter_cons_of_pos ha, take_succ_cons, take_succ_cons, cons_inj_right, ih]
        simp [ha]
      · rw [filter_cons_of_neg ha, take_succ_cons]
        refine iff_of_false (fun heq => ha ?_) fun h => ha (h a (mem_cons_self ..))
        have hmem : a ∈ (l.filter p).take (n + 1) := heq ▸ mem_cons_self ..
        exact (mem_filter.mp (mem_of_mem_take hmem)).2

/-- A list without duplicates is strictly ascending once it is sorted. -/
theorem pairwise_lt_insertionSort (h : l.Nodup) : (l.insertionSort (· ≤ ·)).Pairwise (· < ·) := by
  have hle : (l.insertionSort (· ≤ ·)).Pairwise (· ≤ ·) := pairwise_insertionSort _ _
  have hnd : (l.insertionSort (· ≤ ·)).Nodup := (perm_insertionSort _ _).nodup_iff.mpr h
  exact (hle.and hnd).imp fun h => lt_of_le_of_ne h.1 h.2

theorem pairwise_lt_sort (s : Finset α) : (s.sort (· ≤ ·)).Pairwise (· < ·) :=
  ((s.pairwise_sort (· ≤ ·)).and (s.sort_nodup _)).imp fun h => lt_of_le_of_ne h.1 h.2

theorem length_filter_sort (s : Finset α) (x : α) :
    ((s.sort (· ≤ ·)).filter (· < x)).length = (s.filter (· < x)).card := by
  rw [Finset.card_def, Finset.filter_val, ← s.sort_eq (· ≤ ·), Multiset.filter_coe,
    Multiset.coe_card]

theorem mem_take_sort {s : Finset α} :
    x ∈ (s.sort (· ≤ ·)).take n ↔ x ∈ s ∧ (s.filter (· < x)).card < n := by
  rw [mem_take_iff (pairwise_lt_sort s), Finset.mem_sort, length_filter_sort]

/-- When `n` elements are smaller than `x`, so are the first `n`. -/
theorem lt_of_mem_take (h : l.Pairwise (· < ·)) (hn : n ≤ (l.filter (· < x)).length) {y : α}
    (hy : y ∈ l.take n) : y < x := by
  by_contra hxy
  have hle : (l.filter (· < x)).length ≤ (l.filter (· < y)).length := by
    refine (monotone_filter_right l fun z hz => ?_).length_le
    simp only [decide_eq_true_eq] at hz ⊢
    exact lt_of_lt_of_le hz (not_lt.mp hxy)
  have hlt := ((mem_take_iff h).mp hy).2
  omega

/-- An element of the list is among the first `n`, or these are `n` smaller ones. -/
theorem mem_take_or_smaller (h : l.Pairwise (· < ·)) (hx : x ∈ l) (n : ℕ) :
    x ∈ l.take n ∨ n ≤ ((l.take n).toFinset.filter (· < x)).card := by
  by_cases hfew : (l.filter (· < x)).length < n
  · exact .inl ((mem_take_iff h).mpr ⟨hx, hfew⟩)
  · refine .inr ?_
    have hall : (l.take n).toFinset.filter (· < x) = (l.take n).toFinset :=
      Finset.filter_true_of_mem fun y hy =>
        lt_of_mem_take h (not_lt.mp hfew) (mem_toFinset.mp hy)
    have hnd : (l.take n).Nodup := (h.imp ne_of_lt).sublist (take_sublist ..)
    have hlen := length_filter_le (· < x) l
    rw [hall, toFinset_card_of_nodup hnd, length_take]
    omega

/-- A subset with the first `n` elements has the same first `n` elements. -/
theorem take_sort_eq {s t : Finset α} (hsub : s ⊆ t) (hfirst : ∀ x ∈ (t.sort (· ≤ ·)).take n, x ∈ s)
    : (s.sort (· ≤ ·)).take n = (t.sort (· ≤ ·)).take n := by
  refine List.Pairwise.eq_of_mem_iff ((pairwise_lt_sort s).sublist (take_sublist ..))
    ((pairwise_lt_sort t).sublist (take_sublist ..)) fun x => ?_
  constructor
  · intro hx
    obtain ⟨hs, hcard⟩ := mem_take_sort.mp hx
    have hxt : x ∈ t.sort (· ≤ ·) := (Finset.mem_sort _).mpr (hsub hs)
    refine (mem_take_or_smaller (pairwise_lt_sort t) hxt n).resolve_right fun hmany => ?_
    -- the first `n` elements of `t` would be smaller than `x`, and they are in `s`
    have hle : (((t.sort (· ≤ ·)).take n).toFinset.filter (· < x)).card ≤ (s.filter (· < x)).card :=
      Finset.card_le_card (Finset.filter_subset_filter _ fun y hy =>
        hfirst y (mem_toFinset.mp hy))
    omega
  · intro hx
    obtain ⟨-, hcard⟩ := mem_take_sort.mp hx
    refine mem_take_sort.mpr ⟨hfirst x hx, lt_of_le_of_lt (Finset.card_le_card ?_) hcard⟩
    exact Finset.filter_subset_filter _ hsub

/-! ### Walking along a sorted list -/

section Walk

variable {β : Type*} {r : β → β → Prop} {l : List β} {p : β → Bool}

/-- Elements that come first can be taken by a filter. -/
theorem takeWhile_eq_filter (h : l.Pairwise r)
    (hp : ∀ a ∈ l, ∀ b ∈ l, r a b → p b = true → p a = true) : l.takeWhile p = l.filter p := by
  induction l with
  | nil => rfl
  | cons a l ih =>
    obtain ⟨ha, hl⟩ := pairwise_cons.mp h
    have hrest := ih hl fun x hx y hy =>
      hp x (mem_cons_of_mem a hx) y (mem_cons_of_mem a hy)
    cases hpa : p a with
    | true => rw [takeWhile_cons_of_pos hpa, filter_cons_of_pos hpa, hrest]
    | false =>
      have hno : ∀ b ∈ l, ¬p b = true := fun b hb hpb => by
        have := hp a (mem_cons_self ..) b (mem_cons_of_mem a hb) (ha b hb) hpb
        rw [hpa] at this
        cases this
      rw [takeWhile_cons_of_neg (by simp [hpa]), filter_cons_of_neg (by simp [hpa]),
        filter_eq_nil_iff.mpr hno]

/-- ... and so can those that come after them. -/
theorem dropWhile_eq_filter (h : l.Pairwise r)
    (hp : ∀ a ∈ l, ∀ b ∈ l, r a b → p b = true → p a = true) :
    l.dropWhile p = l.filter fun a => !p a := by
  induction l with
  | nil => rfl
  | cons a l ih =>
    obtain ⟨ha, hl⟩ := pairwise_cons.mp h
    cases hpa : p a with
    | true =>
      rw [dropWhile_cons_of_pos hpa, filter_cons_of_neg (by simp [hpa])]
      exact ih hl fun x hx y hy => hp x (mem_cons_of_mem a hx) y (mem_cons_of_mem a hy)
    | false =>
      rw [dropWhile_cons_of_neg (by simp [hpa]), eq_comm, filter_eq_self]
      intro b hb
      rcases mem_cons.mp hb with rfl | hb'
      · simp [hpa]
      · cases hpb : p b with
        | false => rfl
        | true =>
          have := hp a (mem_cons_self ..) b hb (ha b hb') hpb
          rw [hpa] at this
          cases this

end Walk

/-! ### Following the cursors -/

/-- Reads pages until one has no cursor, at most as many as given. -/
def follow (next : Option α → List α × Option α) : ℕ → Option α → Option (List α)
  | 0, _ => none
  | pages + 1, after =>
    match next after with
    | (p, none) => some p
    | (p, some c) => (follow next pages (some c)).map (p ++ ·)

/-- **Every key once, in order**: the pages end, and put together they are the whole list. -/
theorem follow_eq (h : l.Pairwise (· < ·)) (hlimit : 0 < limit)
    {next : Option α → List α × Option α}
    (hnext : ∀ after, next after = (page limit l after, cursor limit (page limit l after))) :
    ∀ (pages : ℕ) (after : Option α), (above after l).length < pages →
      follow next pages after = some (above after l) := by
  intro pages
  induction pages with
  | zero => exact fun after hlt => absurd hlt (Nat.not_lt_zero _)
  | succ pages ih =>
    intro after hlt
    have hlen : (page limit l after).length = min limit (above after l).length := length_take
    rw [follow, hnext]
    by_cases hfull : limit ≤ (page limit l after).length
    · obtain ⟨c, hc⟩ : ∃ c, (page limit l after).getLast? = some c := by
        cases hl : (page limit l after).getLast? with
        | some c => exact ⟨c, rfl⟩
        | none =>
          rw [getLast?_eq_none_iff.mp hl] at hfull
          exact absurd hfull (Nat.not_le.mpr hlimit)
      have hrest : above (some c) l = (above after l).drop limit := above_getLast? h hc
      rw [cursor, if_pos hfull, hc]
      dsimp only
      rw [ih (some c) (by rw [hrest, length_drop]; omega), hrest, Option.map_some]
      exact congrArg some (take_append_drop limit _)
    · rw [cursor, if_neg hfull]
      exact congrArg some (take_of_length_le (by omega))

/-! ### A key that stands for the end

When a cursor is written as a key and one key, `stop`, stands for no cursor, a full page that ends with
`stop` looks like the last one. -/

section Sentinel

variable {l : List α} {limit : ℕ} {stop : α} {next : Option α → List α × Option α}

/-- A full page ends with `stop`, and there are more keys. -/
def CutAt (limit : ℕ) (stop : α) (l : List α) (m : ℕ) : Prop :=
  l[m]? = some stop ∧ (m + 1) % limit = 0 ∧ m + 1 < l.length

variable (h : l.Pairwise (· < ·)) (hlimit : 0 < limit)
  (hnext : ∀ after, after ≠ some stop → next after
    = (page limit l after, (cursor limit (page limit l after)).filter (· ≠ stop)))
include h hlimit hnext

/-- One page of such a reader: either it is the last one, or the rest is read from its last key. -/
theorem follow_sentinel_succ (pages : ℕ) (hafter : after ≠ some stop) :
    ((above after l).length < limit ∨ (above after l)[limit - 1]? = some stop) ∧
      follow next (pages + 1) after = some ((above after l).take limit) ∨
    ∃ c, (above after l)[limit - 1]? = some c ∧ c ≠ stop ∧
      above (some c) l = (above after l).drop limit ∧
      follow next (pages + 1) after
        = (follow next pages (some c)).map ((above after l).take limit ++ ·) := by
  have hlen : (page limit l after).length = min limit (above after l).length := length_take
  rw [follow, hnext after hafter]
  by_cases hfull : limit ≤ (page limit l after).length
  · have hlast : (page limit l after).getLast? = (above after l)[limit - 1]? := by
      rw [page, getLast?_take, if_neg (by omega), getElem?_eq_getElem (by omega)]
      rfl
    rw [cursor, if_pos hfull]
    cases hc : (above after l)[limit - 1]? with
    | none =>
      rw [getElem?_eq_none_iff] at hc
      omega
    | some c =>
      rw [hc] at hlast
      rw [hlast]
      by_cases hstop : c = stop
      · rw [Option.filter_some_neg (by simp [hstop])]
        exact .inl ⟨.inr (congrArg some hstop), rfl⟩
      · rw [Option.filter_some_pos (by simp [hstop])]
        exact .inr ⟨c, rfl, hstop, above_getLast? h hlast, rfl⟩
  · rw [cursor, if_neg hfull]
    exact .inl ⟨.inl (by omega), rfl⟩

theorem follow_of_not_cutAt :
    ∀ (pages : ℕ) (after : Option α), after ≠ some stop → (above after l).length < pages →
      (∀ m, ¬CutAt limit stop (above after l) m) → follow next pages after = some (above after l) := by
  intro pages
  induction pages with
  | zero => exact fun after _ hlt => absurd hlt (Nat.not_lt_zero _)
  | succ pages ih =>
    intro after hafter hlt hcut
    obtain ⟨hend, heq⟩ | ⟨c, hc, hne, hrest, heq⟩ := follow_sentinel_succ h hlimit hnext pages hafter
    · rw [heq, take_of_length_le]
      obtain hshort | hstop := hend
      · exact hshort.le
      · by_contra hmore
        have hsub : limit - 1 + 1 = limit := Nat.sub_add_cancel hlimit
        exact hcut (limit - 1) ⟨hstop, by rw [hsub, Nat.mod_self], by omega⟩
    · have hlong : limit - 1 < (above after l).length := (List.getElem?_eq_some_iff.mp hc).1
      have hc' : some c ≠ some stop := fun h => hne (Option.some.inj h)
      have hshort : (above (some c) l).length < pages := by
        rw [hrest, length_drop]
        omega
      rw [heq, ih (some c) hc' hshort, hrest, Option.map_some, take_append_drop]
      rintro m ⟨hm, hmod, hlt'⟩
      rw [hrest, getElem?_drop] at hm
      rw [hrest, length_drop] at hlt'
      refine hcut (limit + m) ⟨hm, ?_, by omega⟩
      rw [Nat.add_assoc, Nat.add_mod_left, hmod]

theorem follow_of_cutAt :
    ∀ (pages : ℕ) (after : Option α) (m : ℕ), after ≠ some stop → (above after l).length < pages →
      CutAt limit stop (above after l) m →
      follow next pages after = some ((above after l).take (m + 1)) := by
  intro pages
  induction pages with
  | zero => exact fun after m _ hlt => absurd hlt (Nat.not_lt_zero _)
  | succ pages ih =>
    rintro after m hafter hlt ⟨hm, hmod, hmore⟩
    have hnd : (above after l).Nodup := (h.filter _).imp fun h => h.ne
    have hle : limit ≤ m + 1 := Nat.le_of_dvd (Nat.succ_pos m) (Nat.dvd_of_mod_eq_zero hmod)
    obtain ⟨hend, heq⟩ | ⟨c, hc, hne, hrest, heq⟩ := follow_sentinel_succ h hlimit hnext pages hafter
    · -- the page ends with `stop`, which is in one place only
      have hstop := hend.resolve_left (by omega)
      have hidx : limit - 1 = m := (getElem?_inj (by omega) hnd).mp (hstop.trans hm.symm)
      rw [heq, ← hidx, Nat.sub_add_cancel hlimit]
    · have hidx : m + 1 ≠ limit := by
        rintro rfl
        rw [Nat.add_sub_cancel] at hc
        exact hne (Option.some.inj (hc.symm.trans hm))
      obtain ⟨m', rfl⟩ : ∃ m', m = limit + m' := ⟨m - limit, by omega⟩
      have hc' : some c ≠ some stop := fun h => hne (Option.some.inj h)
      have hshort : (above (some c) l).length < pages := by
        rw [hrest, length_drop]
        omega
      have hcut : CutAt limit stop (above (some c) l) m' := by
        refine ⟨?_, ?_, ?_⟩
        · rw [hrest, getElem?_drop, hm]
        · rwa [Nat.add_assoc, Nat.add_mod_left] at hmod
        · rw [hrest, length_drop]
          omega
      rw [heq, ih (some c) m' hc' hshort hcut, hrest, Option.map_some, Nat.add_assoc]
      exact congrArg some take_add.symm

end Sentinel

/-! ### Keeping the keys that are wanted -/

/-- One page of the loop: wanted keys are kept until there are `limit` of them, and the flag says
that there are. -/
def keep (want : α → Bool) (limit : ℕ) : List α → List α → List α × Bool
  | [], out => (out, false)
  | k :: ks, out =>
    if want k then
      if limit ≤ (out ++ [k]).length then (out ++ [k], true) else keep want limit ks (out ++ [k])
    else keep want limit ks out

/-- The loop over the pages, which ends at the limit or with the first page that is not full. -/
def gatherPages {σ : Type*} (next : σ → Option α → σ × List α) (chunk : ℕ) (want : α → Bool)
    (limit : ℕ) : ℕ → σ → Option α → List α → σ × List α
  | 0, s, _, out => (s, out)
  | pages + 1, s, after, out =>
    let r := next s after
    if r.2 = [] then (r.1, out)
    else
      let kept := keep want limit r.2 out
      if kept.2 then (r.1, kept.1)
      else if r.2.length = chunk then gatherPages next chunk want limit pages r.1 r.2.getLast? kept.1
      else (r.1, kept.1)

omit [LinearOrder α] in
/-- The limit is looked at after a key is kept, so `0` acts like `1`. -/
theorem keep_eq (want : α → Bool) (limit : ℕ) (ks : List α) : ∀ out : List α,
    out.length < max limit 1 →
    keep want limit ks out = ((out ++ ks.filter want).take (max limit 1),
      decide (max limit 1 ≤ (out ++ ks.filter want).length)) := by
  induction ks with
  | nil =>
    intro out hout
    rw [keep, filter_nil, append_nil, take_of_length_le hout.le,
      decide_eq_false (Nat.not_le.mpr hout)]
  | cons k ks ih =>
    intro out hout
    rw [keep]
    by_cases hk : want k = true
    · have happ : out ++ (k :: ks).filter want = (out ++ [k]) ++ ks.filter want := by
        rw [filter_cons_of_pos hk, append_assoc, singleton_append]
      have hlen : (out ++ [k]).length = out.length + 1 := by simp
      rw [if_pos hk, happ]
      by_cases hfull : limit ≤ (out ++ [k]).length
      · have hmax : max limit 1 = (out ++ [k]).length := by omega
        rw [if_pos hfull, hmax, take_left, decide_eq_true]
        exact (prefix_append ..).length_le
      · rw [if_neg hfull]
        exact ih (out ++ [k]) (by omega)
    · rw [if_neg hk, filter_cons_of_neg hk]
      exact ih out hout

/-- The pages, with a count of those that were read. -/
def counted {σ : Type*} (next : σ → Option α → σ × List α) (s : σ × ℕ) (after : Option α) :
    (σ × ℕ) × List α :=
  (((next s.1 after).1, s.2 + 1), (next s.1 after).2)

variable {chunk : ℕ}

section Gather

variable {σ : Type*} {I : σ → Prop} {next : σ → Option α → σ × List α} (h : l.Pairwise (· < ·))
  (hchunk : 0 < chunk)
  (hnext : ∀ s after, I s → I (next s after).1 ∧ (next s after).2 = page chunk l after)
include h hchunk hnext

/-- **Closed form**: the wanted keys after the cursor, up to the limit. -/
theorem gatherPages_eq (want : α → Bool) (limit : ℕ) :
    ∀ (pages : ℕ) (s : σ) (after : Option α) (out : List α), I s →
    (above after l).length < pages → out.length < max limit 1 →
    I (gatherPages next chunk want limit pages s after out).1 ∧
      (gatherPages next chunk want limit pages s after out).2
        = (out ++ (above after l).filter want).take (max limit 1) := by
  intro pages
  induction pages with
  | zero => exact fun s after out _ hlt => absurd hlt (Nat.not_lt_zero _)
  | succ pages ih =>
    intro s after out hs hlt hout
    obtain ⟨hs', hpage⟩ := hnext s after hs
    have hlen : (page chunk l after).length = min chunk (above after l).length := length_take
    rw [gatherPages]
    dsimp only
    rw [hpage, keep_eq want limit _ out hout]
    by_cases hnil : page chunk l after = []
    · have habove : above after l = [] := by
        rw [hnil, length_nil] at hlen
        exact eq_nil_of_length_eq_zero (by omega)
      rw [if_pos hnil, habove, filter_nil, append_nil, take_of_length_le hout.le]
      exact ⟨hs', rfl⟩
    rw [if_neg hnil]
    dsimp only
    -- the keys of this page and those after it
    have hsplit : (above after l).filter want
        = (page chunk l after).filter want ++ ((above after l).drop chunk).filter want := by
      rw [page, ← filter_append, take_append_drop]
    by_cases hreached : max limit 1 ≤ (out ++ (page chunk l after).filter want).length
    · rw [if_pos (decide_eq_true hreached), hsplit, ← append_assoc,
        take_append_of_le_length hreached]
      exact ⟨hs', rfl⟩
    · rw [if_neg (by simpa using hreached)]
      have hkept : (out ++ (page chunk l after).filter want).take (max limit 1)
          = out ++ (page chunk l after).filter want := take_of_length_le (by omega)
      rw [hkept]
      by_cases hfull : (page chunk l after).length = chunk
      · obtain ⟨c, hc⟩ : ∃ c, (page chunk l after).getLast? = some c :=
          ⟨_, getLast?_eq_some_getLast hnil⟩
        have hrest : above (some c) l = (above after l).drop chunk := above_getLast? h hc
        rw [if_pos hfull, hc, hsplit, ← append_assoc, ← hrest]
        refine ih _ (some c) _ hs' ?_ (by omega)
        rw [hrest, length_drop]
        omega
      · have hdrop : (above after l).drop chunk = [] := drop_of_length_le (by omega)
        rw [if_neg hfull, hsplit, hdrop, filter_nil, append_nil, hkept]
        exact ⟨hs', rfl⟩

/-- **The loop ends**: however long it may run, every page but the last one is full. -/
theorem gatherPages_counted_le (want : α → Bool) (limit : ℕ) :
    ∀ (pages : ℕ) (s : σ) (n : ℕ) (after : Option α) (out : List α), I s →
    (gatherPages (counted next) chunk want limit pages (s, n) after out).1.2
      ≤ n + 1 + (above after l).length / chunk := by
  intro pages
  induction pages with
  | zero =>
    intro s n after out _
    exact (Nat.le_succ n).trans (Nat.le_add_right ..)
  | succ pages ih =>
    intro s n after out hs
    obtain ⟨hs', hpage⟩ := hnext s after hs
    rw [gatherPages, counted]
    dsimp only
    rw [hpage]
    have hlen : (page chunk l after).length = min chunk (above after l).length := length_take
    split_ifs with hnil _ hfull
    · exact Nat.le_add_right ..
    · exact Nat.le_add_right ..
    · obtain ⟨c, hc⟩ : ∃ c, (page chunk l after).getLast? = some c :=
        ⟨_, getLast?_eq_some_getLast hnil⟩
      have hrest : above (some c) l = (above after l).drop chunk := above_getLast? h hc
      have hdiv := Nat.div_eq_sub_div hchunk (show chunk ≤ (above after l).length by omega)
      have hread := ih (next s after).1 (n + 1) (some c)
        (keep want limit (page chunk l after) out).1 hs'
      rw [hrest, length_drop] at hread
      rw [hc]
      omega
    · exact Nat.le_add_right ..

end Gather

omit [LinearOrder α] in
/-- The loop over pages that are the same. -/
theorem gatherPages_congr {σ τ : Type*} {R : σ → τ → Prop} {next : σ → Option α → σ × List α}
    {next' : τ → Option α → τ × List α} (hnext : ∀ s t after, R s t →
      R (next s after).1 (next' t after).1 ∧ (next s after).2 = (next' t after).2)
    (want : α → Bool) (limit : ℕ) : ∀ (pages : ℕ) (s : σ) (t : τ) (after : Option α) (out : List α),
    R s t → (gatherPages next chunk want limit pages s after out).2
      = (gatherPages next' chunk want limit pages t after out).2 := by
  intro pages
  induction pages with
  | zero => exact fun _ _ _ _ _ => rfl
  | succ pages ih =>
    intro s t after out h
    obtain ⟨hstate, hpage⟩ := hnext s t after h
    rw [gatherPages, gatherPages]
    dsimp only
    rw [hpage]
    split_ifs
    · rfl
    · rfl
    · exact ih _ _ _ _ hstate
    · rfl

end Stplr.Lib
