import Stplr.Equiv.Form
import Stplr.Lib.Paging
import Stplr.SeqKey

/-!
# Sequence keys sort numerically

Texts of the same number of digits compare like their numbers (`utf8Bytes_lt_iff`), so a database with
padded keys is a table of numbers (`exists_sortedMap`), as `Ingest` and `ChangeFeed` keep it.  The loops
over the texts find what theirs find (`collectKeys_eq`), which is all that they look for
(`sequence_keys_sort`).
-/

namespace Stplr

open Lib List

/-! ### Digits -/

theorem ofDigitChars_digit (c : Char) (cs : List Char) : Nat.ofDigitChars 10 (c :: cs) 0
    = 10 ^ cs.length * (c.toNat - 48) + Nat.ofDigitChars 10 cs 0 := by
  rw [Nat.ofDigitChars_cons, Nat.ofDigitChars_eq_ofDigitChars_zero, Nat.mul_zero, Nat.zero_add]
  rfl

theorem ofDigitChars_lt {cs : List Char} (h : cs.all Char.isDigit = true) :
    Nat.ofDigitChars 10 cs 0 < 10 ^ cs.length := by
  induction cs with
  | nil => decide
  | cons c cs ih =>
    simp only [all_cons, Bool.and_eq_true] at h
    obtain ⟨-, hlow, hhigh⟩ := utf8EncodeChar_digit h.1
    have hrest := ih h.2
    have hdigit : 10 ^ cs.length * (c.toNat - 48) ≤ 10 ^ cs.length * 9 :=
      Nat.mul_le_mul_left _ (by omega)
    rw [ofDigitChars_digit, length_cons, pow_succ]
    omega

/-- **Texts of equal length compare like their numbers.**  The first digit that differs decides on both
sides. -/
theorem utf8Bytes_lt_iff {cs ds : List Char} (hlen : cs.length = ds.length)
    (hcs : cs.all Char.isDigit = true) (hds : ds.all Char.isDigit = true) :
    cs.flatMap String.utf8EncodeChar < ds.flatMap String.utf8EncodeChar ↔
      Nat.ofDigitChars 10 cs 0 < Nat.ofDigitChars 10 ds 0 := by
  induction cs generalizing ds with
  | nil =>
    obtain rfl := length_eq_zero_iff.mp hlen.symm
    simp
  | cons c cs ih =>
    cases ds with
    | nil => cases hlen
    | cons d ds =>
      have hlen' : cs.length = ds.length := Nat.succ.inj hlen
      simp only [all_cons, Bool.and_eq_true] at hcs hds
      obtain ⟨hc, hclow, hchigh⟩ := utf8EncodeChar_digit hcs.1
      obtain ⟨hd, hdlow, hdhigh⟩ := utf8EncodeChar_digit hds.1
      have hsmall := ofDigitChars_lt hcs.2
      have hsmall' := ofDigitChars_lt hds.2
      rw [← hlen'] at hsmall'
      have hbyte : UInt8.ofNat c.toNat < UInt8.ofNat d.toNat ↔ c.toNat < d.toNat := by
        rw [UInt8.lt_iff_toNat_lt, UInt8.toNat_ofNat', UInt8.toNat_ofNat']
        omega
      have hbyte' : UInt8.ofNat c.toNat = UInt8.ofNat d.toNat ↔ c.toNat = d.toNat := by
        rw [← UInt8.toNat_inj, UInt8.toNat_ofNat', UInt8.toNat_ofNat']
        omega
      rw [flatMap_cons, flatMap_cons, hc, hd, singleton_append, singleton_append, cons_lt_cons_iff,
        ih hlen' hcs.2 hds.2, hbyte, hbyte', ofDigitChars_digit, ofDigitChars_digit, ← hlen']
      obtain hlt | heq | hgt := Nat.lt_trichotomy c.toNat d.toNat
      · have hle : 10 ^ cs.length * (c.toNat - 48 + 1) ≤ 10 ^ cs.length * (d.toNat - 48) :=
          Nat.mul_le_mul_left _ (by omega)
        rw [Nat.mul_succ] at hle
        omega
      · rw [heq]
        omega
      · have hle : 10 ^ cs.length * (d.toNat - 48 + 1) ≤ 10 ^ cs.length * (c.toNat - 48) :=
          Nat.mul_le_mul_left _ (by omega)
        rw [Nat.mul_succ] at hle
        omega

/-! ### Padded keys -/

variable (n : ℕ)

theorem toList_paddedKey :
    (paddedKey n).toList = replicate (20 - (Nat.toDigits 10 n).length) '0' ++ Nat.toDigits 10 n := by
  rw [paddedKey, String.toList_ofList, leftpad]

theorem all_isDigit_paddedKey : (paddedKey n).toList.all Char.isDigit = true := by
  rw [toList_paddedKey, all_append, all_isDigit_toDigits, Bool.and_true, all_eq_true]
  intro c hc
  rw [eq_of_mem_replicate hc]
  rfl

theorem ofDigitChars_paddedKey : Nat.ofDigitChars 10 (paddedKey n).toList 0 = n := by
  rw [toList_paddedKey, Nat.ofDigitChars_append, Nat.ofDigitChars_replicate_zero, Nat.mul_zero,
    Nat.ofDigitChars_toDigits (by decide) (by decide)]

variable {a b : ℕ}

theorem length_paddedKey (ha : a < 2 ^ 64) : (paddedKey a).toList.length = 20 := by
  have hle : (Nat.toDigits 10 a).length ≤ 20 :=
    (Nat.length_toDigits_le_iff (by decide) (by decide)).mpr (ha.trans (by decide))
  rw [toList_paddedKey, length_append, length_replicate]
  omega

theorem paddedKey_lt_iff (ha : a < 2 ^ 64) (hb : b < 2 ^ 64) :
    utf8Bytes (paddedKey a) < utf8Bytes (paddedKey b) ↔ a < b := by
  have h := utf8Bytes_lt_iff ((length_paddedKey ha).trans (length_paddedKey hb).symm)
    (all_isDigit_paddedKey a) (all_isDigit_paddedKey b)
  rwa [ofDigitChars_paddedKey, ofDigitChars_paddedKey] at h

theorem parseUsize_paddedKey (ha : a < 2 ^ 64) : parseUsize (paddedKey a).toList = some a := by
  have hall := all_isDigit_paddedKey a
  have hne : (paddedKey a).toList ≠ [] := ne_nil_of_length_pos (by rw [length_paddedKey ha]; decide)
  rw [parseUsize_of_digits hall, parseDigits, if_pos ⟨hne, hall⟩, ← Nat.ofDigitChars_eq_foldl,
    ofDigitChars_paddedKey]
  simpa using ha

theorem seqOf_paddedKey (ha : a < 2 ^ 64) : TextDb.seqOf (utf8Bytes (paddedKey a)) = some a := by
  rw [TextDb.seqOf, fromUtf8_eq_some.mpr rfl, Option.bind_some, parseUsize_paddedKey ha]

/-! ### Databases -/

namespace TextDb

variable {V : Type} {db : TextDb V}

/-- The entries are those of a table of numbers. -/
theorem exists_sortedMap (h : ∀ e ∈ db.entries, ∃ seq < 2 ^ 64, e.1 = utf8Bytes (paddedKey seq)) :
    ∃ m : SortedMap ℕ V, (∀ e ∈ m.entries, e.1 < 2 ^ 64) ∧
      db.entries = m.entries.map fun e => (utf8Bytes (paddedKey e.1), e.2) := by
  have hread : ∀ e ∈ db.entries, ∃ seq < 2 ^ 64, seqOf e.1 = some seq ∧
      e.1 = utf8Bytes (paddedKey seq) := by
    intro e he
    obtain ⟨seq, hseq, hkey⟩ := h e he
    exact ⟨seq, hseq, by rw [hkey, seqOf_paddedKey hseq], hkey⟩
  refine ⟨⟨db.entries.map fun e => ((seqOf e.1).getD 0, e.2), ?_⟩, ?_, ?_⟩
  · refine pairwise_map.mpr (db.sorted.imp_of_mem fun {e e'} he he' hlt => ?_)
    obtain ⟨seq, hseq, hof, hkey⟩ := hread e he
    obtain ⟨seq', hseq', hof', hkey'⟩ := hread e' he'
    rw [hkey, hkey', paddedKey_lt_iff hseq hseq'] at hlt
    rw [hof, hof']
    exact hlt
  · intro e he
    obtain ⟨e', he', rfl⟩ := mem_map.mp he
    obtain ⟨seq, hseq, hof, -⟩ := hread e' he'
    rw [hof]
    exact hseq
  · rw [map_map]
    refine (map_id' _).symm.trans (map_congr_left fun e he => ?_)
    obtain ⟨seq, -, hof, hkey⟩ := hread e he
    rw [Function.comp_apply, hof, Option.getD_some, ← hkey]

variable {es : List (ℕ × V)}

theorem collectKeys_eq (h : ∀ e ∈ es, e.1 < 2 ^ 64) (want : ℕ → Bool) :
    collectKeys want (es.map fun e => (utf8Bytes (paddedKey e.1), e.2))
      = ((es.takeWhile fun e => want e.1).map Prod.fst).map fun seq => utf8Bytes (paddedKey seq) := by
  induction es with
  | nil => rfl
  | cons e es ih =>
    rw [map_cons, collectKeys, seqOf_paddedKey (h e (mem_cons_self ..))]
    dsimp only
    rw [ih fun e' he' => h e' (mem_cons_of_mem e he')]
    by_cases hwant : want e.1 = true
    · rw [if_pos hwant, takeWhile_cons_of_pos (p := fun e : ℕ × V => want e.1) hwant]
      rfl
    · rw [if_neg hwant, takeWhile_cons_of_neg (p := fun e : ℕ × V => want e.1) hwant]
      rfl

end TextDb

/-- **Sequence keys sort numerically.**  The keys of both logs compare like the numbers and are read back
as them.  So a database with such keys, iterated by bytes, is a table in the order of the numbers: both
`compact`s break with all the entries that they are to delete collected, and `open` finds the
greatest number. -/
theorem sequence_keys_sort (key : ℕ → String) (hkey : key = IngestQueue.key ∨ key = LmdbChangeLog.key) :
    (∀ a < 2 ^ 64, ∀ b < 2 ^ 64, utf8Bytes (key a) < utf8Bytes (key b) ↔ a < b) ∧
    (∀ a < 2 ^ 64, parseUsize (key a).toList = some a) ∧
    ∀ {V : Type} (db : TextDb V), (∀ e ∈ db.entries, ∃ seq < 2 ^ 64, e.1 = utf8Bytes (key seq)) →
      ∃ m : SortedMap ℕ V, db.entries = m.entries.map (fun e => (utf8Bytes (key e.1), e.2)) ∧
        (∀ committed, db.appliedKeys committed = ((m.entries.filter fun e => e.1 ≤ committed).map
          Prod.fst).map fun seq => utf8Bytes (key seq)) ∧
        (∀ before, db.keysBelow before = ((m.entries.filter fun e => e.1 < before).map
          Prod.fst).map fun seq => utf8Bytes (key seq)) ∧
        db.lastSeq = m.lastKey := by
  obtain rfl : key = paddedKey := by
    obtain rfl | rfl := hkey <;> rfl
  refine ⟨fun a ha b hb => paddedKey_lt_iff ha hb, fun a ha => parseUsize_paddedKey ha, ?_⟩
  intro V db h
  obtain ⟨m, hsmall, hentries⟩ := TextDb.exists_sortedMap h
  refine ⟨m, hentries, fun committed => ?_, fun before => ?_, ?_⟩
  · rw [TextDb.appliedKeys, hentries, TextDb.collectKeys_eq hsmall, takeWhile_eq_filter m.sorted]
    intro e _ e' _ hlt hle
    exact decide_eq_true (hlt.le.trans (of_decide_eq_true hle))
  · rw [TextDb.keysBelow, hentries, TextDb.collectKeys_eq hsmall, takeWhile_eq_filter m.sorted]
    intro e _ e' _ hlt hle
    exact decide_eq_true (hlt.trans (of_decide_eq_true hle))
  · rw [TextDb.lastSeq, hentries, getLast?_map, SortedMap.lastKey]
    cases hlast : m.entries.getLast? with
    | none => rfl
    | some e =>
      simp only [Option.map_some, Option.bind_some]
      exact seqOf_paddedKey (hsmall e (mem_of_getLast? hlast))

/-- Two keys whose numbers are not of the same length. -/
def nineTen : TextDb Unit where
  entries := [(utf8Bytes (paddedKey 9), ()), (utf8Bytes (paddedKey 10), ())]
  sorted := by decide +kernel

theorem sequence_keys_sort_nineTen :
    utf8Bytes (IngestQueue.key 9) < utf8Bytes (IngestQueue.key 10) ∧
    parseUsize (IngestQueue.key 10).toList = some 10 ∧
    ∃ m : SortedMap ℕ Unit, nineTen.appliedKeys 9 = ((m.entries.filter fun e => e.1 ≤ 9).map
      Prod.fst).map fun seq => utf8Bytes (IngestQueue.key seq) := by
  obtain ⟨hlt, hparse, hdb⟩ := sequence_keys_sort IngestQueue.key (Or.inl rfl)
  have hkeys : ∀ e ∈ nineTen.entries, ∃ seq < 2 ^ 64, e.1 = utf8Bytes (IngestQueue.key seq) := by
    simp only [nineTen, forall_mem_cons, not_mem_nil, false_imp_iff, implies_true, and_true]
    exact ⟨⟨9, by decide, rfl⟩, 10, by decide, rfl⟩
  obtain ⟨m, -, happlied, -⟩ := hdb nineTen hkeys
  exact ⟨(hlt 9 (by decide) 10 (by decide)).mpr (by decide), hparse 10 (by decide), m, happlied 9⟩

end Stplr
