import Stplr.Equiv.Form
import Stplr.Equiv.Json
import Stplr.Equiv.Store
import Stplr.Proto

/-!
# What the binary protocol reads of what it wrote

On the wire requests and replies are read as they were sent (`readField_append`, `talk_cons`), so a
connection comes down to its requests (`answer`).  A `SET` writes the cell of the lossy strings, and
the other operations that of `asStr`.  The two agree on UTF-8 only, and every other byte string reads as
the empty one.  So the protocol reads what it wrote, and keeps other pairs apart, exactly for pairs of
non-empty UTF-8 strings, if the reply's length fits in 32 bits and its JSON reads as the value
(`reads_writes_iff`).
-/

namespace Stplr

open List Option

/-! ### Strings from bytes -/

theorem utf8Chars_some_ne_nil (p : Utf8Pending) (bs : List UInt8) : utf8Chars (some p) bs ≠ [] := by
  induction bs generalizing p with
  | nil => simp [utf8Chars]
  | cons b bs ih =>
    rw [utf8Chars, utf8Step]
    split_ifs
    · simp
    · exact ih _
    · simp

/-- No byte is lost without a trace. -/
theorem fromUtf8Lossy_eq_empty {b : List UInt8} (h : fromUtf8Lossy b = "") : b = [] := by
  cases b with
  | nil => rfl
  | cons b bs =>
    have hnil : utf8Chars none (b :: bs) = [] := by
      have := congrArg String.toList h
      simpa [fromUtf8Lossy] using this
    rw [utf8Chars, utf8Step, utf8Start] at hnil
    -- the first byte yields a character, or leaves one pending
    split_ifs at hnil
    all_goals simp [utf8Chars_some_ne_nil] at hnil

/-- The bytes are those of a string that is not empty. -/
def Names (b : List UInt8) : Prop := (fromUtf8 b).isSome ∧ b ≠ []

instance (b : List UInt8) : Decidable (Names b) := inferInstanceAs (Decidable (_ ∧ _))

namespace Proto

variable {b : List UInt8}

theorem asStr_of_isSome (h : (fromUtf8 b).isSome) : asStr b = fromUtf8Lossy b := by
  obtain ⟨s, hs⟩ := isSome_iff_exists.mp h
  rw [asStr, hs, getD_some, ← fromUtf8_eq_some.mp hs, fromUtf8Lossy_utf8Bytes]

theorem asStr_of_not_isSome (h : ¬(fromUtf8 b).isSome) : asStr b = "" := by
  rw [asStr, not_isSome_iff_eq_none.mp h, getD_none]

theorem fromUtf8Lossy_ne_empty (h : ¬(fromUtf8 b).isSome) : fromUtf8Lossy b ≠ "" := by
  intro hb
  rw [fromUtf8Lossy_eq_empty hb] at h
  exact h (by decide)

/-- Two byte strings that read alike are the same, if one of them names a string. -/
theorem asStr_inj {b' : List UInt8} (h : Names b) : asStr b' = asStr b ↔ b' = b := by
  constructor
  · intro heq
    obtain ⟨s, hs⟩ := isSome_iff_exists.mp h.1
    have hb : asStr b = s := by rw [asStr, hs, getD_some]
    rw [hb] at heq
    by_cases hb' : (fromUtf8 b').isSome
    · obtain ⟨s', hs'⟩ := isSome_iff_exists.mp hb'
      rw [asStr, hs', getD_some] at heq
      rw [← fromUtf8_eq_some.mp hs', ← fromUtf8_eq_some.mp hs, heq]
    · -- what is not UTF-8 reads as the empty string, which `b` is not
      rw [asStr_of_not_isSome hb'] at heq
      rw [← heq] at hs
      exact absurd (fromUtf8_eq_some.mp hs).symm h.2
  · rintro rfl
    rfl

/-! ### The wire -/

theorem readU32_append (n : ℕ) (rest : List UInt8) :
    readU32 (u32Bytes n ++ rest) = some (n % 2 ^ 32, rest) := by
  simp only [u32Bytes, cons_append, nil_append, readU32, UInt8.toNat_ofNat']
  congr 2
  omega

theorem readField_append (h : b.length < 2 ^ 32) (rest : List UInt8) :
    readField (u32Bytes b.length ++ (b ++ rest)) = some (b, rest) := by
  rw [readField, readU32_append, Nat.mod_eq_of_lt h]
  simp

variable {St : Type} [IndexStore St] {codec : JsonCodec} {token : Option String}

/-- The input starts with these fields, and `rest` is what follows. -/
def Reads : List (List UInt8) → List UInt8 → List UInt8 → Prop
  | [], input, rest => input = rest
  | b :: bs, input, rest => ∃ next, readField input = some (b, next) ∧ Reads bs next rest

theorem reads_bytes {bs : List (List UInt8)} (hbs : ∀ b ∈ bs, b.length < 2 ^ 32)
    (rest : List UInt8) :
    Reads bs ((bs.flatMap fun b => u32Bytes b.length ++ b) ++ rest) rest := by
  induction bs with
  | nil => rfl
  | cons b bs ih =>
    refine ⟨(bs.flatMap fun b => u32Bytes b.length ++ b) ++ rest, ?_,
      ih fun b' hb' => hbs b' (mem_cons_of_mem _ hb')⟩
    rw [flatMap_cons, append_assoc, append_assoc]
    exact readField_append (hbs b (mem_cons_self ..)) _

variable {f : Frame} {v : Value} (sh : Shard St) (now : ℕ)

theorem readFrame_of_reads (hop : f.op ≠ opAuth) {input rest : List UInt8}
    (h : Reads f.fields input rest) : readFrame f.op input = some (f, rest) := by
  cases f with
  | auth => exact absurd rfl hop
  | ping =>
    obtain rfl := h
    rfl
  | get coll key | del coll key =>
    obtain ⟨_, hcoll, _, hkey, rfl⟩ := h
    simp [readFrame, Frame.op, opGet, opSet, opSadd, opSrem, opDel, hcoll, hkey]
  | set coll key x | sadd coll key x | srem coll key x =>
    obtain ⟨_, hcoll, _, hkey, _, hx, rfl⟩ := h
    simp [readFrame, Frame.op, opGet, opSet, opSadd, opSrem, hcoll, hkey, hx]

/-- A connection serves its requests one after the other. -/
theorem talk_cons (hf : f.Fits) (hop : f.op ≠ opAuth) (frames : List (ℕ × Frame)) :
    talk codec token sh ((now, f) :: frames)
      = (answer codec now sh f).2 :: talk codec token (answer codec now sh f).1 frames := by
  unfold talk
  rw [map_cons, flatMap_cons, Frame.bytes, cons_append, handle, if_neg hop,
    if_pos rfl, readFrame_of_reads hop (reads_bytes hf _)]

@[simp] theorem talk_nil : talk codec token sh [] = [] := rfl

/-! ### The cells -/

section Cells

variable [LawfulCells St] (sh : Shard St) (now t : ℕ) (coll key x : List UInt8) (c k : String)

theorem object_set : (answer codec t sh (.set coll key x)).1.object now c k
    = if c = fromUtf8Lossy coll ∧ k = fromUtf8Lossy key then some (valueOf codec x)
      else sh.object now c k :=
  LawfulCells.getObject_putObject ..

theorem object_del : (answer codec t sh (.del coll key)).1.object now c k
    = if c = asStr coll ∧ k = asStr key then none else sh.object now c k :=
  LawfulCells.getObject_deleteObject ..

theorem object_sadd_ne (h : ¬(c = asStr coll ∧ k = asStr key)) :
    (answer codec t sh (.sadd coll key x)).1.object now c k = sh.object now c k :=
  (LawfulCells.touches_update t _ _ _ _).getObject_ne now h

end Cells

/-! ### Replies -/

/-- A client takes as many bytes as the 32 bits of the length say. -/
theorem readReply_some (v : Value) : (readReply opGet (getReply codec (some v))).map Prod.fst
    = some (.value (some ((codec.toVec v).take ((codec.toVec v).length % 2 ^ 32)))) := by
  generalize hb : codec.toVec v = b
  have hle : b.length % 2 ^ 32 ≤ b.length := Nat.mod_le ..
  have hread : readField (u32Bytes b.length ++ b)
      = some (b.take (b.length % 2 ^ 32), b.drop (b.length % 2 ^ 32)) := by
    rw [readField, readU32_append, bind_eq_bind, bind_some]
    exact if_pos hle
  rw [getReply, hb, readReply, if_pos rfl, if_pos rfl, hread]
  rfl

theorem getReply_inj : getReply codec (some v) ≠ getReply codec none := by
  intro h
  simp [getReply, stOk, stAbsent] at h

/-- What a client takes from the reply is the value exactly if that is read back from its bytes, and
their number fits in 32 bits. -/
theorem fromSlice_payload (hcodec : codec.Lawful) :
    codec.fromSlice ((codec.toVec v).take ((codec.toVec v).length % 2 ^ 32)) = some v
      ↔ (codec.toVec v).length < 2 ^ 32 ∧ codec.Stable v := by
  rcases Nat.lt_or_ge (codec.toVec v).length (2 ^ 32) with hlt | hge
  · rw [Nat.mod_eq_of_lt hlt, take_length]
    exact ⟨fun h => ⟨hlt, h⟩, fun h => h.2⟩
  · have hmod : (codec.toVec v).length % 2 ^ 32 < 2 ^ 32 := Nat.mod_lt _ (by decide)
    rw [hcodec.fromSlice_take hmod hge]
    constructor
    · intro h
      cases h
    · intro h
      exact absurd h.1 (Nat.not_lt.mpr hge)

/-! ### Reading what was written -/

/-- A write to the pair: `SET`, `SADD` or `DEL`. -/
inductive Frame.WritesTo (coll key : List UInt8) : Frame → Prop
  | set (val : List UInt8) : WritesTo coll key (.set coll key val)
  | sadd (member : List UInt8) : WritesTo coll key (.sadd coll key member)
  | del : WritesTo coll key (.del coll key)

/-- On every connection to a shard, the value is read back after a `SET`, the pair is absent after a
`DEL`, and a write to it does not change what a `GET` of another pair answers. -/
structure ReadsWrites (St : Type) [IndexStore St] (codec : JsonCodec)
    (coll key val : List UInt8) : Prop where
  set_get (token : Option String) (sh : Shard St) (t t' : ℕ) :
    ∃ reply payload, talk codec token sh [(t, .set coll key val), (t', .get coll key)]
        = [[stOk], reply] ∧
      (readReply opGet reply).map Prod.fst = some (.value (some payload)) ∧
      codec.fromSlice payload = some (valueOf codec val)
  del_get (token : Option String) (sh : Shard St) (t t' : ℕ) :
    ∃ reply, talk codec token sh [(t, .del coll key), (t', .get coll key)] = [[stOk], reply] ∧
      (readReply opGet reply).map Prod.fst = some (.value none)
  get_other (token : Option String) (sh : Shard St) (t t' : ℕ) {f : Frame}
    (hf : f.WritesTo coll key) (hfits : f.Fits) {coll' key' : List UInt8}
    (hfits' : (Frame.get coll' key').Fits) (hne : (coll', key') ≠ (coll, key)) :
    ∃ done reply, talk codec token sh [(t, f), (t', .get coll' key')] = [done, reply] ∧
      talk codec token sh [(t', .get coll' key')] = [reply]

theorem fits_get {coll key : List UInt8} (hcoll : coll.length < 2 ^ 32) (hkey : key.length < 2 ^ 32) :
    (Frame.get coll key).Fits := by
  simp only [Frame.Fits, Frame.fields, mem_cons, not_mem_nil, or_false, forall_eq_or_imp, forall_eq]
  exact ⟨hcoll, hkey⟩

theorem talk_get (t : ℕ) {coll key : List UInt8} (h : (Frame.get coll key).Fits) :
    talk codec token sh [(t, .get coll key)]
      = [getReply codec (sh.object t (asStr coll) (asStr key))] := by
  have hop : (Frame.get coll key).op ≠ opAuth := show opGet ≠ opAuth by decide
  rw [talk_cons sh t h hop, talk_nil]
  rfl

theorem talk_pair (t t' : ℕ) (hf : f.Fits) (hop : f.op ≠ opAuth) {coll key : List UInt8}
    (h : (Frame.get coll key).Fits) :
    talk codec token sh [(t, f), (t', .get coll key)] = [(answer codec t sh f).2,
        getReply codec ((answer codec t sh f).1.object t' (asStr coll) (asStr key))] := by
  rw [talk_cons sh t hf hop, talk_get _ t' h]

theorem Frame.WritesTo.op_ne {coll key : List UInt8} (h : f.WritesTo coll key) : f.op ≠ opAuth := by
  cases h with
  | set => exact show opSet ≠ opAuth by decide
  | sadd => exact show opSadd ≠ opAuth by decide
  | del => exact show opDel ≠ opAuth by decide

section Main

variable [LawfulCells St] {coll key val : List UInt8} (sh : Shard St)

/-- A write to a pair of names leaves the cells of all other pairs alone. -/
theorem object_of_writesTo (t now : ℕ) (hcoll : Names coll) (hkey : Names key) {f : Frame}
    (hf : f.WritesTo coll key) {coll' key' : List UInt8} (hne : (coll', key') ≠ (coll, key)) :
    (answer codec t sh f).1.object now (asStr coll') (asStr key')
      = sh.object now (asStr coll') (asStr key') := by
  have hcell : ¬(asStr coll' = asStr coll ∧ asStr key' = asStr key) := by
    rw [asStr_inj hcoll, asStr_inj hkey]
    rintro ⟨rfl, rfl⟩
    exact hne rfl
  cases hf with
  | set val =>
    rw [object_set, ← asStr_of_isSome hcoll.1, ← asStr_of_isSome hkey.1, if_neg hcell]
  | sadd member => exact object_sadd_ne sh now t coll key member _ _ hcell
  | del => rw [object_del, if_neg hcell]

theorem fits_set (hcoll : coll.length < 2 ^ 32) (hkey : key.length < 2 ^ 32)
    (hval : val.length < 2 ^ 32) : (Frame.set coll key val).Fits := by
  intro b hb
  simp only [Frame.fields, mem_cons, not_mem_nil, or_false] at hb
  rcases hb with rfl | rfl | rfl
  · exact hcoll
  · exact hkey
  · exact hval

/-- The cell that a `GET` reads after a `SET` of names. -/
theorem object_set_self (t now : ℕ) (hcoll : (fromUtf8 coll).isSome) (hkey : (fromUtf8 key).isSome)
    : (answer codec t sh (.set coll key val)).1.object now (asStr coll) (asStr key)
      = some (valueOf codec val) := by
  rw [object_set, ← asStr_of_isSome hcoll, ← asStr_of_isSome hkey, if_pos ⟨rfl, rfl⟩]

theorem readsWrites_of_names (hcodec : codec.Lawful) (hget : (Frame.get coll key).Fits)
    (hset : (Frame.set coll key val).Fits) (hcoll : Names coll) (hkey : Names key)
    (hlen : (codec.toVec (valueOf codec val)).length < 2 ^ 32)
    (hstable : codec.Stable (valueOf codec val)) :
    ReadsWrites St codec coll key val where
  set_get token sh t t' := by
    have htalk : talk codec token sh [(t, .set coll key val), (t', .get coll key)] = _ :=
      talk_pair sh t t' hset (Frame.WritesTo.set val).op_ne hget
    rw [object_set_self sh t t' hcoll.1 hkey.1] at htalk
    exact ⟨_, _, htalk, readReply_some _, (fromSlice_payload hcodec).mpr ⟨hlen, hstable⟩⟩
  del_get token sh t t' := by
    refine ⟨_, talk_pair sh t t' (f := .del coll key) hget Frame.WritesTo.del.op_ne hget, ?_⟩
    rw [object_del, if_pos ⟨rfl, rfl⟩]
    rfl
  get_other token sh t t' f hf hfits coll' key' hfits' hne := by
    refine ⟨_, _, talk_pair sh t t' hfits hf.op_ne hfits', ?_⟩
    rw [object_of_writesTo sh t t' hcoll hkey hf hne]
    exact talk_get sh t' hfits'

/-- A shard in which a cell is absent. -/
theorem object_deleteObject_self (now : ℕ) (c k : String) :
    (sh.deleteObject c k).object now c k = none :=
  (LawfulCells.getObject_deleteObject ..).trans (if_pos ⟨rfl, rfl⟩)

/-- The value comes back only if a `GET` reads the cell that the `SET` wrote. -/
theorem ReadsWrites.isSome (sh : Shard St) (hget : (Frame.get coll key).Fits)
    (hset : (Frame.set coll key val).Fits) (h : ReadsWrites St codec coll key val) :
    (fromUtf8 coll).isSome ∧ (fromUtf8 key).isSome := by
  obtain ⟨reply, payload, htalk, hread, -⟩ :=
    h.set_get none (sh.deleteObject (asStr coll) (asStr key)) 0 0
  rw [talk_pair _ 0 0 hset (Frame.WritesTo.set val).op_ne hget, object_set,
    object_deleteObject_self] at htalk
  by_cases hcell : asStr coll = fromUtf8Lossy coll ∧ asStr key = fromUtf8Lossy key
  · constructor
    · by_contra hcoll
      exact fromUtf8Lossy_ne_empty hcoll (hcell.1 ▸ asStr_of_not_isSome hcoll)
    · by_contra hkey
      exact fromUtf8Lossy_ne_empty hkey (hcell.2 ▸ asStr_of_not_isSome hkey)
  · rw [if_neg hcell] at htalk
    rw [← (cons.inj (cons.inj htalk).2).1] at hread
    cases hread

/-- No other pair reads as the same two strings. -/
theorem ReadsWrites.eq_of_asStr (sh : Shard St) (hget : (Frame.get coll key).Fits)
    (hset : (Frame.set coll key val).Fits) (h : ReadsWrites St codec coll key val)
    (coll' key' : List UInt8) (hget' : (Frame.get coll' key').Fits)
    (hcoll : asStr coll' = asStr coll) (hkey : asStr key' = asStr key) :
    (coll', key') = (coll, key) := by
  by_contra hne
  have hnames := h.isSome sh hget hset
  obtain ⟨done, reply, hafter, hbefore⟩ :=
    h.get_other none (sh.deleteObject (asStr coll) (asStr key)) 0 0 (.set val) hset hget' hne
  rw [talk_pair _ 0 0 hset (Frame.WritesTo.set val).op_ne hget', hcoll, hkey,
    object_set_self _ 0 0 hnames.1 hnames.2] at hafter
  rw [talk_get _ 0 hget', hcoll, hkey, object_deleteObject_self] at hbefore
  have hreply := (cons.inj (cons.inj hafter).2).1
  exact getReply_inj (hreply.trans (cons.inj hbefore).1.symm)

theorem ReadsWrites.names (sh : Shard St) (hcl : coll.length < 2 ^ 32) (hkl : key.length < 2 ^ 32)
    (hvl : val.length < 2 ^ 32) (h : ReadsWrites St codec coll key val) :
    Names coll ∧ Names key := by
  have hget := fits_get hcl hkl
  have hset := fits_set hcl hkl hvl
  have hsome := h.isSome sh hget hset
  refine ⟨⟨hsome.1, ?_⟩, hsome.2, ?_⟩
  · rintro rfl
    have heq := h.eq_of_asStr sh hget hset [0xFF] key (fits_get (by decide) hkl) (by decide) rfl
    simp at heq
  · rintro rfl
    have heq := h.eq_of_asStr sh hget hset coll [0xFF] (fits_get hcl (by decide)) rfl (by decide)
    simp at heq

theorem ReadsWrites.length_stable (sh : Shard St) (hcodec : codec.Lawful)
    (hget : (Frame.get coll key).Fits) (hset : (Frame.set coll key val).Fits)
    (h : ReadsWrites St codec coll key val) :
    (codec.toVec (valueOf codec val)).length < 2 ^ 32 ∧ codec.Stable (valueOf codec val) := by
  have hnames := h.isSome sh hget hset
  obtain ⟨reply, payload, htalk, hread, hparse⟩ := h.set_get none sh 0 0
  rw [talk_pair _ 0 0 hset (Frame.WritesTo.set val).op_ne hget,
    object_set_self _ 0 0 hnames.1 hnames.2] at htalk
  rw [← (cons.inj (cons.inj htalk).2).1, readReply_some] at hread
  rw [← some.inj (OpResult.value.inj (some.inj hread))] at hparse
  exact (fromSlice_payload hcodec).mp hparse

/-- **The binary protocol reads what it wrote** exactly for collections and keys that are non-empty
UTF-8, and values that are read back from their JSON, whose length fits in 32 bits. -/
theorem reads_writes_iff (sh : Shard St) (hcodec : codec.Lawful) (hcl : coll.length < 2 ^ 32)
    (hkl : key.length < 2 ^ 32) (hvl : val.length < 2 ^ 32) :
    ReadsWrites St codec coll key val ↔
      Names coll ∧ Names key ∧ (codec.toVec (valueOf codec val)).length < 2 ^ 32 ∧
        codec.Stable (valueOf codec val) := by
  have hget := fits_get hcl hkl
  have hset := fits_set hcl hkl hvl
  constructor
  · intro h
    have hnames := h.names sh hcl hkl hvl
    exact ⟨hnames.1, hnames.2, h.length_stable sh hcodec hget hset⟩
  · rintro ⟨hcoll, hkey, hlen, hstable⟩
    exact readsWrites_of_names hcodec hget hset hcoll hkey hlen hstable

end Main

/-- The text `hi` is not JSON, so it is stored as a string. -/
theorem reads_writes_iff_text : ReadsWrites MemoryStore sampleJson [107, 118] [107, 49] [104, 105] :=
  (reads_writes_iff ⟨"s0", MemoryStore.new⟩ sampleJson_lawful (by decide) (by decide)
    (by decide)).mpr ⟨by decide, by decide, by decide, rfl⟩

/-- A key that is not UTF-8 is written under its lossy string, and read under the empty one. -/
theorem set_get_absent :
    talk sampleJson none (⟨"s0", MemoryStore.new⟩ : Shard MemoryStore)
      [(0, .set [107, 118] [0xFF] [104, 105]), (0, .get [107, 118] [0xFF])]
      = [[stOk], [stAbsent]] := by
  rfl

end Proto

end Stplr
