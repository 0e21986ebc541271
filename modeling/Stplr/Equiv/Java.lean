import Stplr.Equiv.Double
import Mathlib.Data.List.TakeDrop
import Mathlib.Data.List.TakeWhile

/-!
# The JSON codec of the Java client

A string is read back from its escapes one code unit at a time (`chars_escape`), and then a document
from its text, whatever follows (`value_w`).  This is said for both writers, that of the client and that
of the server: for the former it is the round trip (`parse_write`), and with the latter it says what
the client makes of the integers in a reply (`integers_exact_iff`).
-/

namespace Stplr.Java

open List

variable {N D : Type}

/-! ### Documents -/

namespace Doc

mutual
/-- No map has a key twice, and the numbers are in `P`. -/
def Good (P : N → Prop) : Doc N → Prop
  | .num n => P n
  | .list xs => GoodItems P xs
  | .map fields => (fields.map Prod.fst).Nodup ∧ GoodFields P fields
  | .null | .bool _ | .str _ => True

def GoodItems (P : N → Prop) : List (Doc N) → Prop
  | [] => True
  | x :: xs => x.Good P ∧ GoodItems P xs

def GoodFields (P : N → Prop) : List (Text × Doc N) → Prop
  | [] => True
  | (_, x) :: fields => x.Good P ∧ GoodFields P fields
end

mutual
/-- The document with other numbers. -/
def mapNum (d : N → D) : Doc N → Doc D
  | .null => .null
  | .bool b => .bool b
  | .num n => .num (d n)
  | .str s => .str s
  | .list xs => .list (mapItems d xs)
  | .map fields => .map (mapFields d fields)

def mapItems (d : N → D) : List (Doc N) → List (Doc D)
  | [] => []
  | x :: xs => x.mapNum d :: mapItems d xs

def mapFields (d : N → D) : List (Text × Doc N) → List (Text × Doc D)
  | [] => []
  | (k, x) :: fields => (k, x.mapNum d) :: mapFields d fields
end

mutual
theorem mapNum_id (v : Doc N) : v.mapNum id = v := by
  cases v with
  | list xs => rw [mapNum, mapItems_id]
  | map fields => rw [mapNum, mapFields_id]
  | _ => rfl

theorem mapItems_id (xs : List (Doc N)) : mapItems id xs = xs := by
  cases xs with
  | nil => rfl
  | cons x xs => rw [mapItems, mapNum_id, mapItems_id]

theorem mapFields_id (fields : List (Text × Doc N)) : mapFields id fields = fields := by
  cases fields with
  | nil => rfl
  | cons e fields => rw [mapFields, mapNum_id, mapFields_id]
end

end Doc

open Doc

variable {ls : List (UInt16 × UInt16)}

mutual
/-- Other numbers are written as other texts. -/
theorem w_mapNum (num : D → Text) (d : N → D) (v : Doc N) :
    w ls num (v.mapNum d) = w ls (num ∘ d) v := by
  cases v with
  | list xs => rw [mapNum, w, w, wItems_mapItems]
  | map fields => rw [mapNum, w, w, wFields_mapFields]
  | bool b => cases b <;> rfl
  | _ => rfl

theorem wItems_mapItems (num : D → Text) (d : N → D) (first : Bool) (xs : List (Doc N)) :
    wItems ls num first (mapItems d xs) = wItems ls (num ∘ d) first xs := by
  cases xs with
  | nil => rfl
  | cons x xs => rw [mapItems, wItems, wItems, w_mapNum, wItems_mapItems]

theorem wFields_mapFields (num : D → Text) (d : N → D) (first : Bool)
    (fields : List (Text × Doc N)) :
    wFields ls num first (mapFields d fields) = wFields ls (num ∘ d) first fields := by
  cases fields with
  | nil => rfl
  | cons e fields => rw [mapFields, wFields, wFields, w_mapNum, wFields_mapFields]
end

/-! ### Strings -/

/-- The letters stand for what they are written for, and quotes and backslashes have one. -/
structure Escaping (ls : List (UInt16 × UInt16)) : Prop where
  letter : ∀ p ∈ ls, p.2 ≠ unit 'u' ∧ unescape p.2 = p.1
  special : ∀ c ∈ [unit '"', unit '\\'], ls.lookup c ≠ none

theorem forall_mem_of_all {α : Type} {p : α → Prop} [DecidablePred p] {l : List α}
    (h : (l.all fun x => decide (p x)) = true) : ∀ x ∈ l, p x :=
  fun x hx => of_decide_eq_true (all_eq_true.mp h x hx)

theorem escaping_letters : Escaping letters :=
  ⟨forall_mem_of_all (by decide), forall_mem_of_all (by decide)⟩

theorem escaping_serdeLetters : Escaping serdeLetters :=
  ⟨forall_mem_of_all (by decide), forall_mem_of_all (by decide)⟩

variable {c : UInt16}

/-- Four hexadecimal digits are read as the code unit. -/
theorem parseChar_hex4 (h : c.toNat < 0x20) : parseChar (hex4 c) = some c := by
  have hall : ∀ n < 0x20, parseChar (hex4 (UInt16.ofNat n)) = some (UInt16.ofNat n) := by
    decide +kernel
  simpa using hall c.toNat h

theorem length_hex4 (h : c.toNat < 0x20) : (hex4 c).length = 4 := by
  have hle : (Nat.toDigits 16 c.toNat).length ≤ 4 :=
    (Nat.length_toDigits_le_iff (by decide) (by decide)).mpr (Nat.lt_trans h (by decide))
  rw [hex4, length_map, length_leftpad]
  omega

theorem chars_letter {e : UInt16} (he : e ≠ unit 'u') (t : Text) :
    chars (unit '\\' :: e :: t) = append (unescape e) (chars t) := by
  rw [chars.eq_def]
  dsimp only
  rw [if_neg (by decide), if_pos rfl, if_neg he]

theorem chars_unicode {hex : Text} (h : hex.length = 4) (t : Text) :
    chars (unit '\\' :: unit 'u' :: (hex ++ t))
      = (parseChar hex).bind fun x => append x (chars t) := by
  obtain ⟨a, hex, rfl⟩ := exists_cons_of_length_eq_add_one h
  obtain ⟨b, hex, rfl⟩ := exists_cons_of_length_eq_add_one (Nat.succ.inj h)
  obtain ⟨c, hex, rfl⟩ := exists_cons_of_length_eq_add_one (Nat.succ.inj (Nat.succ.inj h))
  obtain ⟨d, rfl⟩ := length_eq_one_iff.mp (Nat.succ.inj (Nat.succ.inj (Nat.succ.inj h)))
  rw [chars.eq_def]
  dsimp only
  rw [if_neg (by decide), if_pos rfl, if_pos rfl]
  rfl

theorem chars_plain (hquote : c ≠ unit '"') (hback : c ≠ unit '\\') (t : Text) :
    chars (c :: t) = append c (chars t) := by
  rw [chars.eq_def]
  dsimp only
  rw [if_neg hquote, if_neg hback]

section

variable (hls : Escaping ls)
include hls

theorem chars_escape (c : UInt16) (t : Text) :
    chars (escape ls c ++ t) = append c (chars t) := by
  rw [escape]
  cases hc : ls.lookup c with
  | some e =>
    obtain ⟨l, l', rfl, -⟩ := lookup_eq_some_iff.mp hc
    obtain ⟨hu, he⟩ := hls.letter (c, e) (by simp)
    exact (chars_letter hu t).trans (congrArg (append · (chars t)) he)
  | none =>
    have hquote : c ≠ unit '"' := fun h => hls.special _ (by simp) (h ▸ hc)
    have hback : c ≠ unit '\\' := fun h => hls.special _ (by simp) (h ▸ hc)
    dsimp only
    split_ifs with hlow
    · rw [cons_append, cons_append, chars_unicode (length_hex4 hlow), parseChar_hex4 hlow, Option.bind_some]
    · exact chars_plain hquote hback t

/-- A string is read back from its text. -/
theorem str_wStr (s t : Text) : str (wStr ls s ++ t) = some (s, t) := by
  rw [wStr, cons_append, str, drop_one, tail_cons, append_assoc, singleton_append]
  induction s with
  | nil =>
    rw [flatMap_nil, nil_append, chars.eq_def]
    rfl
  | cons c s ih =>
    rw [flatMap_cons, append_assoc, chars_escape hls, ih]
    rfl

end

/-! ### Documents are read back -/

theorem ws_cons (h : isWhitespace c = false) (t : Text) : ws (c :: t) = c :: t := by
  rw [ws, dropWhile_cons_of_neg (by simp [h])]

theorem put_of_notMem {k : Text} {m : List (Text × Doc Double)} (h : k ∉ m.map Prod.fst) (x : Doc Double) :
    put k x m = m ++ [(k, x)] := by
  induction m with
  | nil => rfl
  | cons e m ih =>
    rw [map_cons, mem_cons, not_or] at h
    rw [put, if_neg (Ne.symm h.1), ih h.2]
    rfl

section

variable {fuel : ℕ} {x : Doc Double} {c : UInt16} {t r : Text} (hc : isWhitespace c = false)
include hc

/-- One pass of the loop of `arr`. -/
theorem items_step (hx : value fuel t = some (x, c :: r)) (a : List (Doc Double)) :
    items (fuel + 1) a t
      = if c = unit ']' then some (.list (a ++ [x]), r) else items fuel (a ++ [x]) r := by
  rw [items, hx]
  simp only [Option.bind_eq_bind, Option.bind_some, ws_cons hc]

/-- One pass of the loop of `obj`. -/
theorem fields_step {k t' : Text} (hk : str (ws t') = some (k, unit ':' :: t))
    (hx : value fuel t = some (x, c :: r)) (m : List (Text × Doc Double)) :
    fields (fuel + 1) m t'
      = if c = unit '}' then some (.map (put k x m), r) else fields fuel (put k x m) r := by
  have hcolon : (ws (unit ':' :: t)).drop 1 = t := by rw [ws_cons (by decide), drop_one, tail_cons]
  rw [fields, hk]
  simp only [Option.bind_eq_bind, Option.bind_some, hcolon, hx, ws_cons hc]

end

/-- A text that `num` reads as the number. -/
structure Reads (t : Text) (x : Double) : Prop where
  ne_nil : t ≠ []
  numeric : ∀ c ∈ t, isNumeric c = true
  parse : parseDouble t = some x

/-- The parser understands the escapes, and the numbers in `P`. -/
structure Understands (ls : List (UInt16 × UInt16)) (num : N → Text) (d : N → Double)
    (P : N → Prop) : Prop where
  escaping : Escaping ls
  reads : ∀ n, P n → Reads (num n) (d n)

/-- Nothing after the text could be taken for more of a number. -/
def Stops (t : Text) : Prop := ∀ c ∈ t.head?, isNumeric c = false

theorem isNumeric_spec (h : isNumeric c = true) : isWhitespace c = false ∧
    ∀ e ∈ text "]\x7b[\"tfn", c ≠ e := by
  have hall : ∀ c ∈ text "-+.eE0123456789", isWhitespace c = false ∧
      ((text "]\x7b[\"tfn").all fun e => decide (c ≠ e)) = true := forall_mem_of_all (by decide)
  obtain ⟨hspace, hnot⟩ := hall c (of_decide_eq_true h)
  exact ⟨hspace, forall_mem_of_all hnot⟩

theorem num_of_reads {t rest : Text} {x : Double} (h : Reads t x) (hrest : Stops rest) :
    num (t ++ rest) = some (.num x, rest) := by
  have hnone : rest.takeWhile isNumeric = [] ∧ rest.dropWhile isNumeric = rest := by
    cases rest with
    | nil => exact ⟨rfl, rfl⟩
    | cons c rest =>
      have hc : ¬isNumeric c = true := by simp [hrest c rfl]
      exact ⟨takeWhile_cons_of_neg hc, dropWhile_cons_of_neg hc⟩
  rw [num, takeWhile_append_of_pos h.numeric, dropWhile_append_of_pos h.numeric, hnone.1, hnone.2,
    append_nil, h.parse]
  rfl

section

variable {num : N → Text} {d : N → Double} {P : N → Prop} (h : Understands ls num d P)
include h

/-- How a text begins. -/
theorem exists_w_eq_cons {v : Doc N} (hv : v.Good P) : ∃ c t, w ls num v = c :: t ∧
    isWhitespace c = false ∧ c ≠ unit ']' := by
  cases v with
  | num n =>
    obtain ⟨c, t, ht⟩ := exists_cons_of_ne_nil (h.reads n hv).ne_nil
    obtain ⟨hspace, hnot⟩ := isNumeric_spec ((h.reads n hv).numeric c (by rw [ht]; simp))
    exact ⟨c, t, ht, hspace, hnot _ (by decide)⟩
  | bool b => cases b <;> exact ⟨_, _, rfl, by decide, by decide⟩
  | null | str s | list xs | map fields => exact ⟨_, _, rfl, by decide, by decide⟩

mutual
/-- **A document is read back from its text**, and nothing of what follows is read. -/
theorem value_w (v : Doc N) (hv : v.Good P) (fuel : ℕ) (rest : Text)
    (hfuel : 3 * (w ls num v).length ≤ fuel) (hrest : ∀ n, v = .num n → Stops rest) :
    value fuel (w ls num v ++ rest) = some (v.mapNum d, rest) := by
  obtain ⟨c, t, ht, hspace, -⟩ := exists_w_eq_cons h hv
  have hlen := congrArg length ht
  rw [length_cons] at hlen
  obtain ⟨fuel, rfl⟩ : ∃ k, fuel = k + 1 := ⟨fuel - 1, by omega⟩
  rw [ht, cons_append, value, ws_cons hspace]
  dsimp only
  cases v with
  | null =>
    cases ht
    rfl
  | bool b => cases b <;> cases ht <;> rfl
  | num n =>
    have hn : num n = c :: t := ht
    obtain ⟨-, hnot⟩ := isNumeric_spec ((h.reads n hv).numeric c (by rw [hn]; simp))
    rw [if_neg (hnot _ (by decide)), if_neg (hnot _ (by decide)), if_neg (hnot _ (by decide)),
      if_neg (hnot _ (by decide)), if_neg (hnot _ (by decide)), if_neg (hnot _ (by decide)),
      ← cons_append, ← hn]
    exact num_of_reads (h.reads n hv) (hrest n rfl)
  | str s =>
    obtain ⟨rfl, rfl⟩ := cons.inj ht
    rw [if_neg (by decide), if_neg (by decide), if_pos rfl]
    exact congrArg _ (str_wStr h.escaping s rest)
  | list xs =>
    obtain ⟨rfl, rfl⟩ := cons.inj ht
    rw [if_neg (by decide), if_pos rfl, append_assoc, singleton_append]
    rw [length_append, length_singleton] at hlen
    obtain ⟨fuel, rfl⟩ : ∃ k, fuel = k + 1 := ⟨fuel - 1, by omega⟩
    rw [arr]
    cases xs with
    | nil =>
      rw [wItems, nil_append, ws_cons (by decide)]
      rfl
    | cons x xs =>
      -- an element does not begin with the bracket that would end the list
      obtain ⟨c, t, ht, hspace, hc⟩ := exists_w_eq_cons h hv.1
      have hitems := items_wItems (x :: xs) (cons_ne_nil _ _) hv fuel [] rest (by omega)
      rw [wItems, comma, if_pos rfl, nil_append, ht] at hitems ⊢
      rw [cons_append, cons_append, ws_cons hspace]
      dsimp only
      rw [if_neg hc]
      exact hitems
  | map fs =>
    obtain ⟨rfl, rfl⟩ := cons.inj ht
    rw [if_pos rfl, append_assoc, singleton_append]
    rw [length_append, length_singleton] at hlen
    obtain ⟨fuel, rfl⟩ : ∃ k, fuel = k + 1 := ⟨fuel - 1, by omega⟩
    rw [obj]
    cases fs with
    | nil =>
      rw [wFields, nil_append, ws_cons (by decide)]
      rfl
    | cons e fs =>
      have hfields := fields_wFields (e :: fs) (cons_ne_nil _ _) hv.2 fuel [] rest hv.1 (by omega)
      rw [wFields, comma, if_pos rfl, nil_append, wStr] at hfields ⊢
      rw [cons_append, cons_append, ws_cons (by decide)]
      exact hfields

theorem items_wItems (xs : List (Doc N)) (hne : xs ≠ []) (hxs : GoodItems P xs) (fuel : ℕ)
    (a : List (Doc Double)) (rest : Text) (hfuel : 3 * (wItems ls num true xs).length + 1 ≤ fuel) :
    items fuel a (wItems ls num true xs ++ unit ']' :: rest)
      = some (.list (a ++ mapItems d xs), rest) := by
  cases xs with
  | nil => exact absurd rfl hne
  | cons x xs =>
    obtain ⟨c, t, ht, -⟩ := exists_w_eq_cons h hxs.1
    have hlen := congrArg length ht
    rw [wItems, comma, if_pos rfl, nil_append] at hfuel ⊢
    rw [length_append] at hfuel
    rw [length_cons] at hlen
    obtain ⟨fuel, rfl⟩ : ∃ k, fuel = k + 1 := ⟨fuel - 1, by omega⟩
    cases xs with
    | nil =>
      have hx := value_w x hxs.1 fuel (unit ']' :: rest) (by omega) (fun n _ c hc => by cases hc; rfl)
      rw [wItems, append_nil, items_step (by decide) hx, if_pos rfl]
      rfl
    | cons y xs =>
      have hcomma : wItems ls num false (y :: xs) = unit ',' :: wItems ls num true (y :: xs) := rfl
      rw [hcomma, length_cons] at hfuel
      have hx := value_w x hxs.1 fuel (unit ',' :: (wItems ls num true (y :: xs) ++ unit ']' :: rest))
        (by omega) (fun n _ c hc => by cases hc; rfl)
      rw [hcomma, append_assoc, cons_append, items_step (by decide) hx, if_neg (by decide),
        items_wItems (y :: xs) (cons_ne_nil _ _) hxs.2 fuel _ rest (by omega), append_assoc]
      rfl

theorem fields_wFields (fs : List (Text × Doc N)) (hne : fs ≠ []) (hfs : GoodFields P fs)
    (fuel : ℕ) (m : List (Text × Doc Double)) (rest : Text)
    (hkeys : (m.map Prod.fst ++ fs.map Prod.fst).Nodup)
    (hfuel : 3 * (wFields ls num true fs).length + 1 ≤ fuel) :
    fields fuel m (wFields ls num true fs ++ unit '}' :: rest)
      = some (.map (m ++ mapFields d fs), rest) := by
  cases fs with
  | nil => exact absurd rfl hne
  | cons e fs =>
    obtain ⟨k, x⟩ := e
    have hk : k ∉ m.map Prod.fst := fun hk =>
      (nodup_append.mp hkeys).2.2 k hk k (mem_cons_self ..) rfl
    have hstr := fun t => str_wStr h.escaping k t
    have hquote : ∀ t, ws (wStr ls k ++ t) = wStr ls k ++ t := fun t => ws_cons (by decide) _
    rw [wFields, comma, if_pos rfl, nil_append] at hfuel ⊢
    rw [length_append, length_cons, length_append] at hfuel
    obtain ⟨fuel, rfl⟩ : ∃ k, fuel = k + 1 := ⟨fuel - 1, by omega⟩
    rw [append_assoc, cons_append, append_assoc]
    cases fs with
    | nil =>
      have hx := value_w x hfs.1 fuel (unit '}' :: rest) (by omega) (fun n _ c hc => by cases hc; rfl)
      rw [wFields, nil_append, fields_step (by decide) ((hquote _).symm ▸ hstr _) hx, if_pos rfl,
        put_of_notMem hk]
      rfl
    | cons f fs =>
      have hcomma : wFields ls num false (f :: fs) = unit ',' :: wFields ls num true (f :: fs) := rfl
      rw [hcomma, length_cons] at hfuel
      have hx := value_w x hfs.1 fuel (unit ',' :: (wFields ls num true (f :: fs) ++ unit '}' :: rest))
        (by omega) (fun n _ c hc => by cases hc; rfl)
      have hkeys' : ((m ++ [(k, x.mapNum d)]).map Prod.fst ++ (f :: fs).map Prod.fst).Nodup := by
        rw [map_append, append_assoc]
        exact hkeys
      rw [hcomma, cons_append, fields_step (by decide) ((hquote _).symm ▸ hstr _) hx,
        if_neg (by decide), put_of_notMem hk,
        fields_wFields (f :: fs) (cons_ne_nil _ _) hfs.2 fuel _ rest hkeys' (by omega), append_assoc]
      rfl
end

end

/-! ### The codec of the client -/

/-- **The codec round-trips.**  A document without numbers and without equal keys in a map is read back
from its text, whatever its strings are, and what follows the text is left. -/
theorem parse_write (v : Doc Double) (hv : v.Good fun _ => False) :
    parse (write v) = some v ∧ ∀ (rest : Text) (fuel : ℕ), 3 * (write v ++ rest).length ≤ fuel →
      value fuel (write v ++ rest) = some (v, rest) := by
  have h : Understands letters toText id fun _ => False := ⟨escaping_letters, fun _ hn => hn.elim⟩
  have hread : ∀ (rest : Text) (fuel : ℕ), 3 * (write v ++ rest).length ≤ fuel →
      value fuel (write v ++ rest) = some (v, rest) := by
    intro rest fuel hfuel
    rw [length_append] at hfuel
    have hval := value_w h v hv fuel rest (show 3 * (write v).length ≤ fuel by omega)
      (fun n hn => by rw [hn] at hv; exact hv.elim)
    rwa [mapNum_id] at hval
  refine ⟨?_, hread⟩
  have hall := hread [] (3 * (write v).length) (by rw [append_nil])
  rw [append_nil] at hall
  rw [parse, hall]
  rfl

/-- A lone surrogate, control characters and escapes, in a nested value. -/
def nestedDoc : Doc Double :=
  .map [([], .list [.str [0xD800, 0, 8], .null, .map []]), (text "\"\\\n", .bool true)]

theorem parse_write_nestedDoc : parse (write nestedDoc) = some nestedDoc := (parse_write nestedDoc
    ⟨by decide, ⟨trivial, trivial, ⟨by decide, trivial⟩, trivial⟩, trivial, trivial⟩).1

/-! ### Integers -/

/-- The integers of a `serde_json::Value`. -/
def Number.In64 : Number → Prop
  | .int n => -2 ^ 63 ≤ n ∧ n < 2 ^ 64
  | .float _ => True

variable {n : ℤ}

theorem natAbs_le_of_in64 (h : (Number.int n).In64) : n.natAbs ≤ 2 ^ 64 := by
  obtain ⟨hlow, hhigh⟩ := h
  omega

theorem reads_intText (h : (Number.int n).In64) : Reads (intText n) (ofInt n) := by
  obtain ⟨hne, hall, -⟩ := readDigits_eq_some (readDigits_digits n.natAbs)
  have hnumeric : ∀ c ∈ digits n.natAbs, isNumeric c = true := by
    have hten : ∀ k ≤ 57, 48 ≤ k → isNumeric (UInt16.ofNat k) = true := by decide
    intro c hc
    have hdigit := hall c hc
    rw [isDigit, Bool.and_eq_true, decide_eq_true_eq, decide_eq_true_eq] at hdigit
    simpa using hten c.toNat hdigit.2 hdigit.1
  refine ⟨?_, ?_, parseDouble_intText (natAbs_le_of_in64 h)⟩
  · rw [intText, withSign]
    split_ifs
    · exact cons_ne_nil _ _
    · exact hne
  · rw [intText, withSign]
    split_ifs
    · exact forall_mem_cons.mpr ⟨rfl, hnumeric⟩
    · exact hnumeric

/-- Only the largest `long` is returned by the cast without being a double. -/
theorem toLong_round53_eq_iff (hlow : -2 ^ 63 ≤ n) (hhigh : n < 2 ^ 63) :
    toLong (round53 n) = n ↔ round53 n = n ∨ n = 2 ^ 63 - 1 := by
  have hmax : round53 (2 ^ 63 - 1) = 2 ^ 63 := by decide +kernel
  have hmin : round53 (-2 ^ 63) = -2 ^ 63 := by decide +kernel
  unfold toLong
  constructor
  · intro h
    by_cases hn : n = 2 ^ 63 - 1
    · exact .inr hn
    · by_cases hn' : n = -2 ^ 63
      · exact .inl (hn' ▸ hmin)
      · exact .inl (by omega)
  · rintro (h | rfl)
    · omega
    · rw [hmax]
      decide

section

variable {floatText : UInt64 → Text} (hfloat : ∀ bits, ∃ x, Reads (floatText bits) x)

/-- The double that a number of a reply is read as. -/
def double (floatText : UInt64 → Text) (n : Number) : Double :=
  (parseDouble (numberText floatText n)).getD (ofInt 0)

theorem double_int (h : (Number.int n).In64) : double floatText (.int n) = ofInt n := by
  rw [double, numberText, (reads_intText h).parse, Option.getD_some]

include hfloat

theorem understands :
    Understands serdeLetters (numberText floatText) (double floatText) Number.In64 := by
  refine ⟨escaping_serdeLetters, fun n hn => ?_⟩
  cases n with
  | int n =>
    rw [double_int hn]
    exact reads_intText hn
  | float bits =>
    obtain ⟨x, hx⟩ := hfloat bits
    exact ⟨hx.ne_nil, hx.numeric, hx.parse.trans (by rw [double, numberText, hx.parse]; rfl)⟩

/-- What the client finds in a reply. -/
theorem field_reply (name : String) {v : Doc Number} (hv : v.Good Number.In64) :
    field (reply floatText name v) name = some (v.mapNum (double floatText)).nonNull := by
  have hgood : (Doc.map [(text name, v)]).Good Number.In64 := ⟨by simp, hv, trivial⟩
  have hval := value_w (understands hfloat) _ hgood _ [] le_rfl (fun n hn => by cases hn)
  rw [append_nil] at hval
  rw [field, parse, reply, hval]
  simp [mapNum, mapFields]

end

/-- **The integers that the client returns.**  `incr` returns the integer exactly if it is a double or
the largest `long`.  `get` and `mget` return the value with other texts for the numbers; that of an integer
denotes it exactly if of the integers with the same nearest double none has more zeros at the end, and none
with as many is nearer to the double.  Up to `2 ^ 53` this is so. -/
theorem integers_exact_iff (floatText : UInt64 → Text)
    (hfloat : ∀ bits, ∃ x, Reads (floatText bits) x) :
    (∀ n : ℤ, -2 ^ 63 ≤ n → n < 2 ^ 63 →
      (incr (reply floatText "value" (.num (.int n))) = some n ↔ round53 n = n ∨ n = 2 ^ 63 - 1)) ∧
    (∃ t : Number → Text,
      (∀ n, (Number.int n).In64 → (denoted (t (.int n)) = some (n : ℚ) ↔ Shown n.natAbs)) ∧
      (∀ v : Doc Number, v.Good Number.In64 →
        get (reply floatText "object" v) = some (v.nonNull.map (w letters t))) ∧
      ∀ vs : List (Doc Number), GoodItems Number.In64 vs →
        mget (reply floatText "values" (.list vs))
          = some (vs.map fun v => v.nonNull.map (w letters t))) ∧
    ∀ n : ℤ, n.natAbs ≤ 2 ^ 53 → round53 n = n ∧ Shown n.natAbs := by
  have hshown : ∀ v : Doc Number, (v.mapNum (double floatText)).nonNull.map write
      = v.nonNull.map (w letters (toText ∘ double floatText)) := by
    intro v
    cases v with
    | null => rfl
    | _ => exact congrArg some (w_mapNum ..)
  refine ⟨fun n hlow hhigh => ?_, ⟨toText ∘ double floatText, fun n hn => ?_, ?_, ?_⟩, ?_⟩
  · have hn : (Number.int n).In64 := ⟨hlow, by omega⟩
    rw [incr, field_reply hfloat "value" (v := .num (.int n)) hn]
    simp only [mapNum, nonNull, Option.bind_eq_bind, Option.bind_some, double_int hn, longValue_ofInt,
      Option.some.injEq]
    exact toLong_round53_eq_iff hlow hhigh
  · rw [Function.comp_apply, double_int hn]
    exact denoted_toText_iff (natAbs_le_of_in64 hn)
  · intro v hv
    rw [get, field_reply hfloat "object" hv, Option.map_some, hshown]
  · intro vs hvs
    rw [mget, field_reply hfloat "values" (v := .list vs) hvs]
    refine congrArg some ?_
    clear hvs
    induction vs with
    | nil => rfl
    | cons v vs ih => rw [mapItems, map_cons, map_cons, hshown, ih]
  · exact fun n hn => ⟨round53_of_le hn, shown_of_le hn⟩

theorem integers_exact_seven :
    incr (reply (fun _ => intText 0) "value" (.num (.int 7))) = some 7 :=
  ((integers_exact_iff _ fun _ => ⟨_, reads_intText ⟨by decide, by decide⟩⟩).1 7 (by decide)
    (by decide)).mpr (.inl (by decide +kernel))

/-- **Large integers are rounded**: `2 ^ 53 + 1` to `2 ^ 53`.  And for `2 ^ 60`, which is a double, the text
denotes another integer. -/
theorem integer_rounded :
    incr (reply (fun _ => intText 0) "value" (.num (.int 9007199254740993)))
      = some 9007199254740992 ∧
    get (reply (fun _ => intText 0) "object" (.list [.num (.int 9007199254740993)]))
      = some (some (text "[9.007199254740992E15]")) ∧
    get (reply (fun _ => intText 0) "object" (.num (.int 1152921504606846976)))
      = some (some (text "1.152921504606847E18")) :=
  ⟨by decide +kernel, by decide +kernel, by decide +kernel⟩

end Stplr.Java
