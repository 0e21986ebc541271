import Mathlib.Data.List.DropRight
import Mathlib.Data.List.Infix
import Stplr.Rbac

/-!
# What a policy text grants

An entry is read as its three parts say (`parseEntry_eq_ok`), and a text as its entries say
(`parse_eq_ok`).  So a policy grants exactly what its text says (`policy_reads_text`).

The collection of a grant that was parsed is trimmed, not empty and without the two separators
(`nameable_of_parse`), and every such name can be granted (`parse_fullGrant`).
-/

namespace Stplr

open Lib List SortedMap

/-! ### Splitting and trimming -/

section Split

variable {α : Type} [BEq α] [LawfulBEq α] {a : α}

omit [LawfulBEq α] in
theorem mem_splitOn_cons {x : α} {l p : List α} (h : p ∈ (x :: l).splitOn a) :
    p = [] ∨ p ∈ l.splitOn a ∨ (x == a) = false ∧ ∃ q ∈ l.splitOn a, p = x :: q := by
  rw [splitOn_cons_eq_if_modifyHead] at h
  split_ifs at h with hx
  · exact (mem_cons.mp h).imp_right .inl
  · cases hl : l.splitOn a with
    | nil => exact absurd hl (splitOn_ne_nil a l)
    | cons q qs =>
      rw [hl, modifyHead_cons] at h
      rcases mem_cons.mp h with rfl | h
      · exact .inr (.inr ⟨by simpa using hx, q, mem_cons_self .., rfl⟩)
      · exact .inr (.inl (mem_cons_of_mem q h))

theorem notMem_of_mem_splitOn {l p : List α} (h : p ∈ l.splitOn a) : a ∉ p := by
  induction l generalizing p with
  | nil =>
    rw [splitOn_nil] at h
    rw [mem_singleton.mp h]
    exact not_mem_nil
  | cons x l ih =>
    rcases mem_splitOn_cons h with rfl | h | ⟨hx, q, hq, rfl⟩
    · exact not_mem_nil
    · exact ih h
    · rw [mem_cons, not_or]
      exact ⟨fun heq => by simp [heq] at hx, ih hq⟩

omit [LawfulBEq α] in
theorem subset_of_mem_splitOn {l p : List α} (h : p ∈ l.splitOn a) : p ⊆ l := by
  induction l generalizing p with
  | nil =>
    rw [splitOn_nil] at h
    rw [mem_singleton.mp h]
    exact nil_subset _
  | cons x l ih =>
    rcases mem_splitOn_cons h with rfl | h | ⟨_, q, hq, rfl⟩
    · exact nil_subset _
    · exact List.Subset.trans (ih h) (subset_cons_self x l)
    · exact cons_subset_cons x (ih hq)

end Split

variable (cs : List Char) (coll : String) (perms : List Char)

theorem trim_eq : trim cs = (cs.dropWhile isWhiteSpace).rdropWhile isWhiteSpace := rfl

theorem trim_subset : trim cs ⊆ cs := by
  rw [trim_eq]
  exact List.Subset.trans ( rdropWhile_prefix _ _).subset (dropWhile_subset _)

/-- A text that starts and ends with other characters than white space is trimmed. -/
theorem trim_of_ends {a b : Char} (ha : isWhiteSpace a = false) (hb : isWhiteSpace b = false) :
    trim (a :: (cs ++ [b])) = a :: (cs ++ [b]) := by
  rw [trim_eq, dropWhile_cons_of_neg (by simp [ha]), ← cons_append,
    rdropWhile_concat_neg _ _ _ (by simp [hb])]

theorem trim_trim : trim (trim cs) = trim cs := by
  have hhead : (trim cs).dropWhile isWhiteSpace = trim cs := by
    cases ht : trim cs with
    | nil => rfl
    | cons a rest =>
      -- the first character is the one that `dropWhile` has stopped at
      have hpre : trim cs <+: cs.dropWhile isWhiteSpace := rdropWhile_prefix _ _
      obtain ⟨post, hpost⟩ := hpre
      rw [ht, cons_append] at hpost
      have ha : isWhiteSpace a = false := by
        have := head?_dropWhile_not isWhiteSpace cs
        rw [← hpost] at this
        simpa using this
      exact dropWhile_cons_of_neg (by simp [ha])
  rw [trim_eq (trim cs), hhead, trim_eq cs]
  exact rdropWhile_idempotent _ _

/-! ### One entry -/

/-- The grant of these permissions. -/
def Grant.ofPerms (coll : String) (perms : List Char) : Grant :=
  ⟨coll, 'r' ∈ perms, 'w' ∈ perms, 'd' ∈ perms, 'a' ∈ perms⟩

/-- The letter of an operation. -/
def Op.letter : Op → Char
  | .read => 'r'
  | .write => 'w'
  | .delete => 'd'
  | .admin => 'a'

theorem Grant.permits_ofPerms (op : Op) :
    (Grant.ofPerms coll perms).permits op = true ↔ op.letter ∈ perms ∨ 'a' ∈ perms := by
  cases op <;> simp [Grant.ofPerms, Grant.permits, Op.letter]

theorem Grant.covers_ofPerms (req : Option String) :
    (Grant.ofPerms coll perms).covers req = true ↔ coll = "*" ∨ req = some coll := by
  unfold Grant.covers Grant.ofPerms
  dsimp only
  split_ifs with hstar
  · simp [hstar]
  · cases req with
    | none => simp [hstar]
    | some c => simp [hstar, eq_comm]

namespace Policy

/-- The entry has three parts, which are this token, this collection and these permissions. -/
def Means (entry : List Char) (token coll : String) (perms : List Char) : Prop :=
  ∃ t c p, entry.splitOn ':' = [t, c, p] ∧ String.ofList (trim t) = token ∧
    String.ofList (trim c) = coll ∧ trim p = perms

/-- The letters of the permissions. -/
def permLetters : List Char := ['r', 'w', 'd', 'a']

/-- The entry has three parts, of which the first two are not empty and the third one has no other
letters than those of permissions. -/
def WellFormed (entry : List Char) : Prop :=
  ∃ token coll perms, Means entry token coll perms ∧ token ≠ "" ∧ coll ≠ "" ∧
    ∀ ch ∈ perms, ch ∈ permLetters

variable {coll token : String} {perms entry : List Char} {g : Grant} {es : List (List Char)}
  {policy : Policy} {spec : String}

theorem Means.unique {token' coll' : String} {perms' : List Char} (h : Means entry token coll perms)
    (h' : Means entry token' coll' perms') : token' = token ∧ coll' = coll ∧ perms' = perms := by
  obtain ⟨t, c, p, hsplit, rfl, rfl, rfl⟩ := h
  obtain ⟨t', c', p', hsplit', rfl, rfl, rfl⟩ := h'
  rw [hsplit] at hsplit'
  obtain ⟨rfl, rfl, rfl⟩ : t = t' ∧ c = c' ∧ p = p' := by simpa using hsplit'
  exact ⟨rfl, rfl, rfl⟩

variable {g' : Grant}

/-- A letter sets its flag, and any other character is refused. -/
theorem addPerm_eq_ok {ch : Char} :
    addPerm entry g ch = .ok g' ↔ ch ∈ permLetters ∧
      g' = ⟨g.coll, g.read || ch = 'r', g.write || ch = 'w', g.delete || ch = 'd',
        g.admin || ch = 'a'⟩ := by
  unfold addPerm
  split
  · simp [permLetters, eq_comm]
  · simp [permLetters, eq_comm]
  · simp [permLetters, eq_comm]
  · simp [permLetters, eq_comm]
  next hr hw hd ha =>
    refine iff_of_false (by simp) fun h => ?_
    have hletter : ch = 'r' ∨ ch = 'w' ∨ ch = 'd' ∨ ch = 'a' := by simpa [permLetters] using h.1
    exact hletter.elim hr fun h => h.elim hw fun h => h.elim hd ha

theorem foldlM_addPerm_eq_ok :
    perms.foldlM (addPerm entry) g = .ok g' ↔ (∀ ch ∈ perms, ch ∈ permLetters) ∧
      g' = ⟨g.coll, g.read || 'r' ∈ perms, g.write || 'w' ∈ perms, g.delete || 'd' ∈ perms,
        g.admin || 'a' ∈ perms⟩ := by
  induction perms generalizing g with
  | nil =>
    rw [foldlM_nil]
    simp [pure, Except.pure, eq_comm]
  | cons ch perms ih =>
    rw [foldlM_cons, forall_mem_cons]
    constructor
    · intro h
      cases hch : addPerm entry g ch with
      | error e =>
        rw [hch] at h
        cases h
      | ok g₁ =>
        rw [hch] at h
        obtain ⟨hletter, rfl⟩ := addPerm_eq_ok.mp hch
        obtain ⟨hrest, rfl⟩ := ih.mp h
        refine ⟨⟨hletter, hrest⟩, ?_⟩
        simp [Bool.or_assoc, eq_comm]
    · rintro ⟨⟨hletter, hrest⟩, rfl⟩
      rw [addPerm_eq_ok.mpr ⟨hletter, rfl⟩]
      refine ih.mpr ⟨hrest, ?_⟩
      simp [Bool.or_assoc, eq_comm]

/-- **What an entry is read as.** -/
theorem parseEntry_eq_ok :
    parseEntry entry = .ok (token, g) ↔ ∃ coll perms, Means entry token coll perms ∧ token ≠ "" ∧
      coll ≠ "" ∧ (∀ ch ∈ perms, ch ∈ permLetters) ∧ g = Grant.ofPerms coll perms := by
  have hempty : ∀ cs : List Char, String.ofList (trim cs) ≠ "" ↔ trim cs ≠ [] := by
    intro cs
    rw [ne_eq, ne_eq, ← String.toList_inj, String.toList_ofList]
    rfl
  constructor
  · intro h
    unfold parseEntry at h
    split at h
    next t c p hsplit =>
      split_ifs at h with hnil
      rw [not_or] at hnil
      cases hperm : (trim p).foldlM (addPerm entry)
          ⟨String.ofList (trim c), false, false, false, false⟩ with
      | error e =>
        rw [hperm] at h
        cases h
      | ok g' =>
        rw [hperm] at h
        obtain ⟨rfl, rfl⟩ := Prod.mk.inj (Except.ok.inj h)
        obtain ⟨hletters, rfl⟩ := foldlM_addPerm_eq_ok.mp hperm
        refine ⟨_, _, ⟨t, c, p, hsplit, rfl, rfl, rfl⟩, (hempty t).mpr hnil.1, (hempty c).mpr hnil.2,
          hletters, ?_⟩
        simp [Grant.ofPerms]
    next => cases h
  · rintro ⟨coll, perms, ⟨t, c, p, hsplit, rfl, rfl, rfl⟩, htoken, hcoll, hletters, rfl⟩
    unfold parseEntry
    rw [hsplit]
    dsimp only
    rw [if_neg (not_or.mpr ⟨(hempty t).mp htoken, (hempty c).mp hcoll⟩),
      foldlM_addPerm_eq_ok.mpr ⟨hletters, rfl⟩]
    simp [Grant.ofPerms, bind, Except.bind, pure, Except.pure]

/-- An entry is refused if and only if it is not well formed. -/
theorem exists_parseEntry_eq_ok : (∃ r, parseEntry entry = .ok r) ↔ WellFormed entry := by
  constructor
  · rintro ⟨⟨token, g⟩, h⟩
    obtain ⟨coll, perms, hmeans, htoken, hcoll, hletters, -⟩ := parseEntry_eq_ok.mp h
    exact ⟨token, coll, perms, hmeans, htoken, hcoll, hletters⟩
  · rintro ⟨token, coll, perms, hmeans, htoken, hcoll, hletters⟩
    exact ⟨_, parseEntry_eq_ok.mpr ⟨coll, perms, hmeans, htoken, hcoll, hletters, rfl⟩⟩

theorem WellFormed.parseEntry_eq (h : WellFormed entry) (hmeans : Means entry token coll perms) :
    parseEntry entry = .ok (token, Grant.ofPerms coll perms) := by
  obtain ⟨token', coll', perms', hmeans', htoken, hcoll, hletters⟩ := h
  obtain ⟨rfl, rfl, rfl⟩ := hmeans'.unique hmeans
  exact parseEntry_eq_ok.mpr ⟨coll, perms, hmeans, htoken, hcoll, hletters, rfl⟩

/-! ### The whole text -/

/-- The grants that a token has. -/
def grantsAt (tokens : SortedMap String Principal) (token : String) : List Grant :=
  ((tokens.find? token).map Principal.grants).getD []

theorem find?_push (tokens : SortedMap String Principal) (t : String) (g : Grant) (token : String) :
    ((push tokens t g).find? token).isSome = (decide (token = t) || (tokens.find? token).isSome) ∧
      grantsAt (push tokens t g) token
        = grantsAt tokens token ++ if token = t then [g] else [] := by
  unfold push grantsAt
  dsimp only
  rw [find?_put]
  by_cases ht : token = t
  · subst ht
    cases tokens.find? token <;> simp
  · simp [ht]

/-- All entries at once. -/
def pushAll (tokens : SortedMap String Principal) (gs : List (String × Grant)) :
    SortedMap String Principal :=
  gs.foldl (fun tokens g => push tokens g.1 g.2) tokens

theorem find?_pushAll (gs : List (String × Grant)) (token : String) :
    ∀ tokens : SortedMap String Principal,
      (((pushAll tokens gs).find? token).isSome ↔ (∃ g, (token, g) ∈ gs) ∨
        (tokens.find? token).isSome) ∧
      ∀ g, g ∈ grantsAt (pushAll tokens gs) token ↔ (token, g) ∈ gs ∨ g ∈ grantsAt tokens token := by
  induction gs with
  | nil => simp [pushAll]
  | cons e gs ih =>
    intro tokens
    obtain ⟨t, g₀⟩ := e
    obtain ⟨hsome, hgrants⟩ := ih (push tokens t g₀)
    obtain ⟨hsome₀, hgrants₀⟩ := find?_push tokens t g₀ token
    rw [hsome₀] at hsome
    rw [hgrants₀] at hgrants
    change (((pushAll (push tokens t g₀) gs).find? token).isSome ↔ _) ∧
      ∀ g, g ∈ grantsAt (pushAll (push tokens t g₀) gs) token ↔ _
    by_cases ht : token = t
    · subst ht
      refine ⟨hsome.trans (by simp), fun g => (hgrants g).trans ?_⟩
      simp only [if_pos, mem_append, mem_cons, Prod.mk.injEq, true_and]
      tauto
    · refine ⟨hsome.trans (by simp [ht]), fun g => (hgrants g).trans ?_⟩
      simp [ht]

/-- What the well-formed entries say. -/
def granted (es : List (List Char)) : List (String × Grant) :=
  es.filterMap fun entry => (parseEntry entry).toOption

theorem mem_granted {r : String × Grant} :
    r ∈ granted es ↔ ∃ entry ∈ es, parseEntry entry = .ok r := by
  rw [granted, mem_filterMap]
  refine exists_congr fun entry => and_congr_right fun _ => ?_
  cases parseEntry entry <;> simp [Except.toOption]

/-- The loop of `parse`: every entry is read, and its grant pushed. -/
theorem foldlM_eq_ok {tokens tokens' : SortedMap String Principal} :
    (es.foldlM (fun tokens entry => do
      let (token, grant) ← parseEntry entry
      return push tokens token grant) tokens = Except.ok tokens') ↔
      (∀ entry ∈ es, WellFormed entry) ∧ tokens' = pushAll tokens (granted es) := by
  induction es generalizing tokens with
  | nil =>
    rw [foldlM_nil]
    simp [pure, Except.pure, pushAll, granted, eq_comm]
  | cons entry es ih =>
    rw [foldlM_cons, forall_mem_cons, ← exists_parseEntry_eq_ok]
    cases hentry : parseEntry entry with
    | error e => exact iff_of_false (fun h => by cases h) (by simp)
    | ok r =>
      have hgranted : granted (entry :: es) = r :: granted es := by
        rw [granted, filterMap_cons, hentry]
        rfl
      have hsome : ∃ r', (Except.ok r : Except String (String × Grant)) = .ok r' := ⟨r, rfl⟩
      rw [hgranted, and_iff_right hsome]
      exact ih

theorem pushAll_entries_eq_nil {gs : List (String × Grant)} :
    (pushAll SortedMap.empty gs).entries = [] ↔ gs = [] := by
  cases gs with
  | nil => exact iff_of_true rfl rfl
  | cons g gs =>
    refine iff_of_false (fun h => ?_) (cons_ne_nil g gs)
    obtain ⟨p, hp⟩ := Option.isSome_iff_exists.mp
      ((find?_pushAll (g :: gs) g.1 empty).1.mpr (.inl ⟨g.2, mem_cons_self ..⟩))
    have hmem := find?_eq_some.mp hp
    rw [h] at hmem
    exact absurd hmem not_mem_nil

theorem granted_eq_nil (h : ∀ entry ∈ es, WellFormed entry) : granted es = [] ↔ es = [] := by
  constructor
  · intro hnil
    by_contra hes
    obtain ⟨entry, hentry⟩ := exists_mem_of_ne_nil es hes
    obtain ⟨r, hr⟩ := exists_parseEntry_eq_ok.mpr (h entry hentry)
    have hmem := mem_granted.mpr ⟨entry, hentry, hr⟩
    rw [hnil] at hmem
    exact absurd hmem not_mem_nil
  · rintro rfl
    rfl

/-- **What a text is read as.** -/
theorem parse_eq_ok : parse spec = .ok policy ↔
    entries spec ≠ [] ∧ (∀ entry ∈ entries spec, WellFormed entry) ∧
      policy = ⟨pushAll SortedMap.empty (granted (entries spec))⟩ := by
  unfold parse
  cases hfold : (entries spec).foldlM (fun tokens entry => do
      let (token, grant) ← parseEntry entry
      return push tokens token grant) empty with
  | error e =>
    refine iff_of_false (fun h => by cases h) ?_
    rintro ⟨-, hwell, -⟩
    cases hfold.symm.trans (foldlM_eq_ok.mpr ⟨hwell, rfl⟩)
  | ok tokens =>
    obtain ⟨hwell, rfl⟩ := foldlM_eq_ok.mp hfold
    change (if (pushAll empty (granted (entries spec))).entries = [] then _ else _) = _ ↔ _
    have hnil := pushAll_entries_eq_nil.trans (granted_eq_nil hwell)
    split_ifs with hempty
    · exact iff_of_false (fun h => by cases h) fun h => h.1 (hnil.mp hempty)
    · rw [and_iff_right (mt hnil.mpr hempty), and_iff_right hwell]
      exact ⟨fun h => (Except.ok.inj h).symm, fun h => congrArg Except.ok h.symm⟩

/-- The text has an entry with this token, this collection and these permissions. -/
def Says (spec token coll : String) (perms : List Char) : Prop :=
  ∃ entry ∈ entries spec, Means entry token coll perms

section Parsed

variable {spec : String} {policy : Policy} (h : parse spec = .ok policy)

include h

variable {token : String} {g : Grant}

/-- The grants of a text that is accepted. -/
theorem mem_granted_iff :
    (token, g) ∈ granted (entries spec) ↔
      ∃ coll perms, Says spec token coll perms ∧ g = Grant.ofPerms coll perms := by
  obtain ⟨-, hwell, -⟩ := parse_eq_ok.mp h
  rw [mem_granted]
  constructor
  · rintro ⟨entry, hentry, hparse⟩
    obtain ⟨coll, perms, hmeans, -, -, -, rfl⟩ := parseEntry_eq_ok.mp hparse
    exact ⟨coll, perms, ⟨entry, hentry, hmeans⟩, rfl⟩
  · rintro ⟨coll, perms, ⟨entry, hentry, hmeans⟩, rfl⟩
    exact ⟨entry, hentry, (hwell entry hentry).parseEntry_eq hmeans⟩

theorem isSome_principal_iff (token : String) :
    (policy.principal token).isSome ↔ ∃ coll perms, Says spec token coll perms := by
  obtain ⟨-, -, rfl⟩ := parse_eq_ok.mp h
  show ((pushAll SortedMap.empty (granted (entries spec))).find? token).isSome ↔ _
  rw [(find?_pushAll _ token _).1, or_iff_left (by simp [SortedMap.find?, SortedMap.empty])]
  constructor
  · rintro ⟨g, hg⟩
    obtain ⟨coll, perms, hsays, -⟩ := (mem_granted_iff h).mp hg
    exact ⟨coll, perms, hsays⟩
  · rintro ⟨coll, perms, hsays⟩
    exact ⟨_, (mem_granted_iff h).mpr ⟨coll, perms, hsays, rfl⟩⟩

theorem mem_grants_iff {p : Principal} (hp : policy.principal token = some p) : g ∈ p.grants ↔
      ∃ coll perms, Says spec token coll perms ∧ g = Grant.ofPerms coll perms := by
  rw [← mem_granted_iff h]
  obtain ⟨-, -, rfl⟩ := parse_eq_ok.mp h
  have hgrants := (find?_pushAll (granted (entries spec)) token empty).2 g
  have hat : grantsAt (pushAll empty (granted (entries spec))) token = p.grants := by
    rw [grantsAt, show (pushAll empty (granted (entries spec))).find? token = some p from hp]
    rfl
  rw [hat] at hgrants
  rw [hgrants]
  exact or_iff_left (by simp [grantsAt, SortedMap.find?, SortedMap.empty])

end Parsed

theorem exists_error_iff : (∃ e, parse spec = .error e) ↔
    entries spec = [] ∨ ∃ entry ∈ entries spec, ¬WellFormed entry := by
  constructor
  · rintro ⟨e, he⟩
    by_contra hno
    rw [not_or] at hno
    obtain ⟨hne, hall⟩ := hno
    have hwell : ∀ entry ∈ entries spec, WellFormed entry := by
      intro entry hentry
      by_contra hbad
      exact hall ⟨entry, hentry, hbad⟩
    cases he.symm.trans (parse_eq_ok.mpr ⟨hne, hwell, rfl⟩)
  · intro hbad
    cases hparse : parse spec with
    | error e => exact ⟨e, rfl⟩
    | ok policy =>
      obtain ⟨hne, hwell, -⟩ := parse_eq_ok.mp hparse
      rcases hbad with hnil | ⟨entry, hentry, hnot⟩
      · exact absurd hnil hne
      · exact absurd (hwell entry hentry) hnot

/-- A right: the token is that of a principal who may do this. -/
def Allows (policy : Policy) (token : String) (coll : Option String) (op : Op) : Prop :=
  ∃ p, policy.principal token = some p ∧ p.allows coll op = true

theorem allows_iff (h : parse spec = .ok policy) (token : String) (coll : Option String) (op : Op) :
    policy.Allows token coll op ↔ ∃ c perms, Says spec token c perms ∧ (c = "*" ∨ coll = some c) ∧
        (op.letter ∈ perms ∨ 'a' ∈ perms) := by
  have hgrant : ∀ c perms, (Grant.ofPerms c perms).allows coll op = true ↔
      (c = "*" ∨ coll = some c) ∧ (op.letter ∈ perms ∨ 'a' ∈ perms) := by
    intro c perms
    rw [Grant.allows, Bool.and_eq_true, Grant.covers_ofPerms, Grant.permits_ofPerms]
  constructor
  · rintro ⟨p, hp, hallows⟩
    obtain ⟨g, hg, hg'⟩ := any_eq_true.mp hallows
    obtain ⟨c, perms, hsays, rfl⟩ := (mem_grants_iff h hp).mp hg
    exact ⟨c, perms, hsays, (hgrant c perms).mp hg'⟩
  · rintro ⟨c, perms, hsays, hmay⟩
    obtain ⟨p, hp⟩ := Option.isSome_iff_exists.mp
      ((isSome_principal_iff h token).mpr ⟨c, perms, hsays⟩)
    refine ⟨p, hp, any_eq_true.mpr ⟨Grant.ofPerms c perms, ?_, (hgrant c perms).mpr hmay⟩⟩
    exact (mem_grants_iff h hp).mpr ⟨c, perms, hsays, rfl⟩

/-- Texts are put together with a semicolon. -/
theorem entries_append (spec more : String) :
    entries (spec ++ ";" ++ more) = entries spec ++ entries more := by
  have hchars : (spec ++ ";" ++ more).toList = spec.toList ++ ';' :: more.toList := by simp
  rw [entries, hchars, splitOn_append_cons_self, map_append, filter_append]
  rfl

/-- **A policy grants what its text says.**  A token has a principal iff an entry has the token, and
a right iff an entry with the token names the collection or `*` and has the letter of the operation
or `a`.  A text is refused iff it has no entry, or one that is not well formed, and a text that has
all the entries of another one grants all that the other one does. -/
theorem policy_reads_text (spec : String) :
    (∀ policy, parse spec = .ok policy → ∀ token,
      ((policy.principal token).isSome ↔ ∃ coll perms, Says spec token coll perms) ∧
      ∀ coll op, policy.Allows token coll op ↔ ∃ c perms, Says spec token c perms ∧
        (c = "*" ∨ coll = some c) ∧ (op.letter ∈ perms ∨ 'a' ∈ perms)) ∧
    ((∃ e, parse spec = .error e) ↔ entries spec = [] ∨ ∃ entry ∈ entries spec, ¬WellFormed entry) ∧
    ∀ spec' policy policy', entries spec ⊆ entries spec' → parse spec = .ok policy →
      parse spec' = .ok policy' → ∀ token coll op,
        policy.Allows token coll op → policy'.Allows token coll op := by
  refine ⟨fun policy h token => ⟨isSome_principal_iff h token, allows_iff h token⟩, exists_error_iff,
    fun spec' policy policy' hsub h h' token coll op hallows => ?_⟩
  obtain ⟨c, perms, ⟨entry, hentry, hmeans⟩, hmay⟩ := (allows_iff h token coll op).mp hallows
  exact (allows_iff h' token coll op).mpr ⟨c, perms, ⟨entry, hsub hentry, hmeans⟩, hmay⟩

/-- What one entry grants is granted whatever entries follow it. -/
theorem policy_reads_text_one : ∃ policy, parse "app:kv:rw" = .ok policy ∧
    policy.Allows "app" (some "kv") .write ∧
    ∀ more policy', parse ("app:kv:rw" ++ ";" ++ more) = .ok policy' →
      policy'.Allows "app" (some "kv") .write := by
  have hparse : parse "app:kv:rw" = .ok ⟨push .empty "app" ⟨"kv", true, true, false, false⟩⟩ := rfl
  have hsays : Says "app:kv:rw" "app" "kv" ['r', 'w'] :=
    ⟨"app:kv:rw".toList, by decide +kernel, "app".toList, "kv".toList, "rw".toList, by decide +kernel,
      by decide +kernel, by decide +kernel, by decide +kernel⟩
  have hallows := (((policy_reads_text "app:kv:rw").1 _ hparse "app").2 (some "kv") .write).mpr
    ⟨"kv", ['r', 'w'], hsays, Or.inr rfl, Or.inl (by decide)⟩
  refine ⟨_, hparse, hallows, fun more policy' h' => ?_⟩
  refine (policy_reads_text "app:kv:rw").2.2 _ _ policy' ?_ hparse h' _ _ _ hallows
  rw [entries_append]
  exact subset_append_left ..

/-! ### Names of collections -/

/-- A collection that an entry of a policy can name. -/
def Nameable (coll : String) : Prop :=
  coll.toList ≠ [] ∧ trim coll.toList = coll.toList ∧ ':' ∉ coll.toList ∧ ';' ∉ coll.toList

instance (coll : String) : Decidable (Nameable coll) := inferInstanceAs (Decidable (_ ∧ _))

theorem notMem_of_mem_entries (h : entry ∈ entries spec) : ';' ∉ entry := by
  obtain ⟨part, hpart, rfl⟩ := mem_map.mp (mem_filter.mp h).1
  exact fun hc => notMem_of_mem_splitOn hpart (trim_subset part hc)

theorem Means.nameable (hentry : ';' ∉ entry) (h : Means entry token coll perms) (hne : coll ≠ "") :
    Nameable coll := by
  obtain ⟨t, c, p, hsplit, -, rfl, -⟩ := h
  have hmem : c ∈ entry.splitOn ':' := by
    rw [hsplit]
    simp
  rw [ne_eq, ← String.toList_inj] at hne
  rw [Nameable]
  rw [String.toList_ofList] at hne ⊢
  refine ⟨hne, trim_trim c, fun hc => ?_, fun hc => ?_⟩
  · exact notMem_of_mem_splitOn hmem (trim_subset c hc)
  · exact hentry (subset_of_mem_splitOn hmem (trim_subset c hc))

/-- **A parsed grant names a nameable collection.** -/
theorem nameable_of_parse (h : parse spec = .ok policy) {p : Principal}
    (hp : policy.principal token = some p) (hg : g ∈ p.grants) : Nameable g.coll := by
  obtain ⟨c, perms, ⟨entry, hentry, hmeans⟩, rfl⟩ := (mem_grants_iff h hp).mp hg
  obtain ⟨-, hwell, -⟩ := parse_eq_ok.mp h
  obtain ⟨token', c', perms', hmeans', -, hne, -⟩ := hwell entry hentry
  obtain ⟨-, rfl, -⟩ := hmeans'.unique hmeans
  exact hmeans.nameable (notMem_of_mem_entries hentry) hne

/-- A policy of one token with all permissions on a collection. -/
def fullGrant (coll : String) : Policy := ⟨push SortedMap.empty "t" ⟨coll, true, true, true, true⟩⟩

/-- **Every nameable collection can be granted.** -/
theorem parse_fullGrant (h : Nameable coll) :
    parse ("t:" ++ coll ++ ":rwda") = .ok (fullGrant coll) := by
  obtain ⟨hne, htrim, hcolon, hsemi⟩ := h
  have hchars : ("t:" ++ coll ++ ":rwda").toList
      = 't' :: (':' :: (coll.toList ++ [':', 'r', 'w', 'd']) ++ ['a']) := by
    simp [String.toList_append]
  have hentries : entries ("t:" ++ coll ++ ":rwda")
      = ['t' :: (':' :: (coll.toList ++ [':', 'r', 'w', 'd']) ++ ['a'])] := by
    rw [entries, hchars, splitOn_eq_singleton (by simp [hsemi]), map_singleton,
      trim_of_ends _ (by decide) (by decide)]
    rfl
  have hsplit : ('t' :: (':' :: (coll.toList ++ [':', 'r', 'w', 'd']) ++ ['a'])).splitOn ':'
      = [['t'], coll.toList, ['r', 'w', 'd', 'a']] := by
    have h₁ := splitOn_append_cons_self_of_not_mem (show ':' ∉ ['t'] by decide)
      (coll.toList ++ ':' :: ['r', 'w', 'd', 'a'])
    rw [splitOn_append_cons_self_of_not_mem hcolon,
      splitOn_eq_singleton (show ':' ∉ ['r', 'w', 'd', 'a'] by decide)] at h₁
    simpa using h₁
  have hentry : parseEntry ('t' :: (':' :: (coll.toList ++ [':', 'r', 'w', 'd']) ++ ['a']))
      = .ok ("t", ⟨coll, true, true, true, true⟩) := by
    rw [parseEntry, hsplit]
    dsimp only
    rw [htrim, if_neg (by simp [hne]; decide), String.ofList_toList]
    rfl
  rw [parse, hentries, foldlM_cons, hentry]
  rfl

end Policy

end Stplr
