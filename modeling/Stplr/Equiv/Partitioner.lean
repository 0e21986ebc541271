import Stplr.Partitioner
import Mathlib.Data.Finset.Card

/-!
# What the placement of buckets guarantees

The owners of a bucket are distinct members (`nodup_ownersOfBucket`, `ownersOfBucket_subset`) and
there are as many as asked for, if the ring is that large (`length_ownersOfBucket`).  The node
list is a `HashMap`'s keys in some order, and the migration sorts it; placement does not depend on
that order as long as no two members have the same hash (`ownersOfBucket_perm`), because the score
of a bucket is injective in the hash (`bucketScore_injective`) and so the ranking has no ties.
-/

namespace Stplr

open List

theorem bucketOf_lt (key : String) : bucketOf key < numBuckets := by
  have h : (fnv1a key % 4096).toNat = (fnv1a key).toNat % 4096 := by
    rw [UInt32.toNat_mod]
    rfl
  rw [bucketOf, h]
  exact Nat.mod_lt _ (by decide)

/-! ### The score is injective in the hash -/

/-- Folding a right shift of a word into it by `xor` loses nothing. -/
theorem xor_shiftRight_injective {w k : ℕ} (hk : 0 < k) :
    Function.Injective fun x : BitVec w => x ^^^ (x >>> k) := by
  intro x y h
  -- bit by bit, from the top: bit `i` of `x` is bit `i` of the image and bit `i + k` of `x`
  have hbit : ∀ d i, w ≤ i + d → x.getLsbD i = y.getLsbD i := by
    intro d
    induction d with
    | zero =>
      intro i hi
      rw [BitVec.getLsbD_of_ge x i (by omega), BitVec.getLsbD_of_ge y i (by omega)]
    | succ d ih =>
      intro i hi
      have h1 := congrArg (fun z : BitVec w => z.getLsbD i) h
      simp only [BitVec.getLsbD_xor, BitVec.getLsbD_ushiftRight] at h1
      rw [ih (k + i) (by omega)] at h1
      exact Bool.xor_left_inj.mp h1
  apply BitVec.eq_of_getLsbD_eq
  intro i _
  exact hbit w i (by omega)

theorem mul_injective_of_inverse {a b : UInt32} (h : a * b = 1) :
    Function.Injective fun x : UInt32 => x * a := by
  intro x y hxy
  have h1 := congrArg (· * b) hxy
  simp only [UInt32.mul_assoc, h, UInt32.mul_one] at h1
  exact h1

theorem uint32_xor_shiftRight_injective {k : UInt32} (hk : 0 < (k % 32).toNat) :
    Function.Injective fun x : UInt32 => x ^^^ (x >>> k) := by
  intro x y h
  have h1 := congrArg UInt32.toBitVec h
  simp only [UInt32.toBitVec_xor, UInt32.toBitVec_shiftRight] at h1
  apply UInt32.toBitVec_inj.mp
  refine xor_shiftRight_injective hk ?_
  simpa using h1

theorem bucketScore_injective (bucket : ℕ) : Function.Injective fun h => bucketScore h bucket := by
  intro h h' heq
  simp only [bucketScore] at heq
  have h1 := uint32_xor_shiftRight_injective (k := 13) (by decide) heq
  have h2 := mul_injective_of_inverse (a := 0x85ebca6b) (b := 0xa5cb9243) (by decide) h1
  have h3 := uint32_xor_shiftRight_injective (k := 15) (by decide) h2
  have h4 := congrArg (· ^^^ ((bucket.toUInt32 + 1) * 0x9e3779b1)) h3
  simpa [UInt32.xor_assoc] using h4

/-- Pairwise different hashes, as a ring without ties needs. -/
def DistinctHashes (nodes : List NodeId) : Prop :=
  ∀ a ∈ nodes, ∀ c ∈ nodes, fnv1a a = fnv1a c → a = c

instance (ids : List NodeId) : Decidable (DistinctHashes ids) :=
  inferInstanceAs (Decidable (∀ a ∈ ids, ∀ b ∈ ids, fnv1a a = fnv1a b → a = b))

namespace Partitioner

/-! ### The ranking -/

variable {pl : List NodeId} (p : Partitioner) (r bucket : ℕ)

theorem ranked_perm : (p.ranked bucket).Perm p.nodes := perm_insertionSort _ _

theorem pairwise_ranked :
    (p.ranked bucket).Pairwise fun a c =>
      bucketScore (fnv1a c) bucket ≤ bucketScore (fnv1a a) bucket := by
  have : Std.Total fun a c : NodeId =>
      bucketScore (fnv1a c) bucket ≤ bucketScore (fnv1a a) bucket := 
    ⟨fun _ _ => UInt32.le_total _ _⟩
  have : IsTrans NodeId fun a c =>
      bucketScore (fnv1a c) bucket ≤ bucketScore (fnv1a a) bucket := 
    ⟨fun _ _ _ h h' => UInt32.le_trans h' h⟩
  exact pairwise_insertionSort _ _

/-- Without ties the ranking does not depend on the order of the node list. -/
theorem ranked_eq_of_perm {p q : Partitioner} (h : p.nodes.Perm q.nodes)
    (hd : DistinctHashes p.nodes) (bucket : ℕ) : p.ranked bucket = q.ranked bucket := by
  refine List.Perm.eq_of_pairwise ?_ (p.pairwise_ranked bucket) (q.pairwise_ranked bucket)
    ((p.ranked_perm bucket).trans (h.trans (q.ranked_perm bucket).symm))
  intro a c ha hc hac hca
  have ha' := (p.ranked_perm bucket).mem_iff.mp ha
  have hc' := h.mem_iff.mpr ((q.ranked_perm bucket).mem_iff.mp hc)
  exact hd a ha' c hc' (bucketScore_injective bucket (UInt32.le_antisymm hca hac))

/-! ### Picking owners down the ranking -/

theorem pickDomains_spec (pl : List NodeId) :
    ∀ (chosen : List NodeId) (used : List String), (chosen ++ pl).Nodup → chosen.length ≤ r →
      (p.pickDomains r pl chosen used).Nodup ∧ (p.pickDomains r pl chosen used).length ≤ r ∧
        ∀ n ∈ p.pickDomains r pl chosen used, n ∈ chosen ++ pl := by
  induction pl with
  | nil =>
    intro chosen used hnd hlen
    rw [append_nil] at hnd ⊢
    exact ⟨hnd, hlen, fun n hn => hn⟩
  | cons n pl ih =>
    intro chosen used hnd hlen
    have hnd' : (chosen ++ pl).Nodup := hnd.sublist ((sublist_cons_self n pl).append_left chosen)
    rw [pickDomains]
    split_ifs with hr hu
    · exact ⟨hnd.of_append_left, hlen, fun m hm => mem_append_left _ hm⟩
    · obtain ⟨h1, h2, h3⟩ := ih chosen used hnd' hlen
      refine ⟨h1, h2, fun m hm => ?_⟩
      rcases mem_append.mp (h3 m hm) with hm | hm
      · exact mem_append_left _ hm
      · exact mem_append_right _ (mem_cons_of_mem _ hm)
    · have hlen' : (chosen ++ [n]).length ≤ r := by
        rw [length_append, length_singleton]
        omega
      obtain ⟨h1, h2, h3⟩ := ih (chosen ++ [n]) (p.domain n :: used) (by simpa using hnd) hlen'
      exact ⟨h1, h2, fun m hm => by simpa using h3 m hm⟩

theorem pickFill_spec (pl : List NodeId) :
    ∀ chosen : List NodeId, chosen.Nodup → chosen.length ≤ r →
      (pickFill r pl chosen).Nodup ∧ (pickFill r pl chosen).length ≤ r ∧
        (∀ n ∈ pickFill r pl chosen, n ∈ chosen ∨ n ∈ pl) ∧
        (∀ n ∈ chosen, n ∈ pickFill r pl chosen) ∧
        ((pickFill r pl chosen).length < r → ∀ n ∈ pl, n ∈ pickFill r pl chosen) := by
  induction pl with
  | nil =>
    intro chosen hnd hlen
    exact ⟨hnd, hlen, fun n hn => .inl hn, fun n hn => hn, fun _ n hn => absurd hn not_mem_nil⟩
  | cons n pl ih =>
    intro chosen hnd hlen
    rw [pickFill]
    split_ifs with hr hn
    · exact ⟨hnd, hlen, fun m hm => .inl hm, fun m hm => hm, fun h => absurd h (by omega)⟩
    · obtain ⟨h1, h2, h3, h4, h5⟩ := ih chosen hnd hlen
      refine ⟨h1, h2, fun m hm => (h3 m hm).imp_right (mem_cons_of_mem _), h4, ?_⟩
      intro hlt m hm
      rcases mem_cons.mp hm with rfl | hm
      · exact h4 _ hn
      · exact h5 hlt m hm
    · have hlen' : (chosen ++ [n]).length ≤ r := by
        rw [length_append, length_singleton]
        omega
      have hnd' : (chosen ++ [n]).Nodup := by
        rw [nodup_append]
        refine ⟨hnd, nodup_singleton n, fun a ha c hc => ?_⟩
        rw [mem_singleton.mp hc]
        rintro rfl
        exact hn ha
      obtain ⟨h1, h2, h3, h4, h5⟩ := ih (chosen ++ [n]) hnd' hlen'
      refine ⟨h1, h2, fun m hm => ?_, fun m hm => h4 m (mem_append_left _ hm), ?_⟩
      · rcases h3 m hm with h | h
        · rcases mem_append.mp h with h | h
          · exact .inl h
          · exact .inr (by rw [mem_singleton.mp h]; exact mem_cons_self ..)
        · exact .inr (mem_cons_of_mem _ h)
      · intro hlt m hm
        rcases mem_cons.mp hm with rfl | hm
        · exact h4 _ (mem_append_right _ (mem_singleton.mpr rfl))
        · exact h5 hlt m hm

/-- `pick` returns distinct nodes of the list, as many as asked for. -/
theorem pick_spec (hperm : pl.Perm p.nodes) (hnd : p.nodes.Nodup) (r : ℕ) :
    (p.pick pl r).Nodup ∧ (∀ n ∈ p.pick pl r, n ∈ p.nodes) ∧
      (p.pick pl r).length = min r p.nodes.length := by
  have hpl : pl.Nodup := hperm.nodup_iff.mpr hnd
  have hlen : pl.length = p.nodes.length := hperm.length_eq
  rw [pick]
  dsimp only
  set k := min r p.nodes.length with hk
  have hkl : k ≤ pl.length := by rw [hlen]; exact min_le_right _ _
  split_ifs with ht hlt
  · refine ⟨hpl.sublist (take_sublist _ _), fun n hn => ?_, ?_⟩
    · exact hperm.mem_iff.mp (mem_of_mem_take hn)
    · rw [length_take]
      omega
  · obtain ⟨d1, d2, d3⟩ := p.pickDomains_spec k pl [] [] (by simpa using hpl) (Nat.zero_le _)
    obtain ⟨h1, h2, h3, -, h5⟩ := pickFill_spec k pl _ d1 d2
    refine ⟨h1, fun n hn => ?_, ?_⟩
    · rcases h3 n hn with h | h
      · exact hperm.mem_iff.mp (by simpa using d3 n h)
      · exact hperm.mem_iff.mp h
    · -- a list shorter than `k` would contain the whole ranking
      by_contra hne
      have hsub := h5 (by omega)
      have := (subperm_of_subset hpl hsub).length_le
      omega
  · obtain ⟨d1, d2, d3⟩ := p.pickDomains_spec k pl [] [] (by simpa using hpl) (Nat.zero_le _)
    refine ⟨d1, fun n hn => hperm.mem_iff.mp (by simpa using d3 n hn), ?_⟩
    omega

/-- What has been chosen stays in front. -/
theorem pickDomains_append (pl : List NodeId) :
    ∀ (chosen : List NodeId) (used : List String),
      ∃ rest, p.pickDomains r pl chosen used = chosen ++ rest := by
  induction pl with
  | nil => exact fun chosen _ => ⟨[], (append_nil chosen).symm⟩
  | cons n pl ih =>
    intro chosen used
    rw [pickDomains]
    split_ifs
    · exact ⟨[], (append_nil chosen).symm⟩
    · exact ih chosen used
    · obtain ⟨rest, hrest⟩ := ih (chosen ++ [n]) (p.domain n :: used)
      exact ⟨n :: rest, by rw [hrest, append_assoc, singleton_append]⟩

theorem pickFill_append (pl : List NodeId) : ∀ chosen : List NodeId,
    ∃ rest, pickFill r pl chosen = chosen ++ rest := by
  induction pl with
  | nil => exact fun chosen => ⟨[], (append_nil chosen).symm⟩
  | cons n pl ih =>
    intro chosen
    rw [pickFill]
    split_ifs
    · exact ⟨[], (append_nil chosen).symm⟩
    · exact ih chosen
    · obtain ⟨rest, hrest⟩ := ih (chosen ++ [n])
      exact ⟨n :: rest, by rw [hrest, append_assoc, singleton_append]⟩

/-- Whatever the topology, the best node comes first. -/
theorem head?_pick (hperm : pl.Perm p.nodes) {r : ℕ} (hr : 0 < r) : (p.pick pl r).head? = pl.head? := by
  cases pl with
  | nil =>
    rw [pick, ← hperm.length_eq]
    simp [pickDomains]
  | cons n pl =>
    have hmin : ∃ m, min r p.nodes.length = m + 1 := by
      have := hperm.length_eq
      rw [length_cons] at this
      exact ⟨min r p.nodes.length - 1, by omega⟩
    obtain ⟨m, hm⟩ := hmin
    rw [pick, hm]
    dsimp only
    obtain ⟨rest, hrest⟩ := p.pickDomains_append (m + 1) pl ([] ++ [n]) [p.domain n]
    have hchosen : p.pickDomains (m + 1) (n :: pl) [] [] = n :: rest := by
      rw [pickDomains, if_neg (by simp), if_neg (by simp)]
      exact hrest
    split_ifs
    · rfl
    · rw [hchosen]
      obtain ⟨more, hmore⟩ := pickFill_append (m + 1) (n :: pl) (n :: rest)
      rw [hmore]
      rfl
    · rw [hchosen]
      rfl

/-! ### When the racks change nothing -/

/-- The nodes of a list whose domain is new, in the order of the list. -/
def firsts (p : Partitioner) : List NodeId → List String → List NodeId
  | [], _ => []
  | n :: pl, used =>
    if p.domain n ∈ used then firsts p pl used else n :: firsts p pl (p.domain n :: used)

/-- The number of racks of the ring. -/
def racks (p : Partitioner) : ℕ := (p.nodes.map p.domain).toFinset.card

theorem pickDomains_eq (pl : List NodeId) :
    ∀ (chosen : List NodeId) (used : List String), chosen.length ≤ r →
      p.pickDomains r pl chosen used = chosen ++ (p.firsts pl used).take (r - chosen.length) := by
  induction pl with
  | nil => intro chosen used _; simp [pickDomains, firsts]
  | cons n pl ih =>
    intro chosen used hle
    rw [pickDomains, firsts]
    by_cases hfull : r ≤ chosen.length
    · rw [if_pos hfull, Nat.sub_eq_zero_of_le hfull, take_zero, append_nil]
    · rw [if_neg hfull]
      split_ifs
      · exact ih chosen used hle
      · have hlen : (chosen ++ [n]).length = chosen.length + 1 := by simp
        have hsub : r - chosen.length = (r - (chosen.length + 1)) + 1 := by omega
        rw [ih _ _ (by omega), hlen, hsub, take_succ_cons, append_assoc]
        rfl

/-- The chosen domains are new and all different, and no domain of the list is left out. -/
theorem firsts_spec (pl : List NodeId) : ∀ used : List String,
    ((p.firsts pl used).map p.domain).Nodup ∧ ((p.firsts pl used).map p.domain).toFinset
        = (pl.map p.domain).toFinset \ used.toFinset := by
  induction pl with
  | nil => intro used; simp [firsts]
  | cons n pl ih =>
    intro used
    rw [firsts]
    split_ifs with hused
    · refine ⟨(ih used).1, ?_⟩
      rw [(ih used).2, map_cons, toFinset_cons,
        Finset.insert_sdiff_of_mem _ (mem_toFinset.mpr hused)]
    · obtain ⟨hnd, hset⟩ := ih (p.domain n :: used)
      have hnew : p.domain n ∉ (p.firsts pl (p.domain n :: used)).map p.domain := by
        rw [← mem_toFinset, hset]
        simp
      refine ⟨?_, ?_⟩
      · rw [map_cons, nodup_cons]
        exact ⟨hnew, hnd⟩
      · rw [map_cons, toFinset_cons, hset]
        ext d
        by_cases hd : d = p.domain n
        · simp [hd, hused]
        · simp [hd]

theorem length_firsts (hperm : pl.Perm p.nodes) : (p.firsts pl []).length = p.racks := by
  obtain ⟨hnd, hset⟩ := p.firsts_spec pl []
  rw [toFinset_nil, Finset.sdiff_empty] at hset
  rw [← length_map p.domain, ← toFinset_card_of_nodup hnd, hset, racks,
    toFinset_eq_of_perm _ _ (hperm.map p.domain)]

/-- A first part of the list in which every node has a new domain is kept. -/
theorem firsts_append (a b : List NodeId) : ∀ used : List String,
    (a.map p.domain).Nodup → (∀ n ∈ a, p.domain n ∉ used) →
      ∃ more, p.firsts (a ++ b) used = a ++ more := by
  induction a with
  | nil => exact fun used _ _ => ⟨_, rfl⟩
  | cons n a ih =>
    intro used hnd hused
    rw [map_cons, nodup_cons] at hnd
    obtain ⟨more, hmore⟩ := ih (p.domain n :: used) hnd.2 fun m hm => by
      rw [mem_cons, not_or]
      exact ⟨fun heq => hnd.1 (heq ▸ mem_map_of_mem hm), hused m (mem_cons_of_mem _ hm)⟩
    refine ⟨more, ?_⟩
    rw [cons_append, firsts, if_neg (hused n (mem_cons_self ..)), hmore]
    rfl

/-- The nodes that are not chosen yet fill the remaining slots, in ranking order. -/
theorem pickFill_eq {r : ℕ} (hpl : pl.Nodup) : ∀ chosen : List NodeId, chosen.length ≤ r →
      pickFill r pl chosen = chosen ++ (pl.filter (· ∉ chosen)).take (r - chosen.length) := by
  induction pl with
  | nil => intro chosen _; simp [pickFill]
  | cons n pl ih =>
    intro chosen hle
    obtain ⟨hn, hpl⟩ := nodup_cons.mp hpl
    rw [pickFill]
    by_cases hfull : r ≤ chosen.length
    · rw [if_pos hfull, Nat.sub_eq_zero_of_le hfull, take_zero, append_nil]
    · rw [if_neg hfull]
      split_ifs with hmem
      · rw [ih hpl chosen hle, filter_cons_of_neg (by simpa using hmem)]
      · have hlen : (chosen ++ [n]).length = chosen.length + 1 := by simp
        have hsub : r - chosen.length = (r - (chosen.length + 1)) + 1 := by omega
        -- the other nodes of the list are not `n`
        have hfilter : pl.filter (· ∉ chosen ++ [n]) = pl.filter (· ∉ chosen) := by
          refine filter_congr fun x hx => ?_
          have hxn : x ≠ n := fun h => hn (h ▸ hx)
          simp [hxn]
        rw [ih hpl _ (by omega), hfilter, hlen, filter_cons_of_pos (by simpa using hmem), hsub,
          take_succ_cons, append_assoc]
        rfl

/-- The order in which nodes become owners as the number of replicas grows. -/
def order (p : Partitioner) (pl : List NodeId) : List NodeId := if p.topology.entries = [] then pl
  else p.firsts pl [] ++ pl.filter (· ∉ p.firsts pl [])

theorem pick_eq_take (hpl : pl.Nodup) (r : ℕ) :
    p.pick pl r = (p.order pl).take (min r p.nodes.length) := by
  rw [pick, order]
  generalize min r p.nodes.length = m
  dsimp only
  split_ifs with htop hlt
  · rfl
  · rw [pickDomains_eq p m pl [] [] (Nat.zero_le _), nil_append, length_nil, Nat.sub_zero]
      at hlt ⊢
    have hall : (p.firsts pl []).take m = p.firsts pl [] := by
      rw [length_take] at hlt
      exact take_of_length_le (by omega)
    rw [hall] at hlt ⊢
    rw [pickFill_eq hpl _ hlt.le, take_append, take_of_length_le hlt.le]
  · rw [pickDomains_eq p m pl [] [] (Nat.zero_le _), nil_append, length_nil, Nat.sub_zero]
      at hlt ⊢
    rw [length_take] at hlt
    exact (take_append_of_le_length (by omega)).symm

theorem filter_notMem_take (hpl : pl.Nodup) (j : ℕ) : pl.filter (· ∉ pl.take j) = pl.drop j := by
  have hdisj := (nodup_append.mp ((take_append_drop j pl).symm ▸ hpl)).2.2
  conv_lhs => rw [← take_append_drop j pl]
  rw [filter_append, take_append_drop, filter_eq_nil_iff.mpr, nil_append, filter_eq_self.mpr]
  · intro n hn
    simpa using fun hmem => hdisj n hmem n hn rfl
  · intro n hn
    simpa using hn

/-- Without a topology every node is its own rack. -/
theorem domain_of_plain (htop : p.topology.entries = []) : p.domain = id := by
  funext n
  have hnone : p.topology.lookup n = none := by
    rw [AList.lookup_eq_none, AList.mem_keys, AList.keys, htop]
    exact not_mem_nil
  rw [domain, hnone]
  rfl

/-- **When a topology changes nothing.**  The owners are those of the plain ring iff the best nodes of
the ranking, as many as there are replicas and racks, are in different racks. -/
theorem pick_eq_take_iff (hperm : pl.Perm p.nodes) (hnd : p.nodes.Nodup) (r : ℕ) :
    p.pick pl r = pl.take (min r p.nodes.length) ↔
      ((pl.take (min (min r p.nodes.length) p.racks)).map p.domain).Nodup := by
  have hpl : pl.Nodup := hperm.nodup_iff.mpr hnd
  have hracks : (p.firsts pl []).length = p.racks := p.length_firsts hperm
  have hle : p.racks ≤ pl.length := by
    refine (toFinset_card_le _).trans ?_
    rw [length_map, hperm.length_eq]
  rw [p.pick_eq_take hpl]
  generalize min r p.nodes.length = m
  by_cases htop : p.topology.entries = []
  · rw [order, if_pos htop, p.domain_of_plain htop, map_id]
    exact iff_of_true rfl (hpl.sublist (take_sublist ..))
  · rw [order, if_neg htop]
    constructor
    · -- the firsts come first, and they are as many as the bound says
      intro heq
      have htake := congrArg (take (min m p.racks)) heq
      rw [take_take, take_take, min_eq_left (min_le_left _ _),
        take_append_of_le_length (by omega)] at htake
      rw [← htake]
      exact ((p.firsts_spec pl []).1).sublist ((take_sublist ..).map _)
    · intro hdist
      obtain ⟨more, hmore⟩ := p.firsts_append (pl.take (min m p.racks))
        (pl.drop (min m p.racks)) [] hdist (fun _ _ => not_mem_nil)
      rw [take_append_drop] at hmore
      by_cases hmr : m ≤ p.racks
      · rw [min_eq_left hmr] at hmore
        have hm : m ≤ (pl.take m).length := by rw [length_take]; omega
        rw [hmore, append_assoc, take_append_of_le_length hm, take_take, min_self]
      · -- all racks are used up by the first nodes, the others follow in order
        rw [min_eq_right (by omega)] at hmore
        have hnil : more = [] := by
          have hlen := hracks
          rw [hmore, length_append, length_take] at hlen
          exact eq_nil_of_length_eq_zero (by omega)
        rw [hmore, hnil, append_nil, filter_notMem_take hpl, take_append_drop]

/-! ### The owners of a bucket -/

section

variable (p : Partitioner) (bucket r : ℕ)

theorem nodup_ownersOfBucket (hnd : p.nodes.Nodup) : (p.ownersOfBucket bucket r).Nodup :=
  (p.pick_spec (p.ranked_perm bucket) hnd r).1

variable {n : NodeId}

theorem ownersOfBucket_subset (hnd : p.nodes.Nodup) (h : n ∈ p.ownersOfBucket bucket r) :
    n ∈ p.nodes :=
  (p.pick_spec (p.ranked_perm bucket) hnd r).2.1 n h

/-- With more replicas no owner is lost. -/
theorem ownersOfBucket_mono (hnd : p.nodes.Nodup) {r r' : ℕ}
    (hle : min r p.nodes.length ≤ min r' p.nodes.length) (h : n ∈ p.ownersOfBucket bucket r) :
    n ∈ p.ownersOfBucket bucket r' := by
  have hpl : (p.ranked bucket).Nodup := (p.ranked_perm bucket).nodup_iff.mpr hnd
  rw [ownersOfBucket, p.pick_eq_take hpl] at h ⊢
  exact take_subset_take_left _ hle h

theorem length_ownersOfBucket (hnd : p.nodes.Nodup) :
    (p.ownersOfBucket bucket r).length = min r p.nodes.length :=
  (p.pick_spec (p.ranked_perm bucket) hnd r).2.2

theorem head?_ownersOfBucket {r : ℕ} (hr : 0 < r) :
    (p.ownersOfBucket bucket r).head? = (p.ranked bucket).head? :=
  p.head?_pick (p.ranked_perm bucket) hr

end

theorem replicaSet_eq (key : String) (r : ℕ) :
    p.replicaSet key r = p.ownersOfBucket (bucketOf key) r := rfl

/-- Placement depends on the set of members only. -/
theorem ownersOfBucket_perm {p q : Partitioner} (h : p.nodes.Perm q.nodes)
    (ht : p.topology = q.topology) (hd : DistinctHashes p.nodes) (bucket r : ℕ) :
    p.ownersOfBucket bucket r = q.ownersOfBucket bucket r := by
  have hdom : p.domain = q.domain := by
    funext n
    rw [domain, domain, ht]
  have hpick : ∀ r pl chosen used, p.pickDomains r pl chosen used
      = q.pickDomains r pl chosen used := by
    intro r pl
    induction pl with
    | nil => intro chosen used; rfl
    | cons n pl ih =>
      intro chosen used
      rw [pickDomains, pickDomains, hdom, ih, ih]
  rw [ownersOfBucket, ownersOfBucket, ranked_eq_of_perm h hd, pick, pick, ht, h.length_eq]
  simp only [hpick]

end Partitioner

end Stplr
