import Stplr.Equiv.Reshard

/-!
# What a membership change moves

Owners are taken down an order of the members in which the best node of every rack comes before all
the other nodes (`Partitioner.order`).  A node `x` that joins is put somewhere into that order; at most
one node, the one that `x` replaces as the best of its rack, moves further down, and it did not stand
before the place of `x` (`order_insert`).  So nobody but `x` becomes an owner of a bucket
(`mem_ownersOfBucket_of_insert`), and since the number of owners does not shrink, at most one node
stops being one.  Read backwards, this is what happens when `x` leaves.
-/

namespace Stplr

open List

/-- The copies of a bucket. -/
def ReshardPlan.copiesOf (plan : ReshardPlan) (b : ℕ) : List Copy :=
  plan.copies.filter fun c => c.bucket = b

/-- The drops of a bucket. -/
def ReshardPlan.dropsOf (plan : ReshardPlan) (b : ℕ) : List Drop :=
  plan.drops.filter fun d => d.bucket = b

namespace Partitioner

variable (p : Partitioner)

/-! ### A node joins the order -/

variable {n : NodeId} (pl : List NodeId)

theorem firsts_congr_used : ∀ {used used' : List String},
    (∀ d, d ∈ used ↔ d ∈ used') → p.firsts pl used = p.firsts pl used' := by
  induction pl with
  | nil => intro used used' _; rfl
  | cons n pl ih =>
    intro used used' h
    have hcons : ∀ d, d ∈ p.domain n :: used ↔ d ∈ p.domain n :: used' := fun d => by
      rw [mem_cons, mem_cons, h]
    rw [firsts, firsts, ih h, ih hcons]
    simp only [h]

theorem firsts_append_eq (a b : List NodeId) : ∀ used : List String,
    p.firsts (a ++ b) used = p.firsts a used ++ p.firsts b (a.map p.domain ++ used) := by
  induction a with
  | nil => intro used; rfl
  | cons n a ih =>
    intro used
    rw [cons_append, firsts, firsts]
    split_ifs with hn
    · rw [ih]
      refine congrArg _ (p.firsts_congr_used b fun d => ?_)
      rw [map_cons, cons_append, mem_cons]
      exact ⟨.inr, fun h => h.elim (fun hd => hd ▸ mem_append_right _ hn) id⟩
    · rw [ih, cons_append]
      refine congrArg (fun l => n :: (_ ++ l)) (p.firsts_congr_used b fun d => ?_)
      simp only [map_cons, cons_append, mem_cons, mem_append]
      tauto

/-- One more rack in use: its first node is left out. -/
theorem firsts_cons_used (d : String) (pl : List NodeId) : ∀ used : List String,
    p.firsts pl (d :: used) = (p.firsts pl used).filter fun n => p.domain n ≠ d := by
  induction pl with
  | nil => intro used; rfl
  | cons n pl ih =>
    intro used
    have hswap : p.firsts pl (p.domain n :: d :: used) = p.firsts pl (d :: p.domain n :: used) :=
      p.firsts_congr_used pl fun e => by simp only [mem_cons]; tauto
    rw [firsts, firsts]
    by_cases hn : p.domain n ∈ used
    · rw [if_pos hn, if_pos (mem_cons_of_mem _ hn), ih]
    by_cases hd : p.domain n = d
    · have hsame : p.firsts pl (d :: d :: used) = p.firsts pl (d :: used) :=
        p.firsts_congr_used pl fun e => by simp
      rw [if_neg hn, if_pos (hd ▸ mem_cons_self ..), filter_cons_of_neg (by simpa using hd),
        hd, ← ih, hsame]
    · have hnd : p.domain n ∉ d :: used := by simp [hd, hn]
      rw [if_neg hn, if_neg hnd, filter_cons_of_pos (by simpa using hd), hswap, ih]

theorem firsts_subset : ∀ (used : List String) (n : NodeId), n ∈ p.firsts pl used → n ∈ pl := by
  induction pl with
  | nil => intro used n hn; exact hn
  | cons m pl ih =>
    intro used n hn
    rw [firsts] at hn
    split_ifs at hn
    · exact mem_cons_of_mem _ (ih _ _ hn)
    · rcases mem_cons.mp hn with rfl | hn
      · exact mem_cons_self ..
      · exact mem_cons_of_mem _ (ih _ _ hn)

/-- The nodes of a list that are not in `l`, when a node of `l` joins the list. -/
theorem filter_notMem_insert {a b l l' : List NodeId} {x : NodeId} (hx : x ∈ l')
    (h : ∀ n ∈ a ++ b, n ∈ l' ↔ n ∈ l) :
    (a ++ x :: b).filter (· ∉ l') = (a ++ b).filter (· ∉ l) := by
  rw [filter_append, filter_cons_of_neg (by simpa using hx), ← filter_append]
  exact filter_congr fun n hn => by simp [h n hn]

/-- A node that is taken from `l` joins the nodes that are not in `l`. -/
theorem filter_notMem_erase {pl l l' : List NodeId} {y : NodeId} (hpl : pl.Nodup) (hy : y ∈ pl)
    (hyl : y ∈ l) (h : ∀ n ∈ pl, n ∈ l' ↔ n ∈ l ∧ n ≠ y) :
    ∃ C D, pl.filter (· ∉ l) = C ++ D ∧ pl.filter (· ∉ l') = C ++ y :: D := by
  obtain ⟨s, t, rfl⟩ := append_of_mem hy
  have hyt : y ∉ s ++ t := by
    have hperm : (s ++ y :: t).Perm (y :: (s ++ t)) := perm_middle
    exact (nodup_cons.mp (hperm.nodup_iff.mp hpl)).1
  have hsame : ∀ n ∈ s ++ t, decide (n ∉ l') = decide (n ∉ l) := by
    intro n hn
    have hny : n ≠ y := fun heq => hyt (heq ▸ hn)
    have hmem : n ∈ s ++ y :: t := by
      rw [mem_append] at hn ⊢
      exact hn.imp_right (mem_cons_of_mem _)
    simp [h n hmem, hny]
  have hy' : y ∉ l' := fun hmem => ((h y (by simp)).mp hmem).2 rfl
  refine ⟨s.filter (· ∉ l), t.filter (· ∉ l), ?_, ?_⟩
  · rw [filter_append, filter_cons_of_neg (by simpa using hyl)]
  · rw [filter_append, filter_cons_of_pos (by simpa using hy')]
    congr 1
    · exact filter_congr fun n hn => hsame n (mem_append_left _ hn)
    · exact congrArg _ (filter_congr fun n hn => hsame n (mem_append_right _ hn))

/-- A node `x` joins: it is inserted into the order, and at most one node moves from behind the place
of `x` further down. -/
theorem order_insert {a b : List NodeId} {x : NodeId} (hnd : (a ++ x :: b).Nodup) :
    (∃ A B, p.order (a ++ b) = A ++ B ∧ p.order (a ++ x :: b) = A ++ x :: B) ∨
    ∃ A B C D y, p.order (a ++ b) = A ++ (B ++ y :: (C ++ D)) ∧
      p.order (a ++ x :: b) = A ++ x :: (B ++ (C ++ y :: D)) := by
  obtain ⟨hx, hab⟩ := nodup_cons.mp (perm_middle.nodup_iff.mp hnd)
  rw [order, order]
  by_cases htop : p.topology.entries = []
  · rw [if_pos htop, if_pos htop]
    exact .inl ⟨a, b, rfl, rfl⟩
  rw [if_neg htop, if_neg htop]
  set used := a.map p.domain ++ [] with hused
  set A := p.firsts a []
  set F := p.firsts b used
  have hold : p.firsts (a ++ b) [] = A ++ F := p.firsts_append_eq a b []
  have hnew : p.firsts (a ++ x :: b) [] = A ++ p.firsts (x :: b) used :=
    p.firsts_append_eq a (x :: b) []
  have hsub : ∀ n ∈ A ++ F, n ∈ a ++ b := hold ▸ p.firsts_subset (a ++ b) []
  have hne : ∀ n ∈ a ++ b, n ≠ x := fun n hn heq => hx (heq ▸ hn)
  rw [hold, hnew, firsts]
  by_cases hdom : p.domain x ∈ used
  · -- the rack of `x` has a better node already
    have hxl : x ∉ A ++ F := fun hmem => hx (hsub x hmem)
    rw [if_pos hdom]
    refine .inl ⟨A ++ F ++ a.filter (· ∉ A ++ F), b.filter (· ∉ A ++ F), ?_, ?_⟩
    · rw [filter_append, append_assoc (A ++ F)]
    · rw [filter_append, filter_cons_of_pos (by simpa using hxl), append_assoc (A ++ F)]
  rw [if_neg hdom, firsts_cons_used]
  by_cases hrack : ∃ y ∈ F, p.domain y = p.domain x
  · -- `x` replaces `y` as the best node of the rack
    right
    obtain ⟨y, hy, hyx⟩ := hrack
    obtain ⟨B, C, hF⟩ := append_of_mem hy
    have hdoms : ((B ++ y :: C).map p.domain).Nodup := hF ▸ (p.firsts_spec b used).1
    have hother : ∀ n ∈ B ++ C, p.domain n ≠ p.domain x := by
      intro n hn heq
      rw [map_append, map_cons] at hdoms
      refine (nodup_cons.mp (perm_middle.nodup_iff.mp hdoms)).1 ?_
      rw [← map_append, hyx, ← heq]
      exact mem_map_of_mem hn
    have hkept : F.filter (fun n => p.domain n ≠ p.domain x) = B ++ C := by
      rw [hF, filter_append, filter_cons_of_neg (by simpa using hyx), ← filter_append]
      exact filter_eq_self.mpr fun n hn => by simpa using hother n hn
    have hyBC : y ∉ B ++ C := fun hmem => hother y hmem hyx
    have hyA : y ∉ A := fun hmem => (nodup_append.mp hab).2.2 y (p.firsts_subset a [] y hmem) y
      (p.firsts_subset b used y hy) rfl
    have hrest : (a ++ x :: b).filter (· ∉ A ++ x :: (B ++ C))
        = (a ++ b).filter (· ∉ A ++ (B ++ C)) :=
      filter_notMem_insert (by simp) fun n hn => by simp [hne n hn]
    have hmem : ∀ n ∈ a ++ b, n ∈ A ++ (B ++ C) ↔ n ∈ A ++ F ∧ n ≠ y := by
      intro n _
      by_cases hny : n = y
      · subst hny
        simpa [hyA] using hyBC
      · simp [hF, hny]
    obtain ⟨C', D, hbefore, hafter⟩ := filter_notMem_erase hab
      (hsub y (mem_append_right _ hy)) (mem_append_right A hy) hmem
    refine ⟨A, B, C ++ C', D, y, ?_, ?_⟩
    · rw [hbefore, hF]
      simp only [append_assoc, cons_append]
    · rw [hkept, hrest, hafter]
      simp only [append_assoc, cons_append]
  · -- the rack of `x` is new
    have hkept : F.filter (fun n => p.domain n ≠ p.domain x) = F :=
      filter_eq_self.mpr fun n hn => by simpa using fun heq => hrack ⟨n, hn, heq⟩
    rw [hkept]
    refine .inl ⟨A, F ++ (a ++ b).filter (· ∉ A ++ F), append_assoc .., ?_⟩
    have hfilter : (a ++ x :: b).filter (· ∉ A ++ x :: F) = (a ++ b).filter (· ∉ A ++ F) :=
      filter_notMem_insert (by simp) fun n hn => by simp [hne n hn]
    rw [hfilter, append_assoc, cons_append]

/-- Of the first `r` nodes of the order, only `x` was not among the first `r` before. -/
theorem mem_take_order_insert {a b : List NodeId} {x : NodeId} (hnd : (a ++ x :: b).Nodup) {r : ℕ}
    (h : n ∈ (p.order (a ++ x :: b)).take r) : n = x ∨ n ∈ (p.order (a ++ b)).take r := by
  by_cases hn : n = x
  · exact .inl hn
  right
  have hmem := mem_of_mem_take h
  rw [mem_take_iff_idxOf_lt hmem] at h
  have hxn : (x == n) = false := by simpa using Ne.symm hn
  rcases p.order_insert hnd with ⟨A, B, hold, hnew⟩ | ⟨A, B, C, D, y, hold, hnew⟩
  · rw [hnew] at h hmem
    have hmem' : n ∈ A ++ B := by simpa [hn] using hmem
    rw [hold, mem_take_iff_idxOf_lt hmem']
    simp only [idxOf_append, idxOf_cons, hxn, cond_false] at h ⊢
    split_ifs at h ⊢ <;> omega
  · rw [hnew] at h hmem
    have hmem' : n ∈ A ++ (B ++ y :: (C ++ D)) := by
      simp only [mem_append, mem_cons, hn, false_or] at hmem ⊢
      tauto
    rw [hold, mem_take_iff_idxOf_lt hmem']
    -- what stands before `y` moves up by one, and what stands behind `y` stays
    by_cases hy : y = n
    · subst hy
      simp only [idxOf_append, idxOf_cons, hxn, cond_false, beq_self_eq_true, cond_true]
        at h ⊢
      split_ifs at h ⊢ <;> omega
    · have hyn : (y == n) = false := by simpa using hy
      simp only [idxOf_append, idxOf_cons, hxn, hyn, cond_false] at h ⊢
      split_ifs at h ⊢ <;> omega

/-! ### A node joins the ring -/

variable {p} {q : Partitioner} {x : NodeId}

theorem firsts_congr (ht : p.topology = q.topology) (pl : List NodeId) : ∀ used : List String,
    p.firsts pl used = q.firsts pl used := by
  have hdom : ∀ n, p.domain n = q.domain n := fun n => by rw [domain, domain, ht]
  induction pl with
  | nil => intro used; rfl
  | cons n pl ih =>
    intro used
    rw [firsts, firsts, ih, ih, hdom]

theorem order_congr (ht : p.topology = q.topology) (pl : List NodeId) : p.order pl = q.order pl := by
  rw [order, order, firsts_congr ht, ht]

/-- Without ties, the ranking of the larger ring is that of the smaller one with `x` put in. -/
theorem ranked_insert (h : q.nodes.Perm (x :: p.nodes)) (hd : DistinctHashes q.nodes) (bucket : ℕ) :
    ∃ a b, p.ranked bucket = a ++ b ∧ q.ranked bucket = a ++ x :: b := by
  have hperm := (q.ranked_perm bucket).trans h
  obtain ⟨a, b, hab⟩ := append_of_mem (hperm.mem_iff.mpr (mem_cons_self ..))
  refine ⟨a, b, ?_, hab⟩
  have hsorted := q.pairwise_ranked bucket
  rw [hab] at hperm hsorted
  have hsub : (a ++ b).Sublist (a ++ x :: b) := (sublist_cons_self x b).append_left a
  refine List.Perm.eq_of_pairwise ?_ (p.pairwise_ranked bucket) (hsorted.sublist hsub)
    ((p.ranked_perm bucket).trans (perm_middle.symm.trans hperm).cons_inv.symm)
  intro n m hn hm hnm hmn
  have hn' : n ∈ q.nodes := h.mem_iff.mpr (mem_cons_of_mem _ ((p.ranked_perm bucket).mem_iff.mp hn))
  have hm' : m ∈ q.nodes := (q.ranked_perm bucket).mem_iff.mp (hab ▸ hsub.subset hm)
  exact hd n hn' m hm' (bucketScore_injective bucket (UInt32.le_antisymm hmn hnm))

/-- If the replication factor does not grow, or all nodes own everything, then nobody but `x` becomes
an owner. -/
theorem mem_ownersOfBucket_of_insert (ht : p.topology = q.topology)
    (h : q.nodes.Perm (x :: p.nodes)) (hnd : q.nodes.Nodup) (hd : DistinctHashes q.nodes)
    {bucket r r' : ℕ} (hr : r' ≤ r ∨ p.nodes.length ≤ r) (hn : n ∈ q.ownersOfBucket bucket r') :
    n = x ∨ n ∈ p.ownersOfBucket bucket r := by
  obtain ⟨hx, hndp⟩ := nodup_cons.mp (h.nodup_iff.mp hnd)
  obtain ⟨a, b, hp, hq⟩ := ranked_insert h hd bucket
  have hndr : (a ++ x :: b).Nodup := hq ▸ (q.ranked_perm bucket).nodup_iff.mpr hnd
  by_cases hall : p.nodes.length ≤ r
  · have hmem := mem_cons.mp (h.mem_iff.mp (q.ownersOfBucket_subset bucket r' hnd hn))
    refine hmem.imp_right fun hmem => ?_
    -- a list without repetitions that is as long as the ring contains the whole ring
    have hlen := p.length_ownersOfBucket bucket r hndp
    rw [min_eq_right hall] at hlen
    have hsub : p.ownersOfBucket bucket r ⊆ p.nodes := fun m hm =>
      p.ownersOfBucket_subset bucket r hndp hm
    exact ((subperm_of_subset (p.nodup_ownersOfBucket bucket r hndp) hsub).perm_of_length_le
      hlen.ge).mem_iff.mpr hmem
  · have hrr : r' ≤ r := hr.resolve_right hall
    rw [ownersOfBucket, hq, q.pick_eq_take hndr, ← order_congr ht] at hn
    rw [ownersOfBucket, p.pick_eq_take ((p.ranked_perm bucket).nodup_iff.mpr hndp), hp]
    refine (p.mem_take_order_insert hndr hn).imp_right fun hmem => ?_
    exact take_subset_take_left _ (by omega) hmem

end Partitioner

/-! ### The plan, bucket by bucket -/

theorem filter_flatMap_range {α : Type} {f : ℕ → List α} {bucket : α → ℕ}
    (hf : ∀ b, ∀ e ∈ f b, bucket e = b) (n b : ℕ) :
    ((List.range n).flatMap f).filter (fun e => bucket e = b) = if b < n then f b else [] := by
  induction n with
  | zero => rfl
  | succ n ih =>
    have hlast : (f n).filter (fun e => bucket e = b) = if b = n then f n else [] := by
      split_ifs with hbn
      · exact filter_eq_self.mpr fun e he => by simpa [hbn] using hf n e he
      · exact filter_eq_nil_iff.mpr fun e he => by simpa [hf n e he] using Ne.symm hbn
    rw [range_succ, flatMap_append, flatMap_singleton, filter_append, ih, hlast]
    rcases lt_trichotomy b n with hlt | rfl | hgt
    · rw [if_pos hlt, if_neg hlt.ne, if_pos (by omega), append_nil]
    · rw [if_neg (lt_irrefl b), if_pos rfl, if_pos (by omega), nil_append]
    · rw [if_neg (by omega), if_neg hgt.ne', if_neg (by omega), append_nil]

namespace Move

variable (mv : Move) {nodes : List NodeId} (b : ℕ)

theorem copiesOf_plan : mv.plan.copiesOf b
    = if b < numBuckets then bucketCopies b (mv.oldOwners b) (mv.newOwners b) else [] := by
  rw [ReshardPlan.copiesOf, plan, planReshard]
  dsimp only
  generalize numBuckets = n
  refine filter_flatMap_range (f := fun b => bucketCopies b (mv.oldOwners b) (mv.newOwners b))
    (fun b e he => ?_) n b
  dsimp only [bucketCopies] at he
  split at he
  · obtain ⟨dst, -, rfl⟩ := mem_map.mp he
    rfl
  · exact absurd he not_mem_nil

theorem dropsOf_plan : mv.plan.dropsOf b
    = if b < numBuckets then bucketDrops b (mv.oldOwners b) (mv.newOwners b) else [] := by
  rw [ReshardPlan.dropsOf, plan, planReshard]
  dsimp only
  generalize numBuckets = n
  refine filter_flatMap_range (f := fun b => bucketDrops b (mv.oldOwners b) (mv.newOwners b))
    (fun b e he => ?_) n b
  obtain ⟨n, -, rfl⟩ := mem_map.mp he
  rfl

theorem length_copiesOf_le :
    (mv.plan.copiesOf b).length ≤ ((mv.newOwners b).filter (· ∉ mv.oldOwners b)).length := by
  rw [copiesOf_plan, bucketCopies]
  split_ifs
  · split
    · rw [length_map]
    · exact Nat.zero_le _
  · exact Nat.zero_le _

theorem length_dropsOf_le :
    (mv.plan.dropsOf b).length ≤ ((mv.oldOwners b).filter (· ∉ mv.newOwners b)).length := by
  rw [dropsOf_plan, bucketDrops]
  split_ifs
  · rw [length_map]
  · exact Nat.zero_le _

/-- If only `x` is new in `l'` and `l'` is not shorter than `l`, then at most one node of `l` is
missing in it. -/
theorem length_filter_notMem_le_one {l l' : List NodeId} {x : NodeId} (hl : l.Nodup) (hl' : l'.Nodup)
    (hlen : l.length ≤ l'.length) (h : ∀ n ∈ l', n = x ∨ n ∈ l) :
    (l.filter (· ∉ l')).length ≤ 1 := by
  have hnd : (l.filter (· ∉ l') ++ l').Nodup := by
    refine nodup_append.mpr ⟨hl.filter _, hl', fun n hn m hm hnm => ?_⟩
    exact of_decide_eq_true (mem_filter.mp hn).2 (hnm ▸ hm)
  have hsub : l.filter (· ∉ l') ++ l' ⊆ x :: l := by
    intro n hn
    rcases mem_append.mp hn with hn | hn
    · exact mem_cons_of_mem _ (mem_filter.mp hn).1
    · exact mem_cons.mpr (h n hn)
  have hle := (subperm_of_subset hnd hsub).length_le
  rw [length_append, length_cons] at hle
  omega

/-- The owners among the members: what both sides of a plan have in common. -/
def ownersAmong (nodes : List NodeId) (b : ℕ) : List NodeId :=
  (ringOf nodes mv.topology).ownersOfBucket b (clamp mv.target nodes.length)

variable {mv}

theorem oldOwners_eq_ownersAmong (h : mv.old ≠ []) (b : ℕ) :
    mv.oldOwners b = mv.ownersAmong mv.old b := by
  rw [oldOwners, planOldOwners, if_neg h, ownersAmong]

theorem nodup_ownersAmong (h : nodes.Nodup) (b : ℕ) : (mv.ownersAmong nodes b).Nodup :=
  Partitioner.nodup_ownersOfBucket _ _ _ (by simpa using h)

theorem length_ownersAmong (hne : nodes ≠ []) (h : nodes.Nodup) (b : ℕ) :
    (mv.ownersAmong nodes b).length = clamp mv.target nodes.length := by
  rw [ownersAmong, Partitioner.length_ownersOfBucket _ _ _ (by simpa using h), ringOf_nodes]
  exact min_eq_left (clamp_le (length_pos_iff.mpr hne))

section Insert

variable {nodes members : List NodeId} {x : NodeId} (hne : nodes ≠ [])
  (h : members.Perm (x :: nodes)) (hnd : members.Nodup) (hd : DistinctHashes members) (b : ℕ)

include hne h hnd hd

/-- One more member: nobody but it becomes an owner. -/
theorem mem_ownersAmong_of_insert {n : NodeId} (hn : n ∈ mv.ownersAmong members b) :
    n = x ∨ n ∈ mv.ownersAmong nodes b := by
  have hlen : members.length = nodes.length + 1 := h.length_eq
  have hpos : 0 < nodes.length := length_pos_iff.mpr hne
  have hr : clamp mv.target members.length ≤ clamp mv.target nodes.length ∨
      nodes.length ≤ clamp mv.target nodes.length := by
    unfold clamp
    omega
  refine Partitioner.mem_ownersOfBucket_of_insert (q := ringOf members mv.topology) (by simp) ?_ ?_ ?_
    ?_ hn
  · simpa using h
  · simpa using hnd
  · simpa using hd
  · simpa using hr

/-- One more member: at most one node stops being an owner. -/
theorem length_lost_le_one :
    ((mv.ownersAmong nodes b).filter (· ∉ mv.ownersAmong members b)).length ≤ 1 := by
  have hnodes : nodes.Nodup := (nodup_cons.mp (h.nodup_iff.mp hnd)).2
  have hmembers : members ≠ [] := by
    rintro rfl
    exact absurd h.length_eq (by simp)
  refine length_filter_notMem_le_one (nodup_ownersAmong hnodes b) (nodup_ownersAmong hnd b) ?_
    fun n hn => mem_ownersAmong_of_insert hne h hnd hd b hn
  rw [length_ownersAmong hne hnodes, length_ownersAmong hmembers hnd, h.length_eq, length_cons]
  unfold clamp
  omega

/-- One more member: at most one node, namely it, becomes an owner. -/
theorem length_gained_le_one :
    ((mv.ownersAmong members b).filter (· ∉ mv.ownersAmong nodes b)).length ≤ 1 := by
  have hsub : (mv.ownersAmong members b).filter (· ∉ mv.ownersAmong nodes b) ⊆ [x] := by
    intro n hn
    obtain ⟨hn, hnew⟩ := mem_filter.mp hn
    rw [mem_singleton]
    exact (mem_ownersAmong_of_insert hne h hnd hd b hn).resolve_right (of_decide_eq_true hnew)
  exact (subperm_of_subset ((nodup_ownersAmong hnd b).filter _) hsub).length_le

end Insert

/-- The copies of a bucket lead to the owners it gains, each once and from an old owner. -/
theorem copiesOf_spec (hold : mv.old ≠ []) (hndo : mv.old.Nodup) {b : ℕ} (hb : b < numBuckets) :
    (mv.plan.copiesOf b).map Copy.dst = (mv.newOwners b).filter (· ∉ mv.oldOwners b) ∧
      ∀ c ∈ mv.plan.copiesOf b, c.src ∈ mv.oldOwners b := by
  have hne : mv.oldOwners b ≠ [] := by
    rw [oldOwners_eq_ownersAmong hold, ← length_pos_iff, length_ownersAmong hold hndo]
    exact clamp_pos _ _
  obtain ⟨src, rest, hcons⟩ := exists_cons_of_ne_nil hne
  have hhead : (mv.oldOwners b).head? = some src := by rw [hcons]; rfl
  rw [copiesOf_plan, if_pos hb, bucketCopies, hhead]
  dsimp only
  refine ⟨?_, fun c hc => ?_⟩
  · rw [map_map]
    exact map_id _
  · obtain ⟨dst, -, rfl⟩ := mem_map.mp hc
    exact mem_of_head? hhead

theorem map_node_dropsOf {b : ℕ} (hb : b < numBuckets) :
    (mv.plan.dropsOf b).map Drop.node = (mv.oldOwners b).filter (· ∉ mv.newOwners b) := by
  rw [dropsOf_plan, if_pos hb, bucketDrops, map_map]
  exact map_id _

/-- **Membership changes move the minimum.**  When a node joins, everything is copied to it, and no
bucket has more than one copy or drop; when a node leaves, everything is dropped by it, and no bucket
has more than one copy; and in general a bucket is copied, from an old owner, to the owners it gains,
and dropped by the owners it loses. -/
theorem plan_moves_minimum (mv : Move) :
    (∀ x, mv.old ≠ [] → mv.new.Perm (x :: mv.old) → mv.new.Nodup → DistinctHashes mv.new →
      (∀ c ∈ mv.plan.copies, c.dst = x) ∧
        ∀ b, (mv.plan.copiesOf b).length ≤ 1 ∧ (mv.plan.dropsOf b).length ≤ 1) ∧
    (∀ x, mv.new ≠ [] → mv.old.Perm (x :: mv.new) → mv.old.Nodup → DistinctHashes mv.old →
      (∀ d ∈ mv.plan.drops, d.node = x) ∧ ∀ b, (mv.plan.copiesOf b).length ≤ 1) ∧
    (mv.old ≠ [] → mv.new ≠ [] → mv.old.Nodup → mv.new.Nodup → ∀ b < numBuckets,
      (((mv.plan.copiesOf b).map Copy.dst).Nodup ∧ ((mv.plan.dropsOf b).map Drop.node).Nodup) ∧
      (∀ n, n ∈ (mv.plan.copiesOf b).map Copy.dst ↔ n ∈ mv.newOwners b ∧ n ∉ mv.oldOwners b) ∧
      (∀ c ∈ mv.plan.copiesOf b, c.src ∈ mv.oldOwners b) ∧
      ∀ n, n ∈ (mv.plan.dropsOf b).map Drop.node ↔ n ∈ mv.oldOwners b ∧ n ∉ mv.newOwners b) := by
  refine ⟨fun x hold hperm hnd hd => ⟨?_, fun b => ⟨?_, ?_⟩⟩,
    fun x hnew hperm hnd hd => ⟨?_, fun b => ?_⟩, fun hold hnew hndo hndn b hb => ?_⟩
  · rintro ⟨b, src, dst⟩ hc
    obtain ⟨-, -, hdst, hgained⟩ := mem_planCopies.mp hc
    rw [oldOwners_eq_ownersAmong hold] at hgained
    exact (mem_ownersAmong_of_insert hold hperm hnd hd b hdst).resolve_right hgained
  · refine (mv.length_copiesOf_le b).trans ?_
    rw [oldOwners_eq_ownersAmong hold]
    exact length_gained_le_one hold hperm hnd hd b
  · refine (mv.length_dropsOf_le b).trans ?_
    rw [oldOwners_eq_ownersAmong hold]
    exact length_lost_le_one hold hperm hnd hd b
  · rintro ⟨b, n⟩ hc
    obtain ⟨-, hn, hlost⟩ := mem_planDrops.mp hc
    have hold : mv.old ≠ [] := by
      rintro heq
      rw [heq] at hperm
      exact absurd hperm.length_eq (by simp)
    rw [oldOwners_eq_ownersAmong hold] at hn
    exact (mem_ownersAmong_of_insert hnew hperm hnd hd b hn).resolve_right hlost
  · have hold : mv.old ≠ [] := by
      rintro heq
      rw [heq] at hperm
      exact absurd hperm.length_eq (by simp)
    refine (mv.length_copiesOf_le b).trans ?_
    rw [oldOwners_eq_ownersAmong hold]
    exact length_lost_le_one hnew hperm hnd hd b
  · obtain ⟨hdst, hsrc⟩ := copiesOf_spec hold hndo hb
    have hndOld : (mv.oldOwners b).Nodup := by
      rw [oldOwners_eq_ownersAmong hold]
      exact nodup_ownersAmong hndo b
    have hndNew : (mv.newOwners b).Nodup := nodup_ownersAmong hndn b
    rw [hdst, map_node_dropsOf hb]
    refine ⟨⟨hndNew.filter _, hndOld.filter _⟩, fun n => ?_, hsrc, fun n => ?_⟩
    · rw [mem_filter, decide_eq_true_iff]
    · rw [mem_filter, decide_eq_true_iff]

/-- The node `c` joins the rack of `b`. -/
def joining : Move :=
  ⟨["a", "b"], ["b", "c", "a"], 2, ((∅ : Topology).insert "b" "r").insert "c" "r"⟩

theorem plan_moves_minimum_joining :
    (joining.old ≠ [] ∧ joining.new.Perm ("c" :: joining.old) ∧ DistinctHashes joining.new) ∧
      ∀ c ∈ joining.plan.copies, c.dst = "c" := by
  have hold : joining.old ≠ [] := by decide
  have hperm : joining.new.Perm ("c" :: joining.old) := by decide
  have hnd : joining.new.Nodup := by decide
  have hd : DistinctHashes joining.new := by
    decide +kernel
  exact ⟨⟨hold, hperm, hd⟩, ((plan_moves_minimum joining).1 "c" hold hperm hnd hd).1⟩

end Move

end Stplr
