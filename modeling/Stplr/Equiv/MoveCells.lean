import Stplr.Equiv.CallCells

/-!
# What a migration does to the cells

`σ c k` is the value that the owners of `k` hold under `(c, k)`.  `MoveInv` says what the nodes that
do not own a bucket hold of it: nothing, except for the nodes that the copies of the running chunk
have reached and for those that its drops have not.  Every step of a migration whose shard calls
succeed keeps `MoveInv` (`MoveInv.step`), leaves the cells of the owners alone (`cell_step`) and
hands the values of a chunk over to its new owners when it is cut over (`hold_step`).
-/

namespace Stplr

open Lib List Migration

/-- The chunk that is being copied or dropped. -/
def MigPhase.chunk : MigPhase → List ℕ
  | .copying ch _ | .dropping ch _ => ch
  | _ => []

namespace Move

/-- The buckets are of the chunk, leave `src` for `dst`, and are new there. -/
def Gains (mv : Move) (ch : List ℕ) (src dst : NodeId) (bs : List ℕ) : Prop :=
  ∀ b ∈ bs, b ∈ ch ∧ src ∈ mv.oldOwners b ∧ dst ∈ mv.newOwners b ∧ dst ∉ mv.oldOwners b

/-- The buckets are of the chunk and `n` stops owning them. -/
def Loses (mv : Move) (ch : List ℕ) (n : NodeId) (bs : List ℕ) : Prop :=
  ∀ b ∈ bs, b ∈ ch ∧ n ∈ mv.oldOwners b ∧ n ∉ mv.newOwners b

end Move

namespace CopyJob

/-- The job will bring bucket `b` of collection `c` to `n`. -/
def Carries (b : ℕ) (c : String) (n : NodeId) : CopyJob → Prop
  | .pair _ dst bs => dst = n ∧ b ∈ bs
  | .transfer _ dst bs _ coll => dst = n ∧ b ∈ bs ∧ coll = c
  | .deliver _ dst bs _ coll _ => dst = n ∧ b ∈ bs ∧ coll = c

/-- The job is part of the move, and what it delivers is what the owners hold. -/
def Ok (mv : Move) (colls : List String) (σ : String → String → Option Value) (ch : List ℕ) :
    CopyJob → Prop
  | .pair src dst bs => bs ≠ [] ∧ mv.Gains ch src dst bs
  | .transfer src dst bs _ coll => mv.Gains ch src dst bs ∧ coll ∈ colls
  | .deliver src dst bs _ coll es => mv.Gains ch src dst bs ∧ coll ∈ colls ∧
      (es.map Prod.fst).Nodup ∧
      ∀ k, es.lookup k = if bucketOf k ∈ bs then σ coll k else none

end CopyJob

namespace DropJob

/-- The job will remove bucket `b` of collection `c` from `n`. -/
def Carries (b : ℕ) (c : String) (n : NodeId) : DropJob → Prop
  | .node m bs => m = n ∧ b ∈ bs
  | .drop m bs _ coll => m = n ∧ b ∈ bs ∧ coll = c

def Ok (mv : Move) (colls : List String) (ch : List ℕ) : DropJob → Prop
  | .node n bs => bs ≠ [] ∧ mv.Loses ch n bs
  | .drop n bs _ coll => mv.Loses ch n bs ∧ coll ∈ colls

end DropJob

namespace Move

/-- What a node that does not own the bucket of `k` may hold under `(c, k)`. -/
def Stray (mv : Move) (σ : String → String → Option Value) (ph : MigPhase) (c k : String)
    (n : NodeId) (x : Option Value) : Prop :=
  match ph with
  | .copying ch jobs =>
    (x = none ∧ (bucketOf k ∈ ch → n ∈ mv.newOwners (bucketOf k) →
      ∃ job ∈ jobs, job.Carries (bucketOf k) c n)) ∨
    (bucketOf k ∈ ch ∧ n ∈ mv.newOwners (bucketOf k) ∧ x = σ c k)
  | .dropping _ jobs => x = none ∨ ∃ job ∈ jobs, job.Carries (bucketOf k) c n
  | _ => x = none

/-- The jobs of the running chunk are part of the move. -/
def JobsOk (mv : Move) (colls : List String) (σ : String → String → Option Value) (ph : MigPhase) :
    Prop :=
  match ph with
  | .copying ch jobs => ∀ job ∈ jobs, job.Ok mv colls σ ch
  | .dropping ch jobs => ∀ job ∈ jobs, job.Ok mv colls ch
  | _ => True

variable {St : Type} [IndexStore St]

/-- The state of the cells outside the owners. -/
structure MoveInv (mv : Move) (colls : List String) (σ : String → String → Option Value)
    (w : World St) (m : Migration) : Prop where
  jobs : JobsOk mv colls σ m.phase
  stray : ∀ c ∈ colls, ∀ k n, n ∉ w.cluster.routes (bucketOf k) →
    Stray mv σ m.phase c k n (w.cell c k n)

variable {mv : Move} {colls : List String} {σ : String → String → Option Value} {w : World St}
  {m : Migration}

/-- Between two phases without jobs nothing happens to the cells. -/
theorem MoveInv.of_jobless (h : MoveInv mv colls σ w m) {w' : World St} {m' : Migration}
    (hm : ∀ c k n x, Stray mv σ m.phase c k n x → x = none)
    (hm' : ∀ c k n, Stray mv σ m'.phase c k n none) (hj : JobsOk mv colls σ m'.phase)
    (hcell : ∀ c k n, w'.cell c k n = w.cell c k n)
    (hR : ∀ k n, n ∈ w'.cluster.routes (bucketOf k) ↔ n ∈ w.cluster.routes (bucketOf k)) :
    MoveInv mv colls σ w' m' where
  jobs := hj
  stray := by
    intro c hc k n hn
    rw [hcell, hm c k n _ (h.stray c hc k n fun hn' => hn ((hR k n).mpr hn'))]
    exact hm' c k n

/-! ### The copies of a chunk -/

section Copying

variable {ch : List ℕ} {done : Finset ℕ}

/-- The copies of a chunk reach every node that gains one of its buckets. -/
theorem MoveInv.drain (hv : mv.Valid) (h : MoveInv mv colls σ w m) (hp : m.phase = .draining ch)
    (hu : Underway mv w.cluster m ch m.done) :
    MoveInv mv colls σ w { m with phase := .copying ch (copyJobs m.actions ch) } := by
  obtain ⟨d₀, hacts, hd₀⟩ := hu.laid.actions
  constructor
  · intro job hjob
    rw [hacts] at hjob
    obtain ⟨src, dst, bs, rfl, hbs⟩ := mem_copyJobs hjob
    exact ⟨ne_nil_of_mem_copyJobs hjob,
      fun b hb => ⟨(hbs b hb).1, mem_of_mem_head? (hbs b hb).2.1, (hbs b hb).2.2⟩⟩
  · intro c hc k n hn
    have hx := h.stray c hc k n hn
    rw [hp] at hx
    refine .inl ⟨hx, fun hb hnew => ?_⟩
    have hpend := hu.laid.pending _ (mem_append_left _ hb)
    have hold : n ∉ mv.oldOwners (bucketOf k) := by
      rwa [hu.routes_eq hv, if_neg hpend.1] at hn
    obtain ⟨src, bs, hjob, hbs⟩ :=
      exists_copyJob hv hb hpend.2.1 (fun hd => hpend.1 (hd₀ hd)) hnew hold
    exact ⟨.pair src n bs, hacts ▸ hjob, rfl, hbs⟩

variable {jobs : List CopyJob} {bs : List ℕ} {net : MigCall → Outcome} {coll : String} {i : ℕ}
  {es : List (String × Value)}

theorem MoveInv.copy_pair (hv : mv.Valid) (hf : Fixed mv colls w.cluster)
    (h : MoveInv mv colls σ w m) {src dst : NodeId}
    (hp : m.phase = .copying ch (.pair src dst bs :: jobs)) (hu : Underway mv w.cluster m ch m.done)
    : MoveInv mv colls σ (m.copyStep net w ch (.pair src dst bs :: jobs)).1
      (m.copyStep net w ch (.pair src dst bs :: jobs)).2 := by
  have hjobs : ∀ job ∈ CopyJob.pair src dst bs :: jobs, job.Ok mv colls σ ch := by
    have := h.jobs
    rwa [hp] at this
  have hgain : mv.Gains ch src dst bs := (hjobs _ (mem_cons_self ..)).2
  constructor
  · intro job hjob
    rcases mem_append.mp hjob with hjob | hjob
    · split_ifs at hjob
      · obtain ⟨ci, hci, rfl⟩ := mem_map.mp hjob
        exact ⟨hgain, hf.colls ▸ fst_mem_of_mem_zipIdx hci⟩
      · cases hjob
    · exact hjobs job (mem_cons_of_mem _ hjob)
  · intro c hc k n hn
    have hx := h.stray c hc k n hn
    rw [hp] at hx
    refine hx.imp_left (And.imp_right fun hcov hb hnew => ?_)
    obtain ⟨job, hjob, hcar⟩ := hcov hb hnew
    rcases mem_cons.mp hjob with rfl | hjob
    · obtain ⟨rfl, hbs⟩ := hcar
      obtain ⟨-, hsrc, hdst, -⟩ := hgain _ hbs
      have hcl : src ∈ w.cluster.clients ∧ dst ∈ w.cluster.clients :=
        ⟨hu.clients _ (.inl (hv.mem_old hsrc)), hu.clients _ (.inr (hv.mem_new hdst))⟩
      obtain ⟨i, hi⟩ := mem_iff_getElem?.mp (hf.colls.symm ▸ hc)
      refine ⟨.transfer src dst bs i c, mem_append_left _ ?_, rfl, hbs, rfl⟩
      rw [if_pos hcl]
      exact mem_map.mpr ⟨(c, i), mk_mem_zipIdx_iff_getElem?.mpr hi, rfl⟩
    · exact ⟨job, mem_append_right _ hjob, hcar⟩

omit [IndexStore St] in
/-- In a chunk that is being copied the owners are the old ones. -/
theorem Underway.routes_of_mem (hv : mv.Valid) (hu : Underway mv w.cluster m ch m.done) {b : ℕ}
    (hb : b ∈ ch) : w.cluster.routes b = mv.oldOwners b := by
  rw [hu.routes_eq hv, if_neg (hu.laid.pending b (mem_append_left _ hb)).1]

variable [LawfulStore St]

theorem MoveInv.copy_transfer (hv : mv.Valid) (h : MoveInv mv colls σ w m) {src dst : NodeId}
    (hp : m.phase = .copying ch (.transfer src dst bs i coll :: jobs))
    (hu : Underway mv w.cluster m ch m.done) (hhold : ∀ c ∈ colls, ∀ k, bucketOf k ∈ ch →
      Hold (w.cell c k) (w.cluster.routes (bucketOf k)) (σ c k)) :
    MoveInv mv colls σ (m.copyStep (fun _ => .ok) w ch (.transfer src dst bs i coll :: jobs)).1
      (m.copyStep (fun _ => .ok) w ch (.transfer src dst bs i coll :: jobs)).2 := by
  have hjobs : ∀ job ∈ CopyJob.transfer src dst bs i coll :: jobs, job.Ok mv colls σ ch := by
    have := h.jobs
    rwa [hp] at this
  obtain ⟨hgain, hcoll⟩ : mv.Gains ch src dst bs ∧ coll ∈ colls := hjobs _ (mem_cons_self ..)
  -- the source is an owner, so it exports what the owners hold
  have hlook : ∀ k, ((w.shards src).exportEntries w.now coll bs).lookup k
      = if bucketOf k ∈ bs then σ coll k else none := by
    intro k
    rw [Shard.lookup_exportEntries]
    split_ifs with hb
    · obtain ⟨hch, hsrc, -, -⟩ := hgain _ hb
      refine hhold coll hcoll k hch src ?_
      rwa [hu.routes_of_mem hv hch]
    · rfl
  constructor
  · intro job hjob
    rcases mem_append.mp hjob with hjob | hjob
    · split_ifs at hjob
      · cases hjob
      · obtain rfl := mem_singleton.mp hjob
        exact ⟨hgain, hcoll, Shard.nodup_exportEntries .., hlook⟩
    · exact hjobs job (mem_cons_of_mem _ hjob)
  · intro c hc k n hn
    have hx := h.stray c hc k n hn
    rw [hp] at hx
    rcases hx with ⟨hnone, hcov⟩ | hval
    · by_cases hthis : dst = n ∧ bucketOf k ∈ bs ∧ coll = c
      · obtain ⟨rfl, hbs, rfl⟩ := hthis
        obtain ⟨hch, -, hnew, -⟩ := hgain _ hbs
        by_cases hes : (w.shards src).exportEntries w.now coll bs = []
        · -- nothing to deliver: the owners hold nothing
          have hσ := hlook k
          rw [hes, if_pos hbs] at hσ
          exact .inr ⟨hch, hnew, hnone.trans hσ⟩
        · refine .inl ⟨hnone, fun _ _ => ⟨.deliver src dst bs i coll
            ((w.shards src).exportEntries w.now coll bs), mem_append_left _ ?_, rfl, hbs, rfl⟩⟩
          change _ ∈ if (w.shards src).exportEntries w.now coll bs = [] then _ else _
          rw [if_neg hes]
          exact mem_singleton.mpr rfl
      · refine .inl ⟨hnone, fun hb hnew => ?_⟩
        obtain ⟨job, hjob, hcar⟩ := hcov hb hnew
        rcases mem_cons.mp hjob with rfl | hjob
        · exact absurd hcar hthis
        · exact ⟨job, mem_append_right _ hjob, hcar⟩
    · exact .inr hval

/-- What an import does to the cells. -/
theorem cell_importCall (net : MigCall → Outcome) (w : World St) (src dst : NodeId) (bs : List ℕ)
    (i : ℕ) (coll : String) (hnd : (es.map Prod.fst).Nodup) (c k : String) (n : NodeId) :
    (importCall net w src dst bs i coll es).cell c k n
      = if (net (.importEntries src dst bs i)).effective = true ∧ n = dst ∧ c = coll then
          (es.lookup k).or (w.cell c k n) else w.cell c k n := by
  rw [importCall]
  by_cases heff : (net (.importEntries src dst bs i)).effective = true
  · rw [if_pos heff, World.cell_setShard]
    by_cases hn : n = dst
    · subst hn
      rw [if_pos rfl, Shard.object_importEntries _ _ _ hnd]
      simp only [heff, true_and]
      rfl
    · simp [hn]
  · rw [if_neg heff]
    simp [heff]

theorem cell_deliver (w : World St) {src dst : NodeId} (hnd : (es.map Prod.fst).Nodup)
    (c k : String) (n : NodeId) :
    (importCall (fun _ => .ok) w src dst bs i coll es).cell c k n
      = if n = dst ∧ c = coll then (es.lookup k).or (w.cell c k n) else w.cell c k n := by
  rw [cell_importCall _ _ _ _ _ _ _ hnd]
  simp only [Outcome.effective, true_and]

theorem MoveInv.copy_deliver (h : MoveInv mv colls σ w m) {src dst : NodeId}
    (hp : m.phase = .copying ch (.deliver src dst bs i coll es :: jobs)) :
    MoveInv mv colls σ (importCall (fun _ => .ok) w src dst bs i coll es)
      { m with phase := .copying ch jobs } := by
  have hjobs : ∀ job ∈ CopyJob.deliver src dst bs i coll es :: jobs, job.Ok mv colls σ ch := by
    have := h.jobs
    rwa [hp] at this
  obtain ⟨hgain, -, hnd, hlook⟩ : CopyJob.Ok mv colls σ ch (.deliver src dst bs i coll es) :=
    hjobs _ (mem_cons_self ..)
  refine ⟨fun job hjob => hjobs job (mem_cons_of_mem _ hjob), fun c hc k n hn => ?_⟩
  have hx := h.stray c hc k n (by simpa using hn)
  rw [hp] at hx
  change Stray mv σ (.copying ch jobs) c k n
    ((importCall (fun _ => .ok) w src dst bs i coll es).cell c k n)
  rw [cell_deliver w hnd]
  by_cases hthis : dst = n ∧ bucketOf k ∈ bs ∧ coll = c
  · obtain ⟨rfl, hbs, rfl⟩ := hthis
    obtain ⟨hch, -, hnew, -⟩ := hgain _ hbs
    refine .inr ⟨hch, hnew, ?_⟩
    rw [if_pos ⟨rfl, rfl⟩, hlook, if_pos hbs]
    rcases hx with ⟨hnone, -⟩ | ⟨-, -, hval⟩
    · rw [hnone, Option.or_none]
    · rw [hval, Option.or_self]
  · have hsame : (if n = dst ∧ c = coll then (es.lookup k).or (w.cell c k n) else w.cell c k n)
        = w.cell c k n := by
      split_ifs with hnc
      · rw [hlook, if_neg fun hbs => hthis ⟨hnc.1.symm, hbs, hnc.2.symm⟩, Option.none_or]
      · rfl
    rw [hsame]
    refine hx.imp_left (And.imp_right fun hcov hb hnew => ?_)
    obtain ⟨job, hjob, hcar⟩ := hcov hb hnew
    rcases mem_cons.mp hjob with rfl | hjob
    · exact absurd hcar hthis
    · exact ⟨job, hjob, hcar⟩

omit [LawfulStore St] in
/-- The cutover: what the chunk's drops have to remove is with its former owners. -/
theorem MoveInv.cutover (hv : mv.Valid) (h : MoveInv mv colls σ w m) (hp : m.phase = .copying ch [])
    (hu : Underway mv w.cluster m ch m.done)
    (hu' : Underway mv (w.cluster.cutover ch)
      { m with phase := .dropping ch (dropJobs m.actions ch) } ch (m.done ∪ ch.toFinset)) :
    MoveInv mv colls σ (w.setCluster (w.cluster.cutover ch))
      { m with phase := .dropping ch (dropJobs m.actions ch) } := by
  obtain ⟨d₀, hacts, hd₀⟩ := hu.laid.actions
  constructor
  · intro job hjob
    rw [hacts] at hjob
    obtain ⟨n, bs, rfl, hbs⟩ := mem_dropJobs hjob
    exact ⟨ne_nil_of_mem_dropJobs hjob, hbs⟩
  · intro c hc k n hn
    change n ∉ (w.cluster.cutover ch).routes (bucketOf k) at hn
    rw [hu'.routes_eq hv] at hn
    by_cases hb : bucketOf k ∈ ch
    · rw [if_pos (Finset.mem_union_right _ (mem_toFinset.mpr hb))] at hn
      by_cases hold : n ∈ mv.oldOwners (bucketOf k)
      · have hpend := hu.laid.pending _ (mem_append_left _ hb)
        obtain ⟨bs, hjob, hbs⟩ := exists_dropJob hb hpend.2.1 (fun hd => hpend.1 (hd₀ hd)) hold hn
        exact .inr ⟨.node n bs, hacts ▸ hjob, rfl, hbs⟩
      · have hx := h.stray c hc k n (by rwa [hu.routes_of_mem hv hb])
        rw [hp] at hx
        rcases hx with ⟨hnone, -⟩ | ⟨-, hnew, -⟩
        · exact .inl hnone
        · exact absurd hnew hn
    · have hcut : bucketOf k ∈ m.done ∪ ch.toFinset ↔ bucketOf k ∈ m.done := by
        simp [hb]
      simp only [hcut] at hn
      have hx := h.stray c hc k n (by rwa [hu.routes_eq hv])
      rw [hp] at hx
      rcases hx with ⟨hnone, -⟩ | ⟨hb', -, -⟩
      · exact .inl hnone
      · exact absurd hb' hb

end Copying

/-! ### The drops of a chunk -/

section Dropping

variable {ch : List ℕ} {n₀ : NodeId} {bs : List ℕ} {jobs : List DropJob}

theorem MoveInv.drop_node (hv : mv.Valid) (hf : Fixed mv colls w.cluster)
    (h : MoveInv mv colls σ w m) {net : MigCall → Outcome}
    (hp : m.phase = .dropping ch (.node n₀ bs :: jobs)) {cut : Finset ℕ}
    (hu : Underway mv w.cluster m ch cut) :
    MoveInv mv colls σ (m.dropStep net w ch (.node n₀ bs :: jobs)).1
      (m.dropStep net w ch (.node n₀ bs :: jobs)).2 := by
  have hjobs : ∀ job ∈ DropJob.node n₀ bs :: jobs, job.Ok mv colls ch := by
    have := h.jobs
    rwa [hp] at this
  have hlose : mv.Loses ch n₀ bs := (hjobs _ (mem_cons_self ..)).2
  constructor
  · intro job hjob
    rcases mem_append.mp hjob with hjob | hjob
    · split_ifs at hjob
      · obtain ⟨ci, hci, rfl⟩ := mem_map.mp hjob
        exact ⟨hlose, hf.colls ▸ fst_mem_of_mem_zipIdx hci⟩
      · cases hjob
    · exact hjobs job (mem_cons_of_mem _ hjob)
  · intro c hc k n hn
    have hx := h.stray c hc k n hn
    rw [hp] at hx
    refine hx.imp_right ?_
    rintro ⟨job, hjob, hcar⟩
    rcases mem_cons.mp hjob with rfl | hjob
    · obtain ⟨rfl, hbs⟩ := hcar
      have hcl : n₀ ∈ w.cluster.clients := hu.clients _ (.inl (hv.mem_old (hlose _ hbs).2.1))
      obtain ⟨i, hi⟩ := mem_iff_getElem?.mp (hf.colls.symm ▸ hc)
      refine ⟨.drop n₀ bs i c, mem_append_left _ ?_, rfl, hbs, rfl⟩
      rw [if_pos hcl]
      exact mem_map.mpr ⟨(c, i), mk_mem_zipIdx_iff_getElem?.mpr hi, rfl⟩
    · exact ⟨job, mem_append_right _ hjob, hcar⟩

variable [LawfulStore St]

/-- What a drop does to the cells. -/
theorem cell_dropCall (net : MigCall → Outcome) (w : World St) (n₀ : NodeId) (bs : List ℕ) (i : ℕ)
    (coll c k : String) (n : NodeId) : (dropCall net w n₀ bs i coll).1.cell c k n
      = if (net (.dropBuckets n₀ bs i)).effective = true ∧ n = n₀ ∧ c = coll ∧ bucketOf k ∈ bs then
          none else w.cell c k n := by
  rw [dropCall]
  dsimp only
  by_cases heff : (net (.dropBuckets n₀ bs i)).effective = true
  · rw [if_pos heff, World.cell_setShard]
    by_cases hn : n = n₀
    · subst hn
      rw [if_pos rfl, Shard.object_dropBuckets]
      simp only [heff, true_and]
      rfl
    · simp [hn]
  · rw [if_neg heff]
    simp [heff]

theorem cell_drop (w : World St) (n₀ : NodeId) (bs : List ℕ) (i : ℕ) (coll c k : String)
    (n : NodeId) : (dropCall (fun _ => .ok) w n₀ bs i coll).1.cell c k n
      = if n = n₀ ∧ c = coll ∧ bucketOf k ∈ bs then none else w.cell c k n := by
  rw [cell_dropCall]
  simp only [Outcome.effective, true_and]

theorem MoveInv.drop_drop (h : MoveInv mv colls σ w m) {i : ℕ} {coll : String}
    (hp : m.phase = .dropping ch (.drop n₀ bs i coll :: jobs)) :
    MoveInv mv colls σ (dropCall (fun _ => .ok) w n₀ bs i coll).1 { m with
        dropped := m.dropped + (dropCall (fun _ => .ok) w n₀ bs i coll).2
        phase := .dropping ch jobs } := by
  have hjobs : ∀ job ∈ DropJob.drop n₀ bs i coll :: jobs, job.Ok mv colls ch := by
    have := h.jobs
    rwa [hp] at this
  refine ⟨fun job hjob => hjobs job (mem_cons_of_mem _ hjob), fun c hc k n hn => ?_⟩
  have hx := h.stray c hc k n (by simpa using hn)
  rw [hp] at hx
  change Stray mv σ (.dropping ch jobs) c k n
    ((dropCall (fun _ => .ok) w n₀ bs i coll).1.cell c k n)
  rw [cell_drop]
  split_ifs with hthis
  · exact .inl rfl
  · refine hx.imp_right ?_
    rintro ⟨job, hjob, hcar⟩
    rcases mem_cons.mp hjob with rfl | hjob
    · obtain ⟨rfl, hbs, rfl⟩ := hcar
      exact absurd ⟨rfl, rfl, hbs⟩ hthis
    · exact ⟨job, hjob, hcar⟩

end Dropping

/-! ### Every step -/

section Steps

variable [LawfulStore St] {r : World St × Migration}

/-- The owners of the running chunk agree. -/
def ChunkHolds (colls : List String) (σ : String → String → Option Value) (w : World St)
    (m : Migration) : Prop :=
  ∀ c ∈ colls, ∀ k, bucketOf k ∈ m.phase.chunk →
    Hold (w.cell c k) (w.cluster.routes (bucketOf k)) (σ c k)

/-- Every step of a migration keeps the invariant of the cells. -/
theorem MoveInv.step (hv : mv.Valid) (hf : Fixed mv colls w.cluster) (hph : PhaseInv mv w.cluster m)
    (h : MoveInv mv colls σ w m) (hhold : ChunkHolds colls σ w m)
    (hs : m.Trans (fun _ => .ok) w r) : MoveInv mv colls σ r.1 r.2 := by
  have hroutes := fun (hq : ∀ b, ¬CutsOver m b) k =>
    mem_routes_step hv hf hph hs (bucketOf_lt k) (hq _)
  have hph' := (hph.step hv hf hs).2
  unfold PhaseInv at hph
  cases hs with
  | drain hp hd =>
    rw [hp] at hph
    exact h.drain hv hp hph.1
  | cutover hp =>
    rw [hp] at hph
    exact h.cutover hv hp hph.1 hph'.1
  | pair hp =>
    rw [hp] at hph
    exact h.copy_pair hv hf hp hph.1
  | @transfer ch _ _ _ _ _ _ hp =>
    rw [hp] at hph
    exact h.copy_transfer hv hp hph.1 fun c hc k hb => hhold c hc k (by rwa [hp])
  | deliver hp => exact h.copy_deliver hp
  | thaw hp =>
    refine h.of_jobless (fun c k n x hx => ?_) (fun _ _ _ => rfl) trivial (fun _ _ _ => rfl)
      (hroutes (not_cutsOver (by simp [hp])))
    rw [hp] at hx
    refine hx.resolve_right ?_
    rintro ⟨job, hjob, -⟩
    exact absurd hjob not_mem_nil
  | node hp =>
    rw [hp] at hph
    exact h.drop_node hv hf hp hph.1
  | drop hp => exact h.drop_drop hp
  | _ hp =>
    exact h.of_jobless (fun c k n x hx => by rwa [hp] at hx) (fun _ _ _ => rfl) trivial
      (fun _ _ _ => rfl) (hroutes (not_cutsOver (by simp [hp])))

/-- No step touches what an owner holds. -/
theorem MoveInv.cell_step (hv : mv.Valid) (hph : PhaseInv mv w.cluster m)
    (h : MoveInv mv colls σ w m) (hs : m.Trans (fun _ => .ok) w r) {c k : String} {n : NodeId}
    (hn : n ∈ w.cluster.routes (bucketOf k)) : r.1.cell c k n = w.cell c k n := by
  unfold PhaseInv at hph
  have hjobs := h.jobs
  cases hs with
  | @deliver ch src dst bs i coll es jobs hp =>
    rw [hp] at hph hjobs
    obtain ⟨hgain, -, hnd, hlook⟩ : CopyJob.Ok mv colls σ ch (.deliver src dst bs i coll es) :=
      hjobs _ (mem_cons_self ..)
    dsimp only
    rw [cell_deliver w hnd]
    split_ifs with hthis
    · obtain ⟨rfl, rfl⟩ := hthis
      have hb : bucketOf k ∉ bs := by
        intro hb
        rw [hph.1.routes_of_mem hv (hgain _ hb).1] at hn
        exact (hgain _ hb).2.2.2 hn
      rw [hlook, if_neg hb, Option.none_or]
    · rfl
  | @drop ch n₀ bs i coll jobs hp =>
    rw [hp] at hph hjobs
    obtain ⟨hlose, -⟩ : DropJob.Ok mv colls ch (.drop n₀ bs i coll) := hjobs _ (mem_cons_self ..)
    dsimp only
    rw [cell_drop, if_neg]
    rintro ⟨rfl, -, hb⟩
    rw [hph.1.routes_eq hv, if_pos (Finset.mem_union_right _
      (mem_toFinset.mpr (hlose _ hb).1))] at hn
    exact (hlose _ hb).2.2 hn
  | _ => rfl

omit [LawfulStore St] in
/-- When a chunk has been copied, its new owners hold what the old ones do. -/
theorem MoveInv.hold_cutover (h : MoveInv mv colls σ w m) {ch : List ℕ}
    (hp : m.phase = .copying ch []) {c k : String} (hc : c ∈ colls) (hb : bucketOf k ∈ ch)
    (hhold : Hold (w.cell c k) (w.cluster.routes (bucketOf k)) (σ c k)) :
    Hold (w.cell c k) (mv.newOwners (bucketOf k)) (σ c k) := by
  intro n hn
  by_cases hold : n ∈ w.cluster.routes (bucketOf k)
  · exact hhold n hold
  · have hx := h.stray c hc k n hold
    rw [hp] at hx
    rcases hx with ⟨-, hcov⟩ | ⟨-, -, hval⟩
    · obtain ⟨job, hjob, -⟩ := hcov hb hn
      exact absurd hjob not_mem_nil
    · exact hval

/-- If all owners hold one value before a step, all owners hold it after the step. -/
theorem MoveInv.hold_step (hv : mv.Valid) (hf : Fixed mv colls w.cluster)
    (hph : PhaseInv mv w.cluster m) (h : MoveInv mv colls σ w m)
    (hs : m.Trans (fun _ => .ok) w r) {c k : String} (hc : c ∈ colls)
    (hhold : Hold (w.cell c k) (w.cluster.routes (bucketOf k)) (σ c k)) :
    Hold (r.1.cell c k) (r.1.cluster.routes (bucketOf k)) (σ c k) := by
  by_cases hcut : CutsOver m (bucketOf k)
  · obtain ⟨ch, hp, hb⟩ := hcut
    have hnew := h.hold_cutover hp hc hb hhold
    obtain ⟨-, hph'⟩ := hph.step hv hf hs
    cases hs with
    | @cutover ch' hp' =>
      obtain ⟨rfl, -⟩ := MigPhase.copying.inj (hp.symm.trans hp')
      have hu' : Underway mv (w.cluster.cutover ch) _ ch (m.done ∪ ch.toFinset) := hph'.1
      change Hold (w.cell c k) ((w.cluster.cutover ch).routes (bucketOf k)) (σ c k)
      rwa [hu'.routes_eq hv, if_pos (Finset.mem_union_right _ (mem_toFinset.mpr hb))]
    | _ hp' => rw [hp] at hp'; cases hp'
  · exact hhold.congr (fun n hn => h.cell_step hv hph hs hn)
      (mem_routes_step hv hf hph hs (bucketOf_lt k) hcut)

/-- A migration brings no expiry into a managed collection. -/
theorem noTtl_step (hs : m.Trans (fun _ => .ok) w r) (h : w.NoTtl colls) : r.1.NoTtl colls := by
  cases hs with
  | deliver => exact h.setShard _ fun c hc k => Shard.expiryAt_importEntries _ _ _ (h _ c hc k)
  | drop => exact h.setShard _ fun c hc k => Shard.expiryAt_dropBuckets _ _ _ _ (h _ c hc k)
  | _ => exact h

end Steps

end Move

end Stplr
