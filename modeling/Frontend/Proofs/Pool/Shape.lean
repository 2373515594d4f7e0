import Frontend.Proofs.Pool.Accounting

/-! # Pools that keep step

Where a request lands depends on positions and chunks only, not on the addresses that the system gave,
as long as it asks for no more alignment than segments have. Two pools that count alike therefore go on
counting alike, and one with the larger reservation gives out no earlier.
-/
namespace Frontend.Pool

/-- A request that is not empty and asks for no more alignment than segments have. -/
structure Layout.Ordinary (l : Layout) : Prop where
  size_pos : 0 < l.size
  align_le : l.align ≤ segmentAlign

def Segment.extent (s : Segment) : Nat × Nat := (s.base, s.len)

def Block.extent (b : Block) : Nat × Nat := (b.position, b.size)

/-- The second system grants what the first one grants, of the lengths that a pool commits. -/
def System.Covers (sys sys' : System) : Prop :=
  ∀ base len, len + segmentAlign ≤ spanLimit →
    ∀ start, sys.grant base len = some start → ∃ start', sys'.grant base len = some start'

def System.GrantsAll (sys : System) : Prop :=
  ∀ base len, len + segmentAlign ≤ spanLimit → ∃ start, sys.grant base len = some start

def System.full : System where
  grant _ len := if segmentAlign + len ≤ wordLimit then some segmentAlign else none
  aligned h := by
    split at h <;> cases h
    exact Nat.dvd_refl _
  inSpace h := by
    split at h <;> cases h
    assumption

theorem System.full_grantsAll : full.GrantsAll := by
  intro base len hlen
  have hhalf : spanLimit < wordLimit := by decide
  exact ⟨segmentAlign, if_pos (by omega)⟩

theorem System.Covers.refl (sys : System) : sys.Covers sys := fun _ _ _ start h => ⟨start, h⟩

theorem System.GrantsAll.covers {sys' : System} (h : sys'.GrantsAll) (sys : System) :
    sys.Covers sys' := fun base len hlen _ _ => h base len hlen

def counts (p : Pool) : Nat × Nat × Nat := (p.used, p.committed, p.segments.length)

/-- The pools count alike, and the second one may commit as much as the first one. -/
structure InStep (p q : Pool) : Prop where
  chunk : p.config.chunk = q.config.chunk
  reservation : p.config.reservation ≤ q.config.reservation
  current : p.current.extent = q.current.extent
  earlier : p.earlier.map Segment.extent = q.earlier.map Segment.extent
  used : p.used = q.used
  committed : p.committed = q.committed

theorem roundUp_add {a n : Nat} (h : a ∣ n) (m : Nat) : roundUp (n + m) a = n + roundUp m a := by
  obtain ⟨k, rfl⟩ := h
  rw [roundUp, roundUp, Nat.mul_add_mod, Nat.add_assoc]

variable {sys sys' : System} {l : Layout} {p q : Pool} {c d : Config}

namespace Segment
variable {s t : Segment} {used : Nat}

theorem carve_eq (hs : s.Granted) (hl : l.Ordinary) (hbase : s.base ≤ used) :
    s.carve used l =
      if s.len < roundUp (used - s.base) l.align + l.size then none
      else some ⟨s.base + roundUp (used - s.base) l.align, l.size,
        s.start + roundUp (used - s.base) l.align⟩ := by
  have hdvd := Nat.dvd_trans (Layout.align_dvd_segmentAlign hl.align_le) hs.aligned
  have hround : roundUp (s.addressAt used) l.align = s.start + roundUp (used - s.base) l.align :=
    roundUp_add hdvd _
  have hpad := le_roundUp (used - s.base) l.align
  have hfirst : s.firstFit used l = roundUp (used - s.base) l.align := by
    rw [firstFit, hround, addressAt]
    omega
  have hsize := hl.size_pos
  have hspace := hs.inSpace
  have hlen := hs.len_le
  have hhalf : spanLimit < wordLimit := by decide
  have haddr : s.addressAt used = s.start + (used - s.base) := rfl
  unfold carve
  dsimp only
  rw [hfirst, hround, haddr]
  by_cases hfit : s.len < roundUp (used - s.base) l.align + l.size
  · rw [if_pos (c := _ < _) hfit, if_pos (Or.inr hfit)]
    exact ite_self _
  · rw [if_neg hfit, if_neg (by omega), if_neg (by omega)]

theorem carve_extent (hs : s.Granted) (ht : t.Granted) (he : s.extent = t.extent) (hl : l.Ordinary)
    (hbase : s.base ≤ used) :
    (s.carve used l).map Block.extent = (t.carve used l).map Block.extent := by
  obtain ⟨hb, hn⟩ := Prod.mk.inj he
  rw [carve_eq hs hl hbase, carve_eq ht hl (hb ▸ hbase), hb, hn]
  split <;> rfl

theorem commit_covers (h : sys.Covers sys') {base len : Nat} (hs : commit sys base len = .ok s) :
    ∃ t, commit sys' base len = .ok t ∧ t.extent = s.extent := by
  unfold commit at hs ⊢
  split at hs
  · cases hs
  · next hlen =>
    rw [if_neg hlen]
    cases hg : sys.grant base len with
    | none =>
      rw [hg] at hs
      cases hs
    | some start =>
      rw [hg] at hs
      cases hs
      obtain ⟨start', hg'⟩ := h base len (Nat.le_of_not_lt hlen) start hg
      rw [hg']
      exact ⟨_, rfl, rfl⟩

theorem commit_refused (h : sys'.Covers sys) {base len : Nat} {e : Failure}
    (hs : commit sys base len = .error e) : commit sys' base len = .error e := by
  unfold commit at hs ⊢
  split at hs
  · next hlen =>
    rw [if_pos hlen]
    exact hs
  · next hlen =>
    rw [if_neg hlen]
    cases hg : sys'.grant base len with
    | none =>
      cases hg' : sys.grant base len with
      | none =>
        rw [hg'] at hs
        exact hs
      | some start =>
        rw [hg'] at hs
        cases hs
    | some start =>
      obtain ⟨start', hg'⟩ := h base len (Nat.le_of_not_lt hlen) start hg
      rw [hg'] at hs
      cases hs

end Segment

theorem alloc_of_carve {b : Block} (h : p.current.carve p.used l = some b) :
    p.alloc sys l = (.ok b, { p with used := b.stop }) := by
  rw [alloc, h]

theorem alloc_of_refusal {e : Failure} {p' : Pool} (h : p.current.carve p.used l = none)
    (hs : p.commitFor sys l = (.error e, p')) : p.alloc sys l = (.error e, p') := by
  rw [alloc, h, hs]

theorem alloc_of_commit {s : Segment} {b : Block} {p' : Pool} (h : p.current.carve p.used l = none)
    (hs : p.commitFor sys l = (.ok s, p')) (hb : s.carve s.base l = some b) : p.alloc sys l =
      (.ok b, { p' with current := s, earlier := p'.current :: p'.earlier, used := b.stop }) := by
  simp only [alloc, h, hs, hb]

theorem committed_lt_of_fresh (hc : 0 < p.config.chunk) {b : Block} {p' : Pool}
    (h : p.current.carve p.used l = none) (hb : p.alloc sys l = (.ok b, p')) :
    p.committed < p'.committed := by
  rcases hpf : p.commitFor sys l with ⟨_ | s, p₁⟩
  · cases hb.symm.trans (alloc_of_refusal h hpf)
  · obtain ⟨hs, -, -, rfl⟩ := commitFor_eq_ok hpf
    obtain ⟨x, hx⟩ := exists_carve_of_commit hc hs
    cases hb.symm.trans (alloc_of_commit h hpf hx)
    exact Nat.lt_add_of_pos_right (needed_pos hc)

namespace InStep

theorem counts_eq (h : InStep p q) : p.counts = q.counts := by
  have hlen := congrArg List.length h.earlier
  simp only [List.length_map] at hlen
  simp [counts, segments, h.used, h.committed, hlen]

theorem needed_eq (h : InStep p q) (l : Layout) : needed q.config l = needed p.config l := by
  rw [needed, needed, h.chunk]

theorem commitFor (h : InStep p q) (hgrant : sys.Covers sys') {s : Segment} {p' : Pool}
    (hs : p.commitFor sys l = (.ok s, p')) : ∃ t,
      q.commitFor sys' l = (.ok t,
        { q with committed := q.committed + needed q.config l, used := q.committed }) ∧
      t.extent = s.extent := by
  obtain ⟨hcommit, hres, hlt, -⟩ := commitFor_eq_ok hs
  have hle := h.reservation
  rw [h.committed, ← h.needed_eq l] at hcommit hres hlt
  obtain ⟨t, ht, hext⟩ := Segment.commit_covers hgrant hcommit
  refine ⟨t, ?_, hext⟩
  unfold Pool.commitFor
  dsimp only
  rw [if_neg (by omega), if_neg (by omega), ht]

theorem commitFor_error (h : InStep p q) (hconfig : p.config = q.config) (hgrant : sys'.Covers sys)
    {e : Failure} {p' : Pool} (he : p.commitFor sys l = (.error e, p')) :
    q.commitFor sys' l = (.error e, q) := by
  unfold Pool.commitFor at he ⊢
  dsimp only at he ⊢
  rw [h.committed, hconfig] at he
  split at he
  · next hlen =>
    cases he
    rw [if_pos hlen]
  · next hlen =>
    rw [if_neg hlen]
    split at he
    · next hroom =>
      cases he
      rw [if_pos hroom]
    · next hroom =>
      rw [if_neg hroom]
      split at he
      · next f hf =>
        cases he
        rw [Segment.commit_refused hgrant hf]
      · cases he

theorem carve (h : InStep p q) (hp : p.Sound c) (hq : q.Sound d) (hl : l.Ordinary) :
    (p.current.carve p.used l).map Block.extent = (q.current.carve q.used l).map Block.extent := by
  rw [← h.used]
  exact Segment.carve_extent (hp.granted _ (current_mem_segments p))
    (hq.granted _ (current_mem_segments q)) h.current hl hp.base_le_used

/-- What one pool grants, the other grants at the same position. -/
theorem alloc_ok (h : InStep p q) (hp : p.Sound c) (hq : q.Sound d) (hl : l.Ordinary)
    (hgrant : sys.Covers sys') {b : Block} {p' : Pool} (hb : p.alloc sys l = (.ok b, p')) :
    ∃ b' q', q.alloc sys' l = (.ok b', q') ∧ InStep p' q' := by
  have hcarve := h.carve hp hq hl
  cases hpc : p.current.carve p.used l with
  | some x =>
    rw [hpc] at hcarve
    obtain ⟨y, hqc, hy⟩ := Option.map_eq_some_iff.1 hcarve.symm
    cases hb.symm.trans (alloc_of_carve hpc)
    refine ⟨y, _, alloc_of_carve hqc, { h with used := ?_ }⟩
    exact congrArg (fun e => e.1 + e.2) hy.symm
  | none =>
    rw [hpc] at hcarve
    have hqc := Option.map_eq_none_iff.1 hcarve.symm
    rcases hpf : p.commitFor sys l with ⟨_ | s, p₁⟩
    · cases hb.symm.trans (alloc_of_refusal hpc hpf)
    · obtain ⟨t, ht, hext⟩ := h.commitFor hgrant hpf
      obtain ⟨hps, -, -, rfl⟩ := commitFor_eq_ok hpf
      obtain ⟨hqs, -, -, -⟩ := commitFor_eq_ok ht
      have hnew := Segment.carve_extent (Segment.commit_eq_ok hps).2.2
        (Segment.commit_eq_ok hqs).2.2 hext.symm hl (Nat.le_refl _)
      have hbase : t.base = s.base := congrArg Prod.fst hext
      obtain ⟨x, hx⟩ := exists_carve_of_commit hp.chunk_pos hps
      rw [hx, ← hbase] at hnew
      obtain ⟨y, hy, hxy⟩ := Option.map_eq_some_iff.1 hnew.symm
      cases hb.symm.trans (alloc_of_commit hpc hpf hx)
      refine ⟨y, _, alloc_of_commit hqc ht hy, ?_⟩
      constructor
      case chunk => exact h.chunk
      case reservation => exact h.reservation
      case current => exact hext.symm
      case earlier =>
        rw [List.map_cons, List.map_cons, h.current, h.earlier]
      case used => exact congrArg (fun e => e.1 + e.2) hxy.symm
      case committed => simp only [h.committed, h.needed_eq]

/-- With one configuration and systems that refuse alike, what one pool refuses the other refuses. -/
theorem alloc_error (h : InStep p q) (hp : p.Sound c) (hq : q.Sound d) (hl : l.Ordinary)
    (hconfig : p.config = q.config) (hgrant : sys'.Covers sys) {e : Failure} {p' : Pool}
    (he : p.alloc sys l = (.error e, p')) : p' = p ∧ q.alloc sys' l = (.error e, q) := by
  have hcarve := h.carve hp hq hl
  cases hpc : p.current.carve p.used l with
  | some x => cases he.symm.trans (alloc_of_carve hpc)
  | none =>
    rw [hpc] at hcarve
    have hqc := Option.map_eq_none_iff.1 hcarve.symm
    rcases hpf : p.commitFor sys l with ⟨f | s, p₁⟩
    · cases he.symm.trans (alloc_of_refusal hpc hpf)
      exact ⟨commitFor_eq_error hpf, alloc_of_refusal hqc (h.commitFor_error hconfig hgrant hpf)⟩
    · obtain ⟨hps, -, -, -⟩ := commitFor_eq_ok hpf
      obtain ⟨x, hx⟩ := exists_carve_of_commit hp.chunk_pos hps
      cases he.symm.trans (alloc_of_commit hpc hpf hx)

end InStep

/-! ## Runs of requests -/

/-- Makes the requests one after another, up to the first that is refused. -/
def serve (sys : System) : List Layout → Pool → Except Failure Unit × Pool
  | [], p => (.ok (), p)
  | l :: ls, p =>
    match p.alloc sys l with
    | (.ok _, p) => p.serve sys ls
    | (.error e, p) => (.error e, p)

theorem serve_of_ok {b : Block} {p' : Pool} (h : p.alloc sys l = (.ok b, p')) (ls : List Layout) :
    p.serve sys (l :: ls) = p'.serve sys ls := by
  rw [serve, h]

theorem serve_of_error {e : Failure} {p' : Pool} (h : p.alloc sys l = (.error e, p'))
    (ls : List Layout) : p.serve sys (l :: ls) = (.error e, p') := by
  rw [serve, h]

theorem Sound.serve (h : p.Sound c) (sys : System) (ls : List Layout) :
    (p.serve sys ls).2.Sound c := by
  induction ls generalizing p with
  | nil => exact h
  | cons l ls ih =>
    have hl := (h.alloc sys l).1
    rcases hpa : p.alloc sys l with ⟨e | b, p'⟩ <;> rw [hpa] at hl
    · rw [serve_of_error hpa]
      exact hl
    · rw [serve_of_ok hpa]
      exact ih hl

def serveEach : List (System × Layout) → Pool → Except Failure Unit × Pool
  | [], p => (.ok (), p)
  | (sys, l) :: rs, p =>
    match p.alloc sys l with
    | (.ok _, p) => p.serveEach rs
    | (.error e, p) => (.error e, p)

/-- Answers at one position as the first system does, and elsewhere as the second one does. -/
def System.splice (base : Nat) (sys sys' : System) : System where
  grant b len := if b = base then sys.grant b len else sys'.grant b len
  aligned h := by
    split at h
    · exact sys.aligned h
    · exact sys'.aligned h
  inSpace h := by
    split at h
    · exact sys.inSpace h
    · exact sys'.inSpace h

/-- A request asks the system about one position only. -/
theorem alloc_congr (h : ∀ len, sys.grant p.committed len = sys'.grant p.committed len)
    (l : Layout) : p.alloc sys l = p.alloc sys' l := by
  simp only [alloc, commitFor, Segment.commit, h]

theorem serve_congr (hp : p.Sound c)
    (h : ∀ base, p.committed ≤ base → ∀ len, sys.grant base len = sys'.grant base len)
    (ls : List Layout) : p.serve sys ls = p.serve sys' ls := by
  induction ls generalizing p with
  | nil => rfl
  | cons l ls ih =>
    have hl := alloc_congr (h p.committed (Nat.le_refl _)) l
    obtain ⟨hp', hgrow⟩ := hp.alloc sys l
    rcases hpa : p.alloc sys l with ⟨e | b, p'⟩ <;> rw [hpa] at hl hp' hgrow
    · rw [serve_of_error hpa, serve_of_error hl.symm]
    · rw [serve_of_ok hpa, serve_of_ok hl.symm]
      exact ih hp' fun base hbase => h base (Nat.le_trans hgrow.committed_le hbase)

/-- One system is enough for a run that ends at the first refusal: whatever systems answer its requests,
one that tells the positions apart answers all of them alike. -/
theorem exists_serve_eq (hp : p.Sound c) (rs : List (System × Layout)) :
    ∃ sys, p.serve sys (rs.map Prod.snd) = p.serveEach rs := by
  induction rs generalizing p with
  | nil => exact ⟨.full, rfl⟩
  | cons r rs ih =>
    obtain ⟨sys, l⟩ := r
    obtain ⟨hp', -⟩ := hp.alloc sys l
    rw [List.map_cons, serveEach]
    rcases hpa : p.alloc sys l with ⟨e | b, p'⟩
    · exact ⟨sys, serve_of_error hpa _⟩
    · rw [hpa] at hp'
      obtain ⟨rest, hrest⟩ := ih hp'
      cases hpc : p.current.carve p.used l with
      | some x =>
        -- Nothing is committed, so the system of this request is not asked.
        have hany : p.alloc rest l = (.ok b, p') := by
          rw [← hpa, alloc_of_carve hpc, alloc_of_carve hpc]
        exact ⟨rest, (serve_of_ok hany _).trans hrest⟩
      | none =>
        have hlt : p.committed < p'.committed := committed_lt_of_fresh hp.chunk_pos hpc hpa
        let both : System := .splice p.committed sys rest
        have hfirst : p.alloc both l = (.ok b, p') := (alloc_congr (fun len => if_pos rfl) l).trans hpa
        have hrun : p'.serve both (rs.map Prod.snd) = p'.serve rest (rs.map Prod.snd) :=
          serve_congr hp' (fun base hbase len => if_neg (Nat.ne_of_gt (Nat.lt_of_lt_of_le hlt hbase))) _
        exact ⟨both, (serve_of_ok hfirst _).trans (hrun.trans hrest)⟩

namespace InStep

theorem serve_ok (h : InStep p q) (hp : p.Sound c) (hq : q.Sound d) (hgrant : sys.Covers sys')
    {ls : List Layout} (hls : ∀ l ∈ ls, l.Ordinary) (hok : (p.serve sys ls).1 = .ok ()) :
    (q.serve sys' ls).1 = .ok () ∧ InStep (p.serve sys ls).2 (q.serve sys' ls).2 := by
  induction ls generalizing p q with
  | nil => exact ⟨rfl, h⟩
  | cons l ls ih =>
    obtain ⟨hl, hls⟩ := List.forall_mem_cons.1 hls
    have hp' := (hp.alloc sys l).1
    have hq' := (hq.alloc sys' l).1
    rcases hpa : p.alloc sys l with ⟨e | b, p'⟩
    · rw [serve_of_error hpa] at hok
      cases hok
    · obtain ⟨b', q', hqa, hstep⟩ := h.alloc_ok hp hq hl hgrant hpa
      rw [hpa] at hp'
      rw [hqa] at hq'
      rw [serve_of_ok hpa] at hok
      rw [serve_of_ok hpa, serve_of_ok hqa]
      exact ih hstep hp' hq' hls hok

theorem serve_eq (h : InStep p q) (hp : p.Sound c) (hq : q.Sound c) (hgrant : sys.Covers sys')
    (hgrant' : sys'.Covers sys) {ls : List Layout} (hls : ∀ l ∈ ls, l.Ordinary) :
    (p.serve sys ls).1 = (q.serve sys' ls).1 ∧ InStep (p.serve sys ls).2 (q.serve sys' ls).2 := by
  induction ls generalizing p q with
  | nil => exact ⟨rfl, h⟩
  | cons l ls ih =>
    obtain ⟨hl, hls⟩ := List.forall_mem_cons.1 hls
    have hp' := (hp.alloc sys l).1
    have hq' := (hq.alloc sys' l).1
    rcases hpa : p.alloc sys l with ⟨e | b, p'⟩
    · have hconfig : p.config = q.config := hp.config.trans hq.config.symm
      obtain ⟨rfl, hqa⟩ := h.alloc_error hp hq hl hconfig hgrant' hpa
      rw [serve_of_error hpa, serve_of_error hqa]
      exact ⟨rfl, h⟩
    · obtain ⟨b', q', hqa, hstep⟩ := h.alloc_ok hp hq hl hgrant hpa
      rw [hpa] at hp'
      rw [hqa] at hq'
      rw [serve_of_ok hpa, serve_of_ok hqa]
      exact ih hstep hp' hq' hls

end InStep

theorem valid_of_created (h : create sys c = .ok p) : c.Valid := by
  unfold create at h
  split at h
  · cases h
  · next hfault => exact Config.fault?_eq_none.1 hfault

theorem created_inStep {sys sys' : System} (hp : create sys c = .ok p) (hd : d.Valid)
    (hchunk : c.chunk = d.chunk) (hres : c.reservation ≤ d.reservation)
    (hgrant : sys.Covers sys') : ∃ q, create sys' d = .ok q ∧ InStep p q := by
  unfold create at hp ⊢
  split at hp
  · cases hp
  · cases hs : Segment.commit sys 0 c.chunk with
    | error e =>
      rw [hs] at hp
      cases hp
    | ok s =>
      rw [hs] at hp
      cases hp
      obtain ⟨t, ht, hext⟩ := Segment.commit_covers hgrant hs
      rw [Config.fault?_eq_none.2 hd, ← hchunk, ht]
      exact ⟨_, rfl, hchunk, hres, hext.symm, rfl, rfl, rfl⟩

end Frontend.Pool
