import Frontend.Pool.Basic

/-! # What a request can do

A request takes its block from the current segment, or commits a segment and takes it from there, or
changes nothing. A segment committed for a layout has room for it wherever the system puts it, so no
request is refused once memory has been committed for it.
-/
namespace Frontend.Pool

theorem roundUp_of_dvd {n a : Nat} (h : a ∣ n) : roundUp n a = n := by
  unfold roundUp
  rw [Nat.mod_eq_zero_of_dvd h, Nat.sub_zero, Nat.mod_self, Nat.add_zero]

theorem Layout.align_dvd_segmentAlign {l : Layout} (h : l.align ≤ segmentAlign) :
    l.align ∣ segmentAlign := by
  obtain ⟨k, hk⟩ := l.align_pow
  have hle : 2 ^ k ≤ 2 ^ 4 := by
    rw [← hk]
    exact h
  have hk4 : k ≤ 4 := (Nat.pow_le_pow_iff_right (by decide)).1 hle
  rw [hk]
  exact Nat.pow_dvd_pow 2 hk4

namespace Segment

variable {s : Segment}

/-- The segment lies where the system may put one. -/
structure Granted (s : Segment) : Prop where
  aligned : segmentAlign ∣ s.start
  inSpace : s.start + s.len ≤ wordLimit
  len_le : s.len + segmentAlign ≤ spanLimit

structure Holds (s : Segment) (used : Nat) (l : Layout) (b : Block) : Prop where
  base_le : s.base ≤ used
  used_le : used ≤ b.position
  size : b.size = l.size
  stop_le : b.stop ≤ s.stop
  address : b.address = s.addressAt b.position
  aligned : l.align ∣ b.address

theorem commit_eq_ok {sys : System} {base len : Nat} (h : commit sys base len = .ok s) :
    s.base = base ∧ s.len = len ∧ s.Granted := by
  unfold commit at h
  split at h
  · cases h
  · next hlen =>
    cases hg : sys.grant base len with
    | none =>
      rw [hg] at h
      cases h
    | some start =>
      rw [hg] at h
      cases h
      exact ⟨rfl, rfl, sys.aligned hg, sys.inSpace hg, Nat.le_of_not_lt hlen⟩

theorem holds_of_carve {used : Nat} {l : Layout} {b : Block} (h : s.carve used l = some b) :
    s.Holds used l b := by
  unfold carve at h
  split at h
  · cases h
  · next hin =>
    dsimp only at h
    split at h
    · cases h
    · next hfit =>
      cases h
      have hpad := le_roundUp (s.addressAt used) l.align
      have hround : s.start + s.firstFit used l = roundUp (s.addressAt used) l.align := by
        unfold firstFit addressAt at *
        omega
      have hdvd := dvd_roundUp (s.addressAt used) l.align_pos
      constructor
      · omega
      · dsimp only [firstFit]
        omega
      · rfl
      · simp only [Block.stop, stop]
        omega
      · simp only [addressAt]
        omega
      · rw [hround]
        exact hdvd

end Segment

theorem needed_pos {c : Config} {l : Layout} (hc : 0 < c.chunk) : 0 < needed c l :=
  Nat.lt_of_lt_of_le hc (Nat.le_max_right _ _)

theorem chunk_dvd_needed {c : Config} {l : Layout} (hc : 0 < c.chunk) : c.chunk ∣ needed c l := by
  have hdvd := dvd_roundUp (l.size + if segmentAlign < l.align then l.align else 0) hc
  unfold needed
  rcases Nat.le_total (roundUp (l.size + if segmentAlign < l.align then l.align else 0) c.chunk)
    c.chunk with hle | hle
  · simp only [Nat.max_eq_right hle, Nat.dvd_refl]
  · rw [Nat.max_eq_left hle]
    exact hdvd

theorem le_needed (c : Config) (l : Layout) :
    l.size + (if segmentAlign < l.align then l.align else 0) ≤ needed c l :=
  Nat.le_trans (le_roundUp _ c.chunk) (Nat.le_max_left _ _)

/-- Wherever a segment starts, its padding and the block fit into the bytes committed: there is no
padding up to the alignment of segments, and less than the alignment asked for above it. -/
theorem roundUp_add_size_le {c : Config} {l : Layout} {start : Nat} (hc : 0 < c.chunk)
    (h : segmentAlign ∣ start) : roundUp start l.align < start + needed c l ∧
      roundUp start l.align + l.size ≤ start + needed c l := by
  have hpos := needed_pos (l := l) hc
  have hroom := le_needed c l
  by_cases ha : segmentAlign < l.align
  · have hlt := roundUp_lt start l.align_pos
    rw [if_pos ha] at hroom
    omega
  · have hdvd := Nat.dvd_trans (Layout.align_dvd_segmentAlign (Nat.le_of_not_lt ha)) h
    rw [if_neg ha] at hroom
    rw [roundUp_of_dvd hdvd]
    omega

theorem Segment.exists_carve {s : Segment} {used : Nat} {l : Layout} (hused : s.base ≤ used)
    (hlen : s.len < wordLimit) (haddr : roundUp (s.addressAt used) l.align < wordLimit)
    (hfit : s.firstFit used l + l.size ≤ s.len) : ∃ b, s.carve used l = some b := by
  have hle := le_roundUp (s.addressAt used) l.align
  unfold carve
  rw [if_neg (by omega)]
  dsimp only
  rw [if_neg (by omega)]
  exact ⟨_, rfl⟩

theorem exists_carve_of_commit {sys : System} {base : Nat} {c : Config} {l : Layout} {s : Segment}
    (hc : 0 < c.chunk) (h : Segment.commit sys base (needed c l) = .ok s) :
    ∃ b, s.carve s.base l = some b := by
  obtain ⟨-, hlen, hgrant⟩ := Segment.commit_eq_ok h
  obtain ⟨hlt, hle⟩ := roundUp_add_size_le (l := l) hc hgrant.aligned
  have hspace := hgrant.inSpace
  have hspan := hgrant.len_le
  have hhalf : spanLimit < wordLimit := by decide
  have haddr : s.addressAt s.base = s.start := by simp [Segment.addressAt]
  have hstart := le_roundUp s.start l.align
  rw [← hlen] at hlt hle
  apply Segment.exists_carve (Nat.le_refl _)
  · omega
  · rw [haddr]
    omega
  · rw [Segment.firstFit, haddr]
    omega

variable {sys : System} {l : Layout} {p : Pool}

/-- The ways in which a pool answers a request. -/
inductive Answers (sys : System) (l : Layout) (p : Pool) : Except Failure Block × Pool → Prop where
  | fits {b : Block} : p.current.Holds p.used l b → Answers sys l p (.ok b, { p with used := b.stop })
  | fresh {s : Segment} {b : Block} : s.base = p.committed → s.len = needed p.config l → s.Granted →
      p.committed + s.len ≤ p.config.reservation → p.committed + s.len < wordLimit →
      s.Holds s.base l b →
      Answers sys l p (.ok b, { p with
        current := s, earlier := p.current :: p.earlier, used := b.stop,
        committed := p.committed + s.len })
  | refused {e : Failure} : Answers sys l p (.error e, p)

theorem commitFor_eq_ok {s : Segment} {q : Pool} (h : p.commitFor sys l = (.ok s, q)) :
    Segment.commit sys p.committed (needed p.config l) = .ok s ∧
      p.committed + needed p.config l ≤ p.config.reservation ∧
      p.committed + needed p.config l < wordLimit ∧
      q = { p with committed := p.committed + needed p.config l, used := p.committed } := by
  unfold commitFor at h
  dsimp only at h
  split at h
  · cases h
  · split at h
    · cases h
    · next hroom =>
      split at h
      · cases h
      · next s' hs =>
        cases h
        exact ⟨hs, by omega, by omega, rfl⟩

theorem commitFor_eq_error {e : Failure} {q : Pool} (h : p.commitFor sys l = (.error e, q)) :
    q = p := by
  unfold commitFor at h
  dsimp only at h
  split at h
  · cases h
    rfl
  · split at h
    · cases h
      rfl
    · split at h
      · cases h
        rfl
      · cases h

theorem alloc_answers (hc : 0 < p.config.chunk) : Answers sys l p (p.alloc sys l) := by
  unfold alloc
  split
  · next b hb => exact .fits (Segment.holds_of_carve hb)
  · split
    · next e q hq =>
      rw [commitFor_eq_error hq]
      exact .refused
    · next s q hq =>
      obtain ⟨hs, hle, hlt, rfl⟩ := commitFor_eq_ok hq
      obtain ⟨hbase, hlen, hgrant⟩ := Segment.commit_eq_ok hs
      obtain ⟨b, hb⟩ := exists_carve_of_commit hc hs
      rw [hb]
      rw [← hlen] at hle hlt ⊢
      exact .fresh hbase hlen hgrant hle hlt (Segment.holds_of_carve hb)

end Frontend.Pool
