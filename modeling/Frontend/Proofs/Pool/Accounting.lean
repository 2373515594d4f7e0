import Frontend.Proofs.Pool.Request

/-! # What a pool keeps count of

The segments of a pool tile the positions up to `committed`, and `used` lies in the last of them. This
holds after every run of requests, whatever the system answers, and makes every word of the
computation fit its 64 bits.
-/
namespace Frontend.Pool

/-- The segments lie one behind the other, from position `start` to position `stop`. -/
def Tiles : Nat → List Segment → Nat → Prop
  | start, [], stop => start = stop
  | start, s :: ss, stop => s.base = start ∧ Tiles (start + s.len) ss stop

theorem tiles_append {start stop : Nat} {ss ts : List Segment} :
    Tiles start (ss ++ ts) stop ↔ ∃ mid, Tiles start ss mid ∧ Tiles mid ts stop := by
  induction ss generalizing start with
  | nil =>
    constructor
    · intro h
      exact ⟨start, rfl, h⟩
    · rintro ⟨mid, rfl, h⟩
      exact h
  | cons s ss ih =>
    simp only [List.cons_append, Tiles, ih]
    constructor
    · rintro ⟨hs, mid, h⟩
      exact ⟨mid, ⟨hs, h.1⟩, h.2⟩
    · rintro ⟨mid, ⟨hs, h⟩, ht⟩
      exact ⟨hs, mid, h, ht⟩

/-- The state that every request leaves behind. -/
structure Sound (c : Config) (p : Pool) : Prop where
  config : p.config = c
  used_le : p.used ≤ p.committed
  committed_le : p.committed ≤ c.reservation
  committed_pos : 0 < p.committed
  chunk_dvd : c.chunk ∣ p.committed
  tiles : Tiles 0 p.segments p.committed
  base_le_used : p.current.base ≤ p.used
  used_le_stop : p.used ≤ p.current.stop
  committed_lt : p.committed < wordLimit
  granted : ∀ s ∈ p.segments, s.Granted

/-- What the pool counts does not go down, and the segments stay. -/
structure Grows (p q : Pool) : Prop where
  used_le : p.used ≤ q.used
  committed_le : p.committed ≤ q.committed
  segments : p.segments <+: q.segments

/-- The sums and differences that carving takes without a check, as words. -/
structure Segment.InRange (s : Segment) (used : Nat) (l : Layout) : Prop where
  padding : s.addressAt used ≤ roundUp (s.addressAt used) l.align
  first : s.firstFit used l < wordLimit
  stop : s.firstFit used l + l.size ≤ s.len → s.base + (s.firstFit used l + l.size) < wordLimit

def after (p : Pool) (rs : List (System × Layout)) : Pool :=
  rs.foldl (fun p r => (p.alloc r.1 r.2).2) p

variable {c : Config} {p : Pool} {sys : System} {l : Layout}

theorem Grows.refl (p : Pool) : Grows p p := ⟨Nat.le_refl _, Nat.le_refl _, List.prefix_refl _⟩

theorem Grows.trans {q r : Pool} (h : Grows p q) (h' : Grows q r) : Grows p r :=
  ⟨Nat.le_trans h.used_le h'.used_le, Nat.le_trans h.committed_le h'.committed_le,
    List.IsPrefix.trans h.segments h'.segments⟩

theorem segments_fresh (p : Pool) (s : Segment) (used committed : Nat) :
    segments { p with current := s, earlier := p.current :: p.earlier, used, committed } =
      p.segments ++ [s] := by
  simp [segments]

theorem current_mem_segments (p : Pool) : p.current ∈ p.segments := by
  simp [segments]

namespace Sound

theorem chunk_pos (h : p.Sound c) : 0 < p.config.chunk := by
  rw [h.config]
  exact Nat.pos_of_dvd_of_pos h.chunk_dvd h.committed_pos

theorem stop_current (h : p.Sound c) : p.current.stop = p.committed := by
  obtain ⟨mid, -, hbase, hstop⟩ := tiles_append.1 h.tiles
  rw [← hbase] at hstop
  exact hstop

theorem created {sys : System} (h : create sys c = .ok p) : p.Sound c := by
  unfold create at h
  split at h
  · cases h
  · next hfault =>
    have hvalid := Config.fault?_eq_none.1 hfault
    cases hs : Segment.commit sys 0 c.chunk with
    | error e =>
      rw [hs] at h
      cases h
    | ok s =>
      rw [hs] at h
      cases h
      obtain ⟨hbase, hlen, hgrant⟩ := Segment.commit_eq_ok hs
      have hpos : 0 < c.chunk := by
        obtain ⟨k, hk⟩ := hvalid.chunk_pow
        rw [hk]
        exact Nat.two_pow_pos k
      have hspan := hgrant.len_le
      have hhalf : spanLimit < wordLimit := by decide
      constructor
      case config => rfl
      case used_le => exact Nat.zero_le _
      case committed_le => exact hvalid.chunk_le
      case committed_pos => exact hpos
      case chunk_dvd => exact Nat.dvd_refl _
      case tiles => exact ⟨hbase, by rw [hlen, Nat.zero_add]; rfl⟩
      case base_le_used => exact Nat.le_of_eq hbase
      case used_le_stop => exact Nat.zero_le _
      case committed_lt =>
        rw [hlen] at hspan
        change c.chunk < wordLimit
        omega
      case granted =>
        intro t ht
        rw [List.mem_singleton.1 ht]
        exact hgrant

end Sound

theorem Answers.sound {r : Except Failure Block × Pool} (hp : p.Sound c) (h : Answers sys l p r) :
    r.2.Sound c ∧ Grows p r.2 := by
  have hstop := hp.stop_current
  cases h with
  | refused => exact ⟨hp, .refl p⟩
  | @fits b hb =>
    have hle := Nat.le_trans hb.stop_le (Nat.le_of_eq hstop)
    have hused : p.used ≤ b.stop := Nat.le_trans hb.used_le (Nat.le_add_right _ _)
    refine ⟨{ hp with used_le := hle, base_le_used := ?_, used_le_stop := hb.stop_le }, ?_⟩
    · exact Nat.le_trans hb.base_le hused
    · exact ⟨hused, Nat.le_refl _, List.prefix_refl _⟩
  | @fresh s b hbase hlen hgrant hres hlt hb =>
    -- The new segment begins where the tiles end, behind whatever the old one had left.
    have hbstop : b.stop ≤ p.committed + s.len := by
      have hle := hb.stop_le
      rw [Segment.stop, hbase] at hle
      exact hle
    have hused : p.committed ≤ b.stop := by
      have hle := hb.used_le
      rw [hbase] at hle
      exact Nat.le_trans hle (Nat.le_add_right _ _)
    have hsegments := segments_fresh p s b.stop (p.committed + s.len)
    have hdvd : c.chunk ∣ s.len := by
      rw [hlen, ← hp.config]
      exact chunk_dvd_needed hp.chunk_pos
    rw [hp.config] at hres
    constructor
    · constructor
      case config => exact hp.config
      case used_le => exact hbstop
      case committed_le => exact hres
      case committed_pos => exact Nat.lt_of_lt_of_le hp.committed_pos (Nat.le_add_right _ _)
      case chunk_dvd => exact (Nat.dvd_add_right hp.chunk_dvd).2 hdvd
      case tiles =>
        rw [hsegments, tiles_append]
        exact ⟨p.committed, hp.tiles, hbase, rfl⟩
      case base_le_used => exact Nat.le_trans hb.used_le (Nat.le_add_right _ _)
      case used_le_stop => exact hb.stop_le
      case committed_lt => exact hlt
      case granted =>
        rw [hsegments]
        intro t ht
        rcases List.mem_append.1 ht with ht | ht
        · exact hp.granted t ht
        · rw [List.mem_singleton.1 ht]
          exact hgrant
    · constructor
      case used_le => exact Nat.le_trans hp.used_le hused
      case committed_le => exact Nat.le_add_right _ _
      case segments =>
        rw [hsegments]
        exact List.prefix_append _ _

theorem Sound.alloc (h : p.Sound c) (sys : System) (l : Layout) :
    (p.alloc sys l).2.Sound c ∧ Grows p (p.alloc sys l).2 :=
  (alloc_answers h.chunk_pos).sound h

theorem Sound.after (h : p.Sound c) (rs : List (System × Layout)) :
    (p.after rs).Sound c ∧ Grows p (p.after rs) := by
  induction rs generalizing p with
  | nil => exact ⟨h, .refl p⟩
  | cons r rs ih =>
    obtain ⟨hs, hg⟩ := h.alloc r.1 r.2
    obtain ⟨hs', hg'⟩ := ih hs
    exact ⟨hs', hg.trans hg'⟩

theorem after_append (p : Pool) (rs more : List (System × Layout)) :
    p.after (rs ++ more) = (p.after rs).after more := List.foldl_append

namespace Segment

theorem Granted.inRange {s : Segment} {used : Nat} (hs : s.Granted) (hused : used ≤ s.stop)
    (hstop : s.stop < wordLimit) (l : Layout) : s.InRange used l := by
  have hle := le_roundUp (s.addressAt used) l.align
  have hlt := roundUp_lt (s.addressAt used) l.align_pos
  have hlen := hs.len_le
  have hsize := l.size_fits
  have hdouble : spanLimit + spanLimit = wordLimit := by decide
  have hsegment : 0 < segmentAlign := by decide
  unfold Segment.stop at hused hstop
  constructor
  · exact hle
  · unfold firstFit
    omega
  · intro hfit
    omega

end Segment

/-- Any run of requests, failed ones among them, keeps the pool sound and its counts from falling, and
no word overflows: neither in the segment carved from nor in one committed for the next request. -/
theorem sound_after {sys : System} (h : create sys c = .ok p) (rs more : List (System × Layout)) :
    (p.after rs).Sound c ∧ Grows (p.after rs) (p.after (rs ++ more)) ∧
    (∀ l, (p.after rs).current.InRange (p.after rs).used l) ∧
    ∀ sys l s q, (p.after rs).commitFor sys l = (.ok s, q) →
      (p.after rs).committed + needed c l < wordLimit ∧ s.InRange s.base l := by
  obtain ⟨hs, -⟩ := (Sound.created h).after rs
  obtain ⟨-, hgrow⟩ := hs.after more
  rw [← after_append] at hgrow
  refine ⟨hs, hgrow, ?_, ?_⟩
  · intro l
    have hstop := hs.committed_lt
    rw [← hs.stop_current] at hstop
    exact (hs.granted _ (current_mem_segments _)).inRange hs.used_le_stop hstop l
  · intro sys l s q hq
    obtain ⟨hcommit, -, hlt, -⟩ := commitFor_eq_ok hq
    obtain ⟨hbase, hlen, hgrant⟩ := Segment.commit_eq_ok hcommit
    rw [hs.config] at hlt hlen
    refine ⟨hlt, hgrant.inRange (Nat.le_add_right _ _) ?_ l⟩
    rw [Segment.stop, hbase, hlen]
    exact hlt

/-- Sixty words in the first page, then a block of more than a page with an alignment above that of
segments, for which a segment of two pages is committed. -/
theorem sound_after_two_pages :
    let words : Layout := .words 60 (by decide)
    let large : Layout := ⟨5000, 64, ⟨6, rfl⟩, by decide⟩
    ∃ p q, create .standard .standard = .ok p ∧ q = p.after [(.standard, words)] ∧
      q.used = 480 ∧ (p.after [(.standard, words), (.standard, large)]).committed = 0x3000 ∧
      q.Sound .standard ∧ Grows q (p.after [(.standard, words), (.standard, large)]) ∧
      (∀ l, q.current.InRange q.used l) ∧
      ∀ sys l s r, q.commitFor sys l = (.ok s, r) →
        q.committed + needed .standard l < wordLimit ∧ s.InRange s.base l := by
  intro words large
  have hcreate : create .standard .standard =
      .ok ⟨.standard, ⟨0, 0x1000, 16⟩, [], 0, 0x1000⟩ := rfl
  obtain ⟨hs, hgrow, hrange, hcommit⟩ :=
    sound_after hcreate [(.standard, words)] [(.standard, large)]
  have hcounts :
      (after ⟨.standard, ⟨0, 0x1000, 16⟩, [], 0, 0x1000⟩ [(.standard, words)]).used = 480 ∧
      (after ⟨.standard, ⟨0, 0x1000, 16⟩, [], 0, 0x1000⟩
        [(.standard, words), (.standard, large)]).committed = 0x3000 := by
    subst words large
    exact ⟨rfl, rfl⟩
  exact ⟨_, _, hcreate, rfl, hcounts.1, hcounts.2, hs, hgrow, hrange, hcommit⟩

end Frontend.Pool
