import Frontend.Proofs.Pool.Effect

/-! # Many residents in one pool

A world is a heap with all blocks that its pool has handed out and all values and arrays that live in
it. In every world that can be reached, whatever is done in whatever order, no two blocks overlap, and
a step changes nothing but the one resident that it is about.
-/
namespace Frontend.Pool

structure World : Type 1 where
  heap : Heap
  /-- Newest first, each with the layout it was asked for. -/
  blocks : List (Layout × Block)
  residents : Nat → Option Resident

def granted (sys : System) (p : Pool) (l : Layout) : List (Layout × Block) :=
  match (p.alloc sys l).1 with
  | .ok b => [(l, b)]
  | .error _ => []

/-- The system put no segment of the pool over another. -/
def SegmentsApart (p : Pool) : Prop :=
  ∀ s ∈ p.segments, ∀ s' ∈ p.segments, s ≠ s' →
    s.start + s.len ≤ s'.start ∨ s'.start + s'.len ≤ s.start

namespace World

def start (h : Heap) : World := ⟨h, [], fun _ => none⟩

/-- The world after an operation on the target that asked the pool for a layout and left `new`
there. -/
def next (sys : System) (w : World) (target : Option Nat) (asked : Option Layout)
    (new : Option Resident) (h' : Heap) : World where
  heap := h'
  blocks := asked.elim [] (granted sys w.heap.pool) ++ w.blocks
  residents k := if target = some k then new else w.residents k

/-- A raw allocation is about no resident; any other operation is about what is under a key, be it
nothing yet. -/
inductive Step (sys : System) (w : World) : Option Nat → World → Prop where
  | request (l : Layout) : Step sys w none (w.next sys none (some l) none (w.heap.request sys l).2)
  | act {k : Nat} {asked : Option Layout} {new : Option Resident} {h' : Heap} :
      Operation sys w.heap (w.residents k) asked new h' →
      Step sys w (some k) (w.next sys (some k) asked new h')

/-- The worlds after any number of steps, each with a system of its own. -/
inductive Reachable (h : Heap) : World → Prop where
  | start : Reachable h (start h)
  | step {sys : System} {w w' : World} {target : Option Nat} : Reachable h w →
      Step sys w target w' → Reachable h w'

/-- Every block is of its layout and lies in one segment, before all blocks handed out later; the
residents share the blocks out among them. -/
structure Separate (c : Config) (w : World) : Prop where
  sound : w.heap.pool.Sound c
  located : ∀ b ∈ w.blocks, ∃ s ∈ w.heap.pool.segments, s.Holds s.base b.1 b.2
  stop_le : ∀ b ∈ w.blocks, b.2.stop ≤ w.heap.pool.used
  ordered : w.blocks.Pairwise fun new old => old.2.stop ≤ new.2.position
  housed : ∀ k r, w.residents k = some r →
    ∃ b ∈ w.blocks, r.position = b.2.position ∧ r.extent = b.2.size
  fits : ∀ k r, w.residents k = some r → r.Fits
  apart : ∀ j k r r', j ≠ k → w.residents j = some r → w.residents k = some r' →
    r.stop ≤ r'.position ∨ r'.stop ≤ r.position

/-- Nothing has moved, and nothing has changed but the target. The pool was asked at most once, and what
it handed out is all that the blocks have gained. -/
structure Kept (sys : System) (target : Option Nat) (w w' : World) : Prop where
  asked : ∃ asked : Option Layout,
    w'.heap.pool = asked.elim w.heap.pool (fun l => (w.heap.pool.alloc sys l).2) ∧
      w'.blocks = asked.elim [] (granted sys w.heap.pool) ++ w.blocks
  segments : w.heap.pool.segments <+: w'.heap.pool.segments
  bytes : ∀ n < w.heap.pool.used, (∀ r, target.bind w.residents = some r → ¬ r.Covers n) →
    w'.heap.memory.byte n = w.heap.memory.byte n
  residents : ∀ k r, target ≠ some k → w.residents k = some r → w'.residents k = some r ∧
    (∀ n, r.Covers n → w'.heap.memory.byte n = w.heap.memory.byte n) ∧ r.Same w.heap w'.heap

variable {c : Config} {sys : System} {w w' : World} {target : Option Nat} {asked : Option Layout}
  {new : Option Resident} {h' : Heap}

theorem granted_cases (sys : System) (p : Pool) (asked : Option Layout) :
    asked.elim [] (granted sys p) = [] ∨ ∃ l b, asked = some l ∧ (p.alloc sys l).1 = .ok b ∧
      asked.elim [] (granted sys p) = [(l, b)] := by
  cases asked with
  | none => exact .inl rfl
  | some l =>
    cases hb : (p.alloc sys l).1 with
    | error e =>
      left
      simp only [Option.elim, granted, hb]
    | ok b =>
      right
      exact ⟨l, b, rfl, hb, by simp only [Option.elim, granted, hb]⟩

theorem residents_next {k : Nat} {r : Resident}
    (hr : (w.next sys target asked new h').residents k = some r) :
    (target = some k ∧ new = some r) ∨ (target ≠ some k ∧ w.residents k = some r) := by
  by_cases hk : target = some k
  · left
    simp only [next, if_pos hk] at hr
    exact ⟨hk, hr⟩
  · right
    simp only [next, if_neg hk] at hr
    exact ⟨hk, hr⟩

end World

theorem Effect.grows {c : Config} {sys : System} {h h' : Heap} {asked : Option Layout}
    {old new : Option Resident} (e : Effect sys h asked old new h') (hp : h.pool.Sound c) :
    h'.pool.Sound c ∧ Grows h.pool h'.pool := by
  rw [e.pool]
  cases asked with
  | none => exact ⟨hp, .refl _⟩
  | some l => exact hp.alloc sys l

namespace World

variable {c : Config} {sys : System} {w w' : World} {target : Option Nat} {asked : Option Layout}
  {new : Option Resident} {h' : Heap}

namespace Separate

theorem resident_stop_le (hw : w.Separate c) {k : Nat} {r : Resident} (hr : w.residents k = some r) :
    r.stop ≤ w.heap.pool.used := by
  obtain ⟨b, hb, hpos, hext⟩ := hw.housed k r hr
  have hle := hw.stop_le b hb
  rw [Block.stop, ← hpos, ← hext] at hle
  exact hle

theorem start {h : Heap} (hc : Heap.create sys c = .ok h) : (World.start h).Separate c := by
  have hp : h.pool.Sound c := by
    unfold Heap.create at hc
    cases hpool : Pool.create sys c with
    | error e =>
      rw [hpool] at hc
      cases hc
    | ok p =>
      rw [hpool] at hc
      cases hc
      exact .created hpool
  constructor
  case sound => exact hp
  case located => simp [World.start]
  case stop_le => simp [World.start]
  case ordered => exact .nil
  case housed => rintro k r ⟨⟩
  case fits => rintro k r ⟨⟩
  case apart => rintro j k r r' _ ⟨⟩

theorem new_apart (hw : w.Separate c) (e : Effect sys w.heap asked (target.bind w.residents) new h')
    {j k : Nat} {r r' : Resident} (hjk : j ≠ k) (hk : target = some k) (hr : new = some r)
    (hr' : w.residents j = some r') : r.stop ≤ r'.position ∨ r'.stop ≤ r.position := by
  subst hk
  have hle := hw.resident_stop_le hr'
  cases e.settled r hr with
  | @stays r₀ hr₀ hpos hext =>
    have hapart := hw.apart k j r₀ r' (Ne.symm hjk) hr₀ hr'
    simp only [Resident.stop] at hapart ⊢
    omega
  | moves hl hb hpos hext =>
    have hfresh := (hw.sound.alloc_ok hb).1
    omega

theorem next (hw : w.Separate c)
    (e : Effect sys w.heap asked (target.bind w.residents) new h') :
    (w.next sys target asked new h').Separate c := by
  obtain ⟨hsound, hgrow⟩ := e.grows hw.sound
  have hblocks : ∀ b ∈ asked.elim [] (granted sys w.heap.pool), w.heap.pool.used ≤ b.2.position ∧
      b.2.stop ≤ h'.pool.used ∧ ∃ s ∈ h'.pool.segments, s.Holds s.base b.1 b.2 := by
    rcases granted_cases sys w.heap.pool asked with hg | ⟨l, b, rfl, hb, hg⟩
    · simp [hg]
    · obtain ⟨hpos, hstop, hseg⟩ := hw.sound.alloc_ok hb
      have hpool : h'.pool = (w.heap.pool.alloc sys l).2 := e.pool
      rw [hg, hpool]
      intro b' hb'
      rw [List.mem_singleton.1 hb']
      exact ⟨hpos, Nat.le_of_eq hstop, hseg⟩
  constructor
  case sound => exact hsound
  case located =>
    intro b hb
    rcases List.mem_append.1 hb with hb | hb
    · exact (hblocks b hb).2.2
    · obtain ⟨s, hs, hold⟩ := hw.located b hb
      exact ⟨s, hgrow.segments.subset hs, hold⟩
  case stop_le =>
    intro b hb
    rcases List.mem_append.1 hb with hb | hb
    · exact (hblocks b hb).2.1
    · exact Nat.le_trans (hw.stop_le b hb) hgrow.used_le
  case ordered =>
    refine List.pairwise_append.2 ⟨?_, hw.ordered, ?_⟩
    · rcases granted_cases sys w.heap.pool asked with hg | ⟨l, b, -, -, hg⟩
      · rw [hg]
        exact .nil
      · rw [hg]
        exact List.pairwise_singleton _ _
    · intro b hb b' hb'
      exact Nat.le_trans (hw.stop_le b' hb') (hblocks b hb).1
  case housed =>
    intro k r hr
    rcases residents_next hr with ⟨rfl, hnew⟩ | ⟨-, hr⟩
    · cases e.settled r hnew with
      | @stays r₀ hr₀ hpos hext =>
        obtain ⟨b, hb, hpos', hext'⟩ := hw.housed k r₀ hr₀
        exact ⟨b, List.mem_append_right _ hb, hpos.trans hpos', hext.trans hext'⟩
      | @moves l b hl hb hpos hext =>
        refine ⟨(l, b), List.mem_append_left _ ?_, hpos, hext⟩
        simp [hl, granted, hb]
    · obtain ⟨b, hb, hpos, hext⟩ := hw.housed k r hr
      exact ⟨b, List.mem_append_right _ hb, hpos, hext⟩
  case fits =>
    intro k r hr
    rcases residents_next hr with ⟨-, hr⟩ | ⟨-, hr⟩
    · exact e.fits r hr
    · exact hw.fits k r hr
  case apart =>
    intro j k r r' hjk hr hr'
    rcases residents_next hr with ⟨hj, hr⟩ | ⟨-, hr⟩
    · rcases residents_next hr' with ⟨hk, -⟩ | ⟨-, hr'⟩
      · exact absurd (Option.some.inj (hj.symm.trans hk)) hjk
      · exact hw.new_apart e (Ne.symm hjk) hj hr hr'
    · rcases residents_next hr' with ⟨hk, hr'⟩ | ⟨-, hr'⟩
      · exact (hw.new_apart e hjk hk hr' hr).symm
      · exact hw.apart j k r r' hjk hr hr'

theorem kept_next (hw : w.Separate c)
    (e : Effect sys w.heap asked (target.bind w.residents) new h') :
    Kept sys target w (w.next sys target asked new h') := by
  obtain ⟨-, hgrow⟩ := e.grows hw.sound
  constructor
  case asked => exact ⟨asked, e.pool, rfl⟩
  case segments => exact hgrow.segments
  case bytes => exact e.bytes
  case residents =>
    intro k r hk hr
    have hbytes : ∀ n, r.Covers n → h'.memory.byte n = w.heap.memory.byte n := by
      intro n hn
      have hle := hw.resident_stop_le hr
      apply e.bytes n (Nat.lt_of_lt_of_le hn.2 hle)
      intro r₀ hr₀ hcov
      cases target with
      | none => cases hr₀
      | some j =>
        have hjk : j ≠ k := fun h => hk (congrArg some h)
        have hapart := hw.apart j k r₀ r hjk hr₀ hr
        unfold Resident.Covers at hn hcov
        omega
    refine ⟨?_, hbytes, Resident.same_of_bytes (hw.fits k r hr) hbytes⟩
    simp only [World.next, if_neg hk]
    exact hr

end Separate

theorem Step.separate (hw : w.Separate c) (hs : Step sys w target w') :
    w'.Separate c ∧ Kept sys target w w' := by
  cases hs with
  | request l =>
    have he : Effect sys w.heap (some l) none none (w.heap.request sys l).2 :=
      .request l (by rintro r ⟨⟩)
    exact ⟨hw.next he, hw.kept_next he⟩
  | @act k _ _ _ hop =>
    have he := hop.effect hw.sound (hw.fits k)
    exact ⟨hw.next he, hw.kept_next he⟩

theorem Reachable.separate {h : Heap} (hc : Heap.create sys c = .ok h) (hw : Reachable h w) :
    w.Separate c := by
  induction hw with
  | start => exact .start hc
  | step _ hs ih =>
    exact (hs.separate ih).1

/-- Blocks in segments that the system put apart are apart in the address space too. -/
theorem Separate.addresses (hw : w.Separate c) (ha : SegmentsApart w.heap.pool) :
    w.blocks.Pairwise fun new old => old.2.address + old.2.size ≤ new.2.address ∨
      new.2.address + new.2.size ≤ old.2.address := by
  apply hw.ordered.imp_of_mem
  intro new old hnew hold hle
  obtain ⟨s, hs, hin⟩ := hw.located new hnew
  obtain ⟨s', hs', hin'⟩ := hw.located old hold
  have hstop := hin.stop_le
  have hstop' := hin'.stop_le
  have hbase := hin.used_le
  have hbase' := hin'.used_le
  rw [hin.address, hin'.address]
  simp only [Block.stop, Segment.stop, Segment.addressAt] at *
  by_cases hss : s = s'
  · subst hss
    omega
  · have hapart := ha s hs s' hs' hss
    omega

/-- Whatever is done in a pool and in whatever order: every block is aligned, lies in one segment and
overlaps no block handed out before it, and the next step, whichever it is, neither moves nor changes
what it is not about. -/
theorem reachable_separate {h : Heap} (hc : Heap.create sys c = .ok h) (hw : Reachable h w) :
    w.Separate c ∧
    (SegmentsApart w.heap.pool → w.blocks.Pairwise fun new old =>
      old.2.address + old.2.size ≤ new.2.address ∨ new.2.address + new.2.size ≤ old.2.address) ∧
    ∀ sys target w', Step sys w target w' → Kept sys target w w' := by
  have hs := hw.separate hc
  exact ⟨hs, hs.addresses, fun sys target w' hstep => (hstep.separate hs).2⟩

theorem Step.of_resident {k : Nat} (r : Resident) (hr : w.residents k = some r)
    (hop : Operation sys w.heap (some r) asked new h') :
    Step sys w (some k) (w.next sys (some k) asked new h') := .act (hr ▸ hop)

/-- A value, and behind it an array that has grown out of its first buffer. -/
theorem reachable_separate_grown : ∃ h w, Heap.create .standard .standard = .ok h ∧ Reachable h w ∧
    w.residents 0 = some (.value (⟨0⟩ : Place UInt64)) ∧
    w.residents 1 = some (.array (⟨16, 2, 2⟩ : Vec UInt64)) ∧ w.Separate .standard ∧
    ∀ sys target w', Step sys w target w' → Kept sys target w w' := by
  have hc : Heap.create .standard .standard =
      .ok ⟨⟨.standard, ⟨0, 0x1000, 16⟩, [], 0, 0x1000⟩, .empty⟩ := rfl
  have hput : Reachable ⟨⟨.standard, ⟨0, 0x1000, 16⟩, [], 0, 0x1000⟩, .empty⟩ _ :=
    .step .start (.act (.put (7 : UInt64)) : Step .standard _ (some 0) _)
  have hcreate : Reachable _ _ :=
    .step hput (.act (.create (α := UInt64) 1) : Step .standard _ (some 1) _)
  have hpush : Reachable _ _ := .step hcreate
    (.of_resident (.array (⟨8, 0, 1⟩ : Vec UInt64)) rfl (.push _ 5) : Step .standard _ (some 1) _)
  have hgrow : Reachable _ _ := .step hpush
    (.of_resident (.array (⟨8, 1, 1⟩ : Vec UInt64)) rfl (.push _ 6) : Step .standard _ (some 1) _)
  obtain ⟨hs, -, hkept⟩ := reachable_separate hc hgrow
  exact ⟨_, _, hc, hgrow, rfl, rfl, hs, hkept⟩

end World
end Frontend.Pool
