import Frontend.Proofs.Pool.Accounting

/-! # Requests that a pool refuses

A request that is refused leaves the pool as it was, so it can be struck from any run of requests: all
others are answered the same. This rests on the slack in the size of a fresh segment. The counters move
before the block is carved from it, and no carving fails after that.
-/
namespace Frontend.Pool

def answers (p : Pool) : List (System × Layout) → List (Except Failure Block)
  | [] => []
  | r :: rs => (p.alloc r.1 r.2).1 :: (p.alloc r.1 r.2).2.answers rs

def obtained (p : Pool) : List (System × Layout) → List (System × Layout)
  | [] => []
  | r :: rs =>
    if (p.alloc r.1 r.2).1.isOk then r :: (p.alloc r.1 r.2).2.obtained rs
    else (p.alloc r.1 r.2).2.obtained rs

/-- The reasons for which a pool refuses a layout; its configuration was checked when it was created. -/
inductive Refuses (p : Pool) (l : Layout) : Failure → Prop where
  | exhausted : Refuses p l (.exhausted l.size p.committed p.config.reservation)
  | commitFailed : Refuses p l (.commitFailed (needed p.config l))
  | capacityOverflow : Refuses p l .capacityOverflow

variable {c : Config} {p q : Pool} {sys : System} {l : Layout} {e : Failure}

theorem after_cons (p : Pool) (r : System × Layout) (rs : List (System × Layout)) :
    p.after (r :: rs) = (p.alloc r.1 r.2).2.after rs := rfl

theorem answers_append (p : Pool) (rs more : List (System × Layout)) :
    p.answers (rs ++ more) = p.answers rs ++ (p.after rs).answers more := by
  induction rs generalizing p with
  | nil => rfl
  | cons r rs ih => exact congrArg _ (ih _)

theorem Segment.commit_eq_error {base len : Nat} (h : commit sys base len = .error e) :
    e = .commitFailed len ∨ e = .capacityOverflow := by
  unfold commit at h
  split at h
  · cases h
    exact .inr rfl
  · split at h <;> cases h
    exact .inl rfl

theorem refuses_of_commitFor (h : p.commitFor sys l = (.error e, q)) : p.Refuses l e := by
  unfold commitFor at h
  dsimp only at h
  split at h
  · cases h
    exact .capacityOverflow
  · split at h
    · cases h
      exact .exhausted
    · split at h
      · next e' hcommit =>
        cases h
        rcases Segment.commit_eq_error hcommit with rfl | rfl
        · exact .commitFailed
        · exact .capacityOverflow
      · cases h

theorem commitFor_of_refused (hc : 0 < p.config.chunk) (h : p.alloc sys l = (.error e, q)) :
    p.commitFor sys l = (.error e, p) ∧ q = p := by
  unfold alloc at h
  split at h
  · cases h
  · split at h
    · next e' q' hcommit =>
      cases h
      have hq := commitFor_eq_error hcommit
      rw [hq] at hcommit
      exact ⟨hcommit, hq⟩
    · next s q' hcommit =>
      obtain ⟨hs, -⟩ := commitFor_eq_ok hcommit
      obtain ⟨b, hb⟩ := exists_carve_of_commit hc hs
      rw [hb] at h
      cases h

/-- The requests that were refused can be left out of a run. -/
theorem Sound.obtained (hp : p.Sound c) (rs : List (System × Layout)) :
    p.after (p.obtained rs) = p.after rs ∧
      p.answers (p.obtained rs) = (p.answers rs).filter Except.isOk := by
  induction rs generalizing p with
  | nil => exact ⟨rfl, rfl⟩
  | cons r rs ih =>
    have hnext := ih (hp.alloc r.1 r.2).1
    rcases hr : p.alloc r.1 r.2 with ⟨_ | b, q⟩
    · -- The refused request is gone from the run, and `q` is the pool before it.
      obtain ⟨-, rfl⟩ := commitFor_of_refused hp.chunk_pos hr
      rw [hr] at hnext
      simpa [Pool.obtained, after_cons, answers, hr, Except.isOk, Except.toBool] using hnext
    · rw [hr] at hnext
      obtain ⟨hafter, hanswers⟩ := hnext
      have hok : (Except.ok b : Except Failure Block).isOk = true := rfl
      simp only [Pool.obtained, hr, hok, if_true]
      constructor
      · simpa only [after_cons, hr] using hafter
      · simpa only [answers, hr, List.filter_cons_of_pos hok] using congrArg _ hanswers

/-- A refused request leaves the pool as it was, and every later one is answered as though it had not
been made: a run can do without all that were refused. Nothing is refused once memory was committed for
it, since the fresh segment has room for the block. -/
theorem unchanged_of_refused {sys : System} (h : create sys c = .ok p)
    (rs : List (System × Layout)) :
    (∀ sys l e q, (p.after rs).alloc sys l = (.error e, q) →
      q = p.after rs ∧ (p.after rs).Refuses l e ∧
      ∀ more, p.answers (rs ++ more) = p.answers rs ++ (p.after rs).answers more ∧
        p.answers (rs ++ (sys, l) :: more) =
          p.answers rs ++ .error e :: (p.after rs).answers more) ∧
    (∀ sys l s q, (p.after rs).commitFor sys l = (.ok s, q) →
      ∃ b, s.carve s.base l = some b) ∧
    p.after (p.obtained rs) = p.after rs ∧
    p.answers (p.obtained rs) = (p.answers rs).filter Except.isOk := by
  have hp := Sound.created h
  have hpos := (hp.after rs).1.chunk_pos
  refine ⟨?_, ?_, hp.obtained rs⟩
  · intro sys l e q hq
    obtain ⟨hcommit, rfl⟩ := commitFor_of_refused hpos hq
    refine ⟨rfl, refuses_of_commitFor hcommit, ?_⟩
    intro more
    refine ⟨answers_append .., ?_⟩
    rw [answers_append, answers, hq]
  · intro sys l s q hq
    obtain ⟨hs, -⟩ := commitFor_eq_ok hq
    exact exists_carve_of_commit hpos hs

theorem unchanged_of_refused_too_large : ∃ p l, create .standard .standard = .ok p ∧
    l.size = 0x140000000 ∧ ∀ more, p.answers ((.standard, l) :: more) =
      .error (.exhausted 0x140000000 0x1000 0x100000000) :: p.answers more := by
  let l : Layout := ⟨0x140000000, 64, ⟨6, rfl⟩, by decide⟩
  have hcreate : create .standard .standard =
      .ok ⟨.standard, ⟨0, 0x1000, 16⟩, [], 0, 0x1000⟩ := rfl
  have hrefused : alloc .standard l ⟨.standard, ⟨0, 0x1000, 16⟩, [], 0, 0x1000⟩ =
      (.error (.exhausted 0x140000000 0x1000 0x100000000),
        ⟨.standard, ⟨0, 0x1000, 16⟩, [], 0, 0x1000⟩) := by
    cbv
  obtain ⟨hall, -⟩ := unchanged_of_refused hcreate []
  obtain ⟨-, -, hlater⟩ := hall .standard l _ _ hrefused
  exact ⟨_, l, hcreate, rfl, fun more => (hlater more).2⟩

end Frontend.Pool
