import Frontend.Pool.Vec
import Frontend.Session

/-! # Sequences as arrays

A plan keeps a sequence as a list beside a number of slots. It asks the pool for what an array of as many
elements in as many slots asks for, and is refused where the array is.
-/
namespace Frontend.Session
open Frontend.Parser
open Pool (Failure Heap Storable System Vec)

variable {σ α β : Type}

/-- As many elements in as many slots. -/
structure Mirrors (v : Vec α) (q : Sequence β) : Prop where
  length : v.length = q.items.length
  capacity : v.capacity = q.capacity

/-- What is done in a heap and what is done in a session leave the same pool: both are done, with results
that stand in the relation, or both are refused for the same reason. -/
inductive Matches {γ δ : Type} (R : γ → δ → Prop) :
    Except Failure γ × Heap → Except ParseError δ × Session σ → Prop
  | done {a : γ} {b : δ} {h : Heap} {s : Session σ} :
      R a b → h.pool = s.pool → Matches R (.ok a, h) (.ok b, s)
  | refused {e : Failure} {h : Heap} {s : Session σ} :
      h.pool = s.pool → Matches R (.error e, h) (.error (.internal (.pool e)), s)

variable [TokenStream σ] [Storable α] {h : Heap} {s : Session σ} {v : Vec α} {q : Sequence β}

theorem buffer_matches (hpool : h.pool = s.pool) (sys : System) (n : Nat) :
    Matches (fun (v : Vec α) _ => v.length = 0 ∧ v.capacity = n) (Vec.create sys n h)
      ((buffer (Storable.layout α) n).run (host sys) s) := by
  unfold Vec.create buffer
  cases hl : Pool.bufferLayout (Storable.layout α) n with
  | error e => exact .refused hpool
  | ok l =>
    simp only [Parser.run, host, Heap.request, hpool]
    rcases s.pool.alloc sys l with ⟨e | b, p⟩
    · exact .refused rfl
    · exact .done ⟨rfl, rfl⟩ rfl

theorem start_matches (hpool : h.pool = s.pool) (sys : System) :
    Matches (Mirrors (α := α) (β := β)) (Vec.create sys Pool.standardCapacity h)
      ((Sequence.start (Storable.layout α)).run (host sys) s) := by
  have hb := buffer_matches (α := α) hpool sys Pool.standardCapacity
  unfold Sequence.start
  change Matches _ _ (((buffer (Storable.layout α) Pool.standardCapacity).bind _).run (host sys) s)
  rw [run_bind]
  generalize (buffer (Storable.layout α) Pool.standardCapacity).run (host sys) s = r at hb ⊢
  generalize Vec.create (α := α) sys Pool.standardCapacity h = a at hb ⊢
  cases hb with
  | refused hp => exact .refused hp
  | done hv hp => exact .done ⟨hv.1, hv.2⟩ hp

/-- An element for which the sequence asks for a buffer is one for which the array grows. -/
theorem push_matches (hm : Mirrors v q) (hpool : h.pool = s.pool) (sys : System) (x : α) (b : β) :
    Matches Mirrors (v.push sys x h) ((q.push (Storable.layout α) b).run (host sys) s) := by
  unfold Vec.push Vec.reserveOne Sequence.push
  rw [hm.length, hm.capacity]
  by_cases hfull : q.items.length = q.capacity
  · rw [if_pos hfull, if_pos hfull]
    unfold Vec.grow
    rw [hm.capacity]
    cases Pool.nextCapacity q.capacity with
    | error e => exact .refused hpool
    | ok n =>
      have hb := buffer_matches (α := α) hpool sys n
      change Matches _ _ (((buffer (Storable.layout α) n).bind _).run (host sys) s)
      rw [run_bind]
      dsimp only
      generalize (buffer (Storable.layout α) n).run (host sys) s = r at hb ⊢
      generalize Vec.create (α := α) sys n h = a at hb ⊢
      cases hb with
      | refused hp => exact .refused hp
      | done hw hp => exact .done ⟨by simp [hm.length], hw.2⟩ hp
  · rw [if_neg hfull, if_neg hfull]
    exact .done ⟨by simp [hm.length], hm.capacity⟩ hpool

end Frontend.Session
