import Frontend.Pool.Config

/-! # Capacities of arrays

An array starts with a fixed number of slots and doubles it when it is full. Its buffers are requests
like any other; a number of slots that no buffer can hold is refused before the pool is asked.
-/
namespace Frontend.Pool

/-- Slots of an array for which no capacity was asked. -/
def standardCapacity : Nat := 32

/-- The capacity after growth: twice the old one, and at least one slot. -/
def nextCapacity (capacity : Nat) : Except Failure Nat :=
  if wordLimit ≤ 2 * capacity then .error .capacityOverflow else .ok (max (2 * capacity) 1)

def bufferLayout (element : Layout) (n : Nat) : Except Failure Layout :=
  match element.array? n with
  | some l => .ok l
  | none => .error .capacityOverflow

theorem lt_nextCapacity {c d : Nat} (h : nextCapacity c = .ok d) : c < d := by
  unfold nextCapacity at h
  split at h <;> cases h
  omega

end Frontend.Pool
