import Frontend.Parser.Basic
import Frontend.Pool.Capacity

/-! # Sequences in a plan

A sequence grows like an array in a pool: it starts with the standard capacity and asks for a buffer of
the next capacity before an element that would not fit.
-/
namespace Frontend.Parser

structure Sequence (α : Type) where
  items : List α
  capacity : Nat

def buffer (element : Pool.Layout) (n : Nat) : Parser PUnit :=
  match Pool.bufferLayout element n with
  | .ok l => reserve l (done ⟨⟩)
  | .error e => fail (.internal (.pool e))

namespace Sequence
variable {α : Type}

def start (element : Pool.Layout) : Parser (Sequence α) := do
  buffer element Pool.standardCapacity
  return ⟨[], Pool.standardCapacity⟩

def push (element : Pool.Layout) (s : Sequence α) (a : α) : Parser (Sequence α) :=
  if s.items.length = s.capacity then
    match Pool.nextCapacity s.capacity with
    | .error e => fail (.internal (.pool e))
    | .ok capacity => do
      buffer element capacity
      return ⟨s.items ++ [a], capacity⟩
  else return { s with items := s.items ++ [a] }

end Sequence
end Frontend.Parser
