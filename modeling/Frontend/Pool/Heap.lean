import Frontend.Pool.Basic
import Frontend.Pool.Memory
import Frontend.Pool.Storable

/-! # A pool with its contents

A heap is a pool and the memory behind it. Values are written into blocks that the pool hands out and
stay where they are.
-/
namespace Frontend.Pool

structure Heap where
  pool : Pool
  memory : Memory

structure Place (α : Type) where
  position : Nat
deriving DecidableEq, Repr

namespace Heap

def create (sys : System) (c : Config) : Except Failure Heap := do
  return ⟨← Pool.create sys c, .empty⟩

/-- Hands out a block; memory is left alone. -/
def request (sys : System) (l : Layout) (h : Heap) : Except Failure Block × Heap :=
  match h.pool.alloc sys l with
  | (r, p) => (r, { h with pool := p })

variable {α : Type} [Storable α]

def load (h : Heap) (p : Place α) : α :=
  Storable.decode (h.memory.read p.position (Storable.layout α).size)

def store (h : Heap) (p : Place α) (x : α) : Heap :=
  { h with memory := h.memory.write p.position (Storable.encode x) }

def put (sys : System) (x : α) (h : Heap) : Except Failure (Place α) × Heap :=
  match h.request sys (Storable.layout α) with
  | (.error e, h) => (.error e, h)
  | (.ok b, h) => (.ok ⟨b.position⟩, h.store ⟨b.position⟩ x)

end Heap
end Frontend.Pool
