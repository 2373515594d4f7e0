import Frontend.Pool.Config

/-! # Segments

A segment is one run of memory granted by the system. Positions in a pool are logical: `base` is the
position of the segment's first byte, `start` the address the system gave it. Padding depends on the
address, everything else on positions.
-/
namespace Frontend.Pool

/-- Segments start at multiples of this address. -/
def segmentAlign : Nat := 16

/-- How the system answers a commit of so many bytes that are to begin at a position: with an address,
or by refusing. The position tells the commits of a pool apart, so no two need be answered alike. -/
structure System where
  grant : Nat → Nat → Option Nat
  aligned : ∀ {base len start}, grant base len = some start → segmentAlign ∣ start
  inSpace : ∀ {base len start}, grant base len = some start → start + len ≤ wordLimit

def System.standard : System where
  grant _ len := if len < 0x4000000000000 then some segmentAlign else none
  aligned h := by
    split at h <;> cases h
    exact Nat.dvd_refl _
  inSpace h := by
    split at h <;> cases h
    unfold segmentAlign wordLimit
    omega

structure Segment where
  base : Nat
  len : Nat
  start : Nat
deriving DecidableEq, Repr

/-- A run of bytes that was handed out: its position, its size and its address. -/
structure Block where
  position : Nat
  size : Nat
  address : Nat
deriving DecidableEq, Repr

/-- Position one past the last byte. -/
def Block.stop (b : Block) : Nat := b.position + b.size

namespace Segment

def stop (s : Segment) : Nat := s.base + s.len

def commit (sys : System) (base len : Nat) : Except Failure Segment :=
  if spanLimit < len + segmentAlign then .error .capacityOverflow
  else match sys.grant base len with
    | none => .error (.commitFailed len)
    | some start => .ok ⟨base, len, start⟩

def addressAt (s : Segment) (position : Nat) : Nat := s.start + (position - s.base)

/-- How far into the segment the first byte at or after position `used` lies whose address has the
alignment. -/
def firstFit (s : Segment) (used : Nat) (l : Layout) : Nat :=
  used - s.base + (roundUp (s.addressAt used) l.align - s.addressAt used)

/-- The first block at or after position `used` that has the layout, if it ends inside the segment. -/
def carve (s : Segment) (used : Nat) (l : Layout) : Option Block :=
  if used < s.base ∨ wordLimit ≤ s.addressAt used
      ∨ wordLimit ≤ roundUp (s.addressAt used) l.align then none
  else
    let first := s.firstFit used l
    if wordLimit ≤ first + l.size ∨ s.len < first + l.size then none
    else some ⟨s.base + first, l.size, s.start + first⟩

end Segment
end Frontend.Pool
