import Frontend.Log
import Frontend.Pool.Segment

/-! # The pool

A pool hands out blocks from its current segment. When a request does not fit there, the rest of the
segment is abandoned and a fresh segment of whole chunks is committed for it, up to the reservation.
Nothing is ever taken back. A request answers with the pool it leaves, whether it succeeds or fails.
-/
namespace Frontend

structure Pool where
  config : Pool.Config
  current : Pool.Segment
  earlier : List Pool.Segment
  used : Nat
  committed : Nat
deriving DecidableEq, Repr

namespace Pool

def segments (p : Pool) : List Segment := p.earlier.reverse ++ [p.current]

/-- A pool with its first chunk committed. -/
def create (sys : System) (c : Config) : Except Failure Pool :=
  match c.fault? with
  | some reason => .error (.invalidConfig reason)
  | none => do
    let first ← Segment.commit sys 0 c.chunk
    return { config := c, current := first, earlier := [], used := 0, committed := c.chunk }

/-- Bytes to commit for a layout: whole chunks that hold it wherever the segment starts. -/
def needed (c : Config) (l : Layout) : Nat :=
  let slack := if segmentAlign < l.align then l.align else 0
  max (roundUp (l.size + slack) c.chunk) c.chunk

/-- Commits a segment for the layout and moves on to it; the counters move with the commit. -/
def commitFor (sys : System) (l : Layout) (p : Pool) : Except Failure Segment × Pool :=
  let len := needed p.config l
  if wordLimit ≤ len then (.error .capacityOverflow, p)
  else if wordLimit ≤ p.committed + len ∨ p.config.reservation < p.committed + len then
    (.error (.exhausted l.size p.committed p.config.reservation), p)
  else match Segment.commit sys p.committed len with
    | .error e => (.error e, p)
    | .ok s => (.ok s, { p with committed := p.committed + len, used := p.committed })

def alloc (sys : System) (l : Layout) (p : Pool) : Except Failure Block × Pool :=
  match p.current.carve p.used l with
  | some b => (.ok b, { p with used := b.stop })
  | none =>
    match p.commitFor sys l with
    | (.error e, p) => (.error e, p)
    | (.ok s, p) =>
      match s.carve s.base l with
      | none => (.error .capacityOverflow, p)
      | some b =>
        (.ok b, { p with current := s, earlier := p.current :: p.earlier, used := b.stop })

def logTarget : Text := "tern_mem::arena"

def creationEvent (p : Pool) : Log.Event :=
  ⟨.debug, logTarget, "reserved " ++ Text.ofNat p.config.reservation ++ " bytes, committed first "
    ++ Text.ofNat p.config.chunk ++ " byte chunk"⟩

def growthEvents (before after : Pool) : List Log.Event :=
  if before.committed < after.committed then
    [⟨.trace, logTarget, "committed " ++ Text.ofNat (after.committed - before.committed)
      ++ " more bytes (" ++ Text.ofNat after.committed ++ " of "
      ++ Text.ofNat after.config.reservation ++ " reserved)"⟩]
  else []

def describe (p : Pool) : Text :=
  "MemPool \x7b config: PoolConfig \x7b reservation: " ++ Text.ofNat p.config.reservation
    ++ ", chunk_size: " ++ Text.ofNat p.config.chunk
    ++ " \x7d, stats: PoolStats \x7b used: " ++ Text.ofNat p.used
    ++ ", committed: " ++ Text.ofNat p.committed
    ++ ", reservation: " ++ Text.ofNat p.config.reservation
    ++ ", segments: " ++ Text.ofNat p.segments.length ++ " \x7d \x7d"

end Pool
end Frontend
