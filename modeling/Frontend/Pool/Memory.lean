import Std.Data.HashMap
import Frontend.Pool.Layout

/-! # Memory

Memory holds a byte at each position that was ever written. Two facts describe it: a read of what was
just written gives it back, and a write changes no byte outside its run.
-/
namespace Frontend.Pool

structure Memory where
  cells : Std.HashMap Nat UInt8

namespace Memory

def empty : Memory := ⟨∅⟩

/-- The byte at a position; zero before anything was written there. -/
def byte (m : Memory) (position : Nat) : UInt8 := m.cells.getD position 0

def read (m : Memory) (position : Nat) : Nat → List UInt8
  | 0 => []
  | n + 1 => m.byte position :: m.read (position + 1) n

def write (m : Memory) (position : Nat) : List UInt8 → Memory
  | [] => m
  | b :: bs => Memory.write ⟨m.cells.insert position b⟩ (position + 1) bs

@[simp] theorem length_read (m : Memory) (position n : Nat) : (m.read position n).length = n := by
  induction n generalizing position with
  | zero => rfl
  | succ n ih => simp [read, ih]

theorem byte_write (m : Memory) (position : Nat) (bs : List UInt8) (p : Nat) :
    (m.write position bs).byte p =
      if position ≤ p then (bs[p - position]?).getD (m.byte p) else m.byte p := by
  induction bs generalizing m position with
  | nil => simp [write]
  | cons b bs ih =>
    have hb : Memory.byte ⟨m.cells.insert position b⟩ p
        = if position = p then b else m.byte p := by
      simp [byte, Std.HashMap.getD_insert]
    rw [write, ih, hb]
    by_cases hlt : position + 1 ≤ p
    · rw [if_pos hlt, if_pos (by omega : position ≤ p), if_neg (by omega : position ≠ p),
        show p - position = p - (position + 1) + 1 by omega, List.getElem?_cons_succ]
    · rw [if_neg hlt]
      by_cases he : position = p
      · simp [he]
      · rw [if_neg he, if_neg (by omega)]

theorem byte_write_of_disjoint {m : Memory} {position : Nat} {bs : List UInt8} {p : Nat}
    (h : p < position ∨ position + bs.length ≤ p) : (m.write position bs).byte p = m.byte p := by
  rw [byte_write]
  split
  · rw [List.getElem?_eq_none (by omega), Option.getD_none]
  · rfl

theorem read_write_of_disjoint {m : Memory} {position : Nat} {bs : List UInt8} {p n : Nat}
    (h : p + n ≤ position ∨ position + bs.length ≤ p) :
    (m.write position bs).read p n = m.read p n := by
  induction n generalizing p with
  | zero => rfl
  | succ n ih => rw [read, read, byte_write_of_disjoint (by omega), ih (by omega)]

theorem read_congr {m m' : Memory} {position n : Nat}
    (h : ∀ p, position ≤ p → p < position + n → m.byte p = m'.byte p) :
    m.read position n = m'.read position n := by
  induction n generalizing position with
  | zero => rfl
  | succ n ih =>
    rw [read, read, h position (by omega) (by omega), ih fun p hp hq => h p (by omega) (by omega)]

theorem read_write (m : Memory) (position : Nat) (bs : List UInt8) :
    (m.write position bs).read position bs.length = bs := by
  induction bs generalizing m position with
  | nil => rfl
  | cons b bs ih =>
    rw [List.length_cons, read, byte_write, if_pos (Nat.le_refl _), Nat.sub_self]
    rw [show m.write position (b :: bs) = Memory.write ⟨m.cells.insert position b⟩ (position + 1) bs
      from rfl, ih]
    rfl

end Memory
end Frontend.Pool
