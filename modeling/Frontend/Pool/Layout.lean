import Frontend.Text

/-! # Sizes and alignments of requests

A layout is a request for memory that the address space can hold. Its two conditions are part of the
type, so that every function on layouts may rely on them.
-/
namespace Frontend.Pool

/-- Addresses and sizes are words of 64 bits. -/
def wordLimit : Nat := 0x10000000000000000

/-- A size rounded up to its alignment stays below half of that. -/
def spanLimit : Nat := 0x8000000000000000

/-- The least multiple of `a` at or after `n`. -/
def roundUp (n a : Nat) : Nat := n + (a - n % a) % a

theorem le_roundUp (n a : Nat) : n ≤ roundUp n a := Nat.le_add_right ..

theorem roundUp_lt (n : Nat) {a : Nat} (ha : 0 < a) : roundUp n a < n + a := by
  have := Nat.mod_lt (a - n % a) ha
  unfold roundUp
  omega

theorem dvd_roundUp (n : Nat) {a : Nat} (ha : 0 < a) : a ∣ roundUp n a := by
  have hr := Nat.mod_lt n ha
  by_cases hz : n % a = 0
  · simp [roundUp, hz, Nat.dvd_of_mod_eq_zero hz]
  · have hp : (a - n % a) % a = a - n % a := Nat.mod_eq_of_lt (by omega)
    have hd := Nat.div_add_mod n a
    refine ⟨n / a + 1, ?_⟩
    rw [roundUp, hp, Nat.mul_add, Nat.mul_one]
    omega

theorem isPowerOfTwo_eight : Nat.isPowerOfTwo 8 := ⟨3, rfl⟩

structure Layout where
  size : Nat
  align : Nat
  align_pow : align.isPowerOfTwo
  size_fits : size + align ≤ spanLimit
deriving DecidableEq

namespace Layout

def make? (size align : Nat) : Option Layout :=
  if h : align.isPowerOfTwo ∧ size + align ≤ spanLimit then some ⟨size, align, h.1, h.2⟩ else none

def words (n : Nat) (h : n ≤ 64) : Layout :=
  ⟨8 * n, 8, isPowerOfTwo_eight, by unfold spanLimit; omega⟩

/-- Room for `n` elements side by side; a size that is no multiple of the alignment leaves no gaps. -/
def array? (element : Layout) (n : Nat) : Option Layout :=
  if h : element.size * n + element.align ≤ spanLimit then
    some ⟨element.size * n, element.align, element.align_pow, h⟩
  else none

theorem align_pos (l : Layout) : 0 < l.align := by
  obtain ⟨k, hk⟩ := l.align_pow
  rw [hk]
  exact Nat.two_pow_pos k

theorem size_array? {element l : Layout} {n : Nat} (h : element.array? n = some l) :
    l.size = element.size * n ∧ l.align = element.align := by
  unfold array? at h
  split at h
  · cases h; exact ⟨rfl, rfl⟩
  · cases h

end Layout
end Frontend.Pool
