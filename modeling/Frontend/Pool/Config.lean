import Frontend.Pool.Layout

/-! # Configuration of a pool

A pool may commit `reservation` bytes in all, in whole chunks. The rules on the two numbers are
checked once, in a fixed order, and the first one broken is the one reported.
-/
namespace Frontend.Pool

inductive Failure where
  | invalidConfig (reason : Text)
  | commitFailed (size : Nat)
  | exhausted (requested committed reservation : Nat)
  | capacityOverflow
deriving DecidableEq, Repr

def Failure.message : Failure → Text
  | invalidConfig reason => "invalid pool configuration: " ++ reason
  | commitFailed size => "unable to commit " ++ Text.ofNat size ++ " bytes in memory pool"
  | exhausted requested committed reservation =>
    "out of memory in pool: requested " ++ Text.ofNat requested ++ " bytes with "
      ++ Text.ofNat committed ++ " of " ++ Text.ofNat reservation ++ " bytes committed"
  | capacityOverflow => "array capacity overflow"

/-- The failure as a panic shows it; no reason holds a character that would have to be escaped. -/
def Failure.debug : Failure → Text
  | invalidConfig reason => "InvalidConfig \x7b reason: \"" ++ reason ++ "\" \x7d"
  | commitFailed size => "CommitFailed \x7b size: " ++ Text.ofNat size ++ " \x7d"
  | exhausted requested committed reservation =>
    "Exhausted \x7b requested: " ++ Text.ofNat requested ++ ", committed: " ++ Text.ofNat committed
      ++ ", reservation: " ++ Text.ofNat reservation ++ " \x7d"
  | capacityOverflow => "CapacityOverflow"

structure Config where
  reservation : Nat
  chunk : Nat
deriving DecidableEq, Repr

namespace Config

/-- Four gibibytes in chunks of one page. -/
def standard : Config := ⟨0x100000000, 0x1000⟩

structure Valid (c : Config) : Prop where
  chunk_pow : c.chunk.isPowerOfTwo
  chunk_le : c.chunk ≤ c.reservation
  chunk_dvd : c.chunk ∣ c.reservation

def fault? (c : Config) : Option Text :=
  if c.chunk = 0 then some "chunk size must be non-zero"
  else if ¬ c.chunk.isPowerOfTwo then some "chunk size must be a power of two"
  else if c.reservation < c.chunk then some "reservation must hold at least one chunk"
  else if c.reservation % c.chunk ≠ 0 then
    some "reservation must be a multiple of the chunk size"
  else none

theorem fault?_eq_none {c : Config} : c.fault? = none ↔ c.Valid := by
  unfold fault?
  constructor
  · intro h
    split at h; · cases h
    split at h; · cases h
    split at h; · cases h
    split at h; · cases h
    next _ hp hl hd =>
      exact ⟨by simpa using hp, by omega, Nat.dvd_of_mod_eq_zero (by omega)⟩
  · rintro ⟨hp, hl, hd⟩
    have h0 : c.chunk ≠ 0 := by
      obtain ⟨k, hk⟩ := hp
      have := Nat.two_pow_pos k
      omega
    rw [if_neg h0, if_neg (by simpa using hp), if_neg (by omega),
      if_neg (by simpa using Nat.mod_eq_zero_of_dvd hd)]

end Config
end Frontend.Pool
