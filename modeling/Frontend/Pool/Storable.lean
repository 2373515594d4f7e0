import Frontend.Pool.Layout

/-! # Values kept in memory

A storable type says how many bytes a value takes and how it is written as bytes. Reading the bytes
written for a value gives the value back, whatever the type.
-/
namespace Frontend.Pool

/-- The low `n` bytes of a number, least significant first. -/
def toBytes : Nat → Nat → List UInt8
  | 0, _ => []
  | n + 1, x => UInt8.ofNat x :: toBytes n (x / 256)

def ofBytes : List UInt8 → Nat
  | [] => 0
  | b :: bs => b.toNat + 256 * ofBytes bs

@[simp] theorem length_toBytes (n x : Nat) : (toBytes n x).length = n := by
  induction n generalizing x with
  | zero => rfl
  | succ n ih => simp [toBytes, ih]

theorem ofBytes_toBytes (n x : Nat) : ofBytes (toBytes n x) = x % Nat.pow 256 n := by
  induction n generalizing x with
  | zero => exact (Nat.mod_one x).symm
  | succ n ih =>
    have h : Nat.pow 256 (n + 1) = 256 * Nat.pow 256 n := Nat.mul_comm ..
    rw [toBytes, ofBytes, ih, h, Nat.mod_mul]
    rfl

theorem ofBytes_toBytes_of_lt {n x : Nat} (h : x < Nat.pow 256 n) : ofBytes (toBytes n x) = x := by
  rw [ofBytes_toBytes, Nat.mod_eq_of_lt h]

class Storable (α : Type) where
  layout : Layout
  encode : α → List UInt8
  decode : List UInt8 → α
  length_encode : ∀ a, (encode a).length = layout.size
  decode_encode : ∀ a, decode (encode a) = a

structure Triple where
  first : UInt64
  second : UInt64
  third : UInt64
deriving DecidableEq, Repr, Inhabited

instance : Storable Unit where
  layout := ⟨0, 1, by decide, by decide⟩
  encode _ := []
  decode _ := ()
  length_encode _ := rfl
  decode_encode _ := rfl

instance : Storable UInt8 where
  layout := ⟨1, 1, by decide, by decide⟩
  encode x := toBytes 1 x.toNat
  decode bs := UInt8.ofNat (ofBytes bs)
  length_encode _ := length_toBytes ..
  decode_encode x := by
    rw [ofBytes_toBytes_of_lt x.toNat_lt, UInt8.ofNat_toNat]

instance : Storable UInt16 where
  layout := ⟨2, 2, by decide, by decide⟩
  encode x := toBytes 2 x.toNat
  decode bs := UInt16.ofNat (ofBytes bs)
  length_encode _ := length_toBytes ..
  decode_encode x := by
    rw [ofBytes_toBytes_of_lt x.toNat_lt, UInt16.ofNat_toNat]

instance : Storable UInt32 where
  layout := ⟨4, 4, by decide, by decide⟩
  encode x := toBytes 4 x.toNat
  decode bs := UInt32.ofNat (ofBytes bs)
  length_encode _ := length_toBytes ..
  decode_encode x := by
    rw [ofBytes_toBytes_of_lt x.toNat_lt, UInt32.ofNat_toNat]

instance : Storable UInt64 where
  layout := ⟨8, 8, by decide, by decide⟩
  encode x := toBytes 8 x.toNat
  decode bs := UInt64.ofNat (ofBytes bs)
  length_encode _ := length_toBytes ..
  decode_encode x := by
    rw [ofBytes_toBytes_of_lt x.toNat_lt, UInt64.ofNat_toNat]

instance : Storable (BitVec 128) where
  layout := ⟨16, 16, by decide, by decide⟩
  encode x := toBytes 16 x.toNat
  decode bs := BitVec.ofNat 128 (ofBytes bs)
  length_encode _ := length_toBytes ..
  decode_encode x := by
    rw [ofBytes_toBytes_of_lt x.isLt, BitVec.ofNat_toNat, BitVec.setWidth_eq]

instance : Storable Triple where
  layout := ⟨24, 8, by decide, by decide⟩
  encode t := toBytes 8 t.first.toNat ++ (toBytes 8 t.second.toNat ++ toBytes 8 t.third.toNat)
  decode bs :=
    ⟨UInt64.ofNat (ofBytes (bs.take 8)), UInt64.ofNat (ofBytes ((bs.drop 8).take 8)),
      UInt64.ofNat (ofBytes (bs.drop 16))⟩
  length_encode t := by simp only [List.length_append, length_toBytes]
  decode_encode t := by
    have h (x : UInt64) : UInt64.ofNat (ofBytes (toBytes 8 x.toNat)) = x := by
      rw [ofBytes_toBytes_of_lt x.toNat_lt, UInt64.ofNat_toNat]
    rw [List.take_append_of_le_length (by simp), List.take_of_length_le (by simp),
      List.drop_left' (by simp), List.take_append_of_le_length (by simp),
      List.take_of_length_le (by simp), h, h,
      show (16 : Nat) = 8 + 8 from rfl, ← List.drop_drop, List.drop_left' (by simp),
      List.drop_left' (by simp), h]

instance : Storable (Vector UInt8 100) where
  layout := ⟨100, 1, by decide, by decide⟩
  encode v := v.toList
  decode bs := Vector.ofFn fun i => (bs[i.val]?).getD 0
  length_encode v := by simp
  decode_encode v := by
    ext i hi
    simp

end Frontend.Pool
