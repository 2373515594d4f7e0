import Frontend.Text

/-! # Built-in types

The integer types are words of a fixed width, signed or not. `void` is never written: it is what a
function without a return type returns.
-/
namespace Frontend

inductive IntTy where
  | u8 | u16 | u32 | u64 | i8 | i16 | i32 | i64
deriving DecidableEq, Repr

inductive Ty where
  | int (width : IntTy)
  | bool
  | void
deriving DecidableEq, Repr

instance : Inhabited Ty := ⟨.void⟩

namespace IntTy

def all : List IntTy := [u8, u16, u32, u64, i8, i16, i32, i64]

def name : IntTy → Text
  | u8 => "u8" | u16 => "u16" | u32 => "u32" | u64 => "u64"
  | i8 => "i8" | i16 => "i16" | i32 => "i32" | i64 => "i64"

def isSigned : IntTy → Bool
  | u8 | u16 | u32 | u64 => false
  | i8 | i16 | i32 | i64 => true

def bytes : IntTy → Nat
  | u8 | i8 => 1
  | u16 | i16 => 2
  | u32 | i32 => 4
  | u64 | i64 => 8

end IntTy

namespace Ty

/-- The types that a program can write down. -/
def written : List Ty := IntTy.all.map int ++ [bool]

def name : Ty → Text
  | int i => i.name
  | bool => "bool"
  | void => "void"

def isSigned : Ty → Bool
  | int i => i.isSigned
  | bool | void => false

def isInteger : Ty → Bool
  | int _ => true
  | bool | void => false

/-- Bytes a value takes; `void` has none. -/
def bytes : Ty → Nat
  | int i => i.bytes
  | bool => 1
  | void => 0

end Ty

abbrev Suffix := Option IntTy

namespace Suffix

def text : Suffix → Text
  | none => []
  | some i => i.name

/-- Reads a suffix: no text at all, or the name of an integer type. -/
def ofText? (t : Text) : Option Suffix :=
  if t = [] then some none else (IntTy.all.find? (·.name = t)).map some

def ty : Suffix → Ty
  | none => .int .i64
  | some i => .int i

/-- Reading accepts exactly what is written for a suffix. -/
theorem ofText?_eq_some {t : Text} {s : Suffix} : ofText? t = some s ↔ t = text s := by
  constructor
  · intro h
    unfold ofText? at h
    split at h
    · cases h; assumption
    · obtain ⟨i, hi, rfl⟩ := Option.map_eq_some_iff.1 h
      exact (by simpa using List.find?_some hi : i.name = t).symm
  · rintro rfl
    rcases s with _ | i
    · rfl
    · cases i <;> decide

end Suffix
end Frontend
