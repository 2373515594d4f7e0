import Frontend.Text

/-! # Blank characters

The characters with the Unicode property White_Space: layout between tokens, and what is trimmed
from the name of a level.
-/
namespace Frontend.Text

def loneBlanks : List Nat :=
  [0x20, 0x85, 0xA0, 0x1680, 0x2028, 0x2029, 0x202F, 0x205F, 0x3000]

/-- The White_Space characters: U+0009 to U+000D, U+2000 to U+200A and `loneBlanks`. -/
def isBlank (c : Char) : Bool :=
  (0x9 ≤ c.toNat && c.toNat ≤ 0xD) || (0x2000 ≤ c.toNat && c.toNat ≤ 0x200A)
    || loneBlanks.contains c.toNat

example : isBlank '\n' ∧ isBlank '\r' ∧ isBlank '\u3000' ∧ ¬ isBlank '\u200b' ∧ ¬ isBlank '\uFEFF' := by
  decide

def trim (t : Text) : Text :=
  ((t.dropWhile isBlank).reverse.dropWhile isBlank).reverse

end Frontend.Text
