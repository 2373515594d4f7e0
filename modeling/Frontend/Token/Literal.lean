import Frontend.Token

/-! # Values of integer literals

A literal is decimal digits and a suffix. Its value is the number its digits spell, as long as that is
a word. Digits are read from the left; of two faults the one met first counts.
-/
namespace Frontend

def literalLimit : Nat := 0x10000000000000000

inductive LiteralFault where
  | malformed
  | overflow
deriving DecidableEq, Repr

/-- Reads on after digits of value `acc`. -/
def foldDigits (acc : Nat) : Text → Except LiteralFault Nat
  | [] => .ok acc
  | c :: t =>
    if c.isDigit then
      let value := 10 * acc + (c.toNat - '0'.toNat)
      if value < literalLimit then foldDigits value t else .error .overflow
    else .error .malformed

/-- The value of a literal whose text, suffix included, is `text`. -/
def literalValue (text : Text) (suffix : Suffix) : Except LiteralFault Nat :=
  let stated := Text.size suffix.text
  if Text.size text < stated then .error .malformed
  else match Text.takeBytes? (Text.size text - stated) text with
    | none | some [] => .error .malformed
    | some digits => foldDigits 0 digits

example : literalValue "18446744073709551615u64" (some .u64) = .ok 18446744073709551615 := rfl
example : literalValue "18446744073709551616" none = .error .overflow := rfl

end Frontend
