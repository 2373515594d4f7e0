import Frontend.Text

/-! # Files

The text of a file, or the reason why it cannot be had. The operating system names its reasons by
numbers.
-/
namespace Frontend.Command

inductive ReadError where
  | system (code : Nat)
  | notUtf8
deriving DecidableEq, Repr

namespace ReadError

/-- The operating system's words for a number. -/
def describeCode : Nat → Text
  | 1 => "Operation not permitted"
  | 2 => "No such file or directory"
  | 5 => "Input/output error"
  | 12 => "Cannot allocate memory"
  | 13 => "Permission denied"
  | 20 => "Not a directory"
  | 21 => "Is a directory"
  | 22 => "Invalid argument"
  | 23 => "Too many open files in system"
  | 24 => "Too many open files"
  | 36 => "File name too long"
  | 40 => "Too many levels of symbolic links"
  | code => "Unknown error " ++ Text.ofNat code

def message : ReadError → Text
  | system code => describeCode code ++ " (os error " ++ Text.ofNat code ++ ")"
  | notUtf8 => "stream did not contain valid UTF-8"

end ReadError

def decodeUtf8 (bytes : ByteArray) : Except ReadError Text :=
  match String.fromUTF8? bytes with
  | some s => .ok s.toList
  | none => .error .notUtf8

end Frontend.Command
