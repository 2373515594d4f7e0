import Frontend.Error

/-! # Diagnostics

A source error is shown with the line it starts on. Without colours a row of carets stands under the
blamed part of the line; with colours the line itself is underlined. Both the blanks before the carets
and the carets count bytes. An internal error is shown with the place of the check that failed.
-/
namespace Frontend

/-- The place of a check in the program text of the front end. -/
structure Site where
  file : Text
  line : Nat
deriving DecidableEq, Repr

inductive Diagnostic where
  | source (message : Text) (span : Span)
  | internal (message : Text) (site : Site)
deriving DecidableEq, Repr

def ParseError.diagnostic (site : InternalError → Site) : ParseError → Diagnostic
  | .source e => .source e.problem.message e.span
  | .internal e => .internal e.message (site e)

namespace Diagnostic

def message : Diagnostic → Text
  | source m _ | internal m _ => m

def span? : Diagnostic → Option Span
  | source _ s => some s
  | internal _ _ => none

def isSource : Diagnostic → Bool
  | source _ _ => true
  | internal _ _ => false

/-- The error in one line, without the source. -/
def display : Diagnostic → Text
  | source m _ => m
  | internal m site => "internal error: " ++ site.file ++ ":" ++ Text.ofNat site.line ++ ": " ++ m

def red : Text := "\x1b[31m"

def blue : Text := "\x1b[34m"

def underline : Text := "\x1b[4;37m"

def plain : Text := "\x1b[0m"

def paint (colours : Bool) (colour t : Text) : Text := if colours then colour ++ t ++ plain else t

/-- The row that points at the span, under the line that starts at `lineStart`. -/
def caretRow (span : Span) (lineStart : Nat) (line : Text) : Text :=
  let indent := min (span.start - lineStart) (Text.size line)
  let width := max (min span.len (Text.size line - indent)) 1
  List.replicate indent ' ' ++ List.replicate width '^'

def render (colours : Bool) (source : Text) : Diagnostic → Text
  | .source m span =>
    let (lineStart, line) := Text.lineAt source span.start
    paint colours red "error" ++ ": " ++ m ++ "\n" ++
      if colours then " | " ++ underline ++ line ++ plain ++ "\n"
      else " | " ++ line ++ "\n | " ++ caretRow span lineStart line ++ "\n"
  | .internal m site =>
    paint colours blue "internal error: " ++ site.file ++ ":" ++ Text.ofNat site.line ++ ": " ++ m
      ++ "\n"

end Diagnostic
end Frontend
