import Frontend.Text

/-! # Spans

A span is a run of bytes in a text. It stores an offset and a length only; its text, its line and its
column are recovered from the source when they are asked for. Nothing keeps a span inside a text, so
each of these questions has an answer for spans that stick out of it.
-/
namespace Frontend

/-- The bytes from `start` on, `len` of them. -/
structure Span where
  start : Nat
  len : Nat
deriving DecidableEq, Repr, Inhabited

/-- A line and a byte column, both counted from one. -/
structure LineColumn where
  line : Nat
  column : Nat
deriving DecidableEq, Repr

namespace Span

/-- Offset one past the last byte. -/
def stop (s : Span) : Nat := s.start + s.len

def point (offset : Nat) : Span := ⟨offset, 0⟩

def isEmpty (s : Span) : Bool := s.len == 0

/-- From the start of `left` to the later of the two ends. -/
def combine (left right : Span) : Span :=
  ⟨left.start, max left.stop right.stop - left.start⟩

def contains (outer inner : Span) : Bool :=
  decide (outer.start ≤ inner.start) && decide (inner.stop ≤ outer.stop)

/-- The text covered, or nothing when the span is no cut of the source into whole characters. -/
def text (s : Span) (source : Text) : Text := (Text.slice? s.start s.len source).getD []

/-- Where the span starts; a start past the end counts as the end. The column is the distance to the
last newline before it, or to the start of the source. -/
def lineColumn (s : Span) (source : Text) : LineColumn :=
  let before := Text.upTo s.start source
  let onLine := (before.reverse.takeWhile (· ≠ '\n')).reverse
  let lineStart := Text.size before - Text.size onLine
  ⟨before.count '\n' + 1, min s.start (Text.size source) - lineStart + 1⟩

def display (s : Span) : Text := Text.ofNat s.start ++ ".." ++ Text.ofNat s.stop

@[simp] theorem stop_point (offset : Nat) : (point offset).stop = offset := rfl

@[simp] theorem start_combine (left right : Span) : (combine left right).start = left.start := rfl

/-- Nothing is lost at the end: the two ends are at or after the start of `left`. -/
theorem stop_combine (left right : Span) : (combine left right).stop = max left.stop right.stop := by
  simp only [combine, stop]
  omega

theorem text_append (s m t : Text) : text ⟨Text.size s, Text.size m⟩ (s ++ m ++ t) = m := by
  simp only [text, Text.slice?_append, Option.getD_some]

end Span

def LineColumn.display (p : LineColumn) : Text :=
  Text.ofNat p.line ++ ":" ++ Text.ofNat p.column

end Frontend
