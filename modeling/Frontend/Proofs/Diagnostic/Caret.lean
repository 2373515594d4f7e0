import Frontend.Proofs.Diagnostic.Excerpt
import Frontend.Proofs.Session.Discipline
import Frontend.Proofs.Token.Insertion

/-! # What the carets stand under

An error that a text is refused for is about a piece of the text, in whole characters. The row beneath the
line has a blank for each byte before the piece and a caret for each byte that it has on the line. So the
carets stand under the characters of the piece where all these are single bytes, and nowhere else.
-/
namespace Frontend

namespace Text
variable {t : Text}

theorem size_eq_length_iff : size t = t.length ↔ ∀ c ∈ t, c.utf8Size = 1 := by
  induction t with
  | nil => simp
  | cons c t ih =>
    have hc := c.utf8Size_pos
    have ht := length_le_size t
    rw [size_cons, List.length_cons, List.forall_mem_cons, ← ih]
    omega

theorem exists_marked {line after piece y : Text} (hline : '\n' ∉ line)
    (hended : ∀ c ∈ after.head?, c = '\n') (h : line ++ after = piece ++ y) :
    ∃ marked right, line = marked ++ right ∧ piece.takeWhile (· ≠ '\n') = marked ∧
      min (size piece) (size line) = size marked := by
  by_cases hle : size piece ≤ size line
  · obtain ⟨right, rfl, -⟩ := append_eq_of_size_le h.symm hle
    have hpiece : '\n' ∉ piece := fun hn => hline (List.mem_append_left right hn)
    have hall := takeWhile_line (t := []) hpiece (by simp)
    rw [List.append_nil] at hall
    exact ⟨piece, right, rfl, hall, Nat.min_eq_left hle⟩
  · obtain ⟨u, rfl, rfl⟩ := append_eq_of_size_le h (by omega)
    have hu : ∀ c ∈ u.head?, c = '\n' := by
      cases u with
      | nil => simp
      | cons c u => exact hended
    exact ⟨line, [], (List.append_nil line).symm, takeWhile_line hline hu, Nat.min_eq_right (by omega)⟩

end Text

/-- The line of the span falls into what stands before the span, what the span has of the line, and the
rest. -/
structure Marks (source : Text) (span : Span) (before left marked right after : Text) : Prop where
  located : Located source span.start (span.lineColumn source) before (left ++ (marked ++ right)) after
  start : Text.size before + Text.size left = span.start
  marked_eq : marked = (span.text source).takeWhile (· ≠ '\n')
  len_eq : min span.len (Text.size (marked ++ right)) = Text.size marked

namespace Diagnostic

/-- A blank for each of the characters on the left, and a caret for each of the marked ones, at least one. -/
def characterRow (left marked : Text) : Text :=
  List.replicate left.length ' ' ++ List.replicate (max 1 marked.length) '^'

def byteRow (left marked : Text) : Text :=
  List.replicate (Text.size left) ' ' ++ List.replicate (max 1 (Text.size marked)) '^'

theorem byteRow_eq_characterRow_iff {left marked : Text} :
    byteRow left marked = characterRow left marked ↔ ∀ c ∈ left ++ marked, c.utf8Size = 1 := by
  rw [List.forall_mem_append, ← Text.size_eq_length_iff, ← Text.size_eq_length_iff]
  constructor
  · intro h
    have hblanks : Text.size left = left.length := by
      simpa [byteRow, characterRow, List.count_append, List.count_replicate] using
        congrArg (List.count ' ') h
    have hcarets : max 1 (Text.size marked) = max 1 marked.length := by
      simpa [byteRow, characterRow, List.count_append, List.count_replicate] using
        congrArg (List.count '^') h
    refine ⟨hblanks, ?_⟩
    cases marked with
    | nil => rfl
    | cons c marked =>
      have hle := Text.length_le_size (c :: marked)
      rw [List.length_cons] at hcarets hle ⊢
      omega
  · rintro ⟨hleft, hmarked⟩
    rw [byteRow, characterRow, hleft, hmarked]

end Diagnostic

/-! ## The pieces that are blamed -/

namespace Marks
variable {source x piece y before line after left marked right : Text} {span : Span} {p : LineColumn}

theorem exists_of_piece (hsource : source = x ++ piece ++ y)
    (hspan : span = ⟨Text.size x, Text.size piece⟩) :
    ∃ before left marked right after, Marks source span before left marked right after := by
  obtain ⟨before, line, after, hloc⟩ := exists_located source span
  have htext : span.text source = piece := by rw [hspan, hsource, Span.text_append]
  have hstart : span.start = Text.size x := by rw [hspan]
  have hwhole : before ++ (line ++ after) = x ++ (piece ++ y) := by
    rw [← List.append_assoc, ← hloc.whole, hsource, List.append_assoc]
  have hinside : Text.size x ≤ Text.size source := by
    rw [hsource, Text.size_append, Text.size_append]
    omega
  have hoffset := hloc.offset_eq
  have hcolumn := hloc.column_eq
  rw [hstart, Nat.min_eq_left hinside] at hoffset
  -- The span starts on the line, so the line falls into what stands before it and the rest.
  obtain ⟨left, rfl, hline⟩ := Text.append_eq_of_size_le hwhole (by omega)
  rw [Text.size_append] at hoffset
  obtain ⟨rest, rfl, hpiece⟩ := Text.append_eq_of_size_le hline.symm (by omega)
  have hrest : '\n' ∉ rest := fun hn => hloc.unbroken (List.mem_append_right left hn)
  have hsize : Text.size before + Text.size left = span.start := by rw [hstart, Text.size_append]
  have hlen : span.len = Text.size piece := by rw [hspan]
  obtain ⟨marked, right, rfl, hmarked, hmin⟩ := Text.exists_marked hrest hloc.ended hpiece.symm
  refine ⟨before, left, marked, right, after, hloc, hsize, ?_, ?_⟩
  · rw [htext, hmarked]
  · rw [hlen, hmin]

/-- Blanks and carets are as many as the bytes of what they stand under. -/
theorem caretRow_eq (h : Marks source span before left marked right after) :
    Diagnostic.caretRow span (Text.size before) (left ++ (marked ++ right)) =
      Diagnostic.byteRow left marked := by
  have hcolumn : (span.lineColumn source).column - 1 = Text.size left := by
    rw [h.located.column_eq, ← h.start, Text.size_append]
    omega
  rw [Diagnostic.caretRow_located h.located, hcolumn, Text.size_append, Nat.add_sub_cancel_left,
    h.len_eq, Diagnostic.byteRow]

end Marks

theorem Lexer.nth_piece (source : Text) (n : Nat) : ∃ before piece after,
    source = before ++ piece ++ after ∧
      answerSpan ((ofText source).nth n) = ⟨Text.size before, Text.size piece⟩ := by
  obtain ⟨as, -, hlossless, hnth⟩ := nth_ofText source
  rw [hnth, List.getD_eq_getElem?_getD]
  cases ha : as[n]? with
  | none => exact ⟨source, [], [], by simp, rfl⟩
  | some a => exact hlossless.within a (List.mem_of_getElem? ha)

theorem Lexer.Blames.exists_piece {source : Text} {e : SourceError} (h : (ofText source).Blames e) :
    ∃ before piece after, source = before ++ piece ++ after ∧
      e.span = ⟨Text.size before, Text.size piece⟩ := by
  obtain ⟨n, -, hn⟩ := h
  have hspan : e.span = answerSpan ((ofText source).nth n) := by
    rcases hn with hn | ⟨t, hn, hspan⟩
    · rw [hn]
      rfl
    · rw [hn, hspan]
      rfl
  rw [hspan]
  exact nth_piece source n

namespace Session
open Diagnostic Frontend.Parser Grammar
variable {sys : Pool.System} {source : Text} {pool : Pool} {journal : Log.Journal} {e : SourceError}

theorem exists_marks (h : (parseText sys source pool journal).1 = .error (.source e)) :
    ∃ before left marked right after, Marks source e.span before left marked right after := by
  have hwithin : (Lexer.ofText source).Within source := ⟨0, fun n => by rw [Nat.zero_add]⟩
  rcases lexer_error (program_decides source) Functions.bounded hwithin h with ⟨f, hf⟩ | ⟨d, hd, hblames⟩
  · cases hf
  · cases hd
    obtain ⟨x, piece, y, hsource, hspan⟩ := hblames.exists_piece
    exact Marks.exists_of_piece hsource hspan

/-- The error that a text is refused for is shown with the line it starts on. Beneath it is a blank for
each byte before the blamed piece and a caret for each of its bytes on the line, at least one. These are as
many as the characters exactly if all of them are single bytes. -/
theorem carets_by_bytes (h : (parseText sys source pool journal).1 = .error (.source e))
    (site : InternalError → Site) :
    ∃ before left marked right after, Marks source e.span before left marked right after ∧
      render false source ((ParseError.source e).diagnostic site) =
        "error: " ++ e.problem.message ++ "\n | " ++ (left ++ (marked ++ right)) ++ "\n | " ++
          byteRow left marked ++ "\n" ∧
      (byteRow left marked = characterRow left marked ↔ ∀ c ∈ left ++ marked, c.utf8Size = 1) := by
  obtain ⟨before, left, marked, right, after, hmarks⟩ := exists_marks h
  refine ⟨before, left, marked, right, after, hmarks, ?_, byteRow_eq_characterRow_iff⟩
  simp only [ParseError.diagnostic, render, hmarks.located.lineAt_eq, paint, hmarks.caretRow_eq]
  simp

theorem eq_error_of_decide {α : Type} {r : Except ParseError α} {d : ParseError}
    (h : (match r with
      | .ok _ => false
      | .error d' => decide (d' = d)) = true) : r = .error d := by
  cases r with
  | ok a => cases h
  | error d' => rw [of_decide_eq_true h]

theorem carets_by_bytes_letter :
    let source : Text := "f(\n é"
    let pool : Pool := ⟨.standard, ⟨0, 0x1000, 16⟩, [], 0, 0x1000⟩
    let e : SourceError := ⟨.unexpected 'é', ⟨4, 2⟩⟩
    (parseText .standard source pool (.empty .info)).1 = .error (.source e) ∧
      ∀ site, ∃ before left marked right after, Marks source e.span before left marked right after ∧
        render false source ((ParseError.source e).diagnostic site) =
          "error: " ++ e.problem.message ++ "\n | " ++ (left ++ (marked ++ right)) ++ "\n | " ++
            byteRow left marked ++ "\n" ∧
        (byteRow left marked = characterRow left marked ↔ ∀ c ∈ left ++ marked, c.utf8Size = 1) := by
  intro source pool e
  have hparse : (parseText .standard source pool (.empty .info)).1 = .error (.source e) :=
    eq_error_of_decide (by decide)
  exact ⟨hparse, carets_by_bytes hparse⟩

/-- Behind a blank of two bytes the carets stand one place too far, and under a letter of two bytes there
are two of them. -/
theorem carets_aside :
    let source : Text := "\u00a0é"
    let pool : Pool := ⟨.standard, ⟨0, 0x1000, 16⟩, [], 0, 0x1000⟩
    let e : SourceError := ⟨.unexpected 'é', ⟨2, 2⟩⟩
    (parseText .standard source pool (.empty .info)).1 = .error (.source e) ∧
      Marks source e.span [] "\u00a0" "é" [] [] ∧
      (∀ site, render false source ((ParseError.source e).diagnostic site) =
        "error: unexpected character 'é'\n | \u00a0é\n |   ^^\n") ∧
      characterRow "\u00a0" "é" = " ^" := by
  intro source pool e
  refine ⟨eq_error_of_decide (by decide), ⟨?_, rfl, rfl, rfl⟩, fun _ => rfl, rfl⟩
  constructor
  case whole => rfl
  case unbroken => decide
  case ended => simp
  case line_pos => decide
  case column_pos => decide
  case line_eq => rfl
  case before_eq => rfl
  case lineAt_eq => rfl
  case column_eq => rfl
  case offset_eq => rfl

end Session
end Frontend
