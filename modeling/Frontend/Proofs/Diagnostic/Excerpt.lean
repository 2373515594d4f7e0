import Frontend.Diagnostic

/-! # The line that a diagnostic shows

A diagnostic finds the line to print by walking over the lines of the source, and a span finds its line and
column by counting back from its start. The two agree for every span, also for one that starts behind the
end or inside of a character: the printed line has the number of the line, and what stands before the carets
is as wide as the column says.
-/
namespace Frontend

namespace Text
variable {l s t : Text} {n : Nat}

/-! ## Lines -/

theorem lines_oneLine (h : '\n' ∉ l) : lines l = [l] := by
  induction l with
  | nil => rfl
  | cons c l ih =>
    have hc : c ≠ '\n' := Ne.symm (List.ne_of_not_mem_cons h)
    rw [lines, if_neg hc, ih (List.not_mem_of_not_mem_cons h)]

theorem lines_append_newline (h : '\n' ∉ l) (t : Text) : lines (l ++ '\n' :: t) = l :: lines t := by
  induction l with
  | nil => rfl
  | cons c l ih =>
    have hc : c ≠ '\n' := Ne.symm (List.ne_of_not_mem_cons h)
    rw [List.cons_append, lines, if_neg hc, ih (List.not_mem_of_not_mem_cons h)]

theorem takeWhile_line (hl : '\n' ∉ l) (ht : ∀ c ∈ t.head?, c = '\n') :
    (l ++ t).takeWhile (· ≠ '\n') = l := by
  have hkept : ∀ c ∈ l, decide (c ≠ '\n') := fun c hc => decide_eq_true fun hn => hl (hn ▸ hc)
  rw [List.takeWhile_append_of_pos hkept]
  cases t with
  | nil => rw [List.takeWhile_nil, List.append_nil]
  | cons c t =>
    obtain rfl := ht c rfl
    rw [List.takeWhile_cons_of_neg (by simp), List.append_nil]

/-- A text is a single line, or a line with a newline and a text behind it. -/
theorem lines_induction {motive : Text → Prop} (last : ∀ l, '\n' ∉ l → motive l)
    (line : ∀ l t, '\n' ∉ l → motive t → motive (l ++ '\n' :: t)) (t : Text) : motive t := by
  induction hlen : t.length using Nat.strongRecOn generalizing t with
  | ind len ih =>
    by_cases h : '\n' ∈ t
    · obtain ⟨l, u, rfl, hl⟩ := List.eq_append_cons_of_mem h
      rw [List.length_append, List.length_cons] at hlen
      exact line l u hl (ih u.length (by omega) u rfl)
    · exact last t h

theorem lines_ne_nil (t : Text) : lines t ≠ [] := by
  induction t using lines_induction with
  | last l h => simp [lines_oneLine h]
  | line l t h => simp [lines_append_newline h]

theorem lines_eq_splitOn (t : Text) : lines t = t.splitOn '\n' := by
  have hline {l : Text} (h : '\n' ∉ l) : ∀ c ∈ l, (c == '\n') = false := fun c hc =>
    beq_eq_false_iff_ne.2 fun hn => h (hn ▸ hc)
  induction t using lines_induction with
  | last l h => rw [lines_oneLine h, List.splitOn, List.splitOnP_eq_singleton (hline h)]
  | line l t h ih =>
    have hsplit := List.splitOnP_append_cons_of_forall_mem (hline h) '\n' rfl t
    rw [lines_append_newline h, ih]
    exact hsplit.symm

theorem lineFrom_cons {ls : List Text} (hls : ls ≠ []) (n start : Nat) (l : Text) :
    lineFrom n start (l :: ls) =
      if n ≤ start + size l then (start, l) else lineFrom n (start + size l + 1) ls := by
  obtain ⟨u, us, rfl⟩ := List.exists_cons_of_ne_nil hls
  rfl

theorem lineFrom_add (k n start : Nat) (ls : List Text) : lineFrom (k + n) (k + start) ls =
    (k + (lineFrom n start ls).1, (lineFrom n start ls).2) := by
  induction ls generalizing start with
  | nil => rfl
  | cons l ls ih =>
    by_cases hls : ls = []
    · subst hls
      rfl
    · have hiff : k + n ≤ k + start + size l ↔ n ≤ start + size l := by omega
      have hstart : k + start + size l + 1 = k + (start + size l + 1) := by omega
      simp only [lineFrom_cons hls, hiff, hstart, ih]
      split <;> rfl

theorem lineAt_oneLine (h : '\n' ∉ l) (n : Nat) : lineAt l n = (0, l) := by
  rw [lineAt, lines_oneLine h]
  rfl

theorem lineAt_first (h : '\n' ∉ l) (hn : n ≤ size l) : lineAt (l ++ '\n' :: t) n = (0, l) := by
  rw [lineAt, lines_append_newline h, lineFrom_cons (lines_ne_nil t), if_pos (by omega)]

theorem lineAt_below (h : '\n' ∉ l) (n : Nat) : lineAt (l ++ '\n' :: t) (size l + 1 + n) =
    (size l + 1 + (lineAt t n).1, (lineAt t n).2) := by
  have hbelow := lineFrom_add (size l + 1) n 0 (lines t)
  rw [lineAt, lines_append_newline h, lineFrom_cons (lines_ne_nil t), if_neg (by omega), Nat.zero_add]
  exact hbelow

/-! ## What ends before an offset -/

theorem upTo_zero (t : Text) : upTo 0 t = [] := by
  cases t with
  | nil => rfl
  | cons c t => rw [upTo, if_neg (by have := c.utf8Size_pos; omega)]

theorem upTo_append (h : size s ≤ n) (t : Text) : upTo n (s ++ t) = s ++ upTo (n - size s) t := by
  induction s generalizing n with
  | nil => rfl
  | cons c s ih =>
    rw [size_cons] at h
    rw [List.cons_append, upTo, if_pos (by omega), ih (by omega), size_cons, Nat.sub_sub,
      List.cons_append]

theorem upTo_append_of_le (h : n ≤ size s) (t : Text) : upTo n (s ++ t) = upTo n s := by
  induction s generalizing n with
  | nil =>
    obtain rfl : n = 0 := Nat.le_zero.1 h
    rw [upTo_zero, upTo_zero]
  | cons c s ih =>
    rw [size_cons] at h
    rw [List.cons_append, upTo, upTo]
    split
    · rw [ih (by omega)]
    · rfl

theorem mem_of_mem_upTo {c : Char} (h : c ∈ upTo n t) : c ∈ t := by
  fun_induction upTo n t with
  | case1 => exact h
  | case2 n d t hd ih =>
    exact (List.mem_cons.1 h).elim (fun hc => hc ▸ List.mem_cons_self) fun hc =>
      List.mem_cons_of_mem d (ih hc)
  | case3 => cases h

theorem size_reverse (t : Text) : size t.reverse = size t := by
  induction t with
  | nil => rfl
  | cons c t ih =>
    rw [List.reverse_cons, size_append, ih]
    simp [Nat.add_comm]

theorem size_le_of_sublist (h : List.Sublist s t) : size s ≤ size t := by
  induction h with
  | slnil => exact Nat.le_refl _
  | cons c _ ih => exact Nat.le_trans ih (Nat.le_add_left _ _)
  | cons_cons c _ ih => exact Nat.add_le_add_left ih _

end Text

namespace Span
open Text
variable {l source : Text} {n : Nat}

theorem takeWhile_before {p : Char → Bool} {c : Char} (hc : p c = false) (s t : Text) :
    (s ++ c :: t).takeWhile p = s.takeWhile p := by
  induction s with
  | nil => rw [List.nil_append, List.takeWhile_cons_of_neg (by simp [hc]), List.takeWhile_nil]
  | cons d s ih => rw [List.cons_append, List.takeWhile_cons, List.takeWhile_cons, ih]

theorem lineColumn_unbroken (h : '\n' ∉ upTo n source) (len : Nat) :
    lineColumn ⟨n, len⟩ source = ⟨1, min n (size source) + 1⟩ := by
  have hline : '\n' ∉ (upTo n source).reverse := fun hn => h (List.mem_reverse.1 hn)
  have hall := takeWhile_line (t := []) hline (by simp)
  rw [List.append_nil] at hall
  simp only [lineColumn, hall, List.reverse_reverse, List.count_eq_zero_of_not_mem h, Nat.sub_self,
    Nat.sub_zero, Nat.zero_add]

theorem lineColumn_below (l t : Text) (h : '\n' ∉ l) (n len : Nat) :
    lineColumn ⟨size l + 1 + n, len⟩ (l ++ '\n' :: t) =
      ⟨(lineColumn ⟨n, len⟩ t).line + 1, (lineColumn ⟨n, len⟩ t).column⟩ := by
  have hnewline : Char.utf8Size '\n' = 1 := rfl
  have hbefore : upTo (size l + 1 + n) (l ++ '\n' :: t) = l ++ '\n' :: upTo n t := by
    rw [upTo_append (by omega), upTo, if_pos (by omega), hnewline]
    congr 3
    omega
  have hcount : (l ++ '\n' :: upTo n t).count '\n' = (upTo n t).count '\n' + 1 := by
    rw [List.count_append, List.count_eq_zero_of_not_mem h, List.count_cons_self, Nat.zero_add]
  have hlast : (l ++ '\n' :: upTo n t).reverse.takeWhile (· ≠ '\n') =
      (upTo n t).reverse.takeWhile (· ≠ '\n') := by
    rw [List.reverse_append, List.reverse_cons, List.append_assoc]
    exact takeWhile_before rfl _ _
  have hsize : size ((upTo n t).reverse.takeWhile (· ≠ '\n')).reverse ≤ size (upTo n t) := by
    rw [size_reverse, ← size_reverse (upTo n t)]
    exact size_le_of_sublist (List.takeWhile_sublist _)
  simp only [lineColumn, hbefore, hcount, hlast, size_append, size_cons, hnewline, LineColumn.mk.injEq,
    true_and]
  omega

end Span

/-- The source has the line with the number of the position between two texts, and the offset is found in
it, as far from its start as the column says. -/
structure Located (source : Text) (offset : Nat) (p : LineColumn) (before line after : Text) : Prop where
  whole : source = before ++ line ++ after
  unbroken : '\n' ∉ line
  ended : ∀ c ∈ after.head?, c = '\n'
  line_pos : 1 ≤ p.line
  column_pos : 1 ≤ p.column
  line_eq : (source.splitOn '\n')[p.line - 1]? = some line
  before_eq : before = ((source.splitOn '\n').take (p.line - 1)).flatMap (· ++ ['\n'])
  lineAt_eq : source.lineAt offset = (Text.size before, line)
  column_eq : p.column - 1 = min (offset - Text.size before) (Text.size line)
  offset_eq : Text.size before + (p.column - 1) = min offset (Text.size source)

namespace Located
variable {source before line after l t : Text} {n : Nat} {p : LineColumn}

theorem oneLine (h : '\n' ∉ l) (n len : Nat) :
    Located l n (Span.lineColumn ⟨n, len⟩ l) [] l [] := by
  rw [Span.lineColumn_unbroken (fun hn => h (Text.mem_of_mem_upTo hn))]
  constructor
  case whole => simp
  case unbroken => exact h
  case ended => simp
  case line_pos => exact Nat.le_refl 1
  case column_pos => exact Nat.le_add_left 1 _
  case line_eq =>
    rw [← Text.lines_eq_splitOn, Text.lines_oneLine h]
    rfl
  case before_eq => rfl
  case lineAt_eq => exact Text.lineAt_oneLine h n
  case column_eq => rfl
  case offset_eq => exact Nat.zero_add _

theorem first (h : '\n' ∉ l) (hn : n ≤ Text.size l) (t : Text) (len : Nat) :
    Located (l ++ '\n' :: t) n (Span.lineColumn ⟨n, len⟩ (l ++ '\n' :: t)) [] l ('\n' :: t) := by
  have hunbroken : '\n' ∉ Text.upTo n (l ++ '\n' :: t) := by
    rw [Text.upTo_append_of_le hn]
    exact fun hm => h (Text.mem_of_mem_upTo hm)
  rw [Span.lineColumn_unbroken hunbroken]
  have hsize : n ≤ Text.size (l ++ '\n' :: t) := by
    rw [Text.size_append]
    exact Nat.le_add_right_of_le hn
  constructor
  case whole => simp
  case unbroken => exact h
  case ended => simp
  case line_pos => exact Nat.le_refl 1
  case column_pos => exact Nat.le_add_left 1 _
  case line_eq =>
    rw [← Text.lines_eq_splitOn, Text.lines_append_newline h]
    rfl
  case before_eq => rfl
  case lineAt_eq => exact Text.lineAt_first h hn
  case column_eq =>
    show min n _ = min n _
    rw [Nat.min_eq_left hsize, Nat.min_eq_left hn]
  case offset_eq => exact Nat.zero_add _

theorem below {len : Nat} (hloc : Located t n (Span.lineColumn ⟨n, len⟩ t) before line after)
    (h : '\n' ∉ l) : Located (l ++ '\n' :: t) (Text.size l + 1 + n)
      (Span.lineColumn ⟨Text.size l + 1 + n, len⟩ (l ++ '\n' :: t)) (l ++ '\n' :: before) line after := by
  obtain ⟨hwhole, hunbroken, hended, hpos, hcolumn, hline, hbefore, hat, hcol, hoffset⟩ := hloc
  obtain ⟨k, hk⟩ := Nat.exists_eq_add_of_le' hpos
  have hnewline : Char.utf8Size '\n' = 1 := rfl
  rw [Span.lineColumn_below l t h]
  rw [hk] at hline hbefore
  rw [← Text.lines_eq_splitOn] at hline hbefore
  constructor
  case whole =>
    rw [hwhole]
    simp
  case unbroken => exact hunbroken
  case ended => exact hended
  case line_pos => exact Nat.le_add_left 1 _
  case column_pos => exact hcolumn
  case line_eq =>
    rw [← Text.lines_eq_splitOn, Text.lines_append_newline h, hk]
    exact hline
  case before_eq =>
    rw [← Text.lines_eq_splitOn, Text.lines_append_newline h, hk, hbefore]
    simp
  case lineAt_eq =>
    rw [Text.lineAt_below h, hat]
    simp only [Text.size_append, Text.size_cons, hnewline, Nat.add_assoc]
  case column_eq =>
    simp only [Text.size_append, Text.size_cons, hnewline] at hcol ⊢
    omega
  case offset_eq =>
    simp only [Text.size_append, Text.size_cons, hnewline] at hoffset ⊢
    omega

end Located

theorem exists_located (source : Text) (span : Span) : ∃ before line after,
    Located source span.start (span.lineColumn source) before line after := by
  obtain ⟨n, len⟩ := span
  induction source using Text.lines_induction generalizing n with
  | last l h => exact ⟨_, _, _, .oneLine h n len⟩
  | line l t h ih =>
    by_cases hn : n ≤ Text.size l
    · exact ⟨_, _, _, .first h hn t len⟩
    · obtain ⟨k, rfl⟩ := Nat.exists_eq_add_of_lt (Nat.lt_of_not_le hn)
      obtain ⟨before, line, after, hloc⟩ := ih k
      have hk : Text.size l + k + 1 = Text.size l + 1 + k := Nat.add_right_comm _ _ _
      rw [hk]
      exact ⟨_, _, _, hloc.below h⟩

namespace Diagnostic
variable {source before line after : Text} {span : Span} {p : LineColumn}

/-- The carets start in the column of the span. -/
theorem caretRow_located (h : Located source span.start p before line after) :
    caretRow span (Text.size before) line = List.replicate (p.column - 1) ' ' ++
      List.replicate (max 1 (min span.len (Text.size line - (p.column - 1)))) '^' := by
  rw [caretRow, ← h.column_eq, Nat.max_comm]

/-- The printed line, with colours or without, is the line of the source that has the number of the span's
line. It is cut out between characters, and the blanks and carets beneath it are those of the span's
column. Line and column determine the offset. -/
theorem render_located (source : Text) (span : Span) (message : Text) :
    let p := span.lineColumn source
    ∃ before line after, Located source span.start p before line after ∧
      Text.slice? (Text.size before) (Text.size line) source = some line ∧
      render true source (.source message span) =
        red ++ "error" ++ plain ++ ": " ++ message ++ "\n | " ++ underline ++ line ++ plain ++ "\n" ∧
      render false source (.source message span) =
        "error: " ++ message ++ "\n | " ++ line ++ "\n | " ++ List.replicate (p.column - 1) ' ' ++
          List.replicate (max 1 (min span.len (Text.size line - (p.column - 1)))) '^' ++ "\n" ∧
      ∀ other : Span, other.lineColumn source = p →
        min other.start (Text.size source) = min span.start (Text.size source) := by
  intro p
  obtain ⟨before, line, after, hloc⟩ : ∃ before line after, Located source span.start p before line after :=
    exists_located source span
  refine ⟨before, line, after, hloc, ?_, ?_, ?_, ?_⟩
  · rw [hloc.whole]
    exact Text.slice?_append before line after
  · simp only [render, hloc.lineAt_eq, paint, if_true]
    simp
  · simp only [render, hloc.lineAt_eq, paint, caretRow_located hloc]
    simp
  · intro other hother
    obtain ⟨before', line', after', hloc'⟩ := exists_located source other
    rw [hother] at hloc'
    rw [← hloc.offset_eq, ← hloc'.offset_eq, hloc.before_eq, hloc'.before_eq]

example : render false "ab\ncd" (.source "no" ⟨2, 2⟩) = "error: no\n | ab\n |   ^\n" := by decide

end Diagnostic
end Frontend
