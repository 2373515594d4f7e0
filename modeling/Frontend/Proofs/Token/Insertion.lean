import Frontend.Proofs.Token.Rescan

/-! # Layout put between tokens

Blanks, a comment at the end of a line, and a newline where no statement may end are layout wherever they
are put, unless it is inside of a token or of a comment. What was read before them is read again, and what
stands behind them is read as before, further on by their size.
-/
namespace Frontend

namespace Text

/-- The place between the two texts lies inside of a comment: on its line are slashes in a row that begin
before it, and there is more of the line behind it. -/
def InComment (before after : Text) : Prop :=
  ∃ x y, x ≠ [] ∧ y ≠ [] ∧ x <:+ before ∧ y <+: after ∧ ['/', '/'] <+: x ++ y ∧ '\n' ∉ x ++ y

def IsSpace (t : Text) : Prop := t ≠ [] ∧ ∀ c ∈ t, isBlank c ∧ c ≠ '\n'

theorem InComment.append {t before after : Text} (h : InComment before after) :
    InComment (t ++ before) after := by
  obtain ⟨x, y, hx, hy, hbefore, hcomment⟩ := h
  exact ⟨x, y, hx, hy, hbefore.trans (List.suffix_append t before), hcomment⟩

theorem append_eq_of_size_le {s t s' t' : Text} (h : s ++ t = s' ++ t') (hs : size s ≤ size s') :
    ∃ u, s' = s ++ u ∧ t = u ++ t' := by
  rcases List.append_eq_append_iff.1 h with hu | ⟨u, rfl, rfl⟩
  · exact hu
  · have hlen := length_le_size u
    rw [size_append] at hs
    obtain rfl : u = [] := List.eq_nil_of_length_eq_zero (by omega)
    exact ⟨[], by simp, rfl⟩

theorem lead_blank {c : Char} (h : isBlank c) (t : Text) : lead (c :: t) = none := by
  have hword : ¬ isWordChar c := fun hc => not_isBlank_of_isWordChar hc h
  have hcarries : ¬ (isWordChar c || c == '=' || c == '/') := by
    simp only [Bool.or_eq_true, beq_iff_eq]
    rintro ((hc | rfl) | rfl)
    · exact hword hc
    · cases h
    · cases h
  exact Option.filter_some_neg (Bool.eq_false_iff.2 hcarries)

end Text

/-- Text that may be put between tokens, after tokens of these kinds. -/
inductive Padding (ks : List Kind) (after : Text) : Text → Prop where
  | space {w : Text} : w.IsSpace → Padding ks after w
  | comment {w u : Text} : w.IsSpace → '\n' ∉ u → (∀ c ∈ after.head?, c = '\n') →
      Padding ks after (w ++ '/' :: '/' :: u)
  | newline : ¬ EndsStatement ks → Padding ks after ['\n']

/-- The source falls in two at a place that lies neither inside of a token nor of a comment. -/
structure Parted (source : Text) (ts : List Token) (before after : Text) : Prop where
  whole : source = before ++ after
  token : ∀ t ∈ ts, ¬ (t.span.start < Text.size before ∧ Text.size before < t.span.stop)
  comment : ¬ before.InComment after

/-- The token where `k` bytes more stand at a place in the source: further on if it starts there or
behind the place, and else unchanged. -/
def Token.pushed (place k : Nat) (t : Token) : Token := if place ≤ t.span.start then t.shift k else t

namespace Token
variable {place k : Nat} {t : Token}

theorem pushed_of_le (h : place ≤ t.span.start) : t.pushed place k = t.shift k := if_pos h

theorem pushed_of_lt (h : t.span.start < place) : t.pushed place k = t := if_neg (Nat.not_le.2 h)

@[simp] theorem kind_pushed : (t.pushed place k).kind = t.kind := by
  unfold pushed
  split <;> rfl

end Token

/-! ## Layout -/

namespace Skipped
variable {t u v w : Text}

theorem lineComment (ht : ∀ c ∈ t, c ≠ '\n') (hv : ∀ c ∈ v.head?, c = '\n') :
    Skipped v ('/' :: '/' :: t) := by
  have h : Skipped v ('/' :: '/' :: t ++ []) := .comment ht hv .nil
  rw [List.append_nil] at h
  exact h

theorem part (h : Skipped v (t ++ u)) (hout : ¬ t.InComment (u ++ v)) : Skipped (u ++ v) t := by
  generalize hwhole : t ++ u = whole at h
  induction h generalizing t with
  | nil =>
    obtain ⟨rfl, rfl⟩ := List.append_eq_nil_iff.1 hwhole
    exact .nil
  | @blank c whole hc _ ih =>
    cases t with
    | nil => exact .nil
    | cons d t =>
      obtain ⟨rfl, htail⟩ := List.cons.inj hwhole
      exact .blank hc (ih (fun hin => hout (hin.append (t := [d]))) htail)
  | @comment w whole hw hn hskip ih =>
    rcases List.append_eq_append_iff.1 hwhole with ⟨x, hx, rfl⟩ | ⟨x, rfl, rfl⟩
    · by_cases ht : t = []
      · subst ht
        exact .nil
      by_cases hnil : x = []
      · subst hnil
        rw [List.append_nil] at hx
        rw [← hx]
        exact lineComment hw hn
      · refine absurd ⟨t, x, ht, hnil, List.suffix_refl t, ?_, ?_, ?_⟩ hout
        · rw [List.append_assoc]
          exact List.prefix_append ..
        · rw [← hx]
          exact ⟨w, rfl⟩
        · rw [← hx]
          intro hmem
          exact hw '\n' (by simpa using hmem) rfl
    · rw [List.append_assoc] at hn
      exact .comment hw hn (ih (fun hin => hout hin.append) rfl)

theorem extend (h : Skipped v t) (hline : '\n' ∉ w) (hw : Skipped v w) : Skipped v (t ++ w) := by
  induction h with
  | nil => exact hw
  | blank hc _ ih => exact .blank hc ih
  | @comment x t hx hn _ ih =>
    cases t with
    | nil =>
      have hboth : ∀ c ∈ x ++ w, c ≠ '\n' := List.forall_mem_append.2
        ⟨hx, fun c hc hcn => hline (hcn ▸ hc)⟩
      rw [List.append_nil]
      exact lineComment hboth hn
    | cons c t =>
      rw [List.append_assoc]
      exact .comment hx hn ih

end Skipped

namespace Text.IsSpace
variable {w : Text}

theorem skipped (h : w.IsSpace) (v : Text) : Skipped v w := .of_blanks fun c hc => (h.2 c hc).1

theorem oneLine (h : w.IsSpace) : '\n' ∉ w := fun hn => (h.2 '\n' hn).2 rfl

theorem lead_eq (h : w.IsSpace) (t : Text) : lead (w ++ t) = none := by
  obtain ⟨c, w, rfl⟩ := List.exists_cons_of_ne_nil h.1
  exact lead_blank (h.2 c List.mem_cons_self).1 _

end Text.IsSpace

namespace Padding
variable {ks : List Kind} {after u w : Text}

theorem skipped (h : Padding ks after w) (hu : Skipped after u) : Skipped after (u ++ w) := by
  cases h with
  | space hw => exact hu.extend hw.oneLine (hw.skipped after)
  | @comment w x hw hx hend =>
    have hcomment : Skipped after ('/' :: '/' :: x) := .lineComment (fun c hc hcn => hx (hcn ▸ hc)) hend
    apply hu.extend
    · simp [hw.oneLine, hx]
    · exact .append (hw.skipped _) hcomment
  | newline => exact hu.newline

theorem oneLine (h : Padding ks after w) (hks : EndsStatement ks) : '\n' ∉ w := by
  cases h with
  | space hw => exact hw.oneLine
  | comment hw hx => simp [hw.oneLine, hx]
  | newline hno => exact absurd hks hno

theorem lead_eq (h : Padding ks after w) : Text.lead (w ++ after) = none := by
  cases h with
  | space hw => exact hw.lead_eq after
  | comment hw =>
    rw [List.append_assoc]
    exact hw.lead_eq _
  | newline => rfl

end Padding

/-! ## Scanning -/

namespace Scanner
variable {s s' : Scanner} {u w after gap piece : Text}

/-- A place that the next answer steps past, and that is not inside of what it answers for, lies in the
layout before it. -/
theorem Meets.gap_eq (h : s.Meets u after gap piece)
    (hout : ¬ (Text.size gap < Text.size u ∧ Text.size u < Text.size gap + Text.size piece)) :
    ∃ g, gap = u ++ g ∧ after = g ++ (piece ++ s.scan.2.rest) := by
  have heq : u ++ after = gap ++ (piece ++ s.scan.2.rest) := h.rest.symm.trans h.scanned.rest
  by_cases hle : Text.size u ≤ Text.size gap
  · exact Text.append_eq_of_size_le heq hle
  · obtain ⟨v, rfl, hv⟩ := Text.append_eq_of_size_le heq.symm (by omega)
    rw [Text.size_append] at hle hout
    have hlong : Text.size piece ≤ Text.size v := by omega
    obtain ⟨x, rfl, -⟩ := Text.append_eq_of_size_le hv hlong
    -- An answer with a piece would step past the place, and one without has read all the text.
    rcases h.past with rfl | hlt
    · rw [h.scanned.rest_of_empty rfl] at hv
      obtain ⟨rfl, -⟩ := List.append_eq_nil_iff.1 hv.symm
      simp at hle
    · simp only [List.length_append] at hlt
      omega

/-- From a place in layout on, what is answered behind more layout is what is answered without it. -/
theorem answers_padded (hrest : s.rest = u ++ after) (hu : Skipped after u)
    (huw : Skipped after (u ++ w)) (hline : s.endsStatement → '\n' ∉ u ++ w) (hs : Moved 0 [] s s')
    (hrest' : s'.rest = u ++ (w ++ after)) : s'.answers = s.answers.map (shiftAnswer (Text.size w)) := by
  have hplace : Moved 0 u (s.skip (Text.size u) after) s := ⟨rfl, rfl, rfl⟩
  have hplace' : Moved (Text.size w) (u ++ w) (s.skip (Text.size u) after) s' := by
    have hoffset := hs.offset
    refine ⟨?_, hs.depth, hs.endsStatement⟩
    simp only [Scanner.skip, Text.size_append, Text.size_nil] at hoffset ⊢
    omega
  have hline' : s.endsStatement → '\n' ∉ u := fun hends hn => hline hends (List.mem_append_left w hn)
  rw [← List.append_assoc] at hrest'
  rw [answers_moved hplace hrest hu hline', answers_moved hplace' hrest' huw hline,
    funext shiftAnswer_zero, List.map_id']

/-- The scanner has read the tokens before a place, and up to the place only layout is left. -/
structure Reaches (s : Scanner) (before after : Text) (earlier later : List Token) (read gap : Text) :
    Prop where
  scans : Scans (.ofText (before ++ after)) earlier s
  answers : s.answers = later.map .ok
  before_eq : before = read ++ gap
  rest : s.rest = gap ++ after
  skipped : Skipped after gap
  oneLine : s.endsStatement → '\n' ∉ gap
  earlier_lt : ∀ t ∈ earlier, t.span.start < Text.size before
  le_later : ∀ t ∈ later, Text.size before ≤ t.span.start

end Scanner

section Padded
open Scanner
variable {source before after w : Text} {ts earlier later : List Token} {s : Scanner} {read gap : Text}

theorem Parted.exists_reaches (h : Parted source ts before after) (hlex : lex source = .ok ts) :
    ∃ earlier later s read gap, ts = earlier ++ later ∧
      Reaches s before after earlier later read gap := by
  obtain ⟨earlier, later, s, u, gap, piece, rfl, hscans, hans, hmeets, hoffset⟩ :=
    Scanner.exists_scans (answers_of_lex hlex) h.whole
  have hplace : s.offset + Text.size u = Text.size before := hoffset.trans (Nat.zero_add _)
  obtain ⟨t, us, rfl, hscan, hlater⟩ := hmeets.scanned.later hans
  have hspan := hmeets.scanned.span_eq hscan
  obtain ⟨g, rfl, hafter⟩ := hmeets.gap_eq fun hin => by
    refine h.token t (by simp) ?_
    rw [hspan]
    simp only [Span.stop]
    omega
  rw [Text.size_append] at hspan hlater
  obtain ⟨read, hread⟩ := hscans.rest
  have hbefore : before = read ++ u := by
    rw [hmeets.rest, ← List.append_assoc] at hread
    exact List.append_cancel_right (h.whole.symm.trans hread)
  refine ⟨earlier, t :: us, s, read, u, rfl, ?_⟩
  constructor
  case scans =>
    rw [← h.whole]
    exact hscans
  case answers => exact hans
  case before_eq => exact hbefore
  case rest => exact hmeets.rest
  case skipped =>
    rw [hafter]
    apply hmeets.scanned.skipped.part
    intro hin
    apply h.comment
    rw [hbefore, hafter]
    exact hin.append
  case oneLine =>
    intro hs hn
    rw [hmeets.scanned.newline_gap (List.mem_append_left g hn)] at hs
    cases hs
  case earlier_lt =>
    intro v hv
    have hlt := (hscans.stop_le.2 v hv).1
    omega
  case le_later =>
    refine List.forall_mem_cons.2 ⟨?_, fun v hv => ?_⟩
    · rw [hspan]
      show Text.size before ≤ s.offset + (Text.size u + Text.size g)
      omega
    · have hle := (hlater v hv).2
      omega

theorem Scanner.Reaches.endsStatement_iff (h : s.Reaches before after earlier later read gap) :
    s.endsStatement ↔ EndsStatement (kindsBefore (earlier ++ later) (Text.size before)) := by
  have hstart := recalls_initial (before ++ after)
  rw [kindsBefore_append h.earlier_lt h.le_later]
  exact (h.scans.recalls hstart).endsStatement_iff

theorem Scanner.Reaches.padded (h : s.Reaches before after earlier later read gap)
    (hw : Padding (kindsBefore (earlier ++ later) (Text.size before)) after w) :
    ∃ s', Scans (.ofText (before ++ w ++ after)) earlier s' ∧
      s'.answers = (later.map (Token.shift (Text.size w))).map .ok := by
  have hstart : Moved 0 [] (.ofText (before ++ after)) (.ofText (before ++ w ++ after)) := ⟨rfl, rfl, rfl⟩
  have hread : (Scanner.ofText (before ++ after)).rest = read ++ s.rest := by
    rw [h.rest, h.before_eq]
    exact List.append_assoc ..
  have hrest : (Scanner.ofText (before ++ w ++ after)).rest = read ++ (gap ++ (w ++ after)) := by
    rw [h.before_eq]
    simp only [Scanner.ofText, List.append_assoc]
  have hlead : ∀ c ∈ Text.lead (gap ++ (w ++ after)), c ∈ Text.lead s.rest := by
    rw [h.rest]
    apply Text.lead_append
    intro c hc
    rw [hw.lead_eq] at hc
    cases hc
  obtain ⟨s', hscans, hs', hrest'⟩ := h.scans.replay hstart hread hrest hlead
  have hline : s.endsStatement → '\n' ∉ gap ++ w := fun hs => by
    rw [List.mem_append, not_or]
    exact ⟨h.oneLine hs, hw.oneLine (h.endsStatement_iff.1 hs)⟩
  refine ⟨s', hscans, ?_⟩
  rw [answers_padded h.rest h.skipped (hw.skipped h.skipped) hline hs' hrest', h.answers,
    map_shiftAnswer]

/-- Layout changes no token: those behind it are further on, and the others stay where they are. -/
theorem lex_padded (h : lex source = .ok ts) (hparted : Parted source ts before after)
    (hw : Padding (kindsBefore ts (Text.size before)) after w) :
    lex (before ++ w ++ after) = .ok (ts.map (Token.pushed (Text.size before) (Text.size w))) := by
  obtain ⟨earlier, later, s, read, gap, rfl, hs⟩ := hparted.exists_reaches h
  obtain ⟨s', hscans, hlater⟩ := hs.padded hw
  have hkept : earlier.map (Token.pushed (Text.size before) (Text.size w)) = earlier.map id :=
    List.map_congr_left fun t ht => Token.pushed_of_lt (hs.earlier_lt t ht)
  have hmoved : later.map (Token.pushed (Text.size before) (Text.size w)) =
      later.map (Token.shift (Text.size w)) :=
    List.map_congr_left fun t ht => Token.pushed_of_le (hs.le_later t ht)
  rw [lex, hscans.answers_eq, hlater, ← List.map_append, mapM_tokens, List.map_append, hkept, hmoved,
    List.map_id]

theorem Token.text_pushed {t : Token} {x piece y : Text} (hwhole : before ++ after = x ++ piece ++ y)
    (hspan : t.span = ⟨Text.size x, Text.size piece⟩)
    (hout : ¬ (t.span.start < Text.size before ∧ Text.size before < t.span.stop)) (w : Text) :
    (t.pushed (Text.size before) (Text.size w)).span.text (before ++ w ++ after) =
      t.span.text (before ++ after) := by
  have htext : t.span.text (before ++ after) = piece := by rw [hspan, hwhole, Span.text_append]
  rw [htext]
  by_cases hle : Text.size before ≤ Text.size x
  · rw [List.append_assoc] at hwhole
    obtain ⟨u, rfl, rfl⟩ := Text.append_eq_of_size_le hwhole hle
    have hshift : (t.shift (Text.size w)).span =
        ⟨Text.size (before ++ w ++ u), Text.size piece⟩ := by
      simp only [Token.shift, Span.shift, hspan, Text.size_append, Span.mk.injEq, and_true]
      omega
    have happend := Span.text_append (before ++ w ++ u) piece y
    rw [List.append_assoc _ piece y, List.append_assoc _ u] at happend
    rw [pushed_of_le (by rw [hspan]; exact hle), hshift]
    exact happend
  · have hstop : Text.size (x ++ piece) ≤ Text.size before := by
      rw [hspan] at hout
      simp only [Span.stop] at hout
      rw [Text.size_append]
      omega
    obtain ⟨u, rfl, -⟩ := Text.append_eq_of_size_le hwhole.symm hstop
    have happend := Span.text_append x piece (u ++ (w ++ after))
    simp only [← List.append_assoc] at happend
    rw [pushed_of_lt (by rw [hspan]; exact Nat.lt_of_not_le hle), hspan]
    exact happend

end Padded
end Frontend
