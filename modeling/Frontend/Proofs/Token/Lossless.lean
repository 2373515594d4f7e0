import Frontend.Proofs.Token.Piece

/-! # Reading loses nothing

The answers of a lexer cut the source into pieces with layout between them. The run ends: from some
answer on there is only the end of input.
-/
namespace Frontend

/-- The answers before the end of input, read off a text that starts at `offset`. -/
inductive Reads : Nat → Text → List (Except SourceError Token) → Prop where
  | nil {offset : Nat} {gap : Text} : Skipped [] gap → Reads offset gap []
  | last {offset : Nat} {gap : Text} {a : Except SourceError Token} : Skipped [] gap →
      answerKind a = some .terminator → answerSpan a = .point (offset + Text.size gap) →
      Reads offset gap [a]
  | cons {offset : Nat} {gap piece rest : Text} {a : Except SourceError Token}
      {as : List (Except SourceError Token)} : Skipped (piece ++ rest) gap →
      answerSpan a = ⟨offset + Text.size gap, Text.size piece⟩ → Covers (answerKind a) piece rest →
      Reads (offset + Text.size gap + Text.size piece) rest as →
      Reads offset (gap ++ (piece ++ rest)) (a :: as)

/-- Where an answer stands in the source, and with which piece of it. -/
def Placed (source : Text) (a : Except SourceError Token) : Prop :=
  ∃ before piece after, source = before ++ piece ++ after ∧
    answerSpan a = ⟨Text.size before, Text.size piece⟩ ∧
    (Covers (answerKind a) piece after ∨
      piece = [] ∧ after = [] ∧ answerKind a = some .terminator)

/-- The spans before, between and after the given ones, from `start` to `stop`. -/
def gaps (stop : Nat) : Nat → List Span → List Span
  | start, [] => [⟨start, stop - start⟩]
  | start, s :: ss => ⟨start, s.start - start⟩ :: gaps stop s.stop ss

def LaidOut (source : Text) (s : Span) : Prop :=
  ∃ before gap after, source = before ++ gap ++ after ∧
    s = ⟨Text.size before, Text.size gap⟩ ∧ Skipped after gap

/-- Answers that account for every byte of the source. -/
structure Lossless (source : Text) (as : List (Except SourceError Token)) : Prop where
  noEof : ∀ t, .ok t ∈ as → t.kind ≠ .eof
  within : ∀ a ∈ as, ∃ before piece after, source = before ++ piece ++ after ∧
    answerSpan a = ⟨Text.size before, Text.size piece⟩
  ordered : as.Pairwise fun a b => (answerSpan a).stop ≤ (answerSpan b).start
  nonempty : ∀ a ∈ as.dropLast, 0 < (answerSpan a).len
  nonempty_last : ∀ a ∈ as.getLast?, (answerSpan a).len = 0 →
    a = .ok ⟨.terminator, .point (Text.size source)⟩
  uncovered : ∀ s ∈ gaps (Text.size source) 0 (as.map answerSpan), LaidOut source s
  solid : ∀ a ∈ as, ∀ c ∈ (answerSpan a).text source, Text.isBlank c →
    c = '\n' ∧ answerKind a = some .terminator
  uncommented : ∀ a ∈ as, ∀ rest, Text.dropBytes? (answerSpan a).start source = some rest →
    ¬ ['/', '/'] <+: rest
  spelling : ∀ t, .ok t ∈ as → 0 < t.span.len → t.kind.Spelling (t.span.text source)
  maximal : ∀ t, .ok t ∈ as → ∀ c rest, Text.dropBytes? t.span.stop source = some (c :: rest) →
    ¬ t.kind.continuedBy c

def Lexer.nth (l : Lexer) : Nat → Except SourceError Token
  | 0 => l.next.1
  | n + 1 => l.next.2.nth n

theorem answer_eq_ok {a : Except SourceError Token} {k : Kind} (h : answerKind a = some k) :
    a = .ok ⟨k, answerSpan a⟩ := by
  cases a with
  | error e => cases h
  | ok t =>
    cases h
    rfl

theorem answerKind_ok {t : Token} : answerKind (.ok t) = some t.kind := rfl

theorem not_spelling_eof {w : Text} : ¬ Kind.Spelling .eof w := by
  have hk : (Kind.eof.display, Kind.eof) ∉ Kind.keywords := by decide
  have hs : (Kind.eof.display, Kind.eof) ∉ Kind.symbols := by decide
  intro h
  cases h with
  | keyword h => exact hk h
  | symbol h => exact hs h

theorem Covers.size_pos {k : Option Kind} {piece rest : Text} (h : Covers k piece rest) :
    0 < Text.size piece := by
  have hlen := List.length_pos_iff.2 h.nonempty
  have hsize := Text.length_le_size piece
  omega

namespace Placed

variable {source : Text} {a : Except SourceError Token}

theorem reads (h : Placed source a) : ∃ piece after, (answerSpan a).text source = piece ∧
    Text.dropBytes? (answerSpan a).start source = some (piece ++ after) ∧
    Text.dropBytes? (answerSpan a).stop source = some after ∧
    (answerSpan a).len = Text.size piece ∧
    (Covers (answerKind a) piece after ∨
      piece = [] ∧ after = [] ∧ answerKind a = some .terminator) := by
  obtain ⟨before, piece, after, rfl, hspan, hcov⟩ := h
  refine ⟨piece, after, ?_, ?_, ?_, ?_, hcov⟩ <;> rw [hspan]
  · exact Span.text_append before piece after
  · rw [List.append_assoc]
    exact Text.dropBytes?_size_append before (piece ++ after)
  · have hstop := Text.dropBytes?_size_append (before ++ piece) after
    rw [Text.size_append] at hstop
    exact hstop

theorem eq_of_empty (h : Placed source a) (hl : (answerSpan a).len = 0) :
    a = .ok ⟨.terminator, .point (Text.size source)⟩ := by
  obtain ⟨before, piece, after, rfl, hspan, hcov | ⟨rfl, rfl, hk⟩⟩ := h
  · have hpos := hcov.size_pos
    rw [hspan] at hl
    exact absurd hl (Nat.ne_of_gt hpos)
  · have ha := answer_eq_ok hk
    rw [ha, hspan]
    simp [Span.point]

theorem not_eof {t : Token} (h : Placed source (.ok t)) : t.kind ≠ .eof := by
  intro hk
  obtain ⟨piece, after, -, -, -, -, hcov | ⟨-, -, hterm⟩⟩ := h.reads
  · have hs := hcov.spelling t.kind rfl
    rw [hk] at hs
    exact not_spelling_eof hs
  · rw [answerKind_ok, hk] at hterm
    cases hterm

theorem solid (h : Placed source a) : ∀ c ∈ (answerSpan a).text source, Text.isBlank c →
    c = '\n' ∧ answerKind a = some .terminator := by
  obtain ⟨piece, after, htext, -, -, -, hcov | ⟨rfl, -, -⟩⟩ := h.reads
  · rw [htext]
    exact hcov.solid
  · rw [htext]
    simp

theorem uncommented (h : Placed source a) {rest : Text}
    (hr : Text.dropBytes? (answerSpan a).start source = some rest) : ¬ ['/', '/'] <+: rest := by
  obtain ⟨piece, after, -, hstart, -, -, hcov⟩ := h.reads
  rw [hstart] at hr
  obtain rfl := Option.some.inj hr
  rcases hcov with hcov | ⟨rfl, rfl, -⟩
  · exact hcov.uncommented
  · simp

theorem spelling {t : Token} (h : Placed source (.ok t)) (hl : 0 < t.span.len) :
    t.kind.Spelling (t.span.text source) := by
  obtain ⟨piece, after, htext, -, -, hlen, hcov | ⟨rfl, -, -⟩⟩ := h.reads
  · have hs := hcov.spelling t.kind rfl
    rw [← htext] at hs
    exact hs
  · exact absurd hlen (Nat.ne_of_gt hl)

theorem maximal {t : Token} (h : Placed source (.ok t)) {c : Char} {rest : Text}
    (hr : Text.dropBytes? t.span.stop source = some (c :: rest)) : ¬ t.kind.continuedBy c := by
  obtain ⟨piece, after, -, -, hstop, -, hcov⟩ := h.reads
  have hafter : after = c :: rest := Option.some.inj (hstop.symm.trans hr)
  rcases hcov with hcov | ⟨-, hnil, -⟩
  · apply hcov.maximal t.kind rfl c
    rw [hafter]
    rfl
  · rw [hnil] at hafter
    cases hafter

end Placed

namespace Reads

variable {offset : Nat} {text : Text} {as : List (Except SourceError Token)}

theorem length_le_length (h : Reads offset text as) : as.length ≤ text.length + 1 := by
  induction h with
  | nil => simp
  | last => simp
  | cons hgap hspan hcov _ ih =>
    have hpos := List.length_pos_iff.2 hcov.nonempty
    simp only [List.length_cons, List.length_append]
    omega

theorem length_le (h : Reads offset text as) : as.length ≤ Text.size text + 1 :=
  Nat.le_trans h.length_le_length (Nat.succ_le_succ (Text.length_le_size text))

theorem le_start (h : Reads offset text as) : ∀ a ∈ as, offset ≤ (answerSpan a).start := by
  induction h with
  | nil => simp
  | last _ _ hspan =>
    intro a ha
    rw [List.mem_singleton.1 ha, hspan]
    exact Nat.le_add_right _ _
  | cons hgap hspan hcov _ ih =>
    intro b hb
    rcases List.mem_cons.1 hb with rfl | hb
    · rw [hspan]
      exact Nat.le_add_right _ _
    · have hle := ih b hb
      omega

theorem pairwise (h : Reads offset text as) :
    as.Pairwise fun a b => (answerSpan a).stop ≤ (answerSpan b).start := by
  induction h with
  | nil => exact .nil
  | last => exact List.pairwise_singleton _ _
  | cons hgap hspan hcov has ih =>
    refine .cons ?_ ih
    intro b hb
    have hle := has.le_start b hb
    rw [hspan]
    exact hle

theorem dropLast_nonempty (h : Reads offset text as) : ∀ a ∈ as.dropLast, 0 < (answerSpan a).len := by
  induction h with
  | nil => simp
  | last => simp
  | cons hgap hspan hcov _ ih =>
    intro b hb
    rename_i as _
    cases as with
    | nil => simp at hb
    | cons c as =>
      rw [List.dropLast_cons_cons] at hb
      rcases List.mem_cons.1 hb with rfl | hb
      · rw [hspan]
        exact hcov.size_pos
      · exact ih b hb

theorem placed (h : Reads offset text as) (before : Text) (ho : offset = Text.size before) :
    ∀ a ∈ as, Placed (before ++ text) a := by
  induction h generalizing before with
  | nil => simp
  | @last offset gap a _ hk hspan =>
    intro b hb
    obtain rfl := List.mem_singleton.1 hb
    have hsplit : before ++ gap = before ++ gap ++ [] ++ [] := by simp
    refine ⟨before ++ gap, [], [], hsplit, ?_, .inr ⟨rfl, rfl, hk⟩⟩
    rw [hspan, ho, Text.size_append]
    rfl
  | @cons offset gap piece rest a as hgap hspan hcov _ ih =>
    intro b hb
    have hsplit : before ++ (gap ++ (piece ++ rest)) = before ++ gap ++ piece ++ rest := by simp
    rcases List.mem_cons.1 hb with rfl | hb
    · refine ⟨before ++ gap, piece, rest, hsplit, ?_, .inl hcov⟩
      rw [hspan, ho, Text.size_append]
    · rw [hsplit]
      refine ih (before ++ gap ++ piece) ?_ b hb
      rw [ho, Text.size_append, Text.size_append]

theorem laidOut_gaps (h : Reads offset text as) (before : Text) (ho : offset = Text.size before) :
    ∀ s ∈ gaps (Text.size (before ++ text)) offset (as.map answerSpan), LaidOut (before ++ text) s := by
  induction h generalizing before with
  | @nil offset gap hgap =>
    intro s hs
    obtain rfl := List.mem_singleton.1 hs
    refine ⟨before, gap, [], by simp, ?_, hgap⟩
    rw [ho, Text.size_append, Nat.add_sub_cancel_left]
  | @last offset gap a hgap hk hspan =>
    intro s hs
    simp only [List.map_cons, List.map_nil, hspan, gaps, List.mem_cons, List.not_mem_nil, or_false,
      Span.stop_point, ho, Text.size_append, Nat.sub_self] at hs
    rcases hs with rfl | rfl
    · refine ⟨before, gap, [], by simp, ?_, hgap⟩
      rw [Span.point, Nat.add_sub_cancel_left]
    · refine ⟨before ++ gap, [], [], by simp, ?_, .nil⟩
      rw [Text.size_append]
      rfl
  | @cons offset gap piece rest a as hgap hspan hcov _ ih =>
    intro s hs
    have hsplit : before ++ (gap ++ (piece ++ rest)) = before ++ gap ++ piece ++ rest := by simp
    rw [List.map_cons, hspan, gaps] at hs
    rcases List.mem_cons.1 hs with rfl | hs
    · refine ⟨before, gap, piece ++ rest, by simp, ?_, hgap⟩
      rw [ho, Nat.add_sub_cancel_left]
    · rw [hsplit] at hs ⊢
      have hbefore : offset + Text.size gap + Text.size piece = Text.size (before ++ gap ++ piece) := by
        rw [ho, Text.size_append, Text.size_append]
      exact ih _ hbefore s hs

theorem lossless {source : Text} (h : Reads 0 source as) : Lossless source as := by
  have hplaced : ∀ a ∈ as, Placed source a := h.placed [] rfl
  constructor
  case noEof => exact fun t ht => (hplaced _ ht).not_eof
  case within =>
    intro a ha
    obtain ⟨before, piece, after, hsplit, hspan, -⟩ := hplaced a ha
    exact ⟨before, piece, after, hsplit, hspan⟩
  case ordered => exact h.pairwise
  case nonempty => exact h.dropLast_nonempty
  case nonempty_last =>
    intro a ha hl
    exact (hplaced a (List.mem_of_mem_getLast? ha)).eq_of_empty hl
  case uncovered => exact h.laidOut_gaps [] rfl
  case solid => exact fun a ha => (hplaced a ha).solid
  case uncommented => exact fun a ha rest hr => (hplaced a ha).uncommented hr
  case spelling => exact fun t ht => (hplaced _ ht).spelling
  case maximal => exact fun t ht c rest hr => (hplaced _ ht).maximal hr

end Reads

theorem Lossless.eq_of_empty {source : Text} {as : List (Except SourceError Token)}
    {a : Except SourceError Token} (h : Lossless source as) (ha : a ∈ as)
    (hl : (answerSpan a).len = 0) : a = .ok ⟨.terminator, .point (Text.size source)⟩ := by
  have hne := List.ne_nil_of_mem ha
  rw [← List.dropLast_concat_getLast hne, List.mem_append, List.mem_singleton] at ha
  rcases ha with ha | ha
  · exact absurd hl (Nat.ne_of_gt (h.nonempty a ha))
  · exact h.nonempty_last a (ha ▸ List.getLast?_eq_some_getLast hne) hl

theorem Scanner.scan_done {s : Scanner} (hr : s.rest = []) (hs : s.endsStatement = false) :
    s.scan.1 = .ok ⟨.eof, .point s.offset⟩ ∧ s.scan.2.rest = [] ∧ s.scan.2.endsStatement = false ∧
      s.scan.2.offset = s.offset := by
  obtain ⟨gap, piece, h⟩ := s.exists_scanned
  have hrest := h.rest
  rw [hr, eq_comm, List.append_eq_nil_iff, List.append_eq_nil_iff] at hrest
  obtain ⟨rfl, rfl, hrest⟩ := hrest
  rcases h.covers with hcov | ⟨-, -, hends, hk⟩
  · exact absurd rfl hcov.nonempty
  · rw [hs] at hk
    have ha := answer_eq_ok hk
    rw [h.span] at ha
    exact ⟨ha, hrest, hends, h.offset⟩

namespace Lexer

variable (source : Text)

theorem nth_done {s : Scanner} (hr : s.rest = []) (hs : s.endsStatement = false) (n : Nat) :
    nth ⟨source, s, none⟩ n = .ok ⟨.eof, .point s.offset⟩ := by
  obtain ⟨ha, hr', hs', ho⟩ := Scanner.scan_done hr hs
  induction n generalizing s with
  | zero => exact ha
  | succ n ih =>
    obtain ⟨ha', hr'', hs'', ho'⟩ := Scanner.scan_done hr' hs'
    have hn := ih hr' hs' ha' hr'' hs'' ho'
    rw [ho] at hn
    exact hn

/-- From any state on, the answers read what is left, and then there is only the end of input. -/
theorem exists_reads (s : Scanner) : ∃ as, Reads s.offset s.rest as ∧
    ∀ n, nth ⟨source, s, none⟩ n =
      as.getD n (.ok ⟨.eof, .point (s.offset + Text.size s.rest)⟩) := by
  induction hlen : s.rest.length using Nat.strongRecOn generalizing s with
  | ind len ih =>
    obtain ⟨gap, piece, h⟩ := s.exists_scanned
    have hrest := h.rest
    rcases h.covers with hcov | ⟨rfl, hnil, hends, hk⟩
    · have hshort : s.scan.2.rest.length < len := by
        have hpos := List.length_pos_iff.2 hcov.nonempty
        rw [← hlen, hrest]
        simp only [List.length_append]
        omega
      obtain ⟨as, has, hnth⟩ := ih _ hshort s.scan.2 rfl
      rw [h.offset] at has
      refine ⟨s.scan.1 :: as, ?_, ?_⟩
      · rw [hrest]
        exact .cons h.skipped h.span hcov has
      · have hend : s.scan.2.offset + Text.size s.scan.2.rest = s.offset + Text.size s.rest := by
          rw [h.offset, hrest, Text.size_append, Text.size_append]
          omega
        rw [hend] at hnth
        intro n
        cases n with
        | zero => rfl
        | succ n => exact hnth n
    -- At the end of the text a statement may still end, once, before there is only the end of input.
    · have hgap : s.rest = gap := by
        rw [hrest, hnil]
        simp
      have hskip : Skipped [] gap := by
        have hskipped := h.skipped
        rw [hnil] at hskipped
        exact hskipped
      have hdone := nth_done source hnil hends
      rw [h.offset] at hdone
      have hspan := h.span
      rw [hgap]
      cases hs : s.endsStatement with
      | false =>
        rw [hs] at hk
        have ha := answer_eq_ok hk
        rw [hspan] at ha
        refine ⟨[], .nil hskip, ?_⟩
        intro n
        cases n with
        | zero => exact ha
        | succ n => exact hdone n
      | true =>
        rw [hs] at hk
        refine ⟨[s.scan.1], .last hskip hk hspan, ?_⟩
        intro n
        cases n with
        | zero => rfl
        | succ n => exact hdone n

/-- The answers before the end of input lose nothing of the source, and are at most one more than its
bytes; from then on the answer is the end of input, at the end of the source. -/
theorem nth_ofText : ∃ as : List (Except SourceError Token),
    as.length ≤ Text.size source + 1 ∧ Lossless source as ∧
    ∀ n, (ofText source).nth n = as.getD n (.ok ⟨.eof, .point (Text.size source)⟩) := by
  obtain ⟨as, hreads, hnth⟩ := exists_reads source (.ofText source)
  have hend : (Scanner.ofText source).offset + Text.size (Scanner.ofText source).rest =
      Text.size source := Nat.zero_add _
  rw [hend] at hnth
  exact ⟨as, hreads.length_le, hreads.lossless, hnth⟩

end Lexer
end Frontend
