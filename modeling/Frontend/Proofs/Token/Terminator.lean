import Frontend.Proofs.Token.Answers
import Frontend.Proofs.Token.Parenthesis

/-! # Where statements end

A newline is a token exactly where a statement may end, and so is the end of the text; every other
terminator is written out. No newline lies in a comment, which stops before it.
-/
namespace Frontend

/-- Whether a statement may end after tokens of these kinds. -/
def EndsStatement (ks : List Kind) : Prop :=
  (∃ k ∈ ks.getLast?, k.endsStatement) ∧ ¬ Kind.LeftOpen ks

/-- The kinds of the tokens that start before an offset. -/
def kindsBefore (ts : List Token) (offset : Nat) : List Kind :=
  (ts.filter (·.span.start < offset)).map Token.kind

/-- Where a source has terminators among its tokens. -/
structure Terminated (source : Text) (ts : List Token) : Prop where
  newline : ∀ before after, source = before ++ '\n' :: after →
    (⟨.terminator, ⟨Text.size before, 1⟩⟩ ∈ ts ↔ EndsStatement (kindsBefore ts (Text.size before)))
  newline_only : ∀ before after, source = before ++ '\n' :: after → ∀ t ∈ ts,
    t.span.start ≤ Text.size before → Text.size before < t.span.stop →
    t = ⟨.terminator, ⟨Text.size before, 1⟩⟩
  stop : ⟨.terminator, .point (Text.size source)⟩ ∈ ts ↔
    EndsStatement (kindsBefore ts (Text.size source))
  written : ∀ t ∈ ts, t.kind = .terminator → t.span.text source = [';'] ∨
    t.span = .point (Text.size source) ∨
    ∃ before after, source = before ++ '\n' :: after ∧ t.span = ⟨Text.size before, 1⟩

theorem kindsBefore_append {ts us : List Token} {offset : Nat}
    (hts : ∀ t ∈ ts, t.span.start < offset) (hus : ∀ t ∈ us, offset ≤ t.span.start) :
    kindsBefore (ts ++ us) offset = ts.map Token.kind := by
  have hkeep : ts.filter (·.span.start < offset) = ts :=
    List.filter_eq_self.2 fun t ht => decide_eq_true (hts t ht)
  have hdrop : us.filter (·.span.start < offset) = [] :=
    List.filter_eq_nil_iff.2 fun t ht => by
      have hle := hus t ht
      rw [decide_eq_true_eq]
      omega
  rw [kindsBefore, List.filter_append, hkeep, hdrop, List.append_nil]

theorem skips_newline {stop inComment : Bool} {t : Text}
    (h : '\n' ∈ (splitLayout stop inComment t).1) : stop = false := by
  fun_induction splitLayout stop inComment t with
  | case1 => cases h
  | case2 => cases h
  | case3 _ _ hstop => exact Bool.eq_false_iff.2 hstop
  | case4 c t hc ih => exact ih ((List.mem_cons.1 h).resolve_left (Ne.symm hc))
  | case5 inComment c t hc _ _ ih => exact ih ((List.mem_cons.1 h).resolve_left (Ne.symm hc))
  | case6 inComment c t hc _ _ _ ih => exact ih ((List.mem_cons.1 h).resolve_left (Ne.symm hc))
  | case7 => cases h

theorem stops_at_newline {stop inComment : Bool} {t u : Text}
    (h : (splitLayout stop inComment t).2 = '\n' :: u) : stop = true := by
  fun_induction splitLayout stop inComment t with
  | case1 => cases h
  | case2 _ _ hstop => exact hstop
  | case3 _ _ _ ih => exact ih h
  | case4 c t hc ih => exact ih h
  | case5 inComment c t hc _ _ ih => exact ih h
  | case6 inComment c t hc _ _ _ ih => exact ih h
  | case7 inComment c t hc => exact absurd (List.cons.inj h).1 hc

theorem terminator_spelling {w : Text} (h : Kind.Spelling .terminator w) : w = [';'] ∨ w = ['\n'] := by
  have hk : (Kind.terminator.display, Kind.terminator) ∉ Kind.keywords := by decide
  have hs : (Kind.terminator.display, Kind.terminator) ∉ Kind.symbols := by decide
  cases h with
  | keyword h => exact absurd h hk
  | symbol h => exact absurd h hs
  | semicolon => exact .inl rfl
  | newline => exact .inr rfl

namespace Scanner
variable {s s' : Scanner} {t : Token} {ts us : List Token} {ks : List Kind} {source gap piece : Text}

/-- The scanner has read tokens of these kinds. -/
def Recalls (s : Scanner) (ks : List Kind) : Prop :=
  s.last = ks.getLast? ∧ s.depth = Kind.openAfter 0 ks

theorem recalls_initial (source : Text) : (ofText source).Recalls [] := ⟨rfl, rfl⟩

theorem scan_start (s : Scanner) : (answerSpan s.scan.1).start =
    s.offset + Text.size (splitLayout s.endsStatement false s.rest).1 := by
  unfold scan
  dsimp only
  split
  · rfl
  · split
    · rfl
    · split <;> rfl

theorem scan_state (h : s.scan.1 = .ok t) :
    s.scan.2.last = some t.kind ∧ s.scan.2.depth = t.kind.depthAfter s.depth := by
  revert h
  unfold scan
  dsimp only
  split
  · rintro ⟨⟩
    exact ⟨rfl, rfl⟩
  · split
    · rintro ⟨⟩
      exact ⟨rfl, rfl⟩
    · split
      · rintro ⟨⟩
        exact ⟨rfl, rfl⟩
      · rintro ⟨⟩

theorem Recalls.scan (hs : s.Recalls ks) (h : s.scan.1 = .ok t) :
    s.scan.2.Recalls (ks ++ [t.kind]) := by
  obtain ⟨hlast, hdepth⟩ := scan_state h
  refine ⟨?_, ?_⟩
  · rw [hlast, List.getLast?_concat]
  · rw [hdepth, hs.2, Kind.openAfter_append]
    rfl

theorem Recalls.endsStatement_iff (hs : s.Recalls ks) : s.endsStatement ↔ EndsStatement ks := by
  rw [endsStatement, Bool.and_eq_true, beq_iff_eq, hs.1, hs.2, Kind.openAfter_eq_zero_iff,
    Option.any_eq_true, And.comm]
  rfl

theorem Scanned.splitLayout_eq (h : s.Scanned gap piece) :
    splitLayout s.endsStatement false s.rest = (gap, piece ++ s.scan.2.rest) := by
  have hsplit := splitLayout_append s.endsStatement false s.rest
  have hsize := s.scan_start
  rw [h.span] at hsize
  revert hsplit hsize
  rcases splitLayout s.endsStatement false s.rest with ⟨layout, rest⟩
  intro hsplit hsize
  have hlayout := Text.takeBytes?_size_append layout rest
  rw [hsplit, ← Nat.add_left_cancel hsize, h.rest, Text.takeBytes?_size_append] at hlayout
  obtain rfl := Option.some.inj hlayout
  exact congrArg (gap, ·) (List.append_cancel_left (hsplit.trans h.rest))

theorem Scanned.read_initial (h : s.Scanned gap piece) : gap ++ piece <+: s.rest := by
  rw [h.rest, ← List.append_assoc]
  exact List.prefix_append ..

theorem Scanned.span_eq (h : s.Scanned gap piece) (ht : s.scan.1 = .ok t) :
    t.span = ⟨s.offset + Text.size gap, Text.size piece⟩ := by
  have hspan := h.span
  rw [ht] at hspan
  exact hspan

/-- The scanner has read tokens of these kinds and stands before what is left of the source. -/
structure Amid (s : Scanner) (source : Text) (ks : List Kind) : Prop where
  recalls : s.Recalls ks
  whole : ∃ before, source = before ++ s.rest ∧ Text.size before = s.offset

theorem amid_initial (source : Text) : (ofText source).Amid source [] :=
  ⟨recalls_initial source, [], rfl, rfl⟩

theorem Amid.scan (h : s.Amid source ks) (hpiece : s.Scanned gap piece) (hscan : s.scan.1 = .ok t) :
    t.span.text source = piece ∧ s.scan.2.Amid source (ks ++ [t.kind]) := by
  obtain ⟨before, hsource, hbefore⟩ := h.whole
  have hsplit : source = before ++ gap ++ piece ++ s.scan.2.rest := by
    rw [hsource, hpiece.rest]
    simp
  refine ⟨?_, h.recalls.scan hscan, before ++ gap ++ piece, hsplit, ?_⟩
  · rw [hpiece.span_eq hscan, ← hbefore, ← Text.size_append, hsplit]
    exact Span.text_append (before ++ gap) piece s.scan.2.rest
  · rw [hpiece.offset, Text.size_append, Text.size_append, hbefore]

theorem Scanned.piece_ne_nil (h : s.Scanned gap piece) (ht : s.scan.1 = .ok t) (hlen : 0 < t.span.len) :
    piece ≠ [] := by
  rintro rfl
  rw [h.span_eq ht] at hlen
  cases hlen

theorem Scanned.covers_token (h : s.Scanned gap piece) (ht : s.scan.1 = .ok t) (hpiece : piece ≠ []) :
    Covers (some t.kind) piece s.scan.2.rest := by
  have hcov := h.covers.resolve_right fun hend => hpiece hend.1
  rw [ht] at hcov
  exact hcov

theorem Scanned.kind_ne_eof (h : s.Scanned gap piece) (ht : s.scan.1 = .ok t) (hpiece : piece ≠ []) :
    t.kind ≠ .eof := fun heof =>
  not_spelling_eof (heof ▸ (h.covers_token ht hpiece).spelling t.kind rfl)

theorem answers_cases (h : s.answers = ts.map .ok) : ∃ t us, ts = t :: us ∧ s.scan.1 = .ok t ∧
    (t.kind = .eof ∧ us = [] ∨ t.kind ≠ .eof ∧ s.scan.2.answers = us.map .ok) := by
  cases hscan : s.scan.1 with
  | error e =>
    rw [answers_of_error hscan] at h
    cases ts <;> cases h
  | ok t =>
    by_cases ht : t.kind = .eof
    · rw [answers_of_eof hscan ht] at h
      obtain ⟨u, rfl, hu⟩ := List.map_eq_singleton_iff.1 h.symm
      cases hu
      exact ⟨t, [], rfl, rfl, .inl ⟨ht, rfl⟩⟩
    · rw [answers_of_token hscan ht] at h
      obtain ⟨u, us, rfl, hu, hus⟩ := List.map_eq_cons_iff.1 h.symm
      cases hu
      exact ⟨t, us, rfl, rfl, .inr ⟨ht, hus.symm⟩⟩

theorem le_start (h : s.answers = ts.map .ok) : ∀ t ∈ ts, s.offset ≤ t.span.start := by
  induction ts generalizing s with
  | nil => simp
  | cons t ts ih =>
    obtain ⟨_, _, ⟨⟩, hscan, hrest⟩ := answers_cases h
    obtain ⟨gap, piece, hs⟩ := s.exists_scanned
    have hspan := hs.span_eq hscan
    have hoffset := hs.offset
    intro u hu
    rcases List.mem_cons.1 hu with rfl | hu
    · rw [hspan]
      exact Nat.le_add_right _ _
    · rcases hrest with ⟨-, rfl⟩ | ⟨-, hrest⟩
      · cases hu
      · have hle := ih hrest u hu
        omega

/-- Scanning tokens that are not empty, one after another. -/
inductive Scans : Scanner → List Token → Scanner → Prop where
  | nil {s : Scanner} : Scans s [] s
  | cons {s s' : Scanner} {t : Token} {ts : List Token} : s.scan.1 = .ok t → 0 < t.span.len →
      Scans s.scan.2 ts s' → Scans s (t :: ts) s'

theorem Scans.recalls (h : Scans s ts s') (hs : s.Recalls ks) :
    s'.Recalls (ks ++ ts.map Token.kind) := by
  induction h generalizing ks with
  | nil =>
    rw [List.map_nil, List.append_nil]
    exact hs
  | cons hscan _ _ ih =>
    have hrest := ih (hs.scan hscan)
    rw [List.append_assoc] at hrest
    exact hrest

theorem Scans.stop_le (h : Scans s ts s') :
    s.offset ≤ s'.offset ∧ ∀ t ∈ ts, t.span.start < s'.offset ∧ t.span.stop ≤ s'.offset := by
  induction h with
  | nil => simp
  | @cons s s' t ts hscan hlen _ ih =>
    obtain ⟨hle, hstop⟩ := ih
    obtain ⟨gap, piece, hs⟩ := s.exists_scanned
    have hspan := hs.span_eq hscan
    have hoffset := hs.offset
    refine ⟨by omega, List.forall_mem_cons.2 ⟨?_, hstop⟩⟩
    rw [hspan] at hlen ⊢
    simp only [Span.stop] at hlen ⊢
    omega

/-- The next answer steps past the place before `after`, or up to the end. -/
structure Meets (s : Scanner) (before after gap piece : Text) : Prop where
  scanned : s.Scanned gap piece
  rest : s.rest = before ++ after
  past : piece = [] ∨ before.length < (gap ++ piece).length

theorem exists_scans (h : s.answers = ts.map .ok) {before after : Text}
    (hr : s.rest = before ++ after) :
    ∃ ts₁ ts₂ s' u gap piece, ts = ts₁ ++ ts₂ ∧ Scans s ts₁ s' ∧ s'.answers = ts₂.map .ok ∧
      s'.Meets u after gap piece ∧ s'.offset + Text.size u = s.offset + Text.size before := by
  induction ts generalizing s before with
  | nil =>
    obtain ⟨t, us, h, -⟩ := answers_cases h
    cases h
  | cons t ts ih =>
    obtain ⟨_, _, ⟨⟩, hscan, hrest⟩ := answers_cases h
    obtain ⟨gap, piece, hs⟩ := s.exists_scanned
    by_cases hhere : piece = [] ∨ before.length < (gap ++ piece).length
    · exact ⟨[], t :: ts, s, before, gap, piece, rfl, .nil, h, ⟨hs, hr, hhere⟩, rfl⟩
    obtain ⟨hpiece, hlen⟩ := not_or.1 hhere
    obtain ⟨u, rfl⟩ : gap ++ piece <+: before :=
      List.prefix_of_prefix_length_le hs.read_initial ⟨after, hr.symm⟩ (Nat.le_of_not_lt hlen)
    have hu : s.scan.2.rest = u ++ after := by
      have hrest := hs.rest
      rw [hr, List.append_assoc, List.append_assoc] at hrest
      exact (List.append_cancel_left (List.append_cancel_left hrest)).symm
    rcases hrest with ⟨ht, -⟩ | ⟨-, hrest⟩
    · exact absurd ht (hs.kind_ne_eof hscan hpiece)
    obtain ⟨ts₁, ts₂, s', w, g, p, rfl, hscans, hans, hmeets, hoffset⟩ := ih hrest hu
    refine ⟨t :: ts₁, ts₂, s', w, g, p, rfl, .cons hscan ?_ hscans, hans, hmeets, ?_⟩
    · rw [hs.span_eq hscan]
      exact (hs.covers_token hscan hpiece).size_pos
    · rw [hoffset, hs.offset, Text.size_append, Text.size_append]
      omega

theorem Scanned.newline_gap (h : s.Scanned gap piece) (hn : '\n' ∈ gap) :
    s.endsStatement = false := by
  apply skips_newline
  rw [h.splitLayout_eq]
  exact hn

theorem Scanned.newline_piece (h : s.Scanned gap piece) (hn : '\n' ∈ piece) :
    s.endsStatement = true ∧ piece = ['\n'] ∧ answerKind s.scan.1 = some .terminator := by
  have hcov := h.covers.resolve_right fun hend => List.ne_nil_of_mem hn hend.1
  obtain ⟨-, hk⟩ := hcov.solid '\n' hn (by decide)
  have hpiece : piece = ['\n'] := by
    apply (terminator_spelling (hcov.spelling _ hk)).resolve_left
    rintro rfl
    exact absurd hn (by decide)
  have hstop : (splitLayout s.endsStatement false s.rest).2 = '\n' :: s.scan.2.rest := by
    rw [h.splitLayout_eq, hpiece]
    rfl
  exact ⟨stops_at_newline hstop, hpiece, hk⟩

/-- A newline that a scanner comes to is layout where no statement may end, and else its answer. -/
theorem Meets.newline {u after : Text} (h : s.Meets u ('\n' :: after) gap piece) :
    (s.endsStatement = false ∧ Text.size u < Text.size gap) ∨
      (s.endsStatement = true ∧ s.scan.1 = .ok ⟨.terminator, ⟨s.offset + Text.size u, 1⟩⟩) := by
  obtain ⟨hs, hr, hpast⟩ := h
  have hu : u ++ ['\n'] <+: gap ++ piece := by
    refine List.prefix_of_prefix_length_le ⟨after, ?_⟩ hs.read_initial ?_
    · rw [hr, List.append_assoc]
      rfl
    · rw [List.length_append]
      refine hpast.elim (fun hpiece => ?_) id
      -- An answer without a piece has read up to the end, past this newline too.
      have hcov := hs.covers.resolve_left fun hcov => hcov.nonempty hpiece
      have hrest := congrArg List.length (hs.rest.symm.trans hr)
      simp only [hcov.2.1, List.length_append, List.length_cons, List.length_nil] at hrest ⊢
      omega
  by_cases hgap : u.length < gap.length
  · obtain ⟨v, rfl⟩ : u ++ ['\n'] <+: gap := by
      refine List.prefix_of_prefix_length_le hu (List.prefix_append ..) ?_
      rw [List.length_append]
      exact hgap
    refine .inl ⟨hs.newline_gap (by simp), ?_⟩
    have hpos := Char.utf8Size_pos '\n'
    simp only [Text.size_append, Text.size_cons]
    omega
  · obtain ⟨v, rfl⟩ : gap <+: u :=
      List.prefix_of_prefix_length_le ⟨_, hs.rest.symm⟩ ⟨_, hr.symm⟩ (Nat.le_of_not_lt hgap)
    rw [List.append_assoc, List.prefix_append_right_inj] at hu
    obtain ⟨hends, rfl, hk⟩ := hs.newline_piece (hu.subset (by simp))
    obtain rfl : v = [] := by
      have hlen := hu.length_le
      rw [List.length_append] at hlen
      exact List.eq_nil_of_length_eq_zero (Nat.le_zero.1 (Nat.le_of_succ_le_succ hlen))
    refine .inr ⟨hends, ?_⟩
    rw [answer_eq_ok hk, hs.span, List.append_nil]
    rfl

theorem Meets.stop {u : Text} (h : s.Meets u [] gap piece) :
    s.scan.1 = .ok ⟨if s.endsStatement then .terminator else .eof,
      .point (s.offset + Text.size u)⟩ := by
  obtain ⟨hs, hr, hpast⟩ := h
  rw [List.append_nil] at hr
  obtain rfl : piece = [] := by
    refine hpast.resolve_right (Nat.not_lt.2 ?_)
    rw [← hr]
    exact hs.read_initial.length_le
  obtain ⟨-, hnil, -, hk⟩ := hs.covers.resolve_left fun hcov => hcov.nonempty rfl
  have hgap : u = gap := by
    rw [← hr, hs.rest, hnil, List.append_nil, List.append_nil]
  rw [answer_eq_ok hk, hs.span, hgap]
  rfl

theorem Scanned.later (h : s.Scanned gap piece) (hans : s.answers = ts.map .ok) :
    ∃ t us, ts = t :: us ∧ s.scan.1 = .ok t ∧
      ∀ u ∈ us, t.kind ≠ .eof ∧ s.offset + Text.size gap + Text.size piece ≤ u.span.start := by
  obtain ⟨t, us, rfl, hscan, ⟨-, rfl⟩ | ⟨ht, hrest⟩⟩ := answers_cases hans
  · exact ⟨t, [], rfl, hscan, by simp⟩
  · refine ⟨t, us, rfl, hscan, fun u hu => ⟨ht, ?_⟩⟩
    rw [← h.offset]
    exact le_start hrest u hu

end Scanner

theorem answers_of_lex {source : Text} {ts : List Token} (h : lex source = .ok ts) :
    (Scanner.ofText source).answers = ts.map .ok := by
  rw [lex] at h
  rcases tokens_or_error (Scanner.ofText source).answers with ⟨us, hus⟩ | ⟨us, e, as, hus⟩
  · rw [hus, mapM_tokens] at h
    cases h
    exact hus
  · rw [hus, mapM_error] at h
    cases h

section Lexed
variable {source before after : Text} {ts : List Token}

/-- The tokens before a place in the source, and the scanner that comes to it after them. -/
theorem lex_meets (h : lex source = .ok ts) (hs : source = before ++ after) :
    ∃ ts₁ ts₂ s u gap piece, ts = ts₁ ++ ts₂ ∧
      (∀ t ∈ ts₁, t.span.start < Text.size before ∧ t.span.stop ≤ Text.size before) ∧
      (s.endsStatement ↔ EndsStatement (ts₁.map Token.kind)) ∧ s.answers = ts₂.map .ok ∧
      Scanner.Meets s u after gap piece ∧ s.offset + Text.size u = Text.size before := by
  obtain ⟨ts₁, ts₂, s, u, gap, piece, hts, hscans, hans, hmeets, hoffset⟩ :=
    Scanner.exists_scans (answers_of_lex h) hs
  have hstart := Scanner.recalls_initial source
  have hoffset : s.offset + Text.size u = Text.size before := hoffset.trans (Nat.zero_add _)
  refine ⟨ts₁, ts₂, s, u, gap, piece, hts, ?_, (hscans.recalls hstart).endsStatement_iff, hans,
    hmeets, hoffset⟩
  intro t ht
  obtain ⟨hlt, hle⟩ := hscans.stop_le.2 t ht
  exact ⟨by omega, by omega⟩

theorem lex_newline (h : lex source = .ok ts) (hs : source = before ++ '\n' :: after) :
    ∃ ts₁ ts₂, (∀ t ∈ ts₁, t.span.start < Text.size before ∧ t.span.stop ≤ Text.size before) ∧
      (∀ t ∈ ts₂, Text.size before < t.span.start) ∧
      (¬ EndsStatement (ts₁.map Token.kind) ∧ ts = ts₁ ++ ts₂ ∨
        EndsStatement (ts₁.map Token.kind) ∧
          ts = ts₁ ++ ⟨.terminator, ⟨Text.size before, 1⟩⟩ :: ts₂) := by
  obtain ⟨ts₁, ts₂, s, u, gap, piece, hts, hbefore, hends, hans, hmeets, hoffset⟩ := lex_meets h hs
  obtain ⟨t, us, rfl, hscan, hlater⟩ := hmeets.scanned.later hans
  have hspan := hmeets.scanned.span_eq hscan
  rcases hmeets.newline with ⟨hno, hgap⟩ | ⟨hyes, hanswer⟩
  · refine ⟨ts₁, t :: us, hbefore, List.forall_mem_cons.2 ⟨?_, ?_⟩, .inl ⟨?_, hts⟩⟩
    · rw [hspan]
      show Text.size before < s.offset + Text.size gap
      omega
    · intro v hv
      have hle := (hlater v hv).2
      omega
    · rw [← hends, hno]
      exact Bool.false_ne_true
  · rw [hoffset] at hanswer
    obtain rfl : t = ⟨.terminator, ⟨Text.size before, 1⟩⟩ := Except.ok.inj (hscan.symm.trans hanswer)
    refine ⟨ts₁, us, hbefore, ?_, .inr ⟨hends.1 hyes, hts⟩⟩
    intro v hv
    have hle := (hlater v hv).2
    obtain ⟨hstart, hlen⟩ := Span.mk.inj hspan
    omega

theorem lex_stop (h : lex source = .ok ts) :
    ∃ ts₁ ts₂, (∀ t ∈ ts₁, t.span.start < Text.size source) ∧
      (∀ t ∈ ts₂, Text.size source ≤ t.span.start) ∧ ts = ts₁ ++ ts₂ ∧
      (⟨.terminator, .point (Text.size source)⟩ ∈ ts₂ ↔ EndsStatement (ts₁.map Token.kind)) := by
  obtain ⟨ts₁, ts₂, s, u, gap, piece, hts, hbefore, hends, hans, hmeets, hoffset⟩ :=
    lex_meets h (List.append_nil source).symm
  obtain ⟨t, us, rfl, hscan, hlater⟩ := hmeets.scanned.later hans
  have hanswer := hmeets.stop
  rw [hoffset] at hanswer
  obtain rfl := Except.ok.inj (hscan.symm.trans hanswer)
  have hspan := Span.mk.inj (hmeets.scanned.span_eq hscan)
  refine ⟨ts₁, _, fun t ht => (hbefore t ht).1, List.forall_mem_cons.2 ⟨Nat.le_refl _, ?_⟩, hts, ?_⟩
  · intro v hv
    have hle := (hlater v hv).2
    have hstart : Text.size source = s.offset + Text.size gap := hspan.1
    omega
  · rw [← hends]
    cases hs : s.endsStatement with
    | true => simp
    | false =>
      obtain rfl : us = [] := by
        refine List.eq_nil_iff_forall_not_mem.2 fun v hv => (hlater v hv).1 ?_
        rw [hs]
        rfl
      simp

theorem lex_written (h : lex source = .ok ts) {t : Token} (ht : t ∈ ts) (hk : t.kind = .terminator) :
    t.span.text source = [';'] ∨ t.span = .point (Text.size source) ∨
      ∃ before after, source = before ++ '\n' :: after ∧ t.span = ⟨Text.size before, 1⟩ := by
  obtain ⟨as, -, hlossless, -, ⟨us, rfl, hlex⟩ | ⟨us, e, bs, -, hlex⟩⟩ := lex_cases source
  · obtain rfl := Except.ok.inj (h.symm.trans hlex)
    have hmem : .ok t ∈ us.map (Except.ok : Token → Except SourceError Token) := by
      rcases List.mem_append.1 ht with ht | ht
      · exact List.mem_map_of_mem ht
      · obtain rfl := List.mem_singleton.1 ht
        cases hk
    rcases Nat.eq_zero_or_pos t.span.len with hlen | hlen
    · obtain rfl := Except.ok.inj (hlossless.eq_of_empty hmem hlen)
      exact .inr (.inl rfl)
    have hspell := hlossless.spelling t hmem hlen
    rw [hk] at hspell
    rcases terminator_spelling hspell with htext | htext
    · exact .inl htext
    · obtain ⟨before, piece, after, hsource, hspan⟩ := hlossless.within _ hmem
      have hspan : t.span = ⟨Text.size before, Text.size piece⟩ := hspan
      rw [hspan, hsource, Span.text_append] at htext
      subst htext
      refine .inr (.inr ⟨before, after, ?_, hspan⟩)
      rw [hsource, List.append_assoc]
      rfl
  · cases h.symm.trans hlex

/-- A newline is a terminator exactly where a statement may end, and so is the end of the source. -/
theorem lex_terminated (h : lex source = .ok ts) : Terminated source ts := by
  constructor
  case newline =>
    intro before after hs
    obtain ⟨ts₁, ts₂, hbefore, hafter, hcase⟩ := lex_newline h hs
    have hlt : ∀ t ∈ ts₁, t.span.start < Text.size before := fun t ht => (hbefore t ht).1
    rcases hcase with ⟨hno, rfl⟩ | ⟨hyes, rfl⟩
    · rw [kindsBefore_append hlt fun t ht => Nat.le_of_lt (hafter t ht)]
      refine iff_of_false ?_ hno
      intro hmem
      rcases List.mem_append.1 hmem with hmem | hmem
      · exact Nat.lt_irrefl _ (hlt _ hmem)
      · exact Nat.lt_irrefl _ (hafter _ hmem)
    · rw [kindsBefore_append hlt (List.forall_mem_cons.2
        ⟨Nat.le_refl _, fun t ht => Nat.le_of_lt (hafter t ht)⟩)]
      exact iff_of_true (by simp) hyes
  case newline_only =>
    intro before after hs t ht hstart hstop
    obtain ⟨ts₁, ts₂, hbefore, hafter, ⟨-, rfl⟩ | ⟨-, rfl⟩⟩ := lex_newline h hs
    · rcases List.mem_append.1 ht with ht | ht
      · have hle := (hbefore t ht).2
        omega
      · have hlt := hafter t ht
        omega
    · rcases List.mem_append.1 ht with ht | ht
      · have hle := (hbefore t ht).2
        omega
      rcases List.mem_cons.1 ht with rfl | ht
      · rfl
      · have hlt := hafter t ht
        omega
  case stop =>
    obtain ⟨ts₁, ts₂, hbefore, hafter, rfl, hiff⟩ := lex_stop h
    rw [kindsBefore_append hbefore hafter, List.mem_append, hiff, or_iff_right]
    intro hmem
    exact Nat.lt_irrefl _ (hbefore _ hmem)
  case written => exact fun t ht hk => lex_written h ht hk

theorem lex_terminated_parens :
    let ts : List Token := [⟨.lparen, ⟨0, 1⟩⟩, ⟨.rparen, ⟨2, 1⟩⟩, ⟨.terminator, ⟨3, 1⟩⟩,
      ⟨.ident, ⟨4, 1⟩⟩, ⟨.terminator, ⟨5, 0⟩⟩, ⟨.eof, ⟨5, 0⟩⟩]
    lex "(\n)\nf" = .ok ts ∧ Terminated "(\n)\nf" ts := by
  intro ts
  have hlex : lex "(\n)\nf" = .ok ts := lex_of_answers? 6 rfl
  exact ⟨hlex, lex_terminated hlex⟩

end Lexed
end Frontend
