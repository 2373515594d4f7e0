import Frontend.Proofs.Token.Exchange
import Frontend.Proofs.Token.Insertion

/-! # Writing tokens out

The texts of the tokens with single blanks between, and a semicolon for every end of a statement, are read
as the same tokens: no blank is part of a token or ends one early, and a semicolon needs nothing of what
was read before it. So the two scanners always recall the same kinds, and at the end neither of them is at
the end of a statement.
-/
namespace Frontend

def Token.canonicalText (source : Text) (t : Token) : Text :=
  if t.kind = .terminator then [';'] else t.span.text source

/-- The tokens up to the end of input, written with single blanks between. -/
def canonical (source : Text) (ts : List Token) : Text :=
  Text.join [' '] ((ts.takeWhile (·.kind ≠ .eof)).map (Token.canonicalText source))

section Canonical
variable (source : Text) {t : Token} (ts : List Token)

theorem canonical_eof (ht : t.kind = .eof) : canonical source (t :: ts) = [] := by
  rw [canonical, List.takeWhile_cons_of_neg (by simp [ht])]
  rfl

theorem canonical_cons (ht : t.kind ≠ .eof) : ∃ blank : Text, (∀ c ∈ blank, c = ' ') ∧
    Text.lead (blank ++ canonical source ts) = none ∧
    canonical source (t :: ts) = t.canonicalText source ++ (blank ++ canonical source ts) := by
  have htake : (t :: ts).takeWhile (·.kind ≠ .eof) = t :: ts.takeWhile (·.kind ≠ .eof) :=
    List.takeWhile_cons_of_pos (by simpa using ht)
  simp only [canonical, htake, List.map_cons]
  cases (ts.takeWhile (·.kind ≠ .eof)).map (Token.canonicalText source) with
  | nil => exact ⟨[], by simp, rfl, by simp [Text.join]⟩
  | cons u us => exact ⟨[' '], by simp, Text.lead_blank (by decide) _, by simp [Text.join]⟩

end Canonical

theorem splitLayout_blanks {blank : Text} (h : ∀ c ∈ blank, c = ' ') (stop : Bool) (t : Text) :
    splitLayout stop false (blank ++ t) = (splitLayout stop false t).map (blank ++ ·) id := by
  have hskip : Skipped t blank := .of_blanks fun c hc => by
    rw [h c hc]
    decide
  exact splitLayout_skipped hskip fun _ hn => absurd (h '\n' hn) (by decide)

namespace Scanner
variable {s s' : Scanner} {source source' gap piece blank rest : Text} {t : Token} {ts : List Token}
  {k : Kind} {ks : List Kind}

/-! ## One token -/

/-- The next answer is a token of this kind: the scanner skips the gap, covers the piece and leaves the
rest. -/
structure Yields (s : Scanner) (gap piece rest : Text) (k : Kind) : Prop where
  scanned : s.Scanned gap piece
  rest : s.scan.2.rest = rest
  kind : answerKind s.scan.1 = some k

theorem yields_of_emit (hsplit : splitLayout s.endsStatement false s.rest = (gap, piece ++ rest))
    (hscan : s.scan = s.emit k (Text.size gap) (Text.size piece) rest) : s.Yields gap piece rest k := by
  have hrest : s.scan.2.rest = rest := by rw [hscan, emit, skip]
  have hkind : answerKind s.scan.1 = some k := by rw [hscan, emit, answerKind_ok]
  obtain ⟨gap', piece', h⟩ := s.exists_scanned
  have heq : (gap, piece ++ rest) = (gap', piece' ++ rest) := by
    rw [← hsplit, h.splitLayout_eq, hrest]
  obtain ⟨rfl, hpiece⟩ := Prod.mk.inj heq
  obtain rfl := List.append_cancel_right hpiece
  exact ⟨h, hrest, hkind⟩

theorem yields_semicolon (hblank : ∀ c ∈ blank, c = ' ') (hrest : s.rest = blank ++ ([';'] ++ rest)) :
    s.Yields blank [';'] rest .terminator := by
  have hend : splitLayout s.endsStatement false (';' :: rest) = ([], ';' :: rest) := rfl
  have hsplit : splitLayout s.endsStatement false s.rest = (blank, ';' :: rest) := by
    rw [hrest, splitLayout_blanks hblank, List.singleton_append, hend]
    simp
  exact yields_of_emit hsplit (scan_end (.inl rfl) hsplit)

theorem yields_eof (hblank : ∀ c ∈ blank, c = ' ') (hrest : s.rest = blank)
    (hends : s.endsStatement = false) : s.Yields blank [] [] .eof := by
  have hsplit : splitLayout s.endsStatement false s.rest = (blank, []) := by
    rw [hrest, ← List.append_nil blank, splitLayout_blanks hblank]
    rfl
  refine yields_of_emit hsplit ?_
  rw [scan, hsplit, hends]
  rfl

theorem Scanned.yields (h : s.Scanned gap piece) (hscan : s.scan.1 = .ok t) (hk : t.kind ≠ .terminator)
    (hpiece : piece ≠ []) (hends : s'.endsStatement = s.endsStatement) (hblank : ∀ c ∈ blank, c = ' ')
    (hrest : s'.rest = blank ++ (piece ++ rest)) (hlead : Text.lead rest = none) :
    s'.Yields blank piece rest t.kind := by
  have hlead : ∀ c ∈ Text.lead rest, c ∈ Text.lead s.scan.2.rest := by simp [hlead]
  have hsplit := h.splitLayout_eq
  have hsplit' : splitLayout s'.endsStatement false s'.rest = (blank, piece ++ rest) := by
    rw [hrest, splitLayout_blanks hblank, hends, h.splitLayout_ahead hpiece hlead]
    simp
  obtain ⟨c, w, rfl⟩ := List.exists_cons_of_ne_nil hpiece
  have hc : c ≠ '\n' := by
    rintro rfl
    obtain ⟨-, -, hterm⟩ := h.newline_piece List.mem_cons_self
    rw [hscan, answerKind_ok] at hterm
    exact hk (Option.some.inj hterm)
  have hread := read_text hsplit hc rfl
  have hread' := Lexeme.read_of_lead hread hlead
  refine yields_of_emit hsplit' ?_
  rw [scan_lexeme hsplit hc hread] at hscan
  rw [scan_lexeme hsplit' hc (hread'.symm ▸ hread), hread']
  cases hkind : (Lexeme.read c (w ++ s.scan.2.rest)).kind with
  | ok kind =>
    rw [hkind] at hscan
    cases hscan
    rfl
  | error p =>
    rw [hkind] at hscan
    cases hscan

/-! ## Two runs -/

theorem Amid.canonicalText_eof (h : s.Amid source ks) (hscan : s.scan.1 = .ok t) (ht : t.kind = .eof) :
    t.canonicalText source = [] := by
  obtain ⟨gap, piece, hpiece⟩ := s.exists_scanned
  have hk : t.kind ≠ .terminator := by simp [ht]
  rw [Token.canonicalText, if_neg hk, (h.scan hpiece hscan).1]
  exact Decidable.byContradiction fun hne => hpiece.kind_ne_eof hscan hne ht

theorem Amid.endsStatement_eq (h : s.Amid source ks) (h' : s'.Amid source' ks) :
    s'.endsStatement = s.endsStatement := by
  rw [Bool.eq_iff_iff, h.recalls.endsStatement_iff, h'.recalls.endsStatement_iff]

theorem Amid.yields (h : s.Amid source ks) (h' : s'.Amid source' ks) (hscan : s.scan.1 = .ok t)
    (hblank : ∀ c ∈ blank, c = ' ') (hrest : s'.rest = blank ++ (t.canonicalText source ++ rest))
    (hlead : Text.lead rest = none) (hend : t.kind = .eof → rest = []) :
    s'.Yields blank (t.canonicalText source) rest t.kind := by
  obtain ⟨gap, piece, hpiece⟩ := s.exists_scanned
  have hends := h.endsStatement_eq h'
  by_cases hk : t.kind = .terminator
  · have htext : t.canonicalText source = [';'] := if_pos hk
    rw [htext] at hrest ⊢
    rw [hk]
    exact yields_semicolon hblank hrest
  have htext : t.canonicalText source = piece := (if_neg hk).trans (h.scan hpiece hscan).1
  rw [htext] at hrest ⊢
  rcases hpiece.covers with hcov | ⟨rfl, -, -, hstop⟩
  · exact hpiece.yields hscan hk hcov.nonempty hends hblank hrest hlead
  · rw [hscan, answerKind_ok] at hstop
    cases hs : s.endsStatement with
    | true =>
      rw [hs] at hstop
      exact absurd (Option.some.inj hstop) hk
    | false =>
      rw [hs] at hstop
      have heof : t.kind = .eof := Option.some.inj hstop
      obtain rfl := hend heof
      rw [heof]
      exact yields_eof hblank (by simpa using hrest) (hends.trans hs)

/-- From scanners that recall the same kinds on, the tokens written out are answered by tokens of the same
kinds and texts. -/
theorem answers_canonical (h : s.Amid source ks) (h' : s'.Amid source' ks)
    (hans : s.answers = ts.map .ok) (hblank : ∀ c ∈ blank, c = ' ')
    (hrest : s'.rest = blank ++ canonical source ts) :
    ∃ us : List Token, s'.answers = us.map .ok ∧ us.map Token.kind = ts.map Token.kind ∧
      us.map (·.span.text source') = ts.map (Token.canonicalText source) := by
  induction ts generalizing s s' ks blank with
  | nil =>
    obtain ⟨t, us, hnil, -⟩ := answers_cases hans
    cases hnil
  | cons t ts ih =>
    obtain ⟨_, _, ⟨⟩, hscan, hlater⟩ := answers_cases hans
    obtain ⟨gap, piece, hpiece⟩ := s.exists_scanned
    have hnext := (h.scan hpiece hscan).2
    rcases hlater with ⟨ht, rfl⟩ | ⟨ht, hlater⟩
    · have hend : s'.rest = blank ++ (t.canonicalText source ++ []) := by
        rw [hrest, canonical_eof source [] ht, h.canonicalText_eof hscan ht]
        rfl
      obtain ⟨hyields, -, hkind⟩ := h.yields h' hscan hblank hend rfl fun _ => rfl
      have hanswer := answer_eq_ok hkind
      obtain ⟨htext, -⟩ := h'.scan hyields hanswer
      refine ⟨[⟨t.kind, answerSpan s'.scan.1⟩], answers_of_eof hanswer ht, rfl, ?_⟩
      rw [List.map_singleton, List.map_singleton, htext]
    · obtain ⟨blank', hblank', hlead, hcons⟩ := canonical_cons source ts ht
      rw [hcons] at hrest
      obtain ⟨hyields, hrest', hkind⟩ := h.yields h' hscan hblank hrest hlead fun heof => absurd heof ht
      have hanswer := answer_eq_ok hkind
      obtain ⟨htext, hnext'⟩ := h'.scan hyields hanswer
      obtain ⟨us, hus, hkinds, htexts⟩ := ih hnext hnext' hlater hblank' hrest'
      refine ⟨⟨t.kind, answerSpan s'.scan.1⟩ :: us, ?_, ?_, ?_⟩
      · rw [answers_of_token hanswer ht, hus]
        rfl
      · rw [List.map_cons, List.map_cons, hkinds]
      · rw [List.map_cons, List.map_cons, htexts, htext]

end Scanner

/-- Tokens written out with single blanks between, each end of a statement as a semicolon, are read as
tokens of the same kinds, up to the end of input, and but for the ends of statements of the same texts. -/
theorem lex_canonical {source : Text} {ts : List Token} (h : lex source = .ok ts) :
    ∃ us, lex (canonical source ts) = .ok us ∧ us.map Token.kind = ts.map Token.kind ∧
      us.map (·.span.text (canonical source ts)) = ts.map (Token.canonicalText source) := by
  have hblank : ∀ c ∈ ([] : Text), c = ' ' := by simp
  obtain ⟨us, hus, hkinds, htexts⟩ := Scanner.answers_canonical (Scanner.amid_initial source)
    (Scanner.amid_initial (canonical source ts)) (answers_of_lex h) hblank rfl
  refine ⟨us, ?_, hkinds, htexts⟩
  rw [lex, hus, mapM_tokens]

/-- Operators that a comment holds apart do not become one where it is left out, and the end of the source
is written as a semicolon where it ends a statement. -/
theorem lex_canonical_operators :
    let source : Text := "<//\n=a"
    let ts : List Token := [⟨.op .lt, ⟨0, 1⟩⟩, ⟨.assign, ⟨4, 1⟩⟩, ⟨.ident, ⟨5, 1⟩⟩,
      ⟨.terminator, ⟨6, 0⟩⟩, ⟨.eof, ⟨6, 0⟩⟩]
    lex source = .ok ts ∧ canonical source ts = "< = a ;" ∧
      ∃ us, lex (canonical source ts) = .ok us ∧ us.map Token.kind = ts.map Token.kind ∧
        us.map (·.span.text (canonical source ts)) = ts.map (Token.canonicalText source) := by
  intro source ts
  have hlex : lex source = .ok ts := lex_of_answers? 5 rfl
  exact ⟨hlex, rfl, lex_canonical hlex⟩

end Frontend
