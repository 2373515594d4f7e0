import Frontend.Token.Stream

/-! # The piece of text behind an answer

A scanner skips layout and answers for the piece that follows. The piece is never empty before the
end of the text, never layout itself, and as long as its kind allows.
-/
namespace Frontend

/-- Layout before `rest`: blanks, and comments that run up to a newline or to the end. -/
inductive Skipped (rest : Text) : Text → Prop where
  | nil : Skipped rest []
  | blank {c : Char} {t : Text} : Text.isBlank c → Skipped rest t → Skipped rest (c :: t)
  | comment {w t : Text} : (∀ c ∈ w, c ≠ '\n') → (∀ c ∈ (t ++ rest).head?, c = '\n') →
      Skipped rest t → Skipped rest ('/' :: '/' :: w ++ t)

/-- The texts that stand for a kind. Most kinds have one, by which they are also named to a reader;
the end of input has none. -/
inductive Kind.Spelling : Kind → Text → Prop where
  | keyword {k : Kind} : (k.display, k) ∈ keywords → Spelling k k.display
  | symbol {k : Kind} : (k.display, k) ∈ symbols → Spelling k k.display
  | ident {c : Char} {t : Text} : isWordStart c → (∀ d ∈ t, isWordChar d) →
      (∀ k, (c :: t, k) ∉ keywords) → Spelling .ident (c :: t)
  | int {digits : Text} (suffix : Suffix) : digits ≠ [] → (∀ d ∈ digits, d.isDigit) →
      Spelling (.int suffix) (digits ++ suffix.text)
  | semicolon : Spelling .terminator [';']
  | newline : Spelling .terminator ['\n']

def Kind.isWord : Kind → Bool
  | ident | int _ => true
  | k => k.isKeyword

def Kind.growsByEq : Kind → Bool
  | assign | op .lt | op .gt => true
  | _ => false

/-- Whether the character would have made a token of this kind longer. -/
def Kind.continuedBy (k : Kind) (c : Char) : Bool :=
  k.isWord && isWordChar c || k.growsByEq && c == '='

def answerSpan : Except SourceError Token → Span
  | .ok t => t.span
  | .error e => e.span

def answerKind (a : Except SourceError Token) : Option Kind := a.toOption.map Token.kind

/-- An answer of this kind covers `piece` where `rest` follows. -/
structure Covers (answered : Option Kind) (piece rest : Text) : Prop where
  nonempty : piece ≠ []
  solid : ∀ c ∈ piece, Text.isBlank c → c = '\n' ∧ answered = some .terminator
  uncommented : ¬ ['/', '/'] <+: piece ++ rest
  spelling : ∀ k, answered = some k → k.Spelling piece
  maximal : ∀ k, answered = some k → ∀ c ∈ rest.head?, ¬ k.continuedBy c

theorem isAlpha_iff {c : Char} :
    c.isAlpha ↔ ('A'.val ≤ c.val ∧ c.val ≤ 'Z'.val) ∨ 'a'.val ≤ c.val ∧ c.val ≤ 'z'.val := by
  change (decide ('A'.val ≤ c.val ∧ c.val ≤ 'Z'.val) ||
    (decide ('a'.val ≤ c.val) && decide (c.val ≤ 'z'.val))) = true ↔ _
  simp only [Bool.or_eq_true, Bool.and_eq_true, decide_eq_true_eq]

theorem not_isBlank_of_isWordChar {c : Char} (h : isWordChar c) : ¬ Text.isBlank c := by
  have hc : ∀ n < 128, isWordChar (Char.ofNat n) → ¬ Text.isBlank (Char.ofNat n) := by decide
  have hn : c.toNat < 128 := by
    simp only [isWordChar, Char.isAlphanum, isAlpha_iff, Char.isDigit, Bool.or_eq_true,
      Bool.and_eq_true, decide_eq_true_eq, beq_iff_eq] at h
    rcases h with ((h | h) | h) | rfl
    · exact Nat.lt_of_le_of_lt h.2 (by decide)
    · exact Nat.lt_of_le_of_lt h.2 (by decide)
    · exact Nat.lt_of_le_of_lt h.2 (by decide)
    · decide
  have hw := hc c.toNat hn
  rw [Char.ofNat_toNat] at hw
  exact hw h

/-- Layout before `rest` of which the first line may belong to a comment that is open already. -/
def SkippedFrom : Bool → Text → Text → Prop
  | false, rest, t => Skipped rest t
  | true, rest, t => ∃ w u, t = w ++ u ∧ (∀ c ∈ w, c ≠ '\n') ∧ (∀ c ∈ (u ++ rest).head?, c = '\n') ∧
      Skipped rest u

theorem SkippedFrom.of_newline {inComment : Bool} {rest t : Text}
    (hn : ∀ c ∈ (t ++ rest).head?, c = '\n') (h : Skipped rest t) : SkippedFrom inComment rest t := by
  cases inComment with
  | false => exact h
  | true => exact ⟨[], t, rfl, by simp, hn, h⟩

theorem SkippedFrom.comment {rest t : Text} (hs : (t ++ rest).head? = some '/')
    (h : SkippedFrom true rest t) : Skipped rest ('/' :: t) := by
  obtain ⟨w, u, rfl, hw, hn, hu⟩ := h
  cases w with
  | nil =>
    rw [List.nil_append] at hs
    exact absurd (hn '/' hs) (by decide)
  | cons c w =>
    obtain rfl : c = '/' := by simpa using hs
    exact .comment (fun d hd => hw d (List.mem_cons_of_mem _ hd)) hn hu

theorem skippedFrom_splitLayout (stop inComment : Bool) (t : Text) :
    SkippedFrom inComment (splitLayout stop inComment t).2 (splitLayout stop inComment t).1 := by
  fun_induction splitLayout stop inComment t with
  | case1 => exact .of_newline (by simp) .nil
  | case2 => exact .of_newline (by simp) .nil
  | case3 inComment t hstop ih => exact .of_newline (by simp) (.blank (by decide) ih)
  | case4 c t hc ih =>
    obtain ⟨w, u, hu, hw, hn, hs⟩ := ih
    refine ⟨c :: w, u, congrArg (c :: ·) hu, ?_, hn, hs⟩
    exact List.forall_mem_cons.2 ⟨hc, hw⟩
  | case5 inComment c t hc hin hs ih =>
    obtain ⟨rfl, hs⟩ := hs
    obtain rfl := Bool.eq_false_iff.2 hin
    have hhead := congrArg List.head? (splitLayout_append stop true t)
    exact ih.comment (hhead.trans hs)
  | case6 inComment c t hc hin hs hb ih =>
    obtain rfl := Bool.eq_false_iff.2 hin
    exact .blank hb ih
  | case7 inComment c t hc hin hs hb =>
    obtain rfl := Bool.eq_false_iff.2 hin
    exact .nil

theorem splitLayout_stops (stop inComment : Bool) (t : Text) {c : Char} {u : Text}
    (h : (splitLayout stop inComment t).2 = c :: u) :
    c = '\n' ∨ (¬ Text.isBlank c ∧ ¬ ['/', '/'] <+: c :: u) := by
  fun_induction splitLayout stop inComment t with
  | case1 => cases h
  | case2 => exact .inl (List.cons.inj h).1.symm
  | case3 inComment t hstop ih => exact ih h
  | case4 c t hc ih => exact ih h
  | case5 inComment c t hc hin hs ih => exact ih h
  | case6 inComment c t hc hin hs hb ih => exact ih h
  | case7 inComment d t hc hin hs hb =>
    obtain ⟨rfl, rfl⟩ := List.cons.inj h
    refine .inr ⟨hb, ?_⟩
    rintro ⟨v, hv⟩
    obtain ⟨rfl, rfl⟩ := List.cons.inj hv
    exact hs ⟨rfl, rfl⟩

theorem head?_dropWhile {p : Char → Bool} {t : Text} : ∀ c ∈ (t.dropWhile p).head?, ¬ p c := by
  intro c hc hp
  have h := List.head?_dropWhile_not p t
  rw [hc] at h
  simp [hp] at h

theorem forall_mem_takeWhile {p : Char → Bool} (t : Text) : ∀ c ∈ t.takeWhile p, p c :=
  List.all_eq_true.1 List.all_takeWhile

namespace Kind

theorem display_of_mem_keywords : ∀ p ∈ keywords, p.2.display = p.1 := by decide

theorem isKeyword_of_mem_keywords : ∀ p ∈ keywords, p.2.isKeyword := by decide

theorem display_of_mem_symbols : ∀ p ∈ symbols, p.2.display = p.1 ∨ p = ([';'], .terminator) := by
  decide

theorem not_isBlank_of_mem_symbols {p : Text × Kind} (hp : p ∈ symbols) :
    ∀ c ∈ p.1, ¬ Text.isBlank c := by
  have hall : ∀ p ∈ symbols, p.1.all (!Text.isBlank ·) := by decide
  intro c hc
  simpa using List.all_eq_true.1 (hall p hp) c hc

theorem mem_keywords {w : Text} {k : Kind} (h : keyword? w = some k) : (w, k) ∈ keywords := by
  obtain ⟨l, r, h, -⟩ := List.lookup_eq_some_iff.1 h
  rw [h]
  exact List.mem_append_right _ List.mem_cons_self

theorem spelling_word {c : Char} {t : Text} (hc : isWordStart c) (ht : ∀ d ∈ t, isWordChar d) :
    ((keyword? (c :: t)).getD .ident).Spelling (c :: t) := by
  cases h : keyword? (c :: t) with
  | none =>
    refine .ident hc ht ?_
    intro k hk
    have hne := List.lookup_eq_none_iff.1 h _ hk
    simp at hne
  | some k =>
    have hk := mem_keywords h
    have hd : k.display = c :: t := display_of_mem_keywords _ hk
    rw [← hd] at hk ⊢
    exact .keyword hk

theorem growsByEq_wordKind (w : Text) : ((keyword? w).getD .ident).growsByEq = false := by
  have hk : ∀ p ∈ keywords, p.2.growsByEq = false := by decide
  cases h : keyword? w with
  | none => rfl
  | some k => exact hk _ (mem_keywords h)

theorem spelling_symbol {w : Text} {k : Kind} (h : (w, k) ∈ symbols) : k.Spelling w := by
  rcases display_of_mem_symbols _ h with hd | h'
  · change k.display = w at hd
    rw [← hd] at h ⊢
    exact .symbol h
  · cases h'
    exact .semicolon

theorem growsByEq_of_mem_symbols :
    ∀ p ∈ symbols, p.2.isWord = false ∧ (p.2.growsByEq → p.1 ∈ [['='], ['<'], ['>']]) := by decide

/-- A symbol is read only where no longer one stands. -/
theorem symbol?_maximal {w rest : Text} {k : Kind} (h : symbol? (w ++ rest) = some (w, k)) :
    ∀ c ∈ rest.head?, ¬ k.continuedBy c := by
  intro c hc hk
  obtain ⟨rest, rfl⟩ := List.head?_eq_some_iff.1 hc
  obtain ⟨hword, hw⟩ := growsByEq_of_mem_symbols _ (symbol?_eq_some h).1
  simp only [continuedBy, hword, Bool.false_and, Bool.false_or, Bool.and_eq_true, beq_iff_eq] at hk
  obtain ⟨hgrow, rfl⟩ := hk
  have hmem := hw hgrow
  simp only [List.mem_cons, List.not_mem_nil, or_false] at hmem
  rcases hmem with rfl | rfl | rfl <;> cases h

end Kind

theorem isWordChar_of_isWordStart {c : Char} (h : isWordStart c) : isWordChar c := by
  simp only [isWordStart, isWordChar, Char.isAlphanum, Bool.or_eq_true] at h ⊢
  exact h.imp_left .inl

theorem isWordChar_of_isDigit {c : Char} (h : c.isDigit) : isWordChar c := by
  simp only [isWordChar, Char.isAlphanum, Bool.or_eq_true]
  exact .inl (.inr h)

theorem Ty.isWordChar_of_mem_name (ty : Ty) : ∀ c ∈ ty.name, isWordChar c := by
  have hall : ty.name.all isWordChar := by
    rcases ty with i | _ | _
    · cases i <;> rfl
    · rfl
    · rfl
  exact List.all_eq_true.1 hall

theorem Suffix.isWordChar_of_mem_text (suffix : Suffix) : ∀ c ∈ suffix.text, isWordChar c := by
  cases suffix with
  | none => exact fun c hc => absurd hc List.not_mem_nil
  | some i => exact (Ty.int i).isWordChar_of_mem_name

theorem covers_word {c : Char} {t : Text} {answered : Option Kind} (hc : isWordChar c)
    (hs : ∀ k, answered = some k → k.Spelling (c :: t.takeWhile isWordChar))
    (hk : ∀ k, answered = some k → k.growsByEq = false) :
    Covers answered (c :: t.takeWhile isWordChar) (t.dropWhile isWordChar) := by
  have hword : ∀ d ∈ c :: t.takeWhile isWordChar, isWordChar d := by
    exact List.forall_mem_cons.2 ⟨hc, forall_mem_takeWhile _⟩
  refine ⟨List.cons_ne_nil _ _, ?_, ?_, hs, ?_⟩
  · intro d hd hb
    exact absurd hb (not_isBlank_of_isWordChar (hword d hd))
  · rintro ⟨u, hu⟩
    obtain ⟨rfl, -⟩ := List.cons.inj hu
    exact absurd hc (by decide)
  · intro k hak d hd hcont
    have hd := head?_dropWhile d hd
    simp [Kind.continuedBy, hk k hak, hd] at hcont

theorem spelling_number {c : Char} {t : Text} {suffix : Suffix} (hc : c.isDigit)
    (h : Suffix.ofText? ((c :: t).dropWhile Char.isDigit) = some suffix) :
    (Kind.int suffix).Spelling (c :: t) := by
  have hs := Suffix.ofText?_eq_some.1 h
  have hsplit := List.takeWhile_append_dropWhile (p := Char.isDigit) (l := c :: t)
  rw [hs] at hsplit
  rw [← hsplit]
  refine .int suffix ?_ ?_
  · simp [hc]
  · exact forall_mem_takeWhile _

theorem Lexeme.covers_read {c : Char} {t : Text} (hb : ¬ Text.isBlank c)
    (hs : ¬ ['/', '/'] <+: c :: t) :
    ∃ rest, c :: t = (read c t).text ++ rest ∧
      Covers (read c t).kind.toOption (read c t).text rest := by
  have hword : c :: t = (c :: t.takeWhile isWordChar) ++ t.dropWhile isWordChar := by
    rw [List.cons_append, List.takeWhile_append_dropWhile]
  unfold read
  dsimp only
  split
  · next hc =>
    refine ⟨_, hword, covers_word (isWordChar_of_isWordStart hc) ?_ ?_⟩
    · rintro k ⟨⟩
      exact Kind.spelling_word hc (forall_mem_takeWhile _)
    · rintro k ⟨⟩
      exact Kind.growsByEq_wordKind _
  · split
    · next hc =>
      split
      · next suffix h =>
        refine ⟨_, hword, covers_word (isWordChar_of_isDigit hc) ?_ ?_⟩
        · rintro k ⟨⟩
          exact spelling_number hc h
        · rintro k ⟨⟩
          rfl
      · refine ⟨_, hword, covers_word (isWordChar_of_isDigit hc) ?_ ?_⟩ <;> rintro k ⟨⟩
    · split
      · next w k h =>
        obtain ⟨hmem, rest, hrest⟩ := Kind.symbol?_eq_some h
        rw [← hrest] at h hs
        have hsolid := Kind.not_isBlank_of_mem_symbols hmem
        refine ⟨rest, hrest.symm, Kind.symbols_ne_nil _ hmem, ?_, hs, ?_, ?_⟩
        · intro d hd hb
          exact absurd hb (hsolid d hd)
        · rintro k ⟨⟩
          exact Kind.spelling_symbol hmem
        · rintro k ⟨⟩
          exact Kind.symbol?_maximal h
      · refine ⟨t, rfl, List.cons_ne_nil _ _, ?_, hs, ?_, ?_⟩
        · intro d hd hd'
          obtain rfl := List.mem_singleton.1 hd
          exact absurd hd' hb
        · rintro k ⟨⟩
        · rintro k ⟨⟩

namespace Scanner

/-- What one answer does: it skips layout, then covers a piece, or it has come to the end. Only an
end that ends a statement is answered by more than the end of input, and only once. -/
structure Scanned (s : Scanner) (gap piece : Text) : Prop where
  rest : s.rest = gap ++ (piece ++ s.scan.2.rest)
  offset : s.scan.2.offset = s.offset + Text.size gap + Text.size piece
  span : answerSpan s.scan.1 = ⟨s.offset + Text.size gap, Text.size piece⟩
  skipped : Skipped (piece ++ s.scan.2.rest) gap
  covers : Covers (answerKind s.scan.1) piece s.scan.2.rest ∨
    piece = [] ∧ s.scan.2.rest = [] ∧ s.scan.2.endsStatement = false ∧
      answerKind s.scan.1 = some (if s.endsStatement then .terminator else .eof)

theorem covers_newline (rest : Text) : Covers (some .terminator) ['\n'] rest := by
  refine ⟨List.cons_ne_nil _ _, ?_, ?_, ?_, ?_⟩
  · intro c hc _
    exact ⟨List.mem_singleton.1 hc, rfl⟩
  · rintro ⟨u, hu⟩
    cases hu
  · rintro k ⟨⟩
    exact .newline
  · rintro k ⟨⟩ c _
    simp [Kind.continuedBy, Kind.isWord, Kind.isKeyword, Kind.growsByEq]

theorem exists_scanned (s : Scanner) : ∃ gap piece, s.Scanned gap piece := by
  have happ := splitLayout_append s.endsStatement false s.rest
  have hskip := skippedFrom_splitLayout s.endsStatement false s.rest
  have hstop := @splitLayout_stops s.endsStatement false s.rest
  rcases hsplit : splitLayout s.endsStatement false s.rest with ⟨gap, u⟩
  rw [hsplit] at happ hskip hstop
  cases u with
  | nil =>
    have hscan : s.scan =
        s.emit (if s.endsStatement then .terminator else .eof) (Text.size gap) 0 [] := by
      simp only [scan, hsplit]
    refine ⟨gap, [], ?_⟩
    constructor <;> rw [hscan]
    · exact happ.symm
    · rfl
    · rfl
    · exact hskip
    · refine .inr ⟨rfl, rfl, ?_, rfl⟩
      cases h : s.endsStatement <;> simp [endsStatement, emit, Kind.endsStatement]
  | cons c u =>
    by_cases hc : c = '\n'
    · subst hc
      have hscan : s.scan = s.emit .terminator (Text.size gap) 1 u := by
        simp only [scan, hsplit, if_true]
      refine ⟨gap, ['\n'], ?_⟩
      constructor <;> rw [hscan]
      · exact happ.symm
      · rfl
      · rfl
      · exact hskip
      · exact .inl (covers_newline u)
    · obtain ⟨hb, hs⟩ := (hstop rfl).resolve_left hc
      obtain ⟨rest, hrest, hcov⟩ := Lexeme.covers_read hb hs
      have hdrop : (c :: u).drop (Lexeme.read c u).text.length = rest := by
        rw [hrest, List.drop_left]
      have hscan : s.scan.2.rest = rest ∧
          s.scan.2.offset = s.offset + (Text.size gap + Text.size (Lexeme.read c u).text) ∧
          answerSpan s.scan.1 = ⟨s.offset + Text.size gap, Text.size (Lexeme.read c u).text⟩ ∧
          answerKind s.scan.1 = (Lexeme.read c u).kind.toOption := by
        simp only [scan, hsplit, if_neg hc, hdrop]
        split
        · next k hk =>
          rw [hk]
          exact ⟨rfl, rfl, rfl, rfl⟩
        · next p hp =>
          rw [hp]
          exact ⟨rfl, rfl, rfl, rfl⟩
      obtain ⟨hr, ho, hspan, hkind⟩ := hscan
      refine ⟨gap, (Lexeme.read c u).text, ?_⟩
      constructor
      · rw [hr, ← hrest]
        exact happ.symm
      · rw [ho, Nat.add_assoc]
      · exact hspan
      · rw [hr, ← hrest]
        exact hskip
      · rw [hkind, hr]
        exact .inl hcov

end Scanner
end Frontend
