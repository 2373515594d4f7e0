import Frontend.Proofs.Token.Terminator

/-! # Reading a text in other surroundings

What a scanner answers is settled by the layout ahead, the piece behind it and the first character that
follows, and of the past by what decides where statements end. So the answers to a text are found again
where it stands behind another one, and where characters around a piece change.
-/
namespace Frontend

def Span.shift (k : Nat) (s : Span) : Span := ⟨s.start + k, s.len⟩

def Token.shift (k : Nat) (t : Token) : Token := ⟨t.kind, t.span.shift k⟩

def SourceError.shift (k : Nat) (e : SourceError) : SourceError := ⟨e.problem, e.span.shift k⟩

def shiftAnswer (k : Nat) : Except SourceError Token → Except SourceError Token
  | .ok t => .ok (t.shift k)
  | .error e => .error (e.shift k)

@[simp] theorem Span.shift_zero (s : Span) : s.shift 0 = s := rfl

@[simp] theorem Token.shift_zero (t : Token) : t.shift 0 = t := rfl

@[simp] theorem shiftAnswer_zero (a : Except SourceError Token) : shiftAnswer 0 a = a := by
  cases a <;> rfl

theorem map_shiftAnswer (k : Nat) (ts : List Token) :
    (ts.map .ok).map (shiftAnswer k) = (ts.map (Token.shift k)).map .ok := by
  rw [List.map_map, List.map_map]
  rfl

/-- The first character, if it could carry on a piece of text before it. -/
def Text.lead (t : Text) : Option Char := t.head?.filter fun c => isWordChar c || c == '=' || c == '/'

section Lead
variable {t u : Text}

theorem any_head_of_lead {p : Char → Bool} (hp : ∀ c, p c → isWordChar c || c == '=' || c == '/')
    (h : ∀ c ∈ Text.lead u, c ∈ Text.lead t) (hu : u.head?.any p) : t.head?.any p := by
  have hmem (t : Text) {c : Char} (hc : p c) : c ∈ Text.lead t ↔ c ∈ t.head? := by
    rw [Text.lead, Option.mem_filter_iff]
    exact and_iff_left (hp c hc)
  obtain ⟨c, hc, hpc⟩ := (Option.any_eq_true ..).1 hu
  apply (Option.any_eq_true ..).2
  exact ⟨c, (hmem t hpc).1 (h c ((hmem u hpc).2 hc)), hpc⟩

theorem any_head_append_of_lead {p : Char → Bool}
    (hp : ∀ c, p c → isWordChar c || c == '=' || c == '/') (w : Text)
    (h : ∀ c ∈ Text.lead u, c ∈ Text.lead t) (hu : (w ++ u).head?.any p) : (w ++ t).head?.any p := by
  cases w with
  | nil => exact any_head_of_lead hp h hu
  | cons c w => exact hu

theorem Text.lead_append (w : Text) (h : ∀ c ∈ lead u, c ∈ lead t) :
    ∀ c ∈ lead (w ++ u), c ∈ lead (w ++ t) := by
  cases w with
  | nil => exact h
  | cons d w => exact fun _ hc => hc

theorem takeWhile_eq_nil_iff {p : Char → Bool} : t.takeWhile p = [] ↔ t.head?.any p = false := by
  cases t with
  | nil => simp
  | cons c t => cases hc : p c <;> simp [hc]

theorem takeWhile_of_lead {w : Text} (h : (w ++ t).takeWhile isWordChar = w)
    (hlead : ∀ c ∈ Text.lead u, c ∈ Text.lead t) : (w ++ u).takeWhile isWordChar = w := by
  have hw : ∀ c ∈ w, isWordChar c := h ▸ forall_mem_takeWhile _
  have hp : ∀ c, isWordChar c → isWordChar c || c == '=' || c == '/' := fun c hc => by simp [hc]
  rw [List.takeWhile_append_of_pos hw] at h ⊢
  rw [List.append_right_eq_self] at h ⊢
  rw [takeWhile_eq_nil_iff, Bool.eq_false_iff] at h ⊢
  exact fun hu => h (any_head_of_lead hp hlead hu)

end Lead

namespace Kind

theorem symbols_tail : ∀ p ∈ symbols, p.1.tail = [] ∨ p.1.tail = ['='] := by decide

theorem isPrefixOf_symbol {p : Text × Kind} (hp : p ∈ symbols) {c : Char} {t u : Text}
    (h : u.head?.any (· == '=') → t.head?.any (· == '=')) (hu : p.1.isPrefixOf (c :: u)) :
    p.1.isPrefixOf (c :: t) := by
  have heq (t : Text) : ['='].isPrefixOf t = t.head?.any (· == '=') := by
    cases t with
    | nil => rfl
    | cons d t =>
      rw [List.isPrefixOf_cons_cons, List.isPrefixOf_nil_left, Bool.and_true, BEq.comm]
      rfl
  have htail := symbols_tail p hp
  rcases p with ⟨_ | ⟨d, w⟩, k⟩
  · rfl
  · rw [List.isPrefixOf_cons_cons, Bool.and_eq_true] at hu ⊢
    obtain rfl | rfl : w = [] ∨ w = ['='] := htail
    · exact hu
    · rw [heq] at hu ⊢
      exact hu.imp_right h

/-- The symbol that was found stays the first one where another text follows it, unless that one brings
an equals sign. -/
theorem symbol?_congr {c : Char} {w t u : Text}
    (h : (w ++ u).head?.any (· == '=') → (w ++ t).head?.any (· == '='))
    (hfound : ∀ p, symbol? (c :: (w ++ t)) = some p → p.1 = c :: w) :
    symbol? (c :: (w ++ u)) = symbol? (c :: (w ++ t)) := by
  have hfind : ∀ l ⊆ symbols,
      (∀ p, l.find? (·.1.isPrefixOf (c :: (w ++ t))) = some p → p.1 = c :: w) →
      l.find? (·.1.isPrefixOf (c :: (w ++ u))) = l.find? (·.1.isPrefixOf (c :: (w ++ t))) := by
    intro l hl hfound
    induction l with
    | nil => rfl
    | cons p l ih =>
      have hback := isPrefixOf_symbol (hl List.mem_cons_self) (c := c) h
      rw [List.find?_cons] at hfound
      rw [List.find?_cons, List.find?_cons]
      cases ht : p.1.isPrefixOf (c :: (w ++ t)) with
      | true =>
        rw [ht] at hfound
        have hu : p.1.isPrefixOf (c :: (w ++ u)) := by
          rw [hfound p rfl, List.isPrefixOf_iff_prefix]
          exact ⟨u, rfl⟩
        rw [hu]
      | false =>
        rw [ht] at hback hfound
        have hu : p.1.isPrefixOf (c :: (w ++ u)) = false := Bool.eq_false_iff.2 fun hu => nomatch hback hu
        rw [hu]
        exact ih (fun q hq => hl (List.mem_cons_of_mem p hq)) hfound
  exact hfind symbols (List.Subset.refl _) hfound

end Kind

namespace Lexeme

/-- The first lexeme of a text stays the same when what follows it changes and cannot carry it on. -/
theorem read_of_lead {c : Char} {w t u : Text} (h : (read c (w ++ t)).text = c :: w)
    (hlead : ∀ d ∈ Text.lead u, d ∈ Text.lead t) : read c (w ++ u) = read c (w ++ t) := by
  have hword (h : c :: (w ++ t).takeWhile isWordChar = c :: w) :
      (w ++ u).takeWhile isWordChar = (w ++ t).takeWhile isWordChar := by
    have ht : (w ++ t).takeWhile isWordChar = w := (List.cons.inj h).2
    rw [ht, takeWhile_of_lead ht hlead]
  unfold read at h ⊢
  dsimp only at h ⊢
  split at h
  · next hc => rw [if_pos hc, if_pos hc, hword h]
  · next hc =>
    rw [if_neg hc, if_neg hc]
    split at h
    · next hd =>
      have htext : c :: (w ++ t).takeWhile isWordChar = c :: w := by
        split at h <;> exact h
      rw [if_pos hd, if_pos hd, hword htext]
    · next hd =>
      have hfound : ∀ p, Kind.symbol? (c :: (w ++ t)) = some p → p.1 = c :: w := by
        intro p hp
        rw [hp] at h
        exact h
      rw [if_neg hd, if_neg hd,
        Kind.symbol?_congr (any_head_append_of_lead (by simp +contextual) w hlead) hfound]

end Lexeme

/-! ## Layout -/

namespace Skipped
variable {t u v : Text}

theorem append (ht : Skipped (u ++ v) t) (hu : Skipped v u) : Skipped v (t ++ u) := by
  induction ht with
  | nil => exact hu
  | blank hc _ ih => exact .blank hc ih
  | @comment w t hw hn _ ih =>
    rw [List.append_assoc]
    refine .comment hw ?_ ih
    rw [List.append_assoc]
    exact hn

theorem of_blanks (h : ∀ c ∈ t, Text.isBlank c) : Skipped u t := by
  induction t with
  | nil => exact .nil
  | cons c t ih =>
    obtain ⟨hc, ht⟩ := List.forall_mem_cons.1 h
    exact .blank hc (ih ht)

theorem congr (h : Skipped u t) (hv : ∀ c ∈ v.head?, c ∈ u.head? ∨ c = '\n') : Skipped v t := by
  induction h with
  | nil => exact .nil
  | blank hc _ ih => exact .blank hc ih
  | @comment w t hw hn _ ih =>
    refine .comment hw ?_ ih
    cases t with
    | nil => exact fun c hc => (hv c hc).elim (hn c) id
    | cons d t => exact hn

theorem newline (h : Skipped u t) : Skipped v (t ++ ['\n']) := by
  apply Skipped.append
  · exact h.congr fun c hc => .inr (Option.some.inj hc).symm
  · exact .blank (by decide) .nil

theorem blanks (h : Skipped u t) (ht : ¬ ['/', '/'] <:+: t) : ∀ c ∈ t, Text.isBlank c := by
  induction h with
  | nil => simp
  | @blank c t hc _ ih => exact List.forall_mem_cons.2 ⟨hc, ih fun h => ht (h.trans (List.suffix_cons c t).isInfix)⟩
  | @comment w t => exact absurd ⟨[], w ++ t, rfl⟩ ht

end Skipped

theorem splitLayout_comment {stop : Bool} {w t : Text} (hw : ∀ c ∈ w, c ≠ '\n')
    (ht : ∀ c ∈ t.head?, c = '\n') :
    splitLayout stop true (w ++ t) = (splitLayout stop false t).map (w ++ ·) id := by
  induction w with
  | nil =>
    cases t with
    | nil => rfl
    | cons c t =>
      obtain rfl := ht c rfl
      rfl
  | cons c w ih =>
    obtain ⟨hc, hw⟩ := List.forall_mem_cons.1 hw
    rw [List.cons_append, splitLayout, if_neg hc, if_pos rfl, ih hw]
    rfl

theorem splitLayout_skipped {stop : Bool} {t u : Text} (h : Skipped u t) (hstop : stop → '\n' ∉ t) :
    splitLayout stop false (t ++ u) = (splitLayout stop false u).map (t ++ ·) id := by
  induction h with
  | nil => rfl
  | @blank c t hc _ ih =>
    have ih := ih fun hs hn => hstop hs (List.mem_cons_of_mem c hn)
    rw [List.cons_append, splitLayout]
    split
    · next hn =>
      rw [if_neg fun hs => hstop hs (by simp [hn]), ih]
      rfl
    · have hslash : ¬ (c = '/' ∧ (t ++ u).head? = some '/') := by
        rintro ⟨rfl, -⟩
        cases hc
      rw [if_neg (by decide), if_neg hslash, ih]
      rfl
  | @comment w t hw hn _ ih =>
    have ih := ih fun hs hn => hstop hs (List.mem_append_right _ hn)
    have hopen : splitLayout stop false ('/' :: '/' :: w ++ t ++ u) =
        (splitLayout stop true ('/' :: w ++ (t ++ u))).map ('/' :: ·) id := by
      rw [List.append_assoc]
      rfl
    have hslash : ∀ c ∈ '/' :: w, c ≠ '\n' := List.forall_mem_cons.2 ⟨by decide, hw⟩
    rw [hopen, splitLayout_comment hslash hn, ih]
    exact Prod.ext (congrArg ('/' :: '/' :: ·) (List.append_assoc ..).symm) rfl

theorem slashes_iff {c : Char} {t : Text} :
    ['/', '/'] <+: c :: t ↔ c = '/' ∧ t.head?.any (· == '/') := by
  cases t with
  | nil => simp
  | cons d t =>
    rw [List.cons_prefix_cons, List.cons_prefix_cons, eq_comm, eq_comm (b := d)]
    simp

theorem splitLayout_piece {stop : Bool} {c : Char} {t : Text} (hc : c = '\n' → stop)
    (hblank : c ≠ '\n' → ¬ Text.isBlank c ∧ ¬ ['/', '/'] <+: c :: t) :
    splitLayout stop false (c :: t) = ([], c :: t) := by
  rw [splitLayout]
  split
  · next hn => rw [if_pos (hc hn)]
  · next hn =>
    obtain ⟨hblank, hslash⟩ := hblank hn
    have hslash' : ¬ (c = '/' ∧ t.head? = some '/') := by
      rintro ⟨hc, ht⟩
      exact hslash (slashes_iff.2 ⟨hc, by rw [ht]; rfl⟩)
    rw [if_neg (by decide), if_neg hslash', if_neg hblank]

namespace Scanner
variable {s s' : Scanner} {gap piece : Text}

/-- The second scanner has the past of the first one, as far as it matters, and stands that many bytes
further on when it has skipped the layout. -/
structure Moved (k : Nat) (layout : Text) (s s' : Scanner) : Prop where
  offset : s'.offset + Text.size layout = s.offset + k
  depth : s'.depth = s.depth
  endsStatement : s'.endsStatement = s.endsStatement

theorem Scanned.splitLayout_ahead (h : s.Scanned gap piece) (hp : piece ≠ []) {rest : Text}
    (hlead : ∀ c ∈ Text.lead rest, c ∈ Text.lead s.scan.2.rest) :
    splitLayout s.endsStatement false (piece ++ rest) = ([], piece ++ rest) := by
  have hsplit := h.splitLayout_eq
  obtain ⟨c, w, rfl⟩ := List.exists_cons_of_ne_nil hp
  have hsnd : (splitLayout s.endsStatement false s.rest).2 = c :: (w ++ s.scan.2.rest) := by
    rw [hsplit]
    rfl
  refine splitLayout_piece ?_ fun hc => ?_
  · rintro rfl
    exact stops_at_newline hsnd
  · obtain ⟨hblank, hslash⟩ := (splitLayout_stops _ _ _ hsnd).resolve_left hc
    refine ⟨hblank, fun hopen => hslash ?_⟩
    rw [slashes_iff] at hopen ⊢
    exact hopen.imp_right (any_head_append_of_lead (by simp +contextual) w hlead)

theorem Scanned.splitLayout_of_lead (h : s.Scanned gap piece) (hp : piece ≠ []) {rest : Text}
    (hlead : ∀ c ∈ Text.lead rest, c ∈ Text.lead s.scan.2.rest) :
    splitLayout s.endsStatement false (gap ++ (piece ++ rest)) = (gap, piece ++ rest) := by
  have hskip : Skipped (piece ++ rest) gap := by
    obtain ⟨c, w, rfl⟩ := List.exists_cons_of_ne_nil hp
    exact h.skipped.congr fun d hd => .inl hd
  have hstop : s.endsStatement = true → '\n' ∉ gap := fun hs hn => by
    rw [h.newline_gap hn] at hs
    cases hs
  rw [splitLayout_skipped hskip hstop, h.splitLayout_ahead hp hlead]
  simp

theorem Moved.emit {k : Nat} {layout : Text} (hs : Moved k layout s s') (kind : Kind) (gap : Text)
    (len : Nat) (rest rest' : Text) :
    (s'.emit kind (Text.size (layout ++ gap)) len rest').1 =
        shiftAnswer k (s.emit kind (Text.size gap) len rest).1 ∧
      (s'.emit kind (Text.size (layout ++ gap)) len rest').2.rest = rest' ∧
      Moved k [] (s.emit kind (Text.size gap) len rest).2
        (s'.emit kind (Text.size (layout ++ gap)) len rest').2 := by
  have hoffset := hs.offset
  have hstart : s'.offset + Text.size (layout ++ gap) = s.offset + Text.size gap + k := by
    rw [Text.size_append]
    omega
  have hdepth : kind.depthAfter s'.depth = kind.depthAfter s.depth := by rw [hs.depth]
  refine ⟨?_, rfl, ?_, hdepth, ?_⟩
  · rw [Scanner.emit, hstart]
    rfl
  · simp only [Scanner.emit, Scanner.skip, Text.size_nil]
    omega
  · simp only [Scanner.endsStatement, Scanner.emit, Scanner.skip, hdepth]

theorem Moved.skip {k : Nat} {layout : Text} (hs : Moved k layout s s') (gap : Text) (len : Nat)
    (rest rest' : Text) : Moved k [] (s.skip (Text.size gap + len) rest)
      (s'.skip (Text.size (layout ++ gap) + len) rest') := by
  have hoffset := hs.offset
  refine ⟨?_, hs.depth, hs.endsStatement⟩
  simp only [Scanner.skip, Text.size_append, Text.size_nil]
  omega

theorem Scanned.splitLayout_moved (h : s.Scanned gap piece) {rest : Text}
    (hend : piece = [] → rest = []) (hlead : ∀ c ∈ Text.lead rest, c ∈ Text.lead s.scan.2.rest) :
    splitLayout s.endsStatement false (gap ++ (piece ++ rest)) = (gap, piece ++ rest) := by
  by_cases hp : piece = []
  · subst hp
    have hsplit := h.splitLayout_eq
    have hrest := h.rest
    rcases h.covers with hcov | ⟨-, hnil, -⟩
    · exact absurd rfl hcov.nonempty
    · obtain rfl : rest = s.scan.2.rest := (hend rfl).trans hnil.symm
      rw [← hrest, hsplit]
  · exact h.splitLayout_of_lead hp hlead

theorem read_text {c : Char} {w r : Text}
    (hsplit : splitLayout s.endsStatement false s.rest = (gap, c :: w ++ r)) (hc : c ≠ '\n')
    (hr : s.scan.2.rest = r) : (Lexeme.read c (w ++ r)).text = c :: w := by
  have hdrop : s.scan.2.rest = (c :: (w ++ r)).drop (Lexeme.read c (w ++ r)).text.length := by
    rw [scan, hsplit]
    simp only [List.cons_append, if_neg hc]
    split <;> rfl
  obtain ⟨u, hu⟩ := (Lexeme.text_read_initial c (w ++ r)).1
  rw [← hu, List.drop_left, hr] at hdrop
  rw [← hdrop] at hu
  exact List.append_cancel_right hu

theorem scan_lexeme {c : Char} {w r : Text}
    (hsplit : splitLayout s.endsStatement false s.rest = (gap, c :: w ++ r)) (hc : c ≠ '\n')
    (hread : (Lexeme.read c (w ++ r)).text = c :: w) :
    s.scan = match (Lexeme.read c (w ++ r)).kind with
      | .ok kind => s.emit kind (Text.size gap) (Text.size (c :: w)) r
      | .error p => (.error ⟨p, ⟨s.offset + Text.size gap, Text.size (c :: w)⟩⟩,
          s.skip (Text.size gap + Text.size (c :: w)) r) := by
  have hdrop : (c :: (w ++ r)).drop (c :: w).length = r := List.drop_left
  rw [scan, hsplit]
  cases hk : (Lexeme.read c (w ++ r)).kind with
  | ok kind => simp only [List.cons_append, if_neg hc, hk, hread, hdrop]
  | error p => simp only [List.cons_append, if_neg hc, hk, hread, hdrop]

theorem Scanned.moved (h : s.Scanned gap piece) {k : Nat} {layout rest : Text}
    (hs : Moved k layout s s') (hrest : s'.rest = layout ++ (gap ++ (piece ++ rest)))
    (hskip : Skipped (gap ++ (piece ++ rest)) layout) (hline : s.endsStatement → '\n' ∉ layout)
    (hend : piece = [] → rest = []) (hlead : ∀ c ∈ Text.lead rest, c ∈ Text.lead s.scan.2.rest) :
    s'.scan.1 = shiftAnswer k s.scan.1 ∧ s'.scan.2.rest = rest ∧ Moved k [] s.scan.2 s'.scan.2 := by
  have hsplit := h.splitLayout_eq
  have hsplit' : splitLayout s'.endsStatement false s'.rest = (layout ++ gap, piece ++ rest) := by
    rw [hrest, splitLayout_skipped hskip (by rw [hs.endsStatement]; exact hline), hs.endsStatement,
      h.splitLayout_moved hend hlead]
    rfl
  generalize hr : s.scan.2.rest = r at hsplit hlead
  cases piece with
  | nil =>
    obtain rfl := hend rfl
    obtain rfl : r = [] := by
      rcases h.covers with hcov | ⟨-, hnil, -⟩
      · exact absurd rfl hcov.nonempty
      · exact hr.symm.trans hnil
    have hscan : s.scan = s.emit (if s.endsStatement then .terminator else .eof) (Text.size gap) 0 [] := by
      rw [scan, hsplit]
      rfl
    have hscan' : s'.scan = s'.emit (if s'.endsStatement then .terminator else .eof)
        (Text.size (layout ++ gap)) 0 [] := by
      rw [scan, hsplit']
      rfl
    rw [hscan, hscan', hs.endsStatement]
    exact hs.emit _ gap 0 [] []
  | cons c w =>
    by_cases hc : c = '\n'
    · subst hc
      obtain ⟨rfl⟩ : w = [] := (List.cons.inj (h.newline_piece List.mem_cons_self).2.1).2
      have hscan : s.scan = s.emit .terminator (Text.size gap) 1 r := by
        rw [scan, hsplit]
        rfl
      have hscan' : s'.scan = s'.emit .terminator (Text.size (layout ++ gap)) 1 rest := by
        rw [scan, hsplit']
        rfl
      rw [hscan, hscan']
      exact hs.emit _ gap 1 r rest
    · have hread : (Lexeme.read c (w ++ r)).text = c :: w := read_text hsplit hc hr
      have hread' := Lexeme.read_of_lead hread hlead
      rw [scan_lexeme hsplit hc hread, scan_lexeme hsplit' hc (hread'.symm ▸ hread), hread']
      cases (Lexeme.read c (w ++ r)).kind with
      | ok kind => exact hs.emit kind gap _ r rest
      | error p =>
        refine ⟨?_, rfl, hs.skip gap _ r rest⟩
        have hoffset := hs.offset
        have hstart : s'.offset + Text.size (layout ++ gap) = s.offset + Text.size gap + k := by
          rw [Text.size_append]
          omega
        rw [hstart]
        rfl

theorem Scanned.rest_of_empty (h : s.Scanned gap piece) (hp : piece = []) : s.scan.2.rest = [] :=
  h.covers.elim (fun hcov => absurd hp hcov.nonempty) fun hend => hend.2.1

theorem scan_moved {k : Nat} {layout : Text} (hs : Moved k layout s s')
    (hrest : s'.rest = layout ++ s.rest) (hskip : Skipped s.rest layout)
    (hline : s.endsStatement → '\n' ∉ layout) :
    s'.scan.1 = shiftAnswer k s.scan.1 ∧ s'.scan.2.rest = s.scan.2.rest ∧
      Moved k [] s.scan.2 s'.scan.2 := by
  obtain ⟨gap, piece, h⟩ := s.exists_scanned
  rw [h.rest] at hrest hskip
  exact h.moved hs hrest hskip hline h.rest_of_empty fun _ hc => hc

/-- The answers to a text are found again behind layout, where the scanner has the same past. -/
theorem answers_moved {k : Nat} {layout : Text} (hs : Moved k layout s s')
    (hrest : s'.rest = layout ++ s.rest) (hskip : Skipped s.rest layout)
    (hline : s.endsStatement → '\n' ∉ layout) : s'.answers = s.answers.map (shiftAnswer k) := by
  obtain ⟨hanswer, hrest', hs'⟩ := scan_moved hs hrest hskip hline
  fun_induction answers s generalizing s' layout with
  | case1 s t s₁ hscan ht =>
    rw [hscan] at hanswer
    exact answers_of_eof hanswer ht
  | case2 s t s₁ hscan ht ih =>
    rw [hscan] at hanswer hrest' hs'
    obtain ⟨hanswer₁, hrest₁, hs₁⟩ := scan_moved hs' hrest' .nil (by simp)
    rw [answers_of_token hanswer ht, ih hs' hrest' .nil (by simp) hanswer₁ hrest₁ hs₁]
    rfl
  | case3 s e s₁ hscan ih =>
    rw [hscan] at hanswer hrest' hs'
    obtain ⟨hanswer₁, hrest₁, hs₁⟩ := scan_moved hs' hrest' .nil (by simp)
    rw [answers_of_error hanswer, ih hs' hrest' .nil (by simp) hanswer₁ hrest₁ hs₁]
    rfl

section Scans
variable {u : Scanner} {ts us : List Token}

theorem scans_of_answers (h : s.answers = (ts ++ us).map .ok) (hts : ∀ t ∈ ts, 0 < t.span.len) :
    ∃ u, Scans s ts u ∧ u.answers = us.map .ok := by
  induction ts generalizing s with
  | nil => exact ⟨s, .nil, h⟩
  | cons t ts ih =>
    obtain ⟨hlen, hts⟩ := List.forall_mem_cons.1 hts
    obtain ⟨_, _, ⟨⟩, hscan, hanswers⟩ := answers_cases h
    obtain ⟨gap, piece, hpiece⟩ := s.exists_scanned
    have hne := hpiece.kind_ne_eof hscan (hpiece.piece_ne_nil hscan hlen)
    have hrest := hanswers.resolve_left fun hend => hne hend.1
    obtain ⟨u, hscans, hus⟩ := ih hrest.2 hts
    exact ⟨u, .cons hscan hlen hscans, hus⟩

theorem Scans.answers_eq (h : Scans s ts u) : s.answers = ts.map .ok ++ u.answers := by
  induction h with
  | nil => rfl
  | @cons s u t ts hscan hlen _ ih =>
    obtain ⟨gap, piece, hpiece⟩ := s.exists_scanned
    rw [answers_of_token hscan (hpiece.kind_ne_eof hscan (hpiece.piece_ne_nil hscan hlen)), ih]
    rfl

theorem Scans.rest (h : Scans s ts u) : ∃ read, s.rest = read ++ u.rest := by
  induction h with
  | nil => exact ⟨[], rfl⟩
  | @cons s u t ts _ _ _ ih =>
    obtain ⟨gap, piece, hpiece⟩ := s.exists_scanned
    obtain ⟨read, hread⟩ := ih
    refine ⟨gap ++ (piece ++ read), ?_⟩
    rw [hpiece.rest, hread]
    simp only [List.append_assoc]

/-- Tokens are scanned again where another text follows them that carries on no more than the first. -/
theorem Scans.replay (h : Scans s ts u) (hs : Moved 0 [] s s') {read rest : Text}
    (hread : s.rest = read ++ u.rest) (hrest : s'.rest = read ++ rest)
    (hlead : ∀ c ∈ Text.lead rest, c ∈ Text.lead u.rest) :
    ∃ u', Scans s' ts u' ∧ Moved 0 [] u u' ∧ u'.rest = rest := by
  induction h generalizing s' read with
  | nil =>
    obtain rfl : read = [] := List.self_eq_append_left.1 hread
    exact ⟨s', .nil, hs, hrest⟩
  | @cons s u t ts hscan hlen hscans ih =>
    obtain ⟨gap, piece, hpiece⟩ := s.exists_scanned
    obtain ⟨later, hlater⟩ := hscans.rest
    obtain rfl : read = gap ++ (piece ++ later) := by
      rw [hpiece.rest, hlater] at hread
      apply List.append_cancel_right
      rw [← hread]
      simp only [List.append_assoc]
    rw [List.append_assoc, List.append_assoc] at hrest
    have hlead' : ∀ c ∈ Text.lead (later ++ rest), c ∈ Text.lead s.scan.2.rest := by
      rw [hlater]
      exact Text.lead_append later hlead
    obtain ⟨hanswer, hrest', hs'⟩ := hpiece.moved hs hrest .nil (by simp)
      (fun hp => absurd hp (hpiece.piece_ne_nil hscan hlen)) hlead'
    rw [hscan, shiftAnswer_zero] at hanswer
    obtain ⟨u', hscans', hu', hrestu⟩ := ih hs' hlater hrest' hlead
    exact ⟨u', .cons hanswer hlen hscans', hu', hrestu⟩

/-- Before a newline a text is read as it is where nothing follows, as long as a piece is left of it. -/
theorem answers_followed (h : s.answers = (ts ++ us).map .ok) (hts : ∀ t ∈ ts, 0 < t.span.len)
    {tail : Text} (hs : Moved 0 [] s s') (hrest : s'.rest = s.rest ++ '\n' :: tail) :
    ∃ u u', Scans s ts u ∧ Moved 0 [] u u' ∧ u'.rest = u.rest ++ '\n' :: tail ∧
      u.answers = us.map .ok ∧ s'.answers = ts.map .ok ++ u'.answers := by
  obtain ⟨u, hscans, hus⟩ := scans_of_answers h hts
  obtain ⟨read, hread⟩ := hscans.rest
  rw [hread, List.append_assoc] at hrest
  have hlead : ∀ c ∈ Text.lead (u.rest ++ '\n' :: tail), c ∈ Text.lead (u.rest ++ []) :=
    Text.lead_append u.rest fun c hc => hc
  rw [List.append_nil] at hlead
  obtain ⟨u', hscans', hu, hrest'⟩ := hscans.replay hs hread hrest hlead
  exact ⟨u, u', hscans, hu, hrest', hus, hscans'.answers_eq⟩

end Scans
end Scanner
end Frontend
