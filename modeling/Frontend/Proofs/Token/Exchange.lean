import Frontend.Proofs.Grammar.Balanced
import Frontend.Proofs.Token.Rescan

/-! # Ends of statements written the other way

A statement is ended by a newline or by a semicolon. Where a statement may end, a scanner answers the
same token to both. So a text is read as before when newlines and semicolons that end statements are
exchanged, as long as no newline is taken away that a comment needs.
-/
namespace Frontend

def otherEnd : Char → Char
  | ';' => '\n'
  | '\n' => ';'
  | c => c

namespace Text

/-- The text, which starts at `offset`, with the ends of statements at chosen offsets exchanged. -/
def exchange (chosen : Nat → Bool) : Nat → Text → Text
  | _, [] => []
  | offset, c :: t =>
    (if chosen offset then otherEnd c else c) :: exchange chosen (offset + c.utf8Size) t

def Uncommented (t : Text) : Prop := ∀ u w, t = u ++ '/' :: '/' :: w → '\n' ∈ w

/-- At the offset stands a semicolon, or a newline with no comment before it on its line. -/
def EndAt (source : Text) (offset : Nat) : Prop :=
  ∃ before c after, source = before ++ c :: after ∧ offset = size before ∧
    (c = ';' ∨ c = '\n' ∧ Uncommented before)

example : exchange (· == 4) 0 "é; ;\n" = "é; \n\n" := rfl

theorem utf8Size_otherEnd (c : Char) : (otherEnd c).utf8Size = c.utf8Size := by
  unfold otherEnd
  split <;> rfl

theorem otherEnd_of_plain {c : Char} (h : c ≠ ';' ∧ c ≠ '\n') : otherEnd c = c := by
  unfold otherEnd
  split
  · exact absurd rfl h.1
  · exact absurd rfl h.2
  · rfl

section Exchange
variable {chosen : Nat → Bool} {offset : Nat}

theorem exchange_cons (c : Char) (t : Text) : exchange chosen offset (c :: t) =
    (if chosen offset then otherEnd c else c) :: exchange chosen (offset + c.utf8Size) t := rfl

theorem utf8Size_exchanged (offset : Nat) (c : Char) :
    (if chosen offset then otherEnd c else c).utf8Size = c.utf8Size := by
  split
  · exact utf8Size_otherEnd c
  · rfl

theorem exchange_append (t u : Text) : exchange chosen offset (t ++ u) =
    exchange chosen offset t ++ exchange chosen (offset + size t) u := by
  induction t generalizing offset with
  | nil => rfl
  | cons c t ih =>
    rw [List.cons_append, exchange_cons, ih, exchange_cons, size_cons, Nat.add_assoc]
    rfl

theorem exchange_of_unchosen {t : Text}
    (h : ∀ n, offset ≤ n → n < offset + size t → chosen n = false) : exchange chosen offset t = t := by
  induction t generalizing offset with
  | nil => rfl
  | cons c t ih =>
    have hc := c.utf8Size_pos
    rw [size_cons] at h
    rw [exchange_cons, h offset (Nat.le_refl _) (by omega), ih fun n hle hlt => h n (by omega) (by omega)]
    rfl

theorem exchange_of_plain {t : Text} (h : ∀ c ∈ t, c ≠ ';' ∧ c ≠ '\n') : exchange chosen offset t = t := by
  induction t generalizing offset with
  | nil => rfl
  | cons c t ih =>
    obtain ⟨hc, ht⟩ := List.forall_mem_cons.1 h
    rw [exchange_cons, otherEnd_of_plain hc, ite_self, ih ht]

theorem lead_exchange (t : Text) : lead (exchange chosen offset t) = lead t := by
  cases t with
  | nil => rfl
  | cons c t =>
    rw [exchange_cons]
    by_cases hc : c = ';' ∨ c = '\n'
    · rcases hc with rfl | rfl <;> cases chosen offset <;> rfl
    · rw [otherEnd_of_plain (not_or.1 hc), ite_self]
      rfl

theorem dropBytes?_exchange (n : Nat) (t : Text) : dropBytes? n (exchange chosen offset t) =
    (dropBytes? n t).map (exchange chosen (offset + n)) := by
  fun_induction dropBytes? n t generalizing offset with
  | case1 t =>
    rw [dropBytes?_zero]
    rfl
  | case2 => rfl
  | case3 n c t hle ih =>
    rw [exchange_cons, dropBytes?, utf8Size_exchanged, if_pos hle, ih]
    congr 2
    omega
  | case4 n c t hle =>
    rw [exchange_cons, dropBytes?, utf8Size_exchanged, if_neg hle]
    rfl

theorem takeBytes?_exchange (n : Nat) (t : Text) : takeBytes? n (exchange chosen offset t) =
    (takeBytes? n t).map (exchange chosen offset) := by
  fun_induction takeBytes? n t generalizing offset with
  | case1 t =>
    rw [takeBytes?_zero]
    rfl
  | case2 => rfl
  | case3 n c t hle ih =>
    rw [exchange_cons, takeBytes?, utf8Size_exchanged, if_pos hle, ih, Option.map_map, Option.map_map]
    rfl
  | case4 n c t hle =>
    rw [exchange_cons, takeBytes?, utf8Size_exchanged, if_neg hle]
    rfl

end Exchange
end Text

theorem Span.text_exchange (chosen : Nat → Bool) (source : Text) (s : Span) :
    s.text (Text.exchange chosen 0 source) = Text.exchange chosen s.start (s.text source) := by
  rw [text, text, Text.slice?, Text.slice?, Text.dropBytes?_exchange]
  cases Text.dropBytes? s.start source with
  | none => rfl
  | some t =>
    rw [Option.map_some, Option.bind_some, Option.bind_some, Text.takeBytes?_exchange, Nat.zero_add]
    cases Text.takeBytes? s.len t <;> rfl

theorem Text.append_inj_of_size {s t s' t' : Text} (h : s ++ t = s' ++ t') (hs : size s = size s') :
    s = s' ∧ t = t' := by
  have htake := takeBytes?_size_append s t
  rw [h, hs, takeBytes?_size_append] at htake
  obtain rfl := Option.some.inj htake
  exact ⟨rfl, List.append_cancel_left h⟩

namespace Scanner
variable {s s' : Scanner} {gap piece : Text} {c : Char} {t t' : Text}

theorem scan_end (hc : c = ';' ∨ c = '\n')
    (h : splitLayout s.endsStatement false s.rest = (gap, c :: t)) :
    s.scan = s.emit .terminator (Text.size gap) 1 t := by
  rcases hc with rfl | rfl <;> rw [scan, h] <;> rfl

theorem Scanned.end_piece (h : s.Scanned gap piece) (hc : c = ';' ∨ c = '\n')
    (hpiece : piece ++ s.scan.2.rest = c :: t) :
    s.scan = s.emit .terminator (Text.size gap) 1 t ∧ s.scan.2.rest = t ∧ piece = [c] := by
  have hscan : s.scan = s.emit .terminator (Text.size gap) 1 t :=
    scan_end hc (by rw [h.splitLayout_eq, hpiece])
  have hrest : s.scan.2.rest = t := by
    rw [hscan]
    rfl
  rw [hrest] at hpiece
  exact ⟨hscan, hrest, List.append_cancel_right (show piece ++ t = [c] ++ t from hpiece)⟩

theorem Scanned.end_exchanged (h : s.Scanned gap piece) (hs : Moved 0 [] s s')
    (hends : s.endsStatement = true) (hc : c = ';' ∨ c = '\n' ∧ ¬ ['/', '/'] <:+: gap)
    (hpiece : piece ++ s.scan.2.rest = c :: t) (hrest : s'.rest = gap ++ otherEnd c :: t') :
    s'.scan.1 = s.scan.1 ∧ s'.scan.2.rest = t' ∧ Moved 0 [] s.scan.2 s'.scan.2 := by
  have hline : '\n' ∉ gap := fun hn => by
    rw [h.newline_gap hn] at hends
    cases hends
  have hskip : Skipped (otherEnd c :: t') gap := by
    rcases hc with rfl | ⟨rfl, hgap⟩
    · exact h.skipped.congr fun d hd => .inr (Option.some.inj hd).symm
    · exact .of_blanks (h.skipped.blanks hgap)
  have hend : splitLayout true false (otherEnd c :: t') = ([], otherEnd c :: t') := by
    rcases hc with rfl | ⟨rfl, -⟩ <;> rfl
  have hsplit : splitLayout s'.endsStatement false s'.rest = (gap, otherEnd c :: t') := by
    rw [hs.endsStatement, hends, hrest, splitLayout_skipped hskip fun _ => hline, hend]
    simp
  have hother : otherEnd c = ';' ∨ otherEnd c = '\n' := by
    rcases hc with rfl | ⟨rfl, -⟩
    · exact .inr rfl
    · exact .inl rfl
  rw [(h.end_piece (hc.imp_right And.left) hpiece).1, scan_end hother hsplit]
  obtain ⟨hanswer, hrest, hmoved⟩ := hs.emit .terminator gap 1 t t'
  rw [shiftAnswer_zero] at hanswer
  exact ⟨hanswer, hrest, hmoved⟩

theorem Scanned.exchanged {chosen : Nat → Bool} (h : s.Scanned gap piece) (hne : piece ≠ [])
    (hs : Moved 0 [] s s') (hrest : s'.rest = Text.exchange chosen s.offset s.rest)
    (hunchosen : ∀ n, s.offset ≤ n → n < s.scan.2.offset → n ≠ s.offset + Text.size gap →
      chosen n = false)
    (hend : chosen (s.offset + Text.size gap) → s.endsStatement = true ∧
      ∃ c t, piece ++ s.scan.2.rest = c :: t ∧ (c = ';' ∨ c = '\n' ∧ ¬ ['/', '/'] <:+: gap)) :
    s'.scan.1 = s.scan.1 ∧ s'.scan.2.rest = Text.exchange chosen s.scan.2.offset s.scan.2.rest ∧
      Moved 0 [] s.scan.2 s'.scan.2 := by
  have hoffset := h.offset
  have hgap : Text.exchange chosen s.offset gap = gap :=
    Text.exchange_of_unchosen fun n hle hlt => hunchosen n hle (by omega) (by omega)
  rw [h.rest, Text.exchange_append, hgap] at hrest
  cases hchosen : chosen (s.offset + Text.size gap) with
  | true =>
    obtain ⟨hends, c, t, hpiece, hc⟩ := hend hchosen
    obtain ⟨-, ht, rfl⟩ := h.end_piece (hc.imp_right And.left) hpiece
    have hsize : Text.size [c] = c.utf8Size := Nat.add_zero _
    rw [hpiece, Text.exchange_cons, hchosen, if_pos rfl] at hrest
    rw [hoffset, hsize, ht]
    exact h.end_exchanged hs hends hc hpiece hrest
  | false =>
    have hpiece : Text.exchange chosen (s.offset + Text.size gap) piece = piece := by
      refine Text.exchange_of_unchosen fun n hle hlt => ?_
      by_cases hn : n = s.offset + Text.size gap
      · rw [hn, hchosen]
      · exact hunchosen n (by omega) (by omega) hn
    rw [Text.exchange_append, hpiece, ← hoffset] at hrest
    have hlead : Text.lead (s.scan.2.rest.exchange chosen s.scan.2.offset) = Text.lead s.scan.2.rest :=
      Text.lead_exchange _
    obtain ⟨hanswer, hmoved⟩ := h.moved hs hrest .nil (by simp) (fun hp => absurd hp hne)
      fun c hc => hlead ▸ hc
    rw [shiftAnswer_zero] at hanswer
    exact ⟨hanswer, hmoved⟩

/-- Behind a place where a statement may end, an end of it is of one kind or the other. -/
theorem Scanned.end_chosen {source : Text} {ks : List Kind} {tok : Token} (h : s.Scanned gap piece)
    (hscan : s.scan.1 = .ok tok) (ham : s.Amid source ks)
    (hends : tok.kind = .terminator → Grammar.IsNewline source tok ∨ EndsStatement ks)
    (hend : source.EndAt (s.offset + Text.size gap)) : s.endsStatement = true ∧
      ∃ c t, piece ++ s.scan.2.rest = c :: t ∧ (c = ';' ∨ c = '\n' ∧ ¬ ['/', '/'] <:+: gap) := by
  obtain ⟨before, hsource, hbefore⟩ := ham.whole
  obtain ⟨before', c, t, hsource', hsize, hc⟩ := hend
  rw [← hbefore, ← Text.size_append] at hsize
  rw [h.rest, ← List.append_assoc] at hsource
  obtain ⟨rfl, hpiece⟩ := Text.append_inj_of_size (hsource.symm.trans hsource') hsize
  obtain ⟨hemit, hrest, rfl⟩ := h.end_piece (hc.imp_right And.left) hpiece
  rcases hc with rfl | ⟨rfl, huncommented⟩
  · have hkind : tok.kind = .terminator := by
      rw [hemit] at hscan
      rw [← Except.ok.inj hscan]
    have hks := (hends hkind).resolve_left fun hn => hn.2 (ham.scan h hscan).1
    exact ⟨ham.recalls.endsStatement_iff.2 hks, ';', t, hpiece, .inl rfl⟩
  · obtain ⟨hyes, -, -⟩ := h.newline_piece (List.mem_singleton_self _)
    refine ⟨hyes, '\n', t, hpiece, .inr ⟨rfl, ?_⟩⟩
    rintro ⟨u, w, hgap⟩
    have hline : '\n' ∈ w := huncommented (before ++ u) w (by rw [← hgap]; simp)
    have hno := h.newline_gap (by rw [← hgap]; exact List.mem_append_right _ hline)
    cases hyes.symm.trans hno

/-- The answers stay the same when ends of statements are exchanged that start tokens ahead. The two
scanners go in step: they remember the same past, and what is left for one is what is left for the other,
exchanged. -/
theorem answers_exchange {chosen : Nat → Bool} {source : Text} {ks : List Kind} {ts : List Token}
    {stop : Token} (h : s.answers = (ts ++ [stop]).map .ok) (hlen : ∀ t ∈ ts, 0 < t.span.len)
    (ham : s.Amid source ks) (hends : Grammar.Terminates source ks ts)
    (hstarts : ∀ n, chosen n → s.offset ≤ n → ∃ t ∈ ts, t.span.start = n)
    (hchosen : ∀ n, chosen n → source.EndAt n) (hs : Moved 0 [] s s')
    (hrest : s'.rest = Text.exchange chosen s.offset s.rest) : s'.answers = s.answers := by
  induction ts generalizing s s' ks with
  | nil =>
    have hnone : ∀ n, s.offset ≤ n → n < s.offset + Text.size s.rest → chosen n = false := by
      refine fun n hle _ => Bool.eq_false_iff.2 fun hn => ?_
      obtain ⟨t, ht, -⟩ := hstarts n hn hle
      cases ht
    rw [Text.exchange_of_unchosen hnone] at hrest
    rw [answers_moved hs hrest .nil (by simp), funext shiftAnswer_zero, List.map_id']
  | cons t ts ih =>
    obtain ⟨hpos, hlen⟩ := List.forall_mem_cons.1 hlen
    obtain ⟨_, _, ⟨⟩, hscan, hanswers⟩ := answers_cases h
    obtain ⟨gap, piece, hpiece⟩ := s.exists_scanned
    have hspan := hpiece.span_eq hscan
    have hne := hpiece.piece_ne_nil hscan hpos
    obtain ⟨hkind, hanswers⟩ := hanswers.resolve_left fun hnil => by simp at hnil
    have hoffset := hpiece.offset
    have hlater : ∀ u ∈ ts, s.scan.2.offset ≤ u.span.start := fun u hu =>
      le_start hanswers u (List.mem_append_left _ hu)
    have hstart : t.span.start = s.offset + Text.size gap := by rw [hspan]
    have hunchosen : ∀ n, s.offset ≤ n → n < s.scan.2.offset → n ≠ s.offset + Text.size gap →
        chosen n = false := by
      refine fun n hle hlt hn => Bool.eq_false_iff.2 fun hc => ?_
      obtain ⟨u, hu, rfl⟩ := hstarts n hc hle
      rcases List.mem_cons.1 hu with rfl | hu
      · exact hn hstart
      · exact Nat.not_lt.2 (hlater u hu) hlt
    obtain ⟨hanswer, hrest', hs'⟩ := hpiece.exchanged hne hs hrest hunchosen fun hc =>
      hpiece.end_chosen hscan ham hends.1 (hchosen _ hc)
    rw [hscan] at hanswer
    rw [answers_of_token hanswer hkind, answers_of_token hscan hkind]
    have hstarts' : ∀ n, chosen n → s.scan.2.offset ≤ n → ∃ u ∈ ts, u.span.start = n := by
      intro n hc hle
      obtain ⟨u, hu, rfl⟩ := hstarts n hc (by omega)
      refine ⟨u, (List.mem_cons.1 hu).resolve_left ?_, rfl⟩
      rintro rfl
      rw [hspan] at hpos
      change 0 < Text.size piece at hpos
      omega
    exact congrArg _ (ih hanswers hlen (ham.scan hpiece hscan).2 hends.2 hstarts' hs' hrest')

end Scanner
end Frontend
