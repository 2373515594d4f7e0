import Frontend.Proofs.Grammar.Balanced
import Frontend.Proofs.Session.Bounded
import Frontend.Proofs.Session.Lazy

/-! # Texts that are programs

What reading a text comes to in a pool that is never exhausted is what the plan comes to over its tokens,
up to the end of the text or to the first malformed piece. A text that is accepted has tokens of which
the grammar makes functions.
-/
namespace Frontend

namespace Parser

/-- Over a row that is shorter, the bound on the loops does not show. -/
theorem program_within_eq {source : Text} {n m : Nat} {ts : List Token} (hts : Fits source n ts)
    (hnm : n ≤ m) : (program source n).within ts = (program source m).within ts := by
  rcases (program_continues source hnm (Nat.le_refl _)).within ts with ⟨us, hs⟩ | heq
  · cases program_decides source n hts with
    | read hw | hungry hw | refused hw => cases hs.symm.trans hw
    | @blamed vs us t e hsplit _ hw => cases hs.symm.trans ((congrArg _ hsplit).trans (hw us))
  · exact heq

end Parser

def Text.stop (source : Text) : Token := ⟨.eof, .point (Text.size source)⟩

theorem written_stop (source : Text) : Written source (Text.stop source) := by
  rintro suffix ⟨⟩

namespace Session
open Frontend.Parser (Fits)
variable {source : Text} {ts : List Token} {sys : Pool.System} {pool : Pool} {journal : Log.Journal}

theorem parseText_served (h : Served (parseText sys source pool journal).1) :
    (parseText sys source pool journal).1 = unbounded source := by
  rw [(parseText_eq sys source pool journal).1] at h ⊢
  rw [served_of_answered h]
  rfl

theorem unbounded_of_parseText {p : Program} (h : (parseText sys source pool journal).1 = .ok p) :
    unbounded source = .ok p := by
  rw [← h, parseText_served (served_of_ok h)]

theorem fits_stopped (hts : ∀ t ∈ ts, Written source t) :
    Fits source (ts.length + 2) (ts ++ [Text.stop source]) := by
  refine ⟨by simp, fun t ht => ?_⟩
  rcases List.mem_append.1 ht with ht | ht
  · exact hts t ht
  · rw [List.mem_singleton.1 ht]
    exact written_stop source

theorem unbounded_of_tokens (hlen : ts.length ≤ source.length + 1)
    (hts : ∀ t ∈ ts, Written source t)
    (hnth : ∀ n, (Lexer.ofText source).nth n = .ok (ts.getD n (Text.stop source))) {n : Nat}
    (hn : ts.length + 1 < n) : ∃ us,
      (Parser.program source n).within (ts ++ [Text.stop source]) = some (unbounded source, us) := by
  have hrow : (TokenRow.closed (ts ++ [Text.stop source])).toList = ts ++ [Text.stop source] :=
    TokenRow.toList_closed rfl
  have hfits := fits_stopped hts
  obtain ⟨x, us, hw, -⟩ := Parser.program_answers hfits fun h => h (Text.stop source) (by simp) rfl
  have hbuffer : (drafted source (TokenBuffer.ofTokens (ts ++ [Text.stop source]))).1 = x := by
    refine @drafted_of_within _ _ _ us ?_
    change (Parser.program source ((TokenRow.closed (ts ++ [Text.stop source])).toList.length + 1)).within
      (TokenRow.closed (ts ++ [Text.stop source])).toList = _
    rw [hrow, List.length_append]
    exact hw
  rw [drafted_of_lex hlen rfl hts hnth] at hbuffer
  refine ⟨us, ?_⟩
  rw [← Parser.program_within_eq hfits hn, hw, ← hbuffer]
  rfl

theorem unbounded_of_malformed (hlen : ts.length ≤ source.length) (hts : ∀ t ∈ ts, Written source t)
    {e : SourceError} (hl : (Lexer.ofText source).Begins (ts.map .ok ++ [.error e])) {n : Nat}
    (hn : ts.length < n) :
    (Parser.program source n).within ts = none ∧ unbounded source = .error (.source e) ∨
      ∃ us, (Parser.program source n).within ts = some (unbounded source, us) := by
  have hsupply := Lexer.draft_supplies e
  have hfits : Fits source (ts.length + 1) ts := ⟨Nat.lt_succ_self _, hts⟩
  have hbound : (Parser.program source n).within ts =
      (Parser.program source (TokenStream.remaining (Lexer.ofText source) + 1)).within ts := by
    rw [← Parser.program_within_eq hfits hn, Parser.program_within_eq hfits]
    change ts.length + 1 ≤ source.length + 4
    omega
  rw [hbound]
  cases hw : (Parser.program source (TokenStream.remaining (Lexer.ofText source) + 1)).within ts with
  | none => exact .inl ⟨rfl, Parser.run_of_hungry hsupply (fun s hs => hs.draft_error s.2) hl hw⟩
  | some x => exact .inr ⟨x.2, congrArg some (Prod.ext (Parser.run_of_within hsupply hl hw).1.symm rfl)⟩

/-- What reading a text comes to, by its tokens. -/
theorem unbounded_cases (source : Text) : ∃ ts : List Token, ts.length ≤ source.length + 1 ∧
    (∀ t ∈ ts, t.kind ≠ .eof ∧ Written source t) ∧
    ((Lossless source (ts.map .ok) ∧
        (Scanner.ofText source).answers = (ts ++ [Text.stop source]).map .ok ∧
        ∀ n, ts.length + 1 < n → ∃ us, (Parser.program source n).within (ts ++ [Text.stop source]) =
          some (unbounded source, us)) ∨
      ∃ e bs, (Scanner.ofText source).answers = ts.map .ok ++ .error e :: bs ∧
        ∀ n, ts.length < n → (Parser.program source n).within ts = none ∧
          unbounded source = .error (.source e) ∨
          ∃ us, (Parser.program source n).within ts = some (unbounded source, us)) := by
  obtain ⟨as, hlen, hlossless, hnth, hlex⟩ := lex_cases source
  have hanswers : (Scanner.ofText source).answers = as ++ [.ok (Text.stop source)] :=
    Scanner.answers_eq rfl hlossless.noEof hnth
  have hmem {ts : List Token} (hsub : ts.map .ok ⊆ as) :
      ∀ t ∈ ts, t.kind ≠ .eof ∧ Written source t := fun t ht =>
    ⟨hlossless.noEof t (hsub (List.mem_map_of_mem ht)), hlossless.written (hsub (List.mem_map_of_mem ht))⟩
  rcases hlex with ⟨ts, rfl, -⟩ | ⟨ts, e, bs, rfl, -⟩
  · rw [List.length_map] at hlen
    refine ⟨ts, hlen, hmem (List.Subset.refl _), .inl ⟨hlossless, by rw [hanswers]; simp, ?_⟩⟩
    intro n hn
    refine unbounded_of_tokens hlen (fun t ht => (hmem (List.Subset.refl _) t ht).2) (fun n => ?_) hn
    rw [hnth, getD_tokens]
    rfl
  · have hts := hmem (List.subset_append_left (ts.map .ok) (.error e :: bs))
    simp only [List.length_append, List.length_map, List.length_cons] at hlen
    refine ⟨ts, by omega, hts, .inr ⟨e, bs ++ [.ok (Text.stop source)], by rw [hanswers]; simp, ?_⟩⟩
    intro n hn
    exact unbounded_of_malformed (by omega) (fun t ht => (hts t ht).2) (Lexer.begins_malformed rfl hnth) hn

theorem exists_of_isOk {ε α : Type} {x : Except ε α} (h : x.isOk) : ∃ a, x = .ok a := by
  cases x with
  | ok a => exact ⟨a, rfl⟩
  | error e => cases h

theorem tokens_inj {ts us : List Token}
    (h : (ts.map .ok : List (Except SourceError Token)) = us.map .ok) : ts = us :=
  List.map_inj_right (fun _ _ => Except.ok.inj) |>.1 h

theorem tokens_ne_malformed {ts us : List Token} {e : SourceError}
    {bs : List (Except SourceError Token)} : ts.map .ok ≠ us.map .ok ++ .error e :: bs := by
  intro h
  have hmem : .error e ∈ (ts.map .ok : List (Except SourceError Token)) := by rw [h]; simp
  obtain ⟨t, -, ht⟩ := List.mem_map.1 hmem
  cases ht

/-- The tokens of a text that is accepted. -/
structure Accepted (source : Text) (ts : List Token) (p : Program) : Prop where
  lossless : Lossless source (ts.map .ok)
  answers : (Scanner.ofText source).answers = (ts ++ [Text.stop source]).map .ok
  functions : Grammar.Many (Grammar.Function source) ts p.functions
  program : p = .ofFunctions source p.functions
  within : ∀ n, ts.length + 1 < n → (Parser.program source n).within (ts ++ [Text.stop source]) =
    some (.ok p, [Text.stop source])

namespace Accepted
variable {p : Program}

/-- A text that is accepted ends with a brace, and so no end of a statement is read off its end. -/
theorem token_pos (h : Accepted source ts p) : ∀ t ∈ ts, 0 < t.span.len := by
  rcases h.functions.ends with rfl | ⟨us, last, rfl, hlast⟩
  · simp
  · intro t ht
    refine Nat.pos_of_ne_zero fun hzero => ?_
    have heq := Except.ok.inj (h.lossless.eq_of_empty (List.mem_map_of_mem ht) hzero)
    rcases List.mem_append.1 ht with hus | hl
    · have hpos := h.lossless.nonempty (.ok t)
        (by rw [← List.map_dropLast, List.dropLast_concat]; exact List.mem_map_of_mem hus)
      exact absurd hzero (Nat.ne_of_gt hpos)
    · obtain rfl := List.mem_singleton.1 hl
      rw [heq] at hlast
      cases hlast

theorem kind_ne_eof (h : Accepted source ts p) : ∀ t ∈ ts, t.kind ≠ .eof := fun t ht =>
  h.lossless.noEof t (List.mem_map_of_mem ht)

end Accepted

theorem eq_of_stopped {vs us : List Token} {t last : Token} (hts : ∀ t ∈ ts, t.kind ≠ .eof)
    (h : ts ++ [last] = vs ++ t :: us) (ht : t.kind = .eof) : vs = ts ∧ t :: us = [last] := by
  rcases List.eq_nil_or_concat us with rfl | ⟨ws, w, rfl⟩
  · exact (List.append_inj' h rfl).imp Eq.symm Eq.symm
  · rw [List.concat_eq_append, ← List.cons_append, ← List.append_assoc] at h
    have hinit : ts = vs ++ t :: ws := (List.append_inj' h rfl).1
    exact absurd ht (hts t (by simp [hinit]))

theorem accepted_of_unbounded {p : Program} (h : unbounded source = .ok p) :
    ∃ ts, Accepted source ts p := by
  obtain ⟨ts, -, hts, hcase⟩ := unbounded_cases source
  have hinner : ∀ t ∈ ts, t.kind ≠ .eof := fun t ht => (hts t ht).1
  have hwritten : ∀ t ∈ ts, Written source t := fun t ht => (hts t ht).2
  rcases hcase with ⟨hlossless, hans, hw⟩ | ⟨e, bs, -, hw⟩
  · have hread (n : Nat) (hn : ts.length + 1 < n) :
        Grammar.Functions source ts p ∧ (Parser.program source n).within (ts ++ [Text.stop source]) =
          some (.ok p, [Text.stop source]) := by
      obtain ⟨us, hw⟩ := hw n hn
      rw [h] at hw
      cases Parser.program_decides source n ((fits_stopped hwritten).mono hn) with
      | @read vs us' q hw' hsplit hD =>
        obtain ⟨⟩ := hw.symm.trans hw'
        obtain ⟨t, us, rfl, ht⟩ := Parser.program_stops hw
        obtain ⟨rfl, hus⟩ := eq_of_stopped hinner hsplit ht
        exact ⟨hD, hus ▸ hw⟩
      | hungry hw' | refused hw' => cases hw.symm.trans hw'
      | @blamed vs us' t e hsplit _ hw' => cases hw.symm.trans ((congrArg _ hsplit).trans (hw' us'))
    obtain ⟨⟨fs, hfs, rfl⟩, -⟩ := hread _ (Nat.lt_succ_self _)
    exact ⟨ts, hlossless, hans, hfs, rfl, fun n hn => (hread n hn).2⟩
  · -- The text would have to end among tokens none of which is the end.
    rcases hw _ (Nat.lt_succ_self _) with ⟨-, he⟩ | ⟨us, hw⟩
    · cases h.symm.trans he
    · rw [h] at hw
      obtain ⟨t, us, rfl, ht⟩ := Parser.program_stops hw
      exact absurd ht (hinner t ((Parser.within_suffix hw).subset (by simp)))

theorem unbounded_of_functions {fs : List Function} {last : Token}
    (hanswers : (Scanner.ofText source).answers = (ts ++ [last]).map .ok)
    (hspelled : ∀ t ∈ ts, Spelled source t) (hfs : Grammar.Many (Grammar.Function source) ts fs)
    (hserved : Served (unbounded source)) : unbounded source = .ok (.ofFunctions source fs) := by
  obtain ⟨us, -, hus, ⟨-, hans, hw⟩ | ⟨e, bs, hans, -⟩⟩ := unbounded_cases source
  · obtain rfl : us = ts := (List.append_inj' (tokens_inj (hans.symm.trans hanswers)) rfl).1
    obtain ⟨vs, hw⟩ := hw _ (Nat.lt_succ_self _)
    have hrow := @TokenRow.toList_closed us (Text.stop source) rfl
    rw [← hrow] at hw
    have hread := Parser.read_of_within hw
    have hprogram : Grammar.Program source (TokenRow.closed (us ++ [Text.stop source])).toList
        (.ofFunctions source fs) := by
      rw [hrow]
      exact .intro hfs rfl
    have hregular : (TokenRow.closed (us ++ [Text.stop source])).Regular source :=
      ⟨us, _, hrow, rfl, fun t ht => ⟨(hus t ht).1, hspelled t ht⟩⟩
    rw [← hread]
    refine (Parser.read_program_iff hregular ?_ ?_ _).2 hprogram
    · rw [hrow, List.length_append]
      exact Nat.lt_succ_self _
    · rw [hread]
      exact hserved
  · exact absurd (hanswers.symm.trans hans) tokens_ne_malformed

end Session
end Frontend
