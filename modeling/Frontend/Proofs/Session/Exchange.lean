import Frontend.Proofs.Grammar.Transfer
import Frontend.Proofs.Token.Exchange

/-! # Newlines and semicolons are interchangeable

What stands last in a statement is a token after which a statement may end, with no parenthesis open. So
where the grammar has the end of a statement, a newline is read as one too, and the tokens of a text are
the same whichever of the two is written there.
-/
namespace Frontend

open Grammar (Many IsNewline LiteralsKept StatementStops)

theorem Grammar.Spells.plain {source : Text} {span : Span} {suffix : Suffix} {value : Nat}
    (h : Spells source span suffix value) : ∀ c ∈ span.text source, c ≠ ';' ∧ c ≠ '\n' := by
  obtain ⟨digits, -, hd, htext, -⟩ := h
  have hword : ∀ c ∈ span.text source, isWordChar c := by
    rw [htext]
    exact List.forall_mem_append.2
      ⟨fun c hc => isWordChar_of_isDigit (hd c hc), suffix.isWordChar_of_mem_text⟩
  refine fun c hc => ⟨?_, ?_⟩ <;> rintro rfl <;> cases hword _ hc

theorem literalsKept_exchange (chosen : Nat → Bool) (source : Text) :
    LiteralsKept source (source.exchange chosen 0) := by
  intro span suffix value h
  have hplain := h.plain
  obtain ⟨digits, hn, hd, htext, hvalue⟩ := h
  refine ⟨digits, hn, hd, ?_, hvalue⟩
  rw [Span.text_exchange, Text.exchange_of_plain hplain, htext]

namespace Session
variable {source : Text} {ts : List Token} {p : Program} {chosen : Nat → Bool}

/-- At the offset the source has a semicolon that is lexed as a terminator, or a newline that is and ends
a statement, with no comment before it on its line. -/
structure Exchangeable (source : Text) (fs : List Function) (offset : Nat) : Prop where
  token : ∃ row, lex source = .ok row ∧ ⟨.terminator, ⟨offset, 1⟩⟩ ∈ row
  written : ∃ before c after, source = before ++ c :: after ∧ offset = Text.size before ∧
    (c = ';' ∨ c = '\n' ∧ before.Uncommented ∧ StatementStops fs (offset + 1))

theorem Exchangeable.endAt {fs : List Function} {offset : Nat} (h : Exchangeable source fs offset) :
    source.EndAt offset := by
  obtain ⟨before, c, after, hsource, hoffset, hc⟩ := h.written
  exact ⟨before, c, after, hsource, hoffset, hc.imp_right fun hc => ⟨hc.1, hc.2.1⟩⟩

namespace Accepted

theorem lex_eq (h : Accepted source ts p) : lex source = .ok (ts ++ [Text.stop source]) := by
  rw [lex, h.answers, mapM_tokens]

theorem answers_exchange (h : Accepted source ts p)
    (hchosen : ∀ n, chosen n → Exchangeable source p.functions n) :
    (Scanner.ofText (source.exchange chosen 0)).answers = (Scanner.ofText source).answers := by
  have hends := (h.functions.orderly Grammar.Function.orderly).2 [] .nil
  refine Scanner.answers_exchange h.answers h.token_pos (Scanner.amid_initial source) hends
    (fun n hn _ => ?_) (fun n hn => (hchosen n hn).endAt) ⟨rfl, rfl, rfl⟩ rfl
  obtain ⟨row, hrow, hmem⟩ := (hchosen n hn).token
  obtain rfl := Except.ok.inj (h.lex_eq.symm.trans hrow)
  rcases List.mem_append.1 hmem with hmem | hmem
  · exact ⟨_, hmem, rfl⟩
  · cases List.mem_singleton.1 hmem

theorem isNewline_exchange (h : Accepted source ts p)
    (hchosen : ∀ n, chosen n → Exchangeable source p.functions n) {t : Token} (ht : t ∈ ts)
    (hnl : IsNewline source t) (hno : ¬ StatementStops p.functions t.span.stop) :
    IsNewline (source.exchange chosen 0) t := by
  have hmem : Except.ok t ∈ ts.map (Except.ok : Token → Except SourceError Token) :=
    List.mem_map_of_mem ht
  have htext : t.span.text source = ['\n'] :=
    (terminator_spelling (hnl.1 ▸ h.lossless.spelling t hmem (h.token_pos t ht))).resolve_left hnl.2
  obtain ⟨before, piece, after, hsource, hspan⟩ := h.lossless.within _ hmem
  have hspan : t.span = ⟨Text.size before, Text.size piece⟩ := hspan
  obtain rfl : piece = ['\n'] := by
    rw [hspan, hsource, Span.text_append] at htext
    exact htext
  have hkept : chosen t.span.start = false := by
    refine Bool.eq_false_iff.2 fun hc => ?_
    obtain ⟨before', c, after', hsource', hoffset, hc⟩ := (hchosen _ hc).written
    rw [hspan] at hoffset
    rw [List.append_assoc] at hsource
    obtain ⟨rfl, hrest⟩ := Text.append_inj_of_size (hsource.symm.trans hsource') hoffset
    obtain ⟨rfl, -⟩ := List.cons.inj hrest
    obtain ⟨-, -, hstops⟩ := hc.resolve_left (by decide)
    refine hno ?_
    rw [hspan] at hstops ⊢
    exact hstops
  refine ⟨hnl.1, ?_⟩
  rw [Span.text_exchange, htext, Text.exchange_cons, hkept]
  exact fun heq => absurd (List.cons.inj heq).1 (by decide)

theorem unbounded_exchange (h : Accepted source ts p)
    (hchosen : ∀ n, chosen n → Exchangeable source p.functions n)
    (hserved : Served (unbounded (source.exchange chosen 0))) :
    unbounded (source.exchange chosen 0) =
      .ok (.ofFunctions (source.exchange chosen 0) p.functions) := by
  have hkept := literalsKept_exchange chosen source
  have hspelled := h.functions.spelled (fun _ _ hf => hf.spelled) h.fresh
  have hfunctions : Many (Grammar.Function (source.exchange chosen 0)) ts p.functions :=
    h.functions.transfer hkept h.lossless.laid h.token_pos fun t => h.isNewline_exchange hchosen
  have hanswers := (h.answers_exchange hchosen).trans h.answers
  exact unbounded_of_functions hanswers (fun t ht => hkept.spelled (hspelled t ht)) hfunctions hserved

end Accepted

/-- Where semicolons that end statements are written as newlines, and newlines that do as semicolons if no
comment stands before them on their line, an accepted text is accepted with the same tree, spans included. -/
theorem ends_interchangeable {sys sys' : Pool.System} {pool pool' : Pool}
    {journal journal' : Log.Journal} (h : (parseText sys source pool journal).1 = .ok p)
    (hchosen : ∀ n, chosen n → Exchangeable source p.functions n)
    (hserved : Served (parseText sys' (source.exchange chosen 0) pool' journal').1) :
    (parseText sys' (source.exchange chosen 0) pool' journal').1 =
      .ok { p with source := source.exchange chosen 0 } := by
  obtain ⟨ts, hts⟩ := accepted_of_unbounded (unbounded_of_parseText h)
  have heq := parseText_served hserved
  rw [heq] at hserved ⊢
  rw [hts.unbounded_exchange hchosen hserved, hts.program]
  rfl

theorem mem_of_nth {row : List Token} {n : Nat} {t : Token} (h : lex source = .ok row)
    (ht : (Lexer.ofText source).nth n = .ok t) : t ∈ row := by
  obtain ⟨as, -, -, hnth, ⟨us, rfl, hlex⟩ | ⟨us, e, bs, -, hlex⟩⟩ := lex_cases source
  · obtain rfl := Except.ok.inj (h.symm.trans hlex)
    rw [hnth, List.getD_eq_getElem?_getD, List.getElem?_map] at ht
    cases hu : us[n]? with
    | none =>
      rw [hu] at ht
      cases ht
      simp
    | some u =>
      rw [hu] at ht
      cases ht
      exact List.mem_append_left _ (List.mem_of_getElem? hu)
  · cases h.symm.trans hlex

theorem ends_interchangeable_both :
    let source : Text := "f()\x7ba;b\n\x7d"
    let source' : Text := "f()\x7ba\nb;\x7d"
    let pool : Pool := ⟨.standard, ⟨0, 0x1000, 16⟩, [], 0, 0x1000⟩
    let parse (source : Text) : Except ParseError Program :=
      (parseText .standard source pool (.empty .info)).1
    let chosen (n : Nat) : Bool := n == 5 || n == 7
    source.exchange chosen 0 = source' ∧ ∃ p, parse source = .ok p ∧
      (∀ n, chosen n → Exchangeable source p.functions n) ∧
      parse source' = .ok { p with source := source' } := by
  have hsemicolon : (Lexer.ofText "f()\x7ba;b\n\x7d").nth 5 = .ok ⟨.terminator, ⟨5, 1⟩⟩ := rfl
  have hnewline : (Lexer.ofText "f()\x7ba;b\n\x7d").nth 7 = .ok ⟨.terminator, ⟨7, 1⟩⟩ := rfl
  have hstops (p : Program) (hp : (parseText .standard "f()\x7ba;b\n\x7d"
      ⟨.standard, ⟨0, 0x1000, 16⟩, [], 0, 0x1000⟩ (.empty .info)).1 = .ok p) :
      StatementStops p.functions 8 := by
    have hmem : 8 ∈ match (parseText .standard "f()\x7ba;b\n\x7d"
          ⟨.standard, ⟨0, 0x1000, 16⟩, [], 0, 0x1000⟩ (.empty .info)).1 with
        | .ok p => p.functions.flatMap fun f : Function => f.body.stmts.map (Span.stop ∘ Stmt.span)
        | .error _ => [] := by decide
    rw [hp] at hmem
    obtain ⟨f, hf, hs⟩ := List.mem_flatMap.1 hmem
    exact ⟨f, hf, List.mem_map.1 hs⟩
  intro source source' pool parse chosen
  obtain ⟨p, hp⟩ : ∃ p, parse source = .ok p := exists_of_isOk (by decide)
  obtain ⟨q, hq⟩ : ∃ q, parse source' = .ok q := exists_of_isOk (by decide)
  have hserved : Served (parse source') := served_of_ok hq
  obtain ⟨ts, hts⟩ := accepted_of_unbounded (unbounded_of_parseText hp)
  have hslash (before : Text) (h : '/' ∉ before) : before.Uncommented := by
    rintro u w rfl
    exact absurd (by simp) h
  have hchosen : ∀ n, chosen n → Exchangeable source p.functions n := by
    intro n hn
    obtain rfl | rfl : n = 5 ∨ n = 7 := by simpa [chosen] using hn
    · exact ⟨⟨_, hts.lex_eq, mem_of_nth hts.lex_eq hsemicolon⟩, "f()\x7ba", ';', "b\n\x7d", rfl, rfl,
        .inl rfl⟩
    · exact ⟨⟨_, hts.lex_eq, mem_of_nth hts.lex_eq hnewline⟩, "f()\x7ba;b", '\n', "\x7d", rfl, rfl,
        .inr ⟨rfl, hslash _ (by decide), hstops p hp⟩⟩
  have hexchange : source.exchange chosen 0 = source' := rfl
  rw [← hexchange] at hserved ⊢
  exact ⟨rfl, p, hp, hchosen, ends_interchangeable hp hchosen hserved⟩

end Session
end Frontend
