import Frontend.Proofs.Session.Progress
import Frontend.Proofs.Tree.Extent

/-! # What is taken for a statement

A call takes the tokens of each statement one after another, and the span of the statement can be read off
them. It leaves out nothing but parentheses that open before anything else.
-/
namespace Frontend
open Grammar Frontend.Parser

/-- The stream goes on somewhere in what a lexer answers of the text. -/
def TokenStream.Over {σ : Type} [TokenStream σ] (source : Text) (u : σ) : Prop :=
  ∃ k, ∀ n, nth u n = (Lexer.ofText source).nth (k + n)

theorem Lexer.Within.over {source : Text} {l : Lexer} (h : l.Within source) :
    TokenStream.Over source l := by
  obtain ⟨k, hk⟩ := h
  exact ⟨k, fun n => (l.nth_eq n).trans (hk n)⟩

theorem Lexer.lexed {source : Text} {k : Nat} {ts : List Token} (hinner : Inner ts)
    (h : ∀ n t, ts[n]? = some t → (ofText source).nth (k + n) = .ok t) : Lexed source ts := by
  obtain ⟨as, -, hlossless, hnth⟩ := nth_ofText source
  have hprefix : ts.map .ok <+: as.drop k := by
    refine List.prefix_iff_getElem?.2 fun n hn => ?_
    rw [List.length_map] at hn
    have hans := h n ts[n] (List.getElem?_eq_getElem hn)
    rw [hnth, List.getD_eq_getElem?_getD] at hans
    rw [List.getElem?_drop, List.getElem_map]
    cases ha : as[k + n]? with
    | some a => rw [← hans, ha, Option.getD_some]
    | none =>
      rw [ha] at hans
      have heof : ⟨.eof, .point (Text.size source)⟩ = ts[n] := Except.ok.inj hans
      exact absurd (by rw [← heof]) (hinner ts[n] (List.getElem_mem hn))
  have hsub := hprefix.sublist.trans (List.drop_sublist k as)
  refine ⟨hlossless.laid_of_sublist hsub, fun t ht hk => Nat.pos_of_ne_zero fun hz => ?_⟩
  cases hlossless.eq_of_empty (hsub.subset (List.mem_map_of_mem ht)) hz
  exact hk rfl

namespace Session
variable {σ : Type} [TokenStream σ]

/-- What an entry point has taken for the statements it has read are rows of theirs, each with the extent of
its statement. -/
structure Delimits (s : Session σ) : Prop where
  statement : ∀ sys x, (s.statement sys).1 = .ok x → ∃ ts,
    s.taken sys (Parser.statement s.source) = ts.map .ok ∧ Statement s.source ts x ∧ Extent ts x.span
  block : ∀ sys b, (s.block sys).1 = .ok b → ∃ ts,
    s.taken sys (Parser.block s.source) = ts.map .ok ∧ BlockExtent s.source ts b
  function : ∀ sys f, (s.function sys).1 = .ok f → ∃ ts,
    s.taken sys (Parser.function s.source) = ts.map .ok ∧ FunctionExtent s.source ts f
  program : ∀ sys p, (s.program sys).1 = .ok p → ∃ ts,
    s.taken sys (Parser.program s.source) = ts.map .ok ∧ Many (FunctionExtent s.source) ts p.functions

theorem taken_of_over {α : Type} {C D : Phrases α} {plan : Nat → Parser α}
    (hσ : TokenStream.Candid σ) {s : Session σ} (hends : TokenStream.Ends s.tokens)
    (hover : TokenStream.Over s.source s.tokens) (hsteady : ∀ n, Steady C n (plan n))
    (hdecides : ∀ n, Decides s.source D n (plan n)) {sys : Pool.System} {a : α}
    (ha : (s.run sys plan).1 = .ok a) :
    ∃ ts, s.taken sys plan = ts.map .ok ∧ D ts a ∧ Lexed s.source ts := by
  obtain ⟨k, hk⟩ := hover
  obtain ⟨ts, rest, hts, hlen⟩ := exists_upcoming hends
  have hwritten : ∀ t ∈ ts, Written s.source t := by
    intro t ht
    obtain ⟨n, hn, rfl⟩ := List.getElem_of_mem ht
    refine Lexer.written_nth ((hk n).symm.trans (hts.answer_eq ?_))
    rw [List.getElem?_append_left (by rwa [List.length_map]), List.getElem?_map,
      List.getElem?_eq_getElem hn, Option.map_some]
  -- Over any tokens the plan proceeds; over those of a text its rule also decides what it reads.
  have hreads := (hsteady _ hlen).decided (hdecides _ ⟨hlen, hwritten⟩)
  have hreturns := returns_of_reads hσ hts hreads sys
  obtain ⟨vs, htaken, hinner, hD⟩ := hreturns.read a ha
  refine ⟨vs, htaken, hD, Lexer.lexed (k := k) hinner fun n t ht => ?_⟩
  rw [← hk]
  exact hreturns.taken n (.ok t) (by rw [htaken, List.getElem?_map, ht, Option.map_some])

theorem delimits_of_over (hσ : TokenStream.Candid σ) {s : Session σ}
    (hends : TokenStream.Ends s.tokens) (hover : TokenStream.Over s.source s.tokens) : s.Delimits where
  statement sys x hx := by
    obtain ⟨ts, htaken, hD, hts⟩ :=
      taken_of_over hσ hends hover (statement_reads s.source) (statement_decides s.source) hx
    exact ⟨ts, htaken, hD, hD.extent hts⟩
  block sys b hb := by
    obtain ⟨ts, htaken, hD, hts⟩ :=
      taken_of_over hσ hends hover (block_reads s.source) (block_decides s.source) hb
    exact ⟨ts, htaken, hD.extent hts⟩
  function sys f hf := by
    obtain ⟨ts, htaken, hD, hts⟩ :=
      taken_of_over hσ hends hover (function_reads s.source) (function_decides s.source) hf
    exact ⟨ts, htaken, hD.extent hts⟩
  program sys p hp := by
    obtain ⟨ts, htaken, ⟨fs, hfs, rfl⟩, hts⟩ :=
      taken_of_over hσ hends hover (program_reads s.source) (program_decides s.source) hp
    exact ⟨ts, htaken, hfs.extend hts fun _ _ hf h => hf.extent h⟩

theorem Reached.over {source : Text} {ts : List Token} (hlex : lex source = .ok ts)
    {s : Session TokenBuffer} (hs : s.Reached source (.ofTokens ts)) :
    TokenStream.Over source s.tokens := by
  obtain ⟨as, -, -, hnth, ⟨us, rfl, hlex'⟩ | ⟨us, e, bs, -, hlex'⟩⟩ := lex_cases source
  · obtain rfl := Except.ok.inj (hlex.symm.trans hlex')
    have hclosed : (TokenRow.closed (us ++ [⟨.eof, .point (Text.size source)⟩])).toList =
        us ++ [⟨.eof, .point (Text.size source)⟩] := TokenRow.toList_closed rfl
    obtain ⟨vs, hvs⟩ := hs.exists_ahead hclosed
    obtain ⟨before, hbefore⟩ := hs.ahead.1
    have hus : before ++ vs = us := by
      change before ++ _ = (TokenRow.closed _).toList at hbefore
      rw [hclosed, hvs, ← List.append_assoc] at hbefore
      exact List.append_cancel_right hbefore
    refine ⟨before.length, fun n => ?_⟩
    rw [TokenBuffer.nth_eq hvs, hnth, getD_tokens, ← hus, List.getD_eq_getElem?_getD,
      List.getD_eq_getElem?_getD, List.getElem?_append_right (Nat.le_add_right _ _),
      Nat.add_sub_cancel_left]
  · cases hlex.symm.trans hlex'

/-- The tokens that are taken for a statement of a text end with its only terminator, whether the statement
is read by itself, in a block, in a function or in a program, off a lexer or off a buffer, and whatever was
called before. Its span ends where the terminator does and starts with the first token that is no opening
parenthesis. That is the first token exactly if the statement does not begin with a parenthesis. -/
theorem statements_delimited (source : Text) :
    (∀ s : Session Lexer, s.Reached source (.ofText source) → s.Delimits) ∧
      ∀ ts, lex source = .ok ts → ∀ s : Session TokenBuffer, s.Reached source (.ofTokens ts) →
        s.Delimits := by
  constructor
  · intro s hs
    obtain ⟨hwithin, rfl⟩ := hs.within
    exact delimits_of_over Lexer.candid s.tokens.ends hwithin.over
  · intro ts hlex s hs
    obtain rfl := hs.ahead.2
    exact delimits_of_over TokenBuffer.candid hs.ends (hs.over hlex)

theorem statements_delimited_group :
    let source : Text := "(a);"
    let pool : Pool := ⟨.standard, ⟨0, 0x1000, 16⟩, [], 0, 0x1000⟩
    let ts : List Token := [⟨.lparen, ⟨0, 1⟩⟩, ⟨.ident, ⟨1, 1⟩⟩, ⟨.rparen, ⟨2, 1⟩⟩,
      ⟨.terminator, ⟨3, 1⟩⟩, ⟨.eof, ⟨4, 0⟩⟩]
    lex source = .ok ts ∧
      (∃ x row, (statement .standard ⟨source, Lexer.ofText source, pool, .empty .info⟩).1 = .ok x ∧
        taken .standard (Parser.statement source) ⟨source, Lexer.ofText source, pool, .empty .info⟩ =
          row.map .ok ∧ Extent row x.span) ∧
      Delimits ⟨source, TokenBuffer.ofTokens ts, pool, .empty .info⟩ := by
  intro source pool ts
  have hlex : lex source = .ok ts := lex_of_answers? 5 rfl
  let s : Session Lexer := ⟨source, .ofText source, pool, .empty .info⟩
  obtain ⟨x, hx⟩ : ∃ x, (s.statement .standard).1 = .ok x := exists_of_isOk (by decide)
  obtain ⟨row, htaken, -, hextent⟩ :=
    ((statements_delimited source).1 s (.start _ _)).statement .standard x hx
  exact ⟨hlex, ⟨x, row, hx, htaken, hextent⟩, (statements_delimited source).2 ts hlex _ (.start _ _)⟩

/-- The parenthesis that was taken first is not in the statement's span. -/
theorem opening_left_out :
    let s : Session Lexer := ⟨"(x)\n", .ofText "(x)\n", ⟨.standard, ⟨0, 0x1000, 16⟩, [], 0, 0x1000⟩,
      .empty .info⟩
    let row : List Token := [⟨.lparen, ⟨0, 1⟩⟩, ⟨.ident, ⟨1, 1⟩⟩, ⟨.rparen, ⟨2, 1⟩⟩,
      ⟨.terminator, ⟨3, 1⟩⟩]
    ∃ x, (s.statement .standard).1 = .ok x ∧
      s.taken .standard (Parser.statement s.source) = row.map .ok ∧ x.span = ⟨1, 3⟩ ∧
      ∀ t ∈ row.head?, x.span.start ≠ t.span.start := by
  intro s row
  obtain ⟨x, hx⟩ : ∃ x, (s.statement .standard).1 = .ok x := exists_of_isOk (by decide)
  have hspan : (s.statement .standard).1.toOption.map Stmt.span = some ⟨1, 3⟩ := by decide
  rw [hx] at hspan
  have hspan : x.span = ⟨1, 3⟩ := Option.some.inj hspan
  refine ⟨x, hx, eq_map_ok (by decide), hspan, ?_⟩
  rw [hspan]
  decide

end Session
end Frontend
