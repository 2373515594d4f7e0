import Frontend.Proofs.Grammar.Grouping
import Frontend.Proofs.Session.Progress

/-! # Chains of operators

Reading an expression takes a chain of primary expressions as a whole, however long it is, and answers its
ordered grouping. What was called before has no part in it.
-/
namespace Frontend.Session
open Grammar Frontend.Parser

variable {σ : Type} [TokenStream σ]

/-- Where the tokens are ahead and then `next`, and the pool does not give out, reading an expression answers
the tree, takes these tokens and leaves all from `next` on. -/
def ReadsAs (s : Session σ) (ts : List Token) (next : Token) (e : Expr) : Prop :=
  (∀ n t, (ts ++ [next])[n]? = some t → TokenStream.nth s.tokens n = .ok t) →
    ∀ sys, (∀ f, (s.expression sys).1 ≠ .error (.internal (.pool f))) →
      (s.expression sys).1 = .ok e ∧
        s.taken sys (Parser.expression s.source) = ts.map .ok ∧
        ∀ n, TokenStream.nth (s.expression sys).2.tokens n = TokenStream.nth s.tokens (ts.length + n)

theorem length_lt_of_ends {u : σ} (hu : TokenStream.Ends u) {ts : List Token} (hts : Inner ts)
    (hahead : ∀ n t, ts[n]? = some t → TokenStream.nth u n = .ok t) :
    ts.length < TokenStream.remaining u + 1 := by
  obtain ⟨as, last, hlast, hlen, hnth⟩ := hu
  refine Nat.lt_succ_of_le (Nat.le_of_not_lt fun hlt => ?_)
  have hlong : as.length < ts.length := by omega
  have hend := hahead as.length ts[as.length] (List.getElem?_eq_getElem hlong)
  rw [hnth, List.getD_eq_getElem?_getD, List.getElem?_eq_none (Nat.le_refl _)] at hend
  have hkind : ts[as.length].kind = .eof := Except.ok.inj hend ▸ hlast
  exact hts _ (List.getElem_mem hlong) hkind

theorem readsAs_of_ends (hσ : TokenStream.Candid σ) {s : Session σ} (hs : TokenStream.Ends s.tokens)
    {ts : List Token} {next : Token} {e : Expr} (he : Expression s.source ts e)
    (hspelled : AllSpelled s.source ts) (hnext : EndsExpression ts.getLast? next.kind) :
    s.ReadsAs ts next e := by
  intro hahead sys hpool
  have hlen : ts.length < TokenStream.remaining s.tokens + 1 := by
    refine length_lt_of_ends hs (Expression.bounded he) fun n t ht => hahead n t ?_
    exact (List.getElem?_append_left (List.getElem?_eq_some_iff.1 ht).1).trans ht
  have hgives := expression_complete s.source _ he (r := ⟨next, [next]⟩) hlen hnext hspelled
  rcases hgives.within with hw | ⟨f, us, hw⟩ <;>
    rcases session_of_within hσ sys hw hahead with ⟨f', hf⟩ | ⟨hx, vs, hvs, htaken, hleft⟩
  · exact absurd hf (hpool f')
  · obtain rfl := List.append_cancel_right hvs
    exact ⟨hx, htaken, hleft⟩
  · exact absurd hf (hpool f')
  · exact absurd hx (hpool f)

/-- Reading an expression where a chain of primary expressions is ahead, and no token behind it with which an
expression goes on, answers the tree in which every operator has at its left only ones at least as strong and
at its right only stronger ones. There is one such tree to the chain. The chain is taken and nothing else. -/
theorem chains_grouped {source : Text} {ts : List Token} {next : Token}
    {c : Expr × List (BinOp × Expr)} (hchain : Chain (Primary source (Expression source)) ts c)
    (hspelled : AllSpelled source ts) (hnext : EndsExpression ts.getLast? next.kind) :
    ∃ g : Grouping, g.reading = c ∧ g.Ordered ∧
      (∀ g' : Grouping, g'.reading = c → g'.Ordered → g' = g) ∧
      (∀ tokens, ∀ s : Session TokenBuffer, s.Reached source (.ofTokens tokens) →
        s.ReadsAs ts next g.toExpr) ∧
      ∀ s : Session Lexer, s.Reached source (.ofText source) → s.ReadsAs ts next g.toExpr := by
  have hreading := Grouping.reading_ofReading c
  have hordered := Grouping.ordered_ofReading c
  refine ⟨.ofReading c, hreading, hordered, fun g' hg' h => ?_, ?_, ?_⟩
  · exact h.unique hordered (hg'.trans hreading.symm)
  · intro tokens s hs
    obtain rfl := hs.ahead.2
    exact readsAs_of_ends TokenBuffer.candid hs.ends hchain.expression hspelled hnext
  · intro s hs
    obtain rfl := hs.within.2
    exact readsAs_of_ends Lexer.candid s.tokens.ends hchain.expression hspelled hnext

/-- A parenthesis behind a group begins no call. -/
theorem chains_grouped_product :
    let source : Text := "a-2*(b)("
    let ts : List Token := [⟨.ident, ⟨0, 1⟩⟩, ⟨.op .sub, ⟨1, 1⟩⟩, ⟨.int none, ⟨2, 1⟩⟩, ⟨.op .mul, ⟨3, 1⟩⟩,
      ⟨.lparen, ⟨4, 1⟩⟩, ⟨.ident, ⟨5, 1⟩⟩, ⟨.rparen, ⟨6, 1⟩⟩]
    let next : Token := ⟨.lparen, ⟨7, 1⟩⟩
    let s : Session TokenBuffer := ⟨source, .ofTokens (ts ++ [next]),
      ⟨.standard, ⟨0, 0x1000, 16⟩, [], 0, 0x1000⟩, .empty .info⟩
    ∃ g : Grouping, g.Ordered ∧
      g.reading = (.var ⟨0, 1⟩ none ⟨0, 1⟩, [(.sub, .int ⟨2, 1⟩ none 2 none),
        (.mul, .var ⟨5, 1⟩ none ⟨5, 1⟩)]) ∧
      (s.expression .standard).1 = .ok g.toExpr ∧
      s.taken .standard (Parser.expression source) = ts.map .ok := by
  intro source ts next s
  have htwo : Spells source ⟨2, 1⟩ none 2 := ⟨['2'], by simp, by simp, rfl, rfl⟩
  have hspelled : AllSpelled source ts := by
    simp only [ts, AllSpelled, List.forall_mem_cons, Spelled]
    simp
    exact ⟨2, by decide, htwo⟩
  have hname : Chain (Primary source (Expression source)) [⟨.ident, ⟨0, 1⟩⟩] (_, []) :=
    .operand (.var rfl)
  have hint : Primary source (Expression source) [⟨.int none, ⟨2, 1⟩⟩] _ := .int rfl htwo
  have hinner : Expression source [⟨.ident, ⟨5, 1⟩⟩] _ := .var rfl
  have hgroup := @Primary.group source _ ⟨.lparen, ⟨4, 1⟩⟩ ⟨.rparen, ⟨6, 1⟩⟩ _ _ rfl hinner rfl
  have hdifference := @Chain.join _ _ _ _ _ ⟨.op .sub, ⟨1, 1⟩⟩ _ hname rfl hint
  have hchain : Chain (Primary source (Expression source)) ts _ :=
    @Chain.join _ _ _ _ _ ⟨.op .mul, ⟨3, 1⟩⟩ _ hdifference rfl hgroup
  have hnext : EndsExpression ts.getLast? next.kind :=
    ⟨fun _ t ht => by cases ht; decide, fun o => by cases o <;> decide⟩
  obtain ⟨g, hreading, hordered, -, hbuffer, -⟩ := chains_grouped hchain hspelled hnext
  have hahead (n : Nat) (t : Token) (ht : (ts ++ [next])[n]? = some t) :
      TokenStream.nth s.tokens n = .ok t := by
    have hrow : s.tokens.ahead.toList = (ts ++ [next]) ++ [⟨.eof, ⟨8, 0⟩⟩] := rfl
    rw [TokenBuffer.nth_eq hrow, List.getD_eq_getElem?_getD, ht]
    rfl
  obtain ⟨e, he⟩ : ∃ e, (s.expression .standard).1 = .ok e := exists_of_isOk (by decide)
  obtain ⟨hanswer, htaken, -⟩ := hbuffer _ s (.start _ _) hahead .standard (by simp [he])
  exact ⟨g, hordered, hreading, hanswer, htaken⟩

end Frontend.Session
