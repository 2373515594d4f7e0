import Frontend.Proofs.Grammar.Comma
import Frontend.Proofs.Session.Progress

/-! # What is read as an expression

Where reading an expression succeeds, the tokens taken for it are of the rule that lets a comma stand behind
the last argument of a call. The rule without such a comma has fewer rows, and they are told apart by what
stands behind the commas.
-/
namespace Frontend.Session
open Grammar

variable {σ : Type} [TokenStream σ]

/-- Reading an expression takes tokens of the rule with the comma, and of the rule without exactly if none
is followed by anything but an argument. -/
def Conforms (s : Session σ) : Prop :=
  ∀ sys e, (s.expression sys).1 = .ok e →
    ∃ ts : List Token, s.taken sys (Parser.expression s.source) = ts.map .ok ∧
      ExpressionKinds true (ts.map Token.kind) ∧
      (ExpressionKinds false (ts.map Token.kind) ↔ Followed (ts.map Token.kind))

theorem conforms_of_ends (hσ : TokenStream.Candid σ) {s : Session σ}
    (hs : TokenStream.Ends s.tokens) : s.Conforms := by
  intro sys e he
  have hcall := returns_of_steady hσ (Parser.expression_reads s.source) hs sys
  obtain ⟨ts, htaken, -, hloose⟩ := hcall.read e he
  exact ⟨ts, htaken, hloose.kinds, hloose.kinds.strict_iff⟩

/-- The tokens that are taken for an expression are one by the grammar in which a comma may stand behind the
last argument of a call, whatever tokens there are and whatever was called before. They are one by the grammar
without that comma exactly if behind every comma stands a token that begins an argument. -/
theorem expression_conforms (source : Text) :
    (∀ ts : List Token, ∀ s : Session TokenBuffer, s.Reached source (.ofTokens ts) → s.Conforms) ∧
      ∀ s : Session Lexer, s.Reached source (.ofText source) → s.Conforms :=
  ⟨fun _ _ hs => conforms_of_ends TokenBuffer.candid hs.ends,
    fun s _ => conforms_of_ends Lexer.candid s.tokens.ends⟩

theorem expression_conforms_call :
    let s : Session Lexer := ⟨"f(x,g(1,),)", .ofText "f(x,g(1,),)", ⟨.standard, ⟨0, 0x1000, 16⟩, [], 0,
      0x1000⟩, .empty .info⟩
    ∃ e, ∃ ts : List Token, (s.expression .standard).1 = .ok e ∧
      s.taken .standard (Parser.expression s.source) = ts.map .ok ∧
      ExpressionKinds true (ts.map Token.kind) ∧
      (ExpressionKinds false (ts.map Token.kind) ↔ Followed (ts.map Token.kind)) := by
  intro s
  obtain ⟨e, he⟩ : ∃ e, (s.expression .standard).1 = .ok e := exists_of_isOk (by decide)
  obtain ⟨ts, h⟩ := (expression_conforms "f(x,g(1,),)").2 s (.start _ _) .standard e he
  exact ⟨e, ts, he, h⟩

/-- A call with a comma behind its last argument is read; without that comma the grammar has no such call. -/
theorem trailing_comma_read :
    let s : Session Lexer := ⟨"f(x,)", .ofText "f(x,)", ⟨.standard, ⟨0, 0x1000, 16⟩, [], 0, 0x1000⟩,
      .empty .info⟩
    let row : List Token := [⟨.ident, ⟨0, 1⟩⟩, ⟨.lparen, ⟨1, 1⟩⟩, ⟨.ident, ⟨2, 1⟩⟩, ⟨.comma, ⟨3, 1⟩⟩,
      ⟨.rparen, ⟨4, 1⟩⟩]
    (∃ e, (s.expression .standard).1 = .ok e) ∧
      s.taken .standard (Parser.expression s.source) = row.map .ok ∧
      ¬ ExpressionKinds false (row.map Token.kind) := by
  intro s row
  have hread : ∃ e, (s.expression .standard).1 = .ok e := exists_of_isOk (by decide)
  refine ⟨hread, eq_map_ok (by decide), fun h => ?_⟩
  have hfollowed : Followed [.ident, .lparen, .ident, .comma, .rparen] := h.whole.followed
  have hno : ¬ List.IsChain (fun a b => a = .comma → opensExpression b)
      [.ident, .lparen, .ident, .comma, .rparen] := by decide
  exact hno hfollowed

end Frontend.Session
