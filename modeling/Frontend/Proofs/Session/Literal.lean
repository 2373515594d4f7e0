import Frontend.Proofs.Session.Accepted
import Frontend.Proofs.Session.Discipline
import Mathlib.Algebra.Group.Nat.Defs

/-! # Values of literals

A literal is one token and stands for one node of the tree. Which one depends on the text under the token
and on nothing else: not on the place in a larger expression, and not on what else the stream holds.
-/
namespace Frontend.Session
open Frontend.Parser

variable {σ : Type} [TokenStream σ]

def primary (sys : Pool.System) (inner : Unit → Parser Expr) (n : Nat) (s : Session σ) :
    Except ParseError Expr × Session σ := (Parser.primary s.source inner n).run (host sys) s

/-- How the next token is read that is a literal of the value. -/
structure Evaluates (s : Session σ) (t : Token) (suffix : Suffix) (value : Nat) : Prop where
  word : value < 2 ^ 64 → ∀ sys b, (s.pool.alloc sys Expr.layout).1 = .ok b → ∀ inner n,
    (s.primary sys inner n).1 = .ok (.int t.span none value suffix) ∧
      (s.primary sys inner n).2.tokens = (TokenStream.next s.tokens).2
  overflow : 2 ^ 64 ≤ value → ∀ sys, ∃ d : SourceError, d.span = t.span ∧
    d.problem.message = "overflow on '" ++ t.span.text s.source ++ "'" ∧
    (s.expression sys).1 = .error (.source d) ∧
    ∀ inner n, (s.primary sys inner n).1 = .error (.source d)

section
variable {s : Session σ} {t : Token} {suffix : Suffix}

theorem primary_int (ht : (TokenStream.next s.tokens).1 = .ok t) (hk : t.kind = .int suffix)
    (sys : Pool.System) (inner : Unit → Parser Expr) (n : Nat) :
    s.primary sys inner n = (literal s.source t.span suffix).run (host sys)
      { s with tokens := (TokenStream.next s.tokens).2 } := by
  have hnext : (host sys).next s = (.ok t, { s with tokens := (TokenStream.next s.tokens).2 }) :=
    Prod.ext ht rfl
  change Parser.run (host sys) (.next fun _ => _) s = _
  simp only [Parser.run, hnext, Parser.bind, hk]

theorem expression_error {sys : Pool.System} {e : ParseError}
    (h : ∀ inner n, (s.primary sys inner n).1 = .error e) : (s.expression sys).1 = .error e := by
  let n := TokenStream.remaining s.tokens
  have hlevel (p : Precedence) {operand : Parser Expr} (ho : (operand.run (host sys) s).1 = .error e) :
      ((level p operand n).run (host sys) s).1 = .error e := by
    change ((operand.bind _).run (host sys) s).1 = _
    rw [run_bind]
    rcases hx : operand.run (host sys) s with ⟨d | a, s'⟩ <;> rw [hx] at ho
    · exact ho
    · cases ho
  -- Every level of strength reads an operand of the next one before it looks for an operator.
  exact hlevel _ (hlevel _ (hlevel _ (h _ n)))

theorem run_node {sys : Pool.System} {b : Pool.Block} (hb : (s.pool.alloc sys Expr.layout).1 = .ok b)
    (e : Expr) : ((node e).run (host sys) s).1 = .ok e ∧
      ((node e).run (host sys) s).2.tokens = s.tokens := by
  simp only [node, Parser.run, host]
  rcases hx : s.pool.alloc sys Expr.layout with ⟨f | b, pool⟩ <;> rw [hx] at hb
  · cases hb
  · exact ⟨rfl, rfl⟩

theorem evaluates_of_denotes {value : Nat} (ht : (TokenStream.next s.tokens).1 = .ok t)
    (hk : t.kind = .int suffix) (hv : Denotes (t.span.text s.source) suffix value) :
    s.Evaluates t suffix value where
  word hlt sys b hb inner n := by
    rw [primary_int ht hk, literal_eq hv hlt]
    exact run_node (s := { s with tokens := (TokenStream.next s.tokens).2 }) hb _
  overflow hge sys := by
    have hprimary (inner : Unit → Parser Expr) (n : Nat) : (s.primary sys inner n).1 =
        .error (.source ⟨.overflow (t.span.text s.source), t.span⟩) := by
      rw [primary_int ht hk, literal_overflow hv (Nat.not_lt.2 hge)]
      rfl
    exact ⟨_, rfl, rfl, expression_error hprimary, hprimary⟩

/-- No other literal becomes a node. -/
theorem denotes_of_primary (ht : (TokenStream.next s.tokens).1 = .ok t) (hk : t.kind = .int suffix)
    {sys : Pool.System} {inner : Unit → Parser Expr} {n : Nat} {e : Expr}
    (he : (s.primary sys inner n).1 = .ok e) : ∃ value < 2 ^ 64,
      Denotes (t.span.text s.source) suffix value ∧ e = .int t.span none value suffix := by
  rw [primary_int ht hk] at he
  unfold literal at he
  dsimp only at he
  split at he
  · next value hvalue =>
    obtain ⟨hden, hlt⟩ := literalValue_eq_ok.1 hvalue
    simp only [node, Parser.run, host] at he
    split at he
    · exact ⟨value, hlt, hden, (Except.ok.inj he).symm⟩
    · cases he
  · cases he
  · cases he

end

/-- A literal of a text is digits and its suffix. Where the pool has room for the node and the number that
the digits spell is a word, it is read as this number; where the number is too large, an error quotes the
text. A token that says it is a literal but need not be one of its text is read as a number only if digits
are left of what it covers without the suffix, and then as the number that they spell. -/
theorem literals_evaluated (source : Text) :
    (∀ n t suffix, (Lexer.ofText source).nth n = .ok t → t.kind = .int suffix →
      ∃ digits, t.span.text source = digits ++ suffix.text ∧ digits ≠ [] ∧
        (∀ c ∈ digits, c.isDigit) ∧ ∀ {σ : Type} [TokenStream σ] (s : Session σ), s.source = source →
          (TokenStream.next s.tokens).1 = .ok t →
            s.Evaluates t suffix (Nat.ofDigitChars 10 digits 0)) ∧
    ∀ {σ : Type} [TokenStream σ] (s : Session σ) t suffix, s.source = source →
      (TokenStream.next s.tokens).1 = .ok t → t.kind = .int suffix →
        ∀ sys inner n e, (s.primary sys inner n).1 = .ok e →
          ∃ digits rest, t.span.text source = digits ++ rest ∧ digits ≠ [] ∧
            (∀ c ∈ digits, c.isDigit) ∧ Text.size rest = Text.size suffix.text ∧
            Nat.ofDigitChars 10 digits 0 < 2 ^ 64 ∧
            e = .int t.span none (Nat.ofDigitChars 10 digits 0) suffix := by
  constructor
  · intro n t suffix ht hk
    obtain ⟨value, hspells⟩ := Lexer.written_nth ht suffix hk
    obtain ⟨digits, hn, hd, htext, rfl⟩ := id hspells
    refine ⟨digits, htext, hn, hd, ?_⟩
    rintro σ _ s rfl hnext
    exact evaluates_of_denotes hnext hk hspells.denotes
  · rintro σ _ s t suffix rfl ht hk sys inner n e he
    obtain ⟨value, hlt, ⟨digits, rest, htext, hn, hd, hrest, rfl⟩, rfl⟩ := denotes_of_primary ht hk he
    exact ⟨digits, rest, htext, hn, hd, hrest, hlt, rfl⟩

theorem literals_evaluated_zeros :
    let s : Session Lexer := ⟨"007u16", .ofText "007u16", ⟨.standard, ⟨0, 0x1000, 16⟩, [], 0, 0x1000⟩,
      .empty .info⟩
    (∀ inner n, (s.primary .standard inner n).1 = .ok (.int ⟨0, 6⟩ none 7 (some .u16))) ∧
      ∃ digits rest, ("007u16" : Text) = digits ++ rest ∧ Text.size rest = 3 ∧
        Nat.ofDigitChars 10 digits 0 = 7 := by
  intro s
  let t : Token := ⟨.int (some .u16), ⟨0, 6⟩⟩
  have hnext : (TokenStream.next s.tokens).1 = .ok t := rfl
  obtain ⟨hlexed, harbitrary⟩ := literals_evaluated "007u16"
  obtain ⟨digits, htext, -, -, heval⟩ := hlexed 0 t (some .u16) hnext rfl
  have hdigits : digits = ("007" : Text) := (List.append_cancel_right htext).symm
  have hvalue : Nat.ofDigitChars 10 digits 0 = 7 := by
    rw [hdigits]
    rfl
  have hread (inner : Unit → Parser Expr) (n : Nat) :
      (s.primary .standard inner n).1 = .ok (.int ⟨0, 6⟩ none 7 (some .u16)) := by
    obtain ⟨b, hb⟩ : ∃ b, (s.pool.alloc .standard Expr.layout).1 = .ok b := exists_of_isOk (by decide)
    have hword := (heval s rfl hnext).word (by rw [hvalue]; decide) .standard b hb inner n
    rw [hvalue] at hword
    exact hword.1
  refine ⟨hread, ?_⟩
  obtain ⟨digits, rest, htext, -, -, hrest, -, he⟩ :=
    harbitrary s t (some .u16) rfl hnext rfl .standard (fun _ => stalled) 0 _ (hread _ 0)
  obtain ⟨-, -, hsame, -⟩ := Expr.int.inj he
  exact ⟨digits, rest, htext, hrest, hsame.symm⟩

end Frontend.Session
