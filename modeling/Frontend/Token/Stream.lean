import Frontend.Token.Scanner

/-! # Token streams

A parser asks a stream for the next token, or for a look at it. A lexer reads tokens off a text when
they are asked for and keeps the one it has looked at; it cannot keep an answer that is no token, so a
look at malformed text reads past it. A token buffer replays tokens that are there already. Both end
with an end-of-input token that is answered again and again.
-/
namespace Frontend

class TokenStream (σ : Type) where
  next : σ → Except SourceError Token × σ
  /-- Looks at the next token. -/
  peek : σ → Except SourceError Token × σ
  remaining : σ → Nat

structure Lexer where
  source : Text
  scanner : Scanner
  peeked : Option Token
deriving DecidableEq, Repr

namespace Lexer

def ofText (source : Text) : Lexer := ⟨source, .ofText source, none⟩

def next (l : Lexer) : Except SourceError Token × Lexer :=
  match l.peeked with
  | some t => (.ok t, { l with peeked := none })
  | none => (l.scanner.scan.1, { l with scanner := l.scanner.scan.2 })

def peek (l : Lexer) : Except SourceError Token × Lexer :=
  match l.peeked with
  | some t => (.ok t, l)
  | none =>
    match l.scanner.scan with
    | (.ok t, s) => (.ok t, { l with scanner := s, peeked := some t })
    | (.error e, s) => (.error e, { l with scanner := s })

instance : TokenStream Lexer where
  next := next
  peek := peek
  remaining l := l.scanner.rest.length + 3

end Lexer

/-- A row of tokens that has a first one. -/
structure TokenRow where
  head : Token
  tail : List Token
deriving DecidableEq, Repr

namespace TokenRow

def toList (r : TokenRow) : List Token := r.head :: r.tail

/-- The tokens, with an end of input behind them unless they close with one. -/
def closed : List Token → TokenRow
  | [] => ⟨⟨.eof, .point 0⟩, []⟩
  | t :: ts =>
    let last := (t :: ts).getLast (List.cons_ne_nil t ts)
    if last.kind = .eof then ⟨t, ts⟩ else ⟨t, ts ++ [⟨.eof, .point last.span.stop⟩]⟩

def advance (r : TokenRow) : TokenRow :=
  match r.tail with
  | [] => r
  | t :: ts => ⟨t, ts⟩

theorem toList_closed {ts : List Token} {last : Token} (hl : last.kind = .eof) :
    (TokenRow.closed (ts ++ [last])).toList = ts ++ [last] := by
  cases ts with
  | nil => simp [closed, toList, hl]
  | cons t ts =>
    have h : (t :: (ts ++ [last])).getLast (List.cons_ne_nil _ _) = last := by
      rw [List.getLast_cons (by simp)]
      exact List.getLast_concat
    rw [List.cons_append, closed]
    simp only [h, hl, if_true]
    rfl

end TokenRow

structure TokenBuffer where
  tokens : TokenRow
  ahead : TokenRow
deriving DecidableEq, Repr

namespace TokenBuffer

def ofTokens (ts : List Token) : TokenBuffer := ⟨.closed ts, .closed ts⟩

def lex (source : Text) : Except SourceError TokenBuffer := do
  return ofTokens (← Frontend.lex source)

def reset (b : TokenBuffer) : TokenBuffer := { b with ahead := b.tokens }

def next (b : TokenBuffer) : Except SourceError Token × TokenBuffer :=
  (.ok b.ahead.head, { b with ahead := b.ahead.advance })

def peek (b : TokenBuffer) : Except SourceError Token × TokenBuffer := (.ok b.ahead.head, b)

instance : TokenStream TokenBuffer where
  next := next
  peek := peek
  remaining b := b.ahead.toList.length

theorem reset_next (b : TokenBuffer) : b.next.2.reset = b.reset := rfl

end TokenBuffer
end Frontend
