import Frontend.Parser.Program
import Frontend.Pool.Basic
import Frontend.Token.Stream

/-! # Parsing sessions

A session is a source with a stream of tokens over it, a pool for the trees and a journal. Its entry
points may be called one after another, also after an error: what an entry point took off the stream or
out of the pool stays taken.
-/
namespace Frontend

structure Session (σ : Type) where
  source : Text
  tokens : σ
  pool : Pool
  journal : Log.Journal

namespace Session
variable {σ : Type} [TokenStream σ]

def host (sys : Pool.System) : Host (Session σ) where
  next s :=
    match TokenStream.next s.tokens with
    | (r, tokens) => (r, { s with tokens })
  peek s :=
    match TokenStream.peek s.tokens with
    | (r, tokens) => (r, { s with tokens })
  reserve l s :=
    match s.pool.alloc sys l with
    | (r, pool) =>
      (r.map fun _ => ⟨⟩, { s with pool, journal := s.journal.reportAll (s.pool.growthEvents pool) })
  report e s := { s with journal := s.journal.report e }

/-- Carries out a plan, with a bound on its loops that the stream cannot outlast. -/
def run {α : Type} (sys : Pool.System) (plan : Nat → Parser α) (s : Session σ) :
    Except ParseError α × Session σ :=
  (plan (TokenStream.remaining s.tokens + 1)).run (host sys) s

def expression (sys : Pool.System) (s : Session σ) : Except ParseError Expr × Session σ :=
  s.run sys (Parser.expression s.source)

def typeName (sys : Pool.System) (s : Session σ) : Except ParseError Ty × Session σ :=
  s.run sys fun _ => Parser.typeName

def statement (sys : Pool.System) (s : Session σ) : Except ParseError Stmt × Session σ :=
  s.run sys (Parser.statement s.source)

def block (sys : Pool.System) (s : Session σ) : Except ParseError Block × Session σ :=
  s.run sys (Parser.block s.source)

def function (sys : Pool.System) (s : Session σ) : Except ParseError Function × Session σ :=
  s.run sys (Parser.function s.source)

def program (sys : Pool.System) (s : Session σ) : Except ParseError Program × Session σ :=
  s.run sys (Parser.program s.source)

end Session

/-- Reads a program off a text into a pool. -/
def parseText (sys : Pool.System) (source : Text) (pool : Pool) (journal : Log.Journal) :
    Except ParseError Program × Session Lexer :=
  Session.program sys ⟨source, .ofText source, pool, journal⟩

end Frontend
