import Frontend.Error
import Frontend.Log

/-! # Parsers as plans

A parser is a plan: which token it looks at or takes, which memory it asks for, what it reports, and
how it goes on after each answer. What the plan meets is left to a host, so that one plan serves every
stream of tokens and every pool, and two runs can be compared node by node.
-/
namespace Frontend

inductive Parser (α : Type) where
  | done (a : α)
  | fail (e : ParseError)
  | peek (k : Token → Parser α)
  | next (k : Token → Parser α)
  | reserve (l : Pool.Layout) (k : Parser α)
  | report (e : Log.Event) (k : Parser α)

/-- What a plan meets when it is carried out. -/
structure Host (σ : Type) where
  next : σ → Except SourceError Token × σ
  peek : σ → Except SourceError Token × σ
  reserve : Pool.Layout → σ → Except Pool.Failure PUnit × σ
  report : Log.Event → σ → σ

namespace Parser
variable {α β σ : Type}

def bind : Parser α → (α → Parser β) → Parser β
  | done a, f => f a
  | fail e, _ => fail e
  | peek k, f => peek fun t => bind (k t) f
  | next k, f => next fun t => bind (k t) f
  | reserve l k, f => reserve l (bind k f)
  | report e k, f => report e (bind k f)

instance : Monad Parser where
  pure := done
  bind := bind

/-- Carries a plan out. The state of the host outlives a failure. -/
def run (h : Host σ) : Parser α → σ → Except ParseError α × σ
  | done a, s => (.ok a, s)
  | fail e, s => (.error e, s)
  | peek k, s =>
    match h.peek s with
    | (.ok t, s) => run h (k t) s
    | (.error e, s) => (.error (.source e), s)
  | next k, s =>
    match h.next s with
    | (.ok t, s) => run h (k t) s
    | (.error e, s) => (.error (.source e), s)
  | reserve l k, s =>
    match h.reserve l s with
    | (.ok _, s) => run h k s
    | (.error e, s) => (.error (.internal (.pool e)), s)
  | report e k, s => run h k (h.report e s)

theorem run_bind (h : Host σ) (p : Parser α) (f : α → Parser β) (s : σ) :
    (p.bind f).run h s =
      match p.run h s with
      | (.ok a, s) => (f a).run h s
      | (.error e, s) => (.error e, s) := by
  induction p generalizing s with
  | done a => rfl
  | fail e => rfl
  | peek k ih =>
    simp only [bind, run]
    rcases h.peek s with ⟨_ | t, s'⟩
    · rfl
    · exact ih t s'
  | next k ih =>
    simp only [bind, run]
    rcases h.next s with ⟨_ | t, s'⟩
    · rfl
    · exact ih t s'
  | reserve l k ih =>
    simp only [bind, run]
    rcases h.reserve l s with ⟨_ | _, s'⟩
    · rfl
    · exact ih s'
  | report e k ih => exact ih (h.report e s)

def look : Parser Token := peek done

def take : Parser Token := next done

def check (k : Kind) : Parser Bool := peek fun t => done (t.kind = k)

/-- Fails at a token that stands where something else was expected. -/
def unexpected (e : Expected) (t : Token) : Parser α := fail (.source ⟨.expected e, t.span⟩)

def expect (k : Kind) (e : Expected) : Parser Token :=
  next fun t => if t.kind = k then done t else unexpected e t

/-- Stands where a loop is cut off; the bounds on the loops are such that this is never met. -/
def stalled : Parser α := fail (.internal .stalled)

end Parser
end Frontend
