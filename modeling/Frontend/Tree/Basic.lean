import Frontend.Token

/-! # Syntax trees

A program is a list of functions, a function a block of statements. Names are spans of the source;
every expression, statement, block and function has a span of its own. An expression has a slot for
its type, which is empty until someone fills it.
-/
namespace Frontend

inductive Expr where
  | int (span : Span) (ty : Option Ty) (value : Nat) (suffix : Suffix)
  | var (span : Span) (ty : Option Ty) (name : Span)
  | binary (span : Span) (ty : Option Ty) (op : BinOp) (left right : Expr)
  | call (span : Span) (ty : Option Ty) (callee : Span) (args : List Expr)
deriving Repr, BEq, Inhabited

namespace Expr

def span : Expr → Span
  | int s _ _ _ | var s _ _ | binary s _ _ _ _ | call s _ _ _ => s

def ty : Expr → Option Ty
  | int _ t _ _ | var _ t _ | binary _ t _ _ _ | call _ t _ _ => t

def setTy (t : Ty) : Expr → Expr
  | int s _ v k => int s t v k
  | var s _ n => var s t n
  | binary s _ o l r => binary s t o l r
  | call s _ c as => call s t c as

end Expr

inductive StmtForm where
  | bind (name : Span) (ty : Option Ty) (init : Option Expr) (mutable : Bool)
  | expr (e : Expr)
  | ret (value : Option Expr)
deriving Repr, BEq, Inhabited

structure Stmt where
  form : StmtForm
  span : Span
deriving Repr, BEq, Inhabited

/-- Statements between braces; the span holds the braces. -/
structure Block where
  stmts : List Stmt
  span : Span
deriving Repr, BEq, Inhabited

structure Param where
  name : Span
  ty : Ty
deriving DecidableEq, Repr, Inhabited

/-- A function; its span runs from the name to the closing brace. -/
structure Function where
  name : Span
  params : List Param
  ret : Ty
  body : Block
  span : Span
deriving Repr, BEq, Inhabited

structure Program where
  source : Text
  functions : List Function
  nextValue : Nat
deriving Repr, BEq, Inhabited

namespace Program

def ofFunctions (source : Text) (functions : List Function) : Program := ⟨source, functions, 1⟩

def function? (p : Program) (name : Text) : Option Function :=
  p.functions.find? fun f => f.name.text p.source = name

/-- A number that was not given before. -/
def freshValue (p : Program) : Nat × Program := (p.nextValue, { p with nextValue := p.nextValue + 1 })

end Program
end Frontend
