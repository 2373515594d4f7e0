import Frontend.Tree.Basic

/-! # Types of expressions

The expressions of a program are numbered from zero in source order, a node before its parts. A later
stage fills type slots by number; a number that no expression has is ignored.
-/
namespace Frontend

mutual

/-- The number of expressions in an expression, itself included. -/
def Expr.count : Expr → Nat
  | .int .. | .var .. => 1
  | .binary _ _ _ l r => l.count + r.count + 1
  | .call _ _ _ args => Expr.countArgs args + 1

def Expr.countArgs : List Expr → Nat
  | [] => 0
  | e :: es => e.count + Expr.countArgs es

end

mutual

def Expr.annotate (t : Ty) : Nat → Expr → Expr
  | 0, e => e.setTy t
  | i + 1, .binary s ty o l r =>
    if i < l.count then .binary s ty o (l.annotate t i) r
    else .binary s ty o l (r.annotate t (i - l.count))
  | i + 1, .call s ty c args => .call s ty c (Expr.annotateArgs t i args)
  | _ + 1, e => e

def Expr.annotateArgs (t : Ty) : Nat → List Expr → List Expr
  | _, [] => []
  | i, e :: es =>
    if i < e.count then e.annotate t i :: es else e :: Expr.annotateArgs t (i - e.count) es

end

/-- The expression of a statement, if it has one. -/
def Stmt.expr? (s : Stmt) : Option Expr :=
  match s.form with
  | .bind _ _ init _ => init
  | .expr e => some e
  | .ret value => value

def Stmt.count (s : Stmt) : Nat := (s.expr?.map Expr.count).getD 0

def Stmt.annotate (t : Ty) (i : Nat) (s : Stmt) : Stmt :=
  match s.form with
  | .bind name ty init mutable => { s with form := .bind name ty (init.map (Expr.annotate t i)) mutable }
  | .expr e => { s with form := .expr (e.annotate t i) }
  | .ret value => { s with form := .ret (value.map (Expr.annotate t i)) }

def Function.count (f : Function) : Nat := f.body.stmts.foldr (fun s n => s.count + n) 0

def annotateIn {α : Type} (count : α → Nat) (annotate : Nat → α → α) : Nat → List α → List α
  | _, [] => []
  | i, a :: as =>
    if i < count a then annotate i a :: as else a :: annotateIn count annotate (i - count a) as

def Function.annotate (t : Ty) (i : Nat) (f : Function) : Function :=
  { f with body.stmts := annotateIn Stmt.count (Stmt.annotate t) i f.body.stmts }

def Program.annotate (t : Ty) (i : Nat) (p : Program) : Program :=
  { p with functions := annotateIn Function.count (Function.annotate t) i p.functions }

end Frontend
