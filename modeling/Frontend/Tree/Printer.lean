import Frontend.Tree.Basic

/-! # Printed trees

Operators, calls, bindings and returns are printed as a word and its parts in parentheses, so that
grouping shows. Names are printed as the source spells them. A statement stands on a line of its own,
and an empty line stands between functions.
-/
namespace Frontend

def Suffix.literal (suffix : Suffix) (value : Nat) : Text := Text.ofNat value ++ suffix.text

mutual

def Expr.print (source : Text) : Expr → Text
  | .int _ _ value suffix => suffix.literal value
  | .var _ _ name => name.text source
  | .binary _ _ o left right =>
    "(" ++ o.symbol ++ " " ++ left.print source ++ " " ++ right.print source ++ ")"
  | .call _ _ callee args => "(call " ++ callee.text source ++ Expr.printArgs source args ++ ")"

/-- Each argument after a blank. -/
def Expr.printArgs (source : Text) : List Expr → Text
  | [] => []
  | e :: es => " " ++ e.print source ++ Expr.printArgs source es

end

namespace Expr
variable (source : Text) (span name : Span) (ty : Option Ty)

@[simp] theorem print_int (value : Nat) (suffix : Suffix) :
    (int span ty value suffix).print source = suffix.literal value := rfl

@[simp] theorem print_var : (var span ty name).print source = name.text source := rfl

@[simp] theorem print_binary (o : BinOp) (l r : Expr) : (binary span ty o l r).print source =
    "(" ++ o.symbol ++ " " ++ l.print source ++ " " ++ r.print source ++ ")" := rfl

@[simp] theorem print_call (args : List Expr) : (call span ty name args).print source =
    "(call " ++ name.text source ++ printArgs source args ++ ")" := rfl

@[simp] theorem printArgs_nil : printArgs source [] = [] := rfl

@[simp] theorem printArgs_cons (e : Expr) (es : List Expr) :
    printArgs source (e :: es) = " " ++ e.print source ++ printArgs source es := rfl

end Expr

def Stmt.print (source : Text) (s : Stmt) : Text :=
  match s.form with
  | .bind name ty init mutable =>
    (if mutable then "(mut " else "(let ") ++ name.text source
      ++ (match ty with | some ty => ": " ++ ty.name | none => [])
      ++ (match init with | some e => " = " ++ e.print source | none => []) ++ ")"
  | .expr e => e.print source
  | .ret (some e) => "(return " ++ e.print source ++ ")"
  | .ret none => "(return)"

def indentation (indent : Text) (n : Nat) : Text := (List.replicate n indent).flatten

/-- A statement on a line of its own. -/
def Stmt.printLine (source indent : Text) (depth : Nat) (s : Stmt) : Text :=
  indentation indent depth ++ s.print source ++ "\n"

def Block.print (source indent : Text) (depth : Nat) (b : Block) : Text :=
  "\x7b\n" ++ b.stmts.flatMap (Stmt.printLine source indent (depth + 1))
    ++ indentation indent depth ++ "\x7d"

def Param.print (source : Text) (p : Param) : Text := p.name.text source ++ ": " ++ p.ty.name

def Function.print (source indent : Text) (f : Function) : Text :=
  f.name.text source ++ "(" ++ Text.join ", " (f.params.map (Param.print source)) ++ ") "
    ++ f.ret.name ++ " " ++ f.body.print source indent 0

def Program.print (indent : Text) (p : Program) : Text :=
  Text.join "\n\n" (p.functions.map (Function.print p.source indent))

def standardIndent : Text := "  "

end Frontend
