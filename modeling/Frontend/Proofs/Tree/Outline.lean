import Frontend.Token.Scanner
import Frontend.Tree.Printer

/-! # Outlines

An outline is what is left of a tree without its spans; a name is the text that stands for it. Outlines
are read off printed trees, with a number that bounds the turns of the reader. A printed tree does not show
type slots, so a reader leaves them empty.
-/
namespace Frontend

namespace Outline

inductive Expr where
  | int (ty : Option Ty) (value : Nat) (suffix : Suffix)
  | var (ty : Option Ty) (name : Text)
  | binary (ty : Option Ty) (op : BinOp) (left right : Expr)
  | call (ty : Option Ty) (callee : Text) (args : List Expr)
deriving Repr, BEq, Inhabited

inductive Stmt where
  | bind (name : Text) (ty : Option Ty) (init : Option Expr) (mutable : Bool)
  | expr (e : Expr)
  | ret (value : Option Expr)
deriving Repr, BEq, Inhabited

structure Function where
  name : Text
  params : List (Text × Ty)
  ret : Ty
  body : List Stmt
deriving Repr, BEq, Inhabited

end Outline

mutual

def Expr.outline (source : Text) : Expr → Outline.Expr
  | .int _ ty value suffix => .int ty value suffix
  | .var _ ty name => .var ty (name.text source)
  | .binary _ ty o left right => .binary ty o (left.outline source) (right.outline source)
  | .call _ ty callee args => .call ty (callee.text source) (Expr.outlineArgs source args)

def Expr.outlineArgs (source : Text) : List Expr → List Outline.Expr
  | [] => []
  | e :: es => e.outline source :: Expr.outlineArgs source es

end

def Stmt.outline (source : Text) (s : Stmt) : Outline.Stmt :=
  match s.form with
  | .bind name ty init mutable =>
    .bind (name.text source) ty (init.map (Expr.outline source)) mutable
  | .expr e => .expr (e.outline source)
  | .ret value => .ret (value.map (Expr.outline source))

def Function.outline (source : Text) (f : Function) : Outline.Function :=
  ⟨f.name.text source, f.params.map fun p => (p.name.text source, p.ty), f.ret,
    f.body.stmts.map (Stmt.outline source)⟩

def Program.outline (p : Program) : List Outline.Function := p.functions.map (Function.outline p.source)

/-! ## Reading -/

/-- Reads something off the front of a text, or finds something else there. -/
abbrev Reading := StateT Text Option

namespace Reading
variable {α : Type}

def lit? (s : Text) : Reading Bool := fun t =>
  if s.isPrefixOf t then some (true, t.drop s.length) else some (false, t)

def lit (s : Text) : Reading PUnit := do
  if ← lit? s then return ⟨⟩ else failure

def word : Reading Text := fun t => some (t.takeWhile isWordChar, t.dropWhile isWordChar)

def blanks : Reading PUnit := fun t => some (⟨⟩, t.dropWhile fun c => c == ' ' || c == '\t')

def behind? (s : Text) (p : Reading α) : Reading (Option α) := do
  if ← lit? s then return some (← p) else return none

def joined (sep : Text) (p : Reading α) : Nat → Reading (List α)
  | 0 => failure
  | n + 1 => do
    let a ← p
    if ← lit? sep then return a :: (← joined sep p n) else return [a]

def operator : Reading BinOp := fun t =>
  (BinOp.all.find? fun o => o.symbol = t.takeWhile (· ≠ ' ')).map fun o => (o, t.dropWhile (· ≠ ' '))

def typeName : Reading Ty := do
  let w ← word
  match (Ty.void :: Ty.written).find? fun ty => ty.name = w with
  | some ty => return ty
  | none => failure

/-- A literal if the word begins with a digit, and a variable if it does not. -/
def leaf (w : Text) : Reading Outline.Expr :=
  if w.head?.any Char.isDigit then
    match Suffix.ofText? (w.dropWhile Char.isDigit) with
    | some suffix => return .int none (Nat.ofDigitChars 10 (w.takeWhile Char.isDigit) 0) suffix
    | none => failure
  else return .var none w

mutual

def expr : Nat → Reading Outline.Expr
  | 0 => failure
  | n + 1 => do
    if ← lit? "(" then
      if ← lit? "call " then
        let callee ← word
        let args ← exprs n
        lit ")"
        return .call none callee args
      else
        let o ← operator
        lit " "
        let left ← expr n
        lit " "
        let right ← expr n
        lit ")"
        return .binary none o left right
    else leaf (← word)

def exprs : Nat → Reading (List Outline.Expr)
  | 0 => failure
  | n + 1 => do
    if ← lit? " " then
      let e ← expr n
      return e :: (← exprs n)
    else return []

end

def binding (n : Nat) (mutable : Bool) : Reading Outline.Stmt := do
  let name ← word
  let ty ← behind? ": " typeName
  let init ← behind? " = " (expr n)
  lit ")"
  return .bind name ty init mutable

def stmt (n : Nat) : Reading Outline.Stmt := do
  if ← lit? "(let " then binding n false
  else if ← lit? "(mut " then binding n true
  else if ← lit? "(return" then
    let value ← behind? " " (expr n)
    lit ")"
    return .ret value
  else return .expr (← expr n)

def stmts (n : Nat) : Nat → Reading (List Outline.Stmt)
  | 0 => failure
  | k + 1 => do
    blanks
    if ← lit? "\x7d" then return []
    else
      let s ← stmt n
      lit "\n"
      return s :: (← stmts n k)

def param : Reading (Text × Ty) := do
  let name ← word
  lit ": "
  return (name, ← typeName)

def params (n : Nat) : Reading (List (Text × Ty)) := do
  if ← lit? ")" then return []
  else
    let ps ← joined ", " param n
    lit ")"
    return ps

def function (n : Nat) : Reading Outline.Function := do
  let name ← word
  lit "("
  let params ← params n
  lit " "
  let ret ← typeName
  lit " \x7b\n"
  return ⟨name, params, ret, ← stmts n n⟩

end Reading

/-- Reads a printed program. -/
def readOutline (t : Text) : Option (List Outline.Function) :=
  if t = [] then some []
  else match (Reading.joined "\n\n" (Reading.function t.length) t.length).run t with
    | some (fs, []) => some fs
    | _ => none

example : readOutline "f(a: i32) void \x7b\n  (let b: i32 = (+ a (call g 1u8)))\n  (return)\n\x7d" =
    some [⟨"f", [("a", .int .i32)], .void,
      [.bind "b" (some (.int .i32))
          (some (.binary none .add (.var none "a") (.call none "g" [.int none 1 (some .u8)]))) false,
        .ret none]⟩] := rfl

end Frontend
