import Frontend.Parser.Expression

/-! # Statements and blocks

A statement ends with a terminator, which is part of its span. A block is read up to its closing brace;
the end of the input is met inside the statement that would come next.
-/
namespace Frontend.Parser

def typeName : Parser Ty := do
  let t ← take
  match t.kind with
  | .typeName ty => return ty
  | _ => unexpected .typeName t

def terminator : Parser Token := expect .terminator .terminator

/-- A binding, from its keyword on. It has a value or a type, or both. -/
def binding (source : Text) (n : Nat) (mutable : Bool) : Parser Stmt := do
  let first ← take
  let name ← expect .ident .variableName
  let finish (ty : Option Ty) (init : Option Expr) (last : Token) : Stmt :=
    ⟨.bind name.span ty init mutable, .combine first.span last.span⟩
  let middle ← take
  match middle.kind with
  | .assign =>
    let init ← expression source n
    return finish none init (← terminator)
  | .colon =>
    let ty ← typeName
    let after ← take
    match after.kind with
    | .assign =>
      let init ← expression source n
      return finish ty init (← terminator)
    | .terminator => return finish ty none after
    | _ => unexpected .valueOrEnd after
  | _ => unexpected .valueOrType middle

def returnStatement (source : Text) (n : Nat) : Parser Stmt := do
  let first ← take
  if ← check .terminator then
    let last ← take
    return ⟨.ret none, .combine first.span last.span⟩
  else
    let value ← expression source n
    let last ← terminator
    return ⟨.ret value, .combine first.span last.span⟩

def expressionStatement (source : Text) (n : Nat) : Parser Stmt := do
  let e ← expression source n
  let last ← terminator
  return ⟨.expr e, .combine e.span last.span⟩

def statement (source : Text) (n : Nat) : Parser Stmt := do
  match (← look).kind with
  | .letWord => binding source n false
  | .mutWord => binding source n true
  | .returnWord => returnStatement source n
  | _ => expressionStatement source n

/-- Statements up to the closing brace, which is taken. -/
def statements (source : Text) (n : Nat) : Nat → Sequence Stmt → Parser (List Stmt × Token)
  | 0, _ => stalled
  | k + 1, stmts => do
    if ← check .rbrace then
      let close ← take
      return (stmts.items, close)
    else
      let stmts ← stmts.push Stmt.layout (← statement source n)
      statements source n k stmts

def block (source : Text) (n : Nat) : Parser Block := do
  let opening ← expect .lbrace .openBrace
  let (stmts, close) ← statements source n n (← Sequence.start Stmt.layout)
  return ⟨stmts, .combine opening.span close.span⟩

end Frontend.Parser
