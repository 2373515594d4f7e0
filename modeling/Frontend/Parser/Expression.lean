import Frontend.Parser.Sequence
import Frontend.Token.Literal
import Frontend.Tree.Footprint

/-! # Expressions

Operators of one strength group to the left, a level of them over operands of the next. Parentheses
group and leave no trace in the tree. A comma after the last argument of a call is accepted. The number
that the loops count down bounds their turns and the depth of nesting.
-/
namespace Frontend.Parser

/-- Charges an expression to the pool. -/
def node (e : Expr) : Parser Expr := reserve Expr.layout (done e)

def operators : Precedence → List Kind
  | .comparison => [.op .eq, .op .ne, .op .gt, .op .lt, .op .ge, .op .le]
  | .sum => [.op .add, .op .sub]
  | .product => [.op .mul, .op .div]

def binaryOp : Parser BinOp := do
  let t ← take
  match t.kind with
  | .op o => return o
  | k => fail (.internal (.impossibleOp k))

/-- Joins operands to `left` as long as operators of the strength follow. -/
def chain (p : Precedence) (operand : Parser Expr) : Nat → Expr → Parser Expr
  | 0, _ => stalled
  | n + 1, left => do
    if (← look).kind ∈ operators p then
      let o ← binaryOp
      let right ← operand
      let e ← node (.binary (.combine left.span right.span) none o left right)
      chain p operand n e
    else return left

def level (p : Precedence) (operand : Parser Expr) (n : Nat) : Parser Expr := do
  chain p operand n (← operand)

def literal (source : Text) (span : Span) (suffix : Suffix) : Parser Expr :=
  let text := span.text source
  match literalValue text suffix with
  | .ok value => node (.int span none value suffix)
  | .error .malformed => fail (.internal (.malformedInt text))
  | .error .overflow => fail (.source ⟨.overflow text, span⟩)

/-- Arguments up to the closing parenthesis, or up to one that no comma follows. -/
def arguments (expression : Parser Expr) : Nat → Sequence Expr → Parser (Sequence Expr)
  | 0, _ => stalled
  | n + 1, args => do
    if ← check .rparen then return args
    else
      let args ← args.push Expr.referenceLayout (← expression)
      if ← check .comma then
        let _ ← take
        arguments expression n args
      else return args

def call (expression : Parser Expr) (callee : Span) (n : Nat) : Parser Expr := do
  let _ ← take
  let args ← arguments expression n (← Sequence.start Expr.referenceLayout)
  let close ← expect .rparen .closeParen
  node (.call (.combine callee close.span) none callee args.items)

def primary (source : Text) (expression : Unit → Parser Expr) (n : Nat) : Parser Expr := do
  let t ← take
  match t.kind with
  | .int suffix => literal source t.span suffix
  | .ident =>
    if ← check .lparen then call (expression ()) t.span n
    else node (.var t.span none t.span)
  | .lparen =>
    let inner ← expression ()
    let _ ← expect .rparen .closeParen
    return inner
  | _ => unexpected .expression t

def expression (source : Text) : Nat → Parser Expr
  | 0 => stalled
  | n + 1 =>
    let operand := primary source (fun _ => expression source n) n
    level .comparison (level .sum (level .product operand n) n) n

end Frontend.Parser
