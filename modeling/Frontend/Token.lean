import Frontend.Span
import Frontend.Ty

/-! # Tokens

A token is a kind and a span. It carries no text: names and digits are read off the source through
the span. The table `keywords` and the predicate `Kind.endsStatement` are the whole of what the
scanner and the parser agree on.
-/
namespace Frontend

inductive BinOp where
  | add | sub | mul | div | eq | ne | lt | gt | le | ge
deriving DecidableEq, Repr

/-- Binding strength of the operators, weakest first. -/
inductive Precedence where
  | comparison | sum | product
deriving DecidableEq, Repr

namespace BinOp

def precedence : BinOp → Precedence
  | add | sub => .sum
  | mul | div => .product
  | eq | ne | lt | gt | le | ge => .comparison

def isComparison (o : BinOp) : Bool := o.precedence = .comparison

def symbol : BinOp → Text
  | add => "+" | sub => "-" | mul => "*" | div => "/" | eq => "=="
  | ne => "!=" | lt => "<" | gt => ">" | le => "<=" | ge => ">="

def all : List BinOp := [add, sub, mul, div, eq, ne, lt, gt, le, ge]

end BinOp

inductive Kind where
  | letWord
  | mutWord
  | returnWord
  | typeName (ty : Ty)
  | ident
  | int (suffix : Suffix)
  | op (o : BinOp)
  | assign
  | lparen
  | rparen
  | lbrace
  | rbrace
  | colon
  | comma
  | terminator
  | eof
deriving DecidableEq, Repr

namespace Kind

def isKeyword : Kind → Bool
  | letWord | mutWord | returnWord | typeName _ => true
  | _ => false

def isOperator : Kind → Bool
  | op _ => true
  | _ => false

def endsStatement : Kind → Bool
  | ident | int _ | rparen | returnWord | typeName _ => true
  | _ => false

def display : Kind → Text
  | letWord => "let"
  | mutWord => "mut"
  | returnWord => "return"
  | typeName ty => ty.name
  | ident => "identifier"
  | int _ => "integer literal"
  | op o => o.symbol
  | assign => "="
  | lparen => "("
  | rparen => ")"
  | lbrace => "\x7b"
  | rbrace => "\x7d"
  | colon => ":"
  | comma => ","
  | terminator => "newline or ';'"
  | eof => "end of input"

def keywords : List (Text × Kind) :=
  ("let", letWord) :: ("mut", mutWord) :: ("return", returnWord)
    :: Ty.written.map fun t => (t.name, typeName t)

/-- The spellings of operators and delimiters; one that begins with another stands before it. -/
def symbols : List (Text × Kind) :=
  [BinOp.eq, .ne, .le, .ge, .lt, .gt, .add, .sub, .mul, .div].map (fun o => (o.symbol, op o))
    ++ [assign, lparen, rparen, lbrace, rbrace, colon, comma].map (fun k => (k.display, k))
    ++ [([';'], terminator)]

/-- The longest symbol that the text begins with. -/
def symbol? (t : Text) : Option (Text × Kind) := symbols.find? (·.1.isPrefixOf t)

def keyword? (word : Text) : Option Kind := keywords.lookup word

end Kind

structure Token where
  kind : Kind
  span : Span
deriving DecidableEq, Repr

end Frontend
