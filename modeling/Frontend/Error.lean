import Frontend.Token
import Frontend.Pool.Config

/-! # Errors of reading a program

A source error blames a span of the source. An internal error blames no text: the pool gave out, or a
token does not fit the source or the place it is said to come from. Neither is ever turned into the other.
-/
namespace Frontend

/-- What may stand where another token was found. -/
inductive Expected where
  | closeParen | expression | typeName | variableName | valueOrEnd | valueOrType | terminator
  | openBrace | functionName | openParen | paramName | colon
deriving DecidableEq, Repr

def Expected.display : Expected → Text
  | closeParen => "')'"
  | expression => "expression"
  | typeName => "type name"
  | variableName => "variable name"
  | valueOrEnd => "'=' or ';'"
  | valueOrType => "'=' or ':'"
  | terminator => "newline or ';'"
  | openBrace => "'\x7b'"
  | functionName => "function name"
  | openParen => "'('"
  | paramName => "param name"
  | colon => "':'"

inductive Problem where
  | unexpected (c : Char)
  | badSuffix
  | expected (e : Expected)
  | overflow (literal : Text)
deriving DecidableEq, Repr

def Problem.message : Problem → Text
  | unexpected c => "unexpected character '" ++ [c] ++ "'"
  | badSuffix => "invalid integer suffix"
  | expected e => "expected " ++ e.display
  | overflow literal => "overflow on '" ++ literal ++ "'"

structure SourceError where
  problem : Problem
  span : Span
deriving DecidableEq, Repr

inductive InternalError where
  | pool (e : Pool.Failure)
  | malformedInt (literal : Text)
  | impossibleOp (k : Kind)
  | stalled
deriving DecidableEq, Repr

def InternalError.message : InternalError → Text
  | pool e => e.message
  | malformedInt literal => "malformed integer token '" ++ literal ++ "'"
  | impossibleOp k => "impossible binary op token '" ++ k.display ++ "'"
  | stalled => "parser made no progress"

inductive ParseError where
  | source (e : SourceError)
  | internal (e : InternalError)
deriving DecidableEq, Repr

def ParseError.message : ParseError → Text
  | source e => e.problem.message
  | internal e => e.message

end Frontend
