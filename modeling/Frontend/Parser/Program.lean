import Frontend.Parser.Statement

/-! # Functions and programs

A function is a name, parameters, a return type unless it returns nothing, and a block. Newlines may
stand before the block and before the return type. A comma between parameters may be left out.
-/
namespace Frontend.Parser

def logTarget : Text := "tern_syntax::parser"

/-- Takes the terminators ahead that are not written as a semicolon. -/
def skipNewlines (source : Text) : Nat → Parser PUnit
  | 0 => stalled
  | n + 1 => do
    let t ← look
    if t.kind = .terminator ∧ t.span.text source ≠ [';'] then
      let _ ← take
      skipNewlines source n
    else return ⟨⟩

/-- Parameters up to the closing parenthesis, which is not taken. -/
def params : Nat → Sequence Param → Parser (Sequence Param)
  | 0, _ => stalled
  | n + 1, ps => do
    if ← check .rparen then return ps
    else
      let name ← expect .ident .paramName
      let _ ← expect .colon .colon
      let ps ← ps.push Param.layout ⟨name.span, ← typeName⟩
      if ← check .comma then
        let _ ← take
        params n ps
      else params n ps

def returnType (source : Text) (n : Nat) : Parser Ty := do
  skipNewlines source n
  if ← check .lbrace then return .void
  else
    let ty ← typeName
    skipNewlines source n
    return ty

def functionEvent (source : Text) (f : Function) : Log.Event :=
  ⟨.debug, logTarget, "parsed function '" ++ f.name.text source ++ "' (" ++
    Text.ofNat f.params.length ++ " params, " ++ Text.ofNat f.body.stmts.length ++ " statements)"⟩

def function (source : Text) (n : Nat) : Parser Function := do
  let name ← expect .ident .functionName
  let _ ← expect .lparen .openParen
  let ps ← params n (← Sequence.start Param.layout)
  let _ ← take
  let ret ← returnType source n
  let body ← block source n
  let f : Function := ⟨name.span, ps.items, ret, body, .combine name.span body.span⟩
  report (functionEvent source f) (done f)

/-- Functions up to the end of the input, which is not taken. -/
def functions (source : Text) (n : Nat) : Nat → Sequence Function → Parser (List Function)
  | 0, _ => stalled
  | k + 1, fs => do
    if ← check .eof then return fs.items
    else
      let fs ← fs.push Function.layout (← function source n)
      functions source n k fs

def program (source : Text) (n : Nat) : Parser Program := do
  return .ofFunctions source (← functions source n n (← Sequence.start Function.layout))

end Frontend.Parser
