import Frontend.Command

/-! # The program

Hands arguments, environment and files of the process to the command and writes what it answers.
-/
namespace Frontend

/-- The operating system's number, which may come negated in a word. -/
def codeOfWord (w : UInt32) : Nat := if w.toNat < 0x80000000 then w.toNat else 0x100000000 - w.toNat

def systemCode : IO.Error → Nat
  | .alreadyExists _ code _ | .otherError code _ | .resourceBusy code _
  | .resourceVanished code _ | .unsupportedOperation code _ | .hardwareFault code _
  | .unsatisfiedConstraints code _ | .illegalOperation code _ | .protocolError code _
  | .timeExpired code _ | .interrupted _ code _ | .noFileOrDirectory _ code _
  | .invalidArgument _ code _ | .permissionDenied _ code _ | .resourceExhausted _ code _
  | .inappropriateType _ code _ | .noSuchThing _ code _ => codeOfWord code
  | .unexpectedEof | .userError _ => 5

def readFile (path : Text) : IO (Except Command.ReadError ByteArray) := do
  try
    return .ok (← IO.FS.readBinFile (String.ofList path))
  catch e => return .error (.system (systemCode e))

/-- Runs the command on the arguments; the file is read before, where the reader finds options. -/
def execute (reader : List Text → Except Command.Outcome Command.Options)
    (site : Text → InternalError → Site) (panicReport : Text → Text) (args : List String) :
    IO UInt32 := do
  let args := args.map String.toList
  let contents ← match reader args with
    | .ok o => readFile o.path
    | .error _ => pure (.ok .empty)
  let logSetting := (← IO.getEnv "TERN_LOG").map String.toList
  let terminal ← (← IO.getStderr).isTty
  let outcome := Command.run reader .standard
    ⟨fun _ => contents, logSetting, terminal, site, panicReport⟩ args
  IO.print (String.ofList outcome.stdout)
  IO.eprint (String.ofList outcome.stderr)
  return outcome.status.toUInt32

end Frontend
