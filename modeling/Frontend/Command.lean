import Frontend.Command.File
import Frontend.Diagnostic
import Frontend.Session
import Frontend.Tree.Printer

/-! # The command

The command reads one file, parses it and prints its tree. What it writes to standard error is kept
apart by its source: a warning about the log setting, the events logged, and what it ends with. Neither
the log nor the flags bear on the tree or on the status. How options are made of the arguments is left to
a reader.
-/
namespace Frontend.Command

structure Options where
  path : Text
  noColour : Bool
  quiet : Bool
deriving DecidableEq, Repr

/-- What the command finds outside. `site` tells where the check stands that an internal error on a text
comes from, and `panicReport` is what the runtime writes for a panic with that message. -/
structure Environment where
  read : Text → Except ReadError ByteArray
  logSetting : Option Text
  terminal : Bool
  site : Text → InternalError → Site
  panicReport : Text → Text

structure Outcome where
  status : Nat
  stdout : Text
  warning : Text
  events : List Log.Event
  ending : Text

namespace Outcome

def stderr (o : Outcome) : Text := o.warning ++ (o.events.map Log.Event.line).flatten ++ o.ending

def ofDiagnostic (source : Text) (d : Diagnostic) : Outcome := ⟨1, [], [], [], d.render false source⟩

end Outcome

def logTarget : Text := "ternc::commands"

def readEvent (path source : Text) : Log.Event :=
  ⟨.debug, logTarget,
    "read " ++ Text.ofNat (Text.size source) ++ " bytes from '" ++ path ++ "'"⟩

def parsedEvent (path : Text) (program : Program) (pool : Pool) : Log.Event :=
  ⟨.info, logTarget, "parsed " ++ Text.ofNat program.functions.length ++ " function(s) from '"
    ++ path ++ "': " ++ Text.ofNat pool.used ++ " bytes used, " ++ Text.ofNat pool.committed
    ++ " committed in " ++ Text.ofNat pool.segments.length ++ " segment(s)"⟩

/-- The printed tree and a line end; nothing for a program without functions. -/
def printed (quiet : Bool) (program : Program) : Text :=
  let tree := program.print standardIndent
  if quiet ∨ tree = [] then [] else tree ++ "\n"

/-- What the command panics with when the first chunk of its pool is refused. -/
def poolPanic (e : Pool.Failure) : Text :=
  "failed to commit the initial memory pool chunk: " ++ e.debug

def parseSource (sys : Pool.System) (env : Environment) (o : Options) (warning source : Text)
    (journal : Log.Journal) : Outcome :=
  let journal := journal.report (readEvent o.path source)
  match Pool.create sys .standard with
  | .error e => ⟨101, [], warning, journal.events, env.panicReport (poolPanic e)⟩
  | .ok pool =>
    match parseText sys source pool (journal.report pool.creationEvent) with
    | (.error e, s) =>
      let colours := !o.noColour && env.terminal
      ⟨1, [], warning, s.journal.events, (e.diagnostic (env.site source)).render colours source⟩
    | (.ok program, s) =>
      ⟨0, printed o.quiet program, warning,
        (s.journal.report (parsedEvent o.path program s.pool)).events, []⟩

def parseFile (sys : Pool.System) (env : Environment) (o : Options) : Outcome :=
  let (threshold, warning) : Log.Level × Text :=
    match Log.Level.standard.configure env.logSetting with
    | .ok l => (l, [])
    | .error b => (.standard, "warning: " ++ b.message ++ "\n")
  match env.read o.path >>= decodeUtf8 with
  | .error e =>
    ⟨1, [], warning, [], "error: cannot read '" ++ o.path ++ "': " ++ e.message ++ "\n"⟩
  | .ok source => parseSource sys env o warning source (.empty threshold)

/-- The command on arguments of which the reader makes options, unless it settles the matter itself. -/
def run (reader : List Text → Except Outcome Options) (sys : Pool.System) (env : Environment)
    (args : List Text) : Outcome :=
  match reader args with
  | .ok o => parseFile sys env o
  | .error settled => settled

end Frontend.Command
