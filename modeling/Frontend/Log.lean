import Frontend.Text.Blank

/-! # Levelled log

A journal keeps the events whose level passes its threshold, in the order in which they were
reported. The threshold is fixed by a setting: a level's name, or nothing.
-/
namespace Frontend.Log

/-- Levels, gravest first. -/
inductive Level where
  | error | warn | info | debug | trace
deriving DecidableEq, Repr

namespace Level

def all : List Level := [error, warn, info, debug, trace]

/-- Position among the levels; a graver level has a smaller one. -/
def rank : Level → Nat
  | error => 0 | warn => 1 | info => 2 | debug => 3 | trace => 4

def name : Level → Text
  | error => "ERROR" | warn => "WARN" | info => "INFO" | debug => "DEBUG" | trace => "TRACE"

def colour : Level → Text
  | error => "\x1b[31m" | warn => "\x1b[33m" | info => "\x1b[32m"
  | debug => "\x1b[36m" | trace => "\x1b[35m"

def admits (threshold l : Level) : Bool := l.rank ≤ threshold.rank

theorem admits_of_le {a b l : Level} (h : a.rank ≤ b.rank) (ha : a.admits l) : b.admits l := by
  simp only [admits, decide_eq_true_eq] at ha ⊢
  omega

end Level

structure BadLevel where
  given : Text
deriving DecidableEq, Repr

def BadLevel.message (b : BadLevel) : Text := "invalid log level: " ++ b.given

/-- The level a text names, in any case of ASCII letters and with blanks around it. -/
def Level.parse (t : Text) : Except BadLevel Level :=
  match Level.all.find? (·.name = (Text.trim t).map Char.toUpper) with
  | some l => .ok l
  | none => .error ⟨t⟩

theorem Level.parse_name (l : Level) : parse l.name = .ok l := by
  cases l <;> rfl

/-- The threshold after a setting: an absent or blank one changes nothing. -/
def Level.configure (threshold : Level) (setting : Option Text) : Except BadLevel Level :=
  match setting with
  | none => .ok threshold
  | some t => if Text.trim t = [] then .ok threshold else parse t

def Level.standard : Level := .info

structure Event where
  level : Level
  target : Text
  message : Text
deriving DecidableEq, Repr

def Event.line (e : Event) : Text :=
  e.level.colour ++ "[" ++ e.level.name ++ "]\x1b[0m " ++ e.target ++ ": " ++ e.message ++ "\n"

structure Journal where
  threshold : Level
  events : List Event
deriving DecidableEq, Repr

namespace Journal

def empty (threshold : Level) : Journal := ⟨threshold, []⟩

def report (j : Journal) (e : Event) : Journal :=
  if j.threshold.admits e.level then { j with events := j.events ++ [e] } else j

def reportAll (j : Journal) (es : List Event) : Journal := es.foldl report j

def text (j : Journal) : Text := (j.events.map Event.line).flatten

@[simp] theorem threshold_report (j : Journal) (e : Event) :
    (j.report e).threshold = j.threshold := by
  unfold report
  split <;> rfl

theorem events_report (j : Journal) (e : Event) :
    (j.report e).events = j.events ++ [e].filter (fun e => j.threshold.admits e.level) := by
  unfold report
  split <;> simp_all

/-- Of a sequence of reports exactly the admitted ones are kept, in order. -/
theorem events_reportAll (j : Journal) (es : List Event) :
    (j.reportAll es).events = j.events ++ es.filter (fun e => j.threshold.admits e.level) := by
  induction es generalizing j with
  | nil => simp [reportAll]
  | cons e es ih =>
    have h := ih (j.report e)
    simp only [reportAll, List.foldl_cons, threshold_report, events_report] at h ⊢
    rw [h, List.append_assoc, ← List.filter_append, List.singleton_append]

end Journal
end Frontend.Log
