import Frontend.Command
import Frontend.Proofs.Session.Progress

/-! # What the log and the flags bear on

Two runs of the command on one file make the same reports, whatever their journals keep of them, and come
to the same program or error. The log setting only selects among the lines of the log, and being quiet only
leaves out the tree. The addresses that the system gives have no part in it either.
-/
namespace Frontend
open Pool (System Config)

namespace Log.Journal

def ofReports (threshold : Level) (es : List Event) : Journal := (empty threshold).reportAll es

/-- The same events were reported to both journals, to one with threshold `a` and to one with `b`. -/
def Twins (a b : Level) (j j' : Journal) : Prop := ∃ es, j = ofReports a es ∧ j' = ofReports b es

variable {a b : Level} {j j' : Journal}

theorem reportAll_ofReports (threshold : Level) (es fs : List Event) :
    (ofReports threshold es).reportAll fs = ofReports threshold (es ++ fs) :=
  List.foldl_append.symm

theorem events_ofReports (threshold : Level) (es : List Event) :
    (ofReports threshold es).events = es.filter fun e => threshold.admits e.level :=
  events_reportAll (empty threshold) es

theorem Twins.empty (a b : Level) : Twins a b (empty a) (empty b) := ⟨[], rfl, rfl⟩

theorem Twins.reportAll (h : Twins a b j j') (fs : List Event) :
    Twins a b (j.reportAll fs) (j'.reportAll fs) := by
  obtain ⟨es, rfl, rfl⟩ := h
  exact ⟨es ++ fs, reportAll_ofReports a es fs, reportAll_ofReports b es fs⟩

theorem Twins.report (h : Twins a b j j') (e : Event) : Twins a b (j.report e) (j'.report e) :=
  h.reportAll [e]

theorem Twins.events_eq (h : Twins a b j j') (hle : a.rank ≤ b.rank) :
    j.events = j'.events.filter fun e => a.admits e.level := by
  obtain ⟨es, rfl, rfl⟩ := h
  rw [events_ofReports, events_ofReports, List.filter_filter]
  refine List.filter_congr fun e _ => ?_
  cases ha : a.admits e.level with
  | false => rfl
  | true => exact (Level.admits_of_le hle ha).symm

end Log.Journal

namespace Pool
variable {sys sys' : System} {c : Config} {p q p' q' : Pool}

theorem serve_singleton (sys : System) (l : Layout) (p : Pool) :
    p.serve sys [l] = ((p.alloc sys l).1.map fun _ => (), (p.alloc sys l).2) := by
  rcases h : p.alloc sys l with ⟨e | b, p'⟩
  · exact serve_of_error h []
  · exact serve_of_ok h []

theorem growthEvents_eq (h : InStep p q) (h' : InStep p' q') (hp : p'.Sound c) (hq : q'.Sound c) :
    p.growthEvents p' = q.growthEvents q' := by
  rw [growthEvents, growthEvents, h.committed, h'.committed, hp.config, hq.config]

theorem create_refused (hgrant : sys'.Covers sys) {e : Failure} (h : create sys c = .error e) :
    create sys' c = .error e := by
  unfold create at h ⊢
  split at h
  · exact h
  · cases hs : Segment.commit sys 0 c.chunk with
    | error f =>
      rw [hs] at h
      rw [Segment.commit_refused hgrant hs]
      exact h
    | ok s =>
      rw [hs] at h
      cases h

end Pool

namespace Session
variable {σ : Type} {sys sys' : System} {c : Config} {a b : Log.Level}

/-- Only the addresses of the pools and the thresholds of the journals tell the sessions apart. -/
structure Twins (c : Config) (a b : Log.Level) (s s' : Session σ) : Prop where
  tokens : s.tokens = s'.tokens
  inStep : s.pool.InStep s'.pool
  sound : s.pool.Sound c
  sound' : s'.pool.Sound c
  journals : Log.Journal.Twins a b s.journal s'.journal

theorem twins_alike [TokenStream σ] (hgrant : sys.Covers sys') (hgrant' : sys'.Covers sys) :
    (host (σ := σ) sys).Alike (host sys') (Twins c a b) where
  next {s s'} h := by
    rcases hx : TokenStream.next s.tokens with ⟨x, tokens⟩
    have hx' : TokenStream.next s'.tokens = (x, tokens) := h.tokens ▸ hx
    refine ⟨x, { s with tokens }, { s' with tokens }, ?_, ?_, { h with tokens := rfl }⟩
    · simp only [host, hx]
    · simp only [host, hx']
  peek {s s'} h := by
    rcases hx : TokenStream.peek s.tokens with ⟨x, tokens⟩
    have hx' : TokenStream.peek s'.tokens = (x, tokens) := h.tokens ▸ hx
    refine ⟨x, { s with tokens }, { s' with tokens }, ?_, ?_, { h with tokens := rfl }⟩
    · simp only [host, hx]
    · simp only [host, hx']
  reserve {l s s'} hl h := by
    have hserve := h.inStep.serve_eq h.sound h.sound' hgrant hgrant' (List.forall_mem_singleton.2 hl)
    rw [Pool.serve_singleton, Pool.serve_singleton] at hserve
    obtain ⟨hanswer, hstep⟩ := hserve
    have hp := (h.sound.alloc sys l).1
    have hq := (h.sound'.alloc sys' l).1
    refine ⟨_, _, _, rfl, Prod.ext hanswer.symm rfl, ⟨h.tokens, hstep, hp, hq, ?_⟩⟩
    have hevents := Pool.growthEvents_eq h.inStep hstep hp hq
    have hjournals := h.journals.reportAll (s.pool.growthEvents (s.pool.alloc sys l).2)
    exact hevents ▸ hjournals
  report e h := { h with journals := h.journals.report e }

theorem parseText_twins (hgrant : sys.Covers sys') (hgrant' : sys'.Covers sys) {p q : Pool}
    (h : p.InStep q) (hp : p.Sound c) (hq : q.Sound c) {j j' : Log.Journal}
    (hj : Log.Journal.Twins a b j j') (source : Text) :
    (parseText sys source p j).1 = (parseText sys' source q j').1 ∧
      Twins c a b (parseText sys source p j).2 (parseText sys' source q j').2 := by
  let s : Session Lexer := ⟨source, .ofText source, p, j⟩
  have hanswered : (parseText sys source p j).1 ≠ .error (.internal .stalled) :=
    (returns_of_steady Lexer.candid (Parser.program_reads source) (Lexer.ends s.tokens) sys).answered
  have hplan := Parser.program_continues source
    (Nat.le_refl (TokenStream.remaining s.tokens + 1)) (Nat.le_refl _)
  have hs : Twins c a b s ⟨source, .ofText source, q, j'⟩ := ⟨rfl, h, hp, hq, hj⟩
  exact (hplan.run (twins_alike hgrant hgrant') hs).resolve_left hanswered

end Session

namespace Command
variable {sys sys' : System} {env : Environment} {setting setting' : Option Text} {o o' : Options}
  {a b : Log.Level}

/-- The outcome with only those lines of the log that the threshold admits. -/
def Outcome.upTo (threshold : Log.Level) (r : Outcome) : Outcome :=
  { r with events := r.events.filter fun e => threshold.admits e.level }

/-- Both runs end alike and have reported the same. What one prints the other prints too, unless it is
quiet, and an error prints nothing. -/
structure Outcome.Twins (a b : Log.Level) (quiet quiet' : Bool) (r r' : Outcome) : Prop where
  status : r.status = r'.status
  warning : r.warning = r'.warning
  ending : r.ending = r'.ending
  stdout : ∃ tree, r.stdout = (if quiet then [] else tree) ∧
    r'.stdout = (if quiet' then [] else tree) ∧ (r.status = 1 → tree = [])
  events : ∃ j j', Log.Journal.Twins a b j j' ∧ r.events = j.events ∧ r'.events = j'.events

theorem Outcome.Twins.stderr_eq {quiet quiet' : Bool} {r r' : Outcome}
    (h : Outcome.Twins a b quiet quiet' r r') (hle : a.rank ≤ b.rank) :
    r.stderr = (r'.upTo a).stderr := by
  obtain ⟨j, j', hj, hr, hr'⟩ := h.events
  rw [stderr, stderr, upTo, h.warning, h.ending, hr, hj.events_eq hle, hr']

theorem printed_eq (quiet : Bool) (program : Program) :
    printed quiet program = if quiet then [] else printed false program := by
  cases quiet <;> rfl

theorem parsedEvent_eq {p q : Pool} (h : p.InStep q) (path : Text) (program : Program) :
    parsedEvent path program p = parsedEvent path program q := by
  have hlen : p.segments.length = q.segments.length := congrArg (fun n => n.2.2) h.counts_eq
  rw [parsedEvent, parsedEvent, h.used, h.committed, hlen]

theorem parseSource_twins (hgrant : sys.Covers sys') (hgrant' : sys'.Covers sys)
    (hterminal : env.terminal = false) (hpath : o.path = o'.path) (warning source : Text) :
    Outcome.Twins a b o.quiet o'.quiet
      (parseSource sys { env with logSetting := setting } o warning source (.empty a))
      (parseSource sys' { env with logSetting := setting' } o' warning source (.empty b)) := by
  have hread := (Log.Journal.Twins.empty a b).report (readEvent o.path source)
  unfold parseSource
  dsimp only
  rw [← hpath]
  cases hp : Pool.create sys .standard with
  | error e =>
    rw [Pool.create_refused hgrant' hp]
    exact ⟨rfl, rfl, rfl, ⟨[], by simp, by simp, by simp⟩, _, _, hread, rfl, rfl⟩
  | ok p =>
    have hvalid := Pool.valid_of_created hp
    obtain ⟨q, hq, hstep⟩ := Pool.created_inStep hp hvalid rfl (Nat.le_refl _) hgrant
    have hevent : p.creationEvent = q.creationEvent := by
      rw [Pool.creationEvent, Pool.creationEvent, (Pool.Sound.created hp).config,
        (Pool.Sound.created hq).config]
    rw [hq]
    dsimp only
    rw [← hevent]
    obtain ⟨hanswer, hs⟩ := Session.parseText_twins hgrant hgrant' hstep (.created hp) (.created hq)
      (hread.report p.creationEvent) source
    rcases hx : parseText sys source p _ with ⟨e | program, s⟩ <;>
      rcases hx' : parseText sys' source q _ with ⟨e' | program', s'⟩ <;>
      rw [hx, hx'] at hanswer hs <;> cases hanswer
    · rw [hterminal, Bool.and_false, Bool.and_false]
      exact ⟨rfl, rfl, rfl, ⟨[], by simp, by simp, by simp⟩, _, _, hs.journals, rfl, rfl⟩
    · dsimp only
      rw [← parsedEvent_eq hs.inStep]
      refine ⟨rfl, rfl, rfl, ⟨printed false program, ?_, ?_, ?_⟩, _, _,
        hs.journals.report _, rfl, rfl⟩
      · exact printed_eq o.quiet program
      · exact printed_eq o'.quiet program
      · rintro ⟨⟩

theorem parseFile_twins (hgrant : sys.Covers sys') (hgrant' : sys'.Covers sys)
    (hterminal : env.terminal = false) (hpath : o.path = o'.path)
    (ha : Log.Level.standard.configure setting = .ok a)
    (hb : Log.Level.standard.configure setting' = .ok b) :
    Outcome.Twins a b o.quiet o'.quiet (parseFile sys { env with logSetting := setting } o)
      (parseFile sys' { env with logSetting := setting' } o') := by
  unfold parseFile
  dsimp only
  rw [ha, hb, ← hpath]
  cases env.read o.path >>= decodeUtf8 with
  | error e =>
    exact ⟨rfl, rfl, rfl, ⟨[], by simp, by simp, by simp⟩, _, _, .empty a b, rfl, rfl⟩
  | ok source => exact parseSource_twins hgrant hgrant' hterminal hpath [] source

/-- Two runs on one file, with standard error no terminal, that differ in a well-formed log setting, in the
flags and in the addresses given by the system: they end with the same status and print the same unless they
are to be quiet, and the less verbose one writes to standard error what the other one writes, without the
lines of the log above its own level. -/
theorem parseFile_noninterference (hgrant : sys.Covers sys') (hgrant' : sys'.Covers sys)
    (hterminal : env.terminal = false) (hpath : o.path = o'.path)
    (ha : Log.Level.standard.configure setting = .ok a)
    (hb : Log.Level.standard.configure setting' = .ok b) :
    let first := parseFile sys { env with logSetting := setting } o
    let second := parseFile sys' { env with logSetting := setting' } o'
    first.status = second.status ∧
      (o.quiet = o'.quiet → first.stdout = second.stdout) ∧
      (o.quiet = true → first.stdout = []) ∧ (o'.quiet = true → second.stdout = []) ∧
      (first.status = 1 → first.stdout = [] ∧ second.stdout = []) ∧
      (a.rank ≤ b.rank → first.stderr = (second.upTo a).stderr) := by
  have h := parseFile_twins hgrant hgrant' hterminal hpath ha hb
  obtain ⟨tree, hout, hout', hfailed⟩ := h.stdout
  refine ⟨h.status, ?_, ?_, ?_, ?_, h.stderr_eq⟩
  · intro hquiet
    rw [hout, hout', hquiet]
  · intro hquiet
    rw [hout, hquiet]
    rfl
  · intro hquiet
    rw [hout', hquiet]
    rfl
  · intro hstatus
    rw [hout, hout', hfailed hstatus]
    simp

theorem parseFile_noninterference_quiet_trace :
    let env : Environment := ⟨fun _ => .ok ⟨#[102, 40, 41, 123, 125]⟩, none, false,
      fun _ _ => ⟨"a", 1⟩, fun message => message ++ "\n"⟩
    let first := parseFile .standard { env with logSetting := none } ⟨"a", true, true⟩
    let second := parseFile .standard { env with logSetting := some " Trace" } ⟨"a", false, false⟩
    first.status = second.status ∧ first.stdout = [] ∧ second.stdout = "f() void \x7b\n\x7d\n" ∧
      first.stderr = (second.upTo .info).stderr ∧ first.events.length = 1 ∧ second.events.length = 5 := by
  intro env first second
  have hgrant : System.standard.Covers .standard := .refl _
  have hterminal : env.terminal = false := rfl
  have ha : Log.Level.standard.configure none = .ok .info := rfl
  have hb : Log.Level.standard.configure (some " Trace") = .ok .trace := rfl
  have hpath : Options.path ⟨"a", true, true⟩ = Options.path ⟨"a", false, false⟩ := rfl
  have h := parseFile_noninterference hgrant hgrant hterminal hpath ha hb
  exact ⟨h.1, h.2.2.1 rfl, by decide, h.2.2.2.2.2 (by decide), by decide, by decide⟩

end Command
end Frontend
