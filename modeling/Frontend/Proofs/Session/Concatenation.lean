import Frontend.Proofs.Parser.Resume
import Frontend.Proofs.Session.Accepted

/-! # Programs behind one another

Behind a text that is accepted, on a line of its own, another text is read as it is alone: no parenthesis
is open, no statement can end, and a comment that was open ends with the line. Everything that is said of
it is further on by what stands before it.
-/
namespace Frontend
open Grammar (Many)

namespace Scanner

theorem Scanned.at_end {s : Scanner} {gap piece : Text} (h : s.Scanned gap piece) {t : Token}
    (hs : s.scan.1 = .ok t) (ht : t.kind = .eof) : piece = [] ∧ s.rest = gap ∧ Skipped [] gap ∧
      t.span.start = s.offset + Text.size gap := by
  have hp : piece = [] := by
    rcases h.covers with hcov | ⟨hnil, -⟩
    · rw [hs] at hcov
      exact absurd (ht ▸ hcov.spelling t.kind rfl) not_spelling_eof
    · exact hnil
  have hrest := h.rest
  have hskip := h.skipped
  rw [h.rest_of_empty hp, hp] at hrest hskip
  refine ⟨hp, by simpa using hrest, hskip, ?_⟩
  rw [h.span_eq hs]

end Scanner

namespace Session
open Scanner
variable {source below : Text} {ts : List Token} {p : Program}

/-- Behind a text that is accepted, a scanner answers what it answers from the start. -/
theorem Accepted.answers_below (h : Accepted source ts p) (below : Text) :
    (Scanner.ofText (source ++ '\n' :: below)).answers =
      ts.map .ok ++ (Scanner.ofText below).answers.map (shiftAnswer (Text.size source + 1)) := by
  have hstart : Moved 0 [] (.ofText source) (.ofText (source ++ '\n' :: below)) := ⟨rfl, rfl, rfl⟩
  obtain ⟨s, s', hscans, hmoved, hrest, hstop, hanswers⟩ :=
    answers_followed h.answers h.token_pos hstart rfl
  -- The past of the scanner is the past at the start: nothing is open, and no statement can end.
  have hrecalls : s.Recalls (ts.map Token.kind) := hscans.recalls (recalls_initial source)
  have hdepth : s.depth = 0 := by
    rw [hrecalls.2]
    exact (h.functions.orderly Grammar.Function.orderly).1.openAfter_eq
  have hends : s.endsStatement = false :=
    Bool.eq_false_iff.2 fun hs => h.functions.not_endsStatement (hrecalls.endsStatement_iff.1 hs)
  -- What is left of the first text is layout, to which the newline belongs now.
  obtain ⟨_, _, ⟨⟩, hscan, -⟩ := answers_cases hstop
  obtain ⟨gap, piece, hpiece⟩ := s.exists_scanned
  obtain ⟨-, hgap, hskip, hstart⟩ := hpiece.at_end hscan rfl
  have hstart : Text.size source = s.offset + Text.size gap := hstart
  have hlayout : Skipped below (gap ++ ['\n']) := hskip.newline
  have hbelow : Moved (Text.size source + 1) (gap ++ ['\n']) (.ofText below) s' := by
    refine ⟨?_, hmoved.depth.trans hdepth, hmoved.endsStatement.trans hends⟩
    have hoffset := hmoved.offset
    have hnewline : Char.utf8Size '\n' = 1 := rfl
    simp only [Text.size_append, Text.size_cons, Text.size_nil] at hoffset ⊢
    change s'.offset + _ = 0 + _
    omega
  have hrest' : s'.rest = gap ++ ['\n'] ++ (Scanner.ofText below).rest := by
    rw [hrest, hgap, List.append_assoc]
    rfl
  rw [hanswers, answers_moved hbelow hrest' hlayout fun hs => by cases hs]

/-! ## Reading -/

open Frontend.Parser (Fits Refused Agrees)

theorem carried_below (source below : Text) (t : Token) :
    Carried (Text.size source + 1) below (source ++ '\n' :: below) t
      (t.shift (Text.size source + 1)) := by
  refine ⟨rfl, ?_⟩
  have htext := Span.text_shift (source ++ ['\n']) below t.span
  rw [List.append_assoc, Text.size_append] at htext
  exact htext

theorem Accepted.functions_followed (h : Accepted source ts p) (after : Text)
    {acc : Parser.Sequence Function} (hacc : acc.items = []) {n : Nat}
    (hread : (Parser.functions source n n acc).within (ts ++ [Text.stop source]) =
      some (.ok p.functions, [Text.stop source])) :
    (Parser.functions (source ++ after) n n acc).within (ts ++ [Text.stop source]) =
      some (.ok p.functions, [Text.stop source]) := by
  have hcopy : Parser.Parallel 0 source (source ++ after)
      (Copied (List.map (Function.shift 0)) (∀ f ∈ ·, f.Fresh)) (Parser.functions source n n acc)
      (Parser.functions (source ++ after) n n acc) :=
    Parser.functions_parallel n n (Parser.copiedItems_nil hacc)
  have hagrees := hcopy.within (h.carried after)
  have hrow (us : List Token) : us.map (Token.shift 0) = us := List.map_id'' Token.shift_zero us
  rw [hread, hrow] at hagrees
  generalize (Parser.functions (source ++ after) n n acc).within _ = x at hagrees
  cases hagrees with
  | read us hfs =>
    rw [hfs.eq, hrow, List.map_id'' Function.shift_zero]

/-- Over the tokens of an accepted text, and behind them those of another one, the functions of the
second are read as they are read alone. -/
theorem Accepted.program_below (h : Accepted source ts p) {us : List Token} {n : Nat}
    (hus : Fits below n us) (hn : ts.length + 1 < n) :
    Refused ((Parser.program below n).within us) ∨
      Refused ((Parser.program (source ++ '\n' :: below) (n + p.functions.length)).within
        (ts ++ us.map (Token.shift (Text.size source + 1)))) ∨
      Agrees (Text.size source + 1) (fun a b => a = .ofFunctions below a.functions ∧
          b = .ofFunctions (source ++ '\n' :: below)
            (p.functions ++ a.functions.map (Function.shift (Text.size source + 1))))
        ((Parser.program below n).within us)
        ((Parser.program (source ++ '\n' :: below) (n + p.functions.length)).within
          (ts ++ us.map (Token.shift (Text.size source + 1)))) := by
  have hread := h.within (n + p.functions.length) (by omega)
  obtain ⟨acc, hacc, hprogram⟩ := Parser.program_within hread
  rw [hprogram] at hread
  obtain ⟨fs, vs, hfs, hdone⟩ := Parser.within_bind_ok hread
  obtain ⟨hp, rfl⟩ := Prod.mk.inj (Option.some.inj hdone)
  obtain rfl : fs = p.functions := congrArg Program.functions (Except.ok.inj hp)
  obtain ⟨m, fs', hfs', hcount, hresume⟩ :=
    Parser.functions_resume h.kind_ne_eof rfl (h.functions_followed ('\n' :: below) hacc hfs)
  obtain rfl : m = n := by
    rw [hacc, List.length_nil] at hcount
    omega
  have hitems : fs'.items = p.functions ++ acc.items.map (Function.shift (Text.size source + 1)) := by
    rw [hacc, hfs', List.map_nil, List.append_nil]
  have hbehind := @Parser.functions_behind below (source ++ '\n' :: below) (m + p.functions.length) m
    acc _ p.functions fs' hitems us fun t _ => carried_below source below t
  rw [← Parser.functions_within_eq hus (Nat.le_add_right _ _), ← hresume] at hbehind
  rw [hprogram, hprogram, Parser.within_bind, Parser.within_bind]
  rcases hbehind with ⟨f, vs, hx⟩ | ⟨f, vs, hx⟩ | hagrees
  · exact .inl ⟨f, vs, by rw [hx]⟩
  · exact .inr (.inl ⟨f, vs, by rw [hx]⟩)
  · refine .inr (.inr ?_)
    generalize (Parser.functions below m m acc).within us = x at hagrees
    generalize (Parser.functions (source ++ '\n' :: below) _ _ acc).within _ = y at hagrees
    cases hagrees with
    | hungry => exact .hungry
    | read us hfs => exact .read us ⟨rfl, by rw [hfs]; rfl⟩
    | blamed e us => exact .blamed e us
    | failed e us => exact .failed e us

/-- What a text comes to behind functions that were read, from what it comes to alone. -/
inductive Below (fs : List Function) (k : Nat) (below whole : Text) :
    Except ParseError Program → Except ParseError Program → Prop
  | read (gs : List Function) : Below fs k below whole (.ok (.ofFunctions below gs))
      (.ok (.ofFunctions whole (fs ++ gs.map (Function.shift k))))
  | blamed (e : SourceError) :
      Below fs k below whole (.error (.source e)) (.error (.source (e.shift k)))
  | failed (e : InternalError) :
      Below fs k below whole (.error (.internal e)) (.error (.internal e))

theorem below_of_agrees {fs : List Function} {k : Nat} {whole : Text}
    {x y : Except ParseError Program} {us vs : List Token}
    (h : Agrees k (fun a b => a = .ofFunctions below a.functions ∧
      b = .ofFunctions whole (fs ++ a.functions.map (Function.shift k))) (some (x, us))
      (some (y, vs))) : Below fs k below whole x y := by
  cases h with
  | read us hab =>
    obtain ⟨ha, rfl⟩ := hab
    rw [ha]
    exact .read _
  | blamed e => exact .blamed e
  | failed e => exact .failed e

theorem not_refused {x : Except ParseError Program} (hx : Served x)
    {y : Option (Except ParseError Program × List Token)} (h : y = none ∨ ∃ us, y = some (x, us)) :
    ¬ Refused y := by
  rintro ⟨f, vs, hy⟩
  rcases h with rfl | ⟨us, rfl⟩
  · cases hy
  · exact hx f (Prod.mk.inj (Option.some.inj hy)).1

theorem malformed_inj {ts us : List Token} {e f : SourceError}
    {bs cs : List (Except SourceError Token)}
    (h : ts.map .ok ++ .error e :: bs = us.map .ok ++ .error f :: cs) : ts = us ∧ e = f := by
  induction ts generalizing us with
  | nil =>
    cases us with
    | nil => exact ⟨rfl, Except.error.inj (List.cons.inj h).1⟩
    | cons u us => cases (List.cons.inj h).1
  | cons t ts ih =>
    cases us with
    | nil => cases (List.cons.inj h).1
    | cons u us =>
      obtain ⟨htu, hrest⟩ := List.cons.inj h
      obtain ⟨rfl, rfl⟩ := ih hrest
      exact ⟨by rw [Except.ok.inj htu], rfl⟩

theorem Accepted.unbounded_below (h : Accepted source ts p) (hserved : Served (unbounded below))
    (hserved' : Served (unbounded (source ++ '\n' :: below))) :
    Below p.functions (Text.size source + 1) below (source ++ '\n' :: below) (unbounded below)
      (unbounded (source ++ '\n' :: below)) := by
  obtain ⟨us, -, hus, hcase⟩ := unbounded_cases below
  obtain ⟨vs, -, -, hcase'⟩ := unbounded_cases (source ++ '\n' :: below)
  have hwritten : ∀ u ∈ us, Written below u := fun u hu => (hus u hu).2
  have hanswers := h.answers_below below
  -- A bound that is large enough for all three texts.
  obtain ⟨n, hn⟩ : ∃ n, n = ts.length + us.length + vs.length + 2 := ⟨_, rfl⟩
  rcases hcase with ⟨-, hans, hw⟩ | ⟨e, bs, hans, hw⟩
  · rw [hans, map_shiftAnswer, ← List.map_append] at hanswers
    rcases hcase' with ⟨-, hans', hw'⟩ | ⟨e', bs', hans', -⟩
    · have hrow := tokens_inj (hans'.symm.trans hanswers)
      obtain ⟨ws, hw⟩ := hw n (by omega)
      obtain ⟨ws', hw'⟩ := hw' (n + p.functions.length) (by omega)
      have hfits : Fits below n (us ++ [Text.stop below]) := (fits_stopped hwritten).mono (by omega)
      rw [hrow] at hw'
      have hagrees := ((h.program_below hfits (by omega)).resolve_left
        (not_refused hserved (.inr ⟨ws, hw⟩))).resolve_left (not_refused hserved' (.inr ⟨ws', hw'⟩))
      rw [hw, hw'] at hagrees
      exact below_of_agrees hagrees
    · exact absurd (hanswers.symm.trans hans') tokens_ne_malformed
  · rw [hans, List.map_append, map_shiftAnswer, ← List.append_assoc, ← List.map_append] at hanswers
    rcases hcase' with ⟨-, hans', -⟩ | ⟨e', bs', hans', hw'⟩
    · exact absurd (hans'.symm.trans hanswers) tokens_ne_malformed
    · obtain ⟨rfl, rfl⟩ := malformed_inj (hans'.symm.trans hanswers)
      have hfits : Fits below n us := ⟨by omega, hwritten⟩
      have hw := hw n (by omega)
      have hw' := hw' (n + p.functions.length) (by omega)
      have hagrees := ((h.program_below hfits (by omega)).resolve_left
        (not_refused hserved (hw.imp_left And.left))).resolve_left
        (not_refused hserved' (hw'.imp_left And.left))
      -- Where one plan asks for more than there is, so does the other.
      rcases hw with ⟨hnone, he⟩ | ⟨ws, hw⟩ <;> rcases hw' with ⟨hnone', he'⟩ | ⟨ws', hw'⟩
      · rw [he, he']
        exact .blamed e
      · cases hw'.symm.trans (hagrees.eq_none_iff.1 hnone)
      · cases hw.symm.trans (hagrees.eq_none_iff.2 hnone')
      · rw [hw, hw'] at hagrees
        exact below_of_agrees hagrees

theorem Accepted.print_below (h : Accepted source ts p) (below : Text) (gs : List Function)
    (indent : Text) :
    (Program.ofFunctions (source ++ '\n' :: below)
        (p.functions ++ gs.map (Function.shift (Text.size source + 1)))).print indent =
      Text.join "\n\n"
        ([p.print indent, (Program.ofFunctions below gs).print indent].filter (· ≠ [])) := by
  have hsource : p.source = source := by rw [h.program]; rfl
  have hfirst : p.functions.map (Function.print (source ++ '\n' :: below) indent) =
      p.functions.map (Function.print source indent) :=
    List.map_congr_left fun f hf =>
      Function.print_after ('\n' :: below) (hsource ▸ h.nested.functions f hf) indent
  have hsecond : (gs.map (Function.shift (Text.size source + 1))).map
      (Function.print (source ++ '\n' :: below) indent) = gs.map (Function.print below indent) := by
    rw [List.map_map]
    refine List.map_congr_left fun f _ => ?_
    have hprint := Function.print_shift (source ++ ['\n']) below indent f
    rw [List.append_assoc, Text.size_append] at hprint
    exact hprint
  have hne (source : Text) (fs : List Function) :
      ∀ t ∈ fs.map (Function.print source indent), t ≠ [] := by
    intro t ht
    obtain ⟨f, -, rfl⟩ := List.mem_map.1 ht
    exact f.print_ne_nil source indent
  rw [Program.print, Program.print, Program.print, hsource]
  change Text.join "\n\n" (List.map (Function.print (source ++ '\n' :: below) indent)
    (p.functions ++ gs.map (Function.shift (Text.size source + 1)))) = _
  rw [List.map_append, hfirst, hsecond]
  exact Text.join_parts "\n\n" (hne source p.functions) (hne below gs)

/-- Behind a text that is accepted, and a newline, a text is accepted exactly if it is alone. The functions
are those of the first text and behind them those of the second, further on by the size of what stands
before it; they are printed as the two programs are, with an empty line between unless one is empty. A
second text that is in error is in the same error there, as much further on. -/
theorem texts_concatenate {sys sys' sys'' : Pool.System} {pool pool' pool'' : Pool}
    {journal journal' journal'' : Log.Journal}
    (h : (parseText sys source pool journal).1 = .ok p)
    (hbelow : Served (parseText sys' below pool' journal').1)
    (hwhole : Served (parseText sys'' (source ++ '\n' :: below) pool'' journal'').1) :
    ((∃ r, (parseText sys'' (source ++ '\n' :: below) pool'' journal'').1 = .ok r) ↔
      ∃ q, (parseText sys' below pool' journal').1 = .ok q) ∧
    (∀ q, (parseText sys' below pool' journal').1 = .ok q →
      ∃ r, (parseText sys'' (source ++ '\n' :: below) pool'' journal'').1 = .ok r ∧
        r = .ofFunctions (source ++ '\n' :: below)
          (p.functions ++ q.functions.map (Function.shift (Text.size source + 1))) ∧
        ∀ indent, r.print indent =
          Text.join "\n\n" ([p.print indent, q.print indent].filter (· ≠ []))) ∧
    ∀ e, (parseText sys' below pool' journal').1 = .error (.source e) →
      (parseText sys'' (source ++ '\n' :: below) pool'' journal'').1 =
        .error (.source (e.shift (Text.size source + 1))) := by
  obtain ⟨ts, hts⟩ := accepted_of_unbounded (unbounded_of_parseText h)
  have hbelow_eq := parseText_served hbelow
  have hwhole_eq := parseText_served hwhole
  rw [hbelow_eq] at hbelow ⊢
  rw [hwhole_eq] at hwhole ⊢
  have hunbounded := hts.unbounded_below hbelow hwhole
  generalize unbounded below = x at hunbounded
  generalize unbounded (source ++ '\n' :: below) = y at hunbounded
  cases hunbounded with
  | read gs =>
    refine ⟨⟨fun _ => ⟨_, rfl⟩, fun _ => ⟨_, rfl⟩⟩, ?_, ?_⟩
    · rintro q ⟨⟩
      exact ⟨_, rfl, rfl, hts.print_below below gs⟩
    · rintro e ⟨⟩
  | blamed e =>
    refine ⟨⟨?_, ?_⟩, ?_, ?_⟩
    · rintro ⟨r, ⟨⟩⟩
    · rintro ⟨q, ⟨⟩⟩
    · rintro q ⟨⟩
    · rintro _ ⟨⟩
      rfl
  | failed e =>
    refine ⟨⟨?_, ?_⟩, ?_, ?_⟩
    · rintro ⟨r, ⟨⟩⟩
    · rintro ⟨q, ⟨⟩⟩
    · rintro q ⟨⟩
    · rintro e ⟨⟩

theorem texts_concatenate_comment :
    let pool : Pool := ⟨.standard, ⟨0, 0x1000, 16⟩, [], 0, 0x1000⟩
    let parse (source : Text) : Except ParseError Program :=
      (parseText .standard source pool (.empty .info)).1
    (∃ p q r, parse "f(){} // f" = .ok p ∧ parse "g(){}" = .ok q ∧ parse "f(){} // f\ng(){}" = .ok r ∧
      r = .ofFunctions "f(){} // f\ng(){}" (p.functions ++ q.functions.map (Function.shift 11)) ∧
      ∀ indent, r.print indent =
        Text.join "\n\n" ([p.print indent, q.print indent].filter (· ≠ []))) ∧
    parse "f(){} // f\ng(" = .error (.source ⟨.expected .paramName, ⟨13, 0⟩⟩) := by
  have he : (parseText .standard "g(" ⟨.standard, ⟨0, 0x1000, 16⟩, [], 0, 0x1000⟩
      (.empty .info)).1 = .error (.source ⟨.expected .paramName, ⟨2, 0⟩⟩) := rfl
  have he' : (parseText .standard "f(){} // f\ng(" ⟨.standard, ⟨0, 0x1000, 16⟩, [], 0, 0x1000⟩
      (.empty .info)).1 = .error (.source ⟨.expected .paramName, ⟨13, 0⟩⟩) := rfl
  intro pool parse
  have hok {x : Except ParseError Program} {p : Program} (h : x = .ok p) : Served x := by
    rintro f rfl
    cases h
  have hbad {x : Except ParseError Program} {e : SourceError} (h : x = .error (.source e)) :
      Served x := by
    rintro f rfl
    cases h
  obtain ⟨p, hp⟩ : ∃ p, parse "f(){} // f" = .ok p := exists_of_isOk (by decide)
  obtain ⟨q, hq⟩ : ∃ q, parse "g(){}" = .ok q := exists_of_isOk (by decide)
  obtain ⟨r, hr⟩ : ∃ r, parse "f(){} // f\ng(){}" = .ok r := exists_of_isOk (by decide)
  refine ⟨⟨p, q, ?_⟩, ?_⟩
  · obtain ⟨-, hread, -⟩ := texts_concatenate hp (hok hq) (hok hr)
    obtain ⟨r, hr, heq, hprint⟩ := hread q hq
    exact ⟨r, hp, hq, hr, heq, hprint⟩
  · obtain ⟨-, -, hblame⟩ := texts_concatenate hp (hbad he) (hbad he')
    exact hblame _ he

end Session
end Frontend
