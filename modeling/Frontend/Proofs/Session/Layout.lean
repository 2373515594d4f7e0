import Frontend.Proofs.Grammar.Alike
import Frontend.Proofs.Session.Accepted
import Frontend.Proofs.Token.Insertion

/-! # Layout does not matter

Blanks, a comment at the end of a line, and a newline where no statement may end can be put wherever no
token and no comment is cut. The tokens of the text stay what they are, and so does the tree, but for its
spans.
-/
namespace Frontend.Session
variable {source source' before after w : Text} {ts us : List Token} {last last' : Token} {p : Program}

/-- Both texts are accepted and printed alike, or neither is. -/
structure ReadAlike (x y : Except ParseError Program) : Prop where
  accepted : (∃ p, x = .ok p) ↔ ∃ q, y = .ok q
  print : ∀ p q, x = .ok p → y = .ok q → ∀ indent, q.print indent = p.print indent

theorem unbounded_alike (hanswers : (Scanner.ofText source).answers = (ts ++ [last]).map .ok)
    (hanswers' : (Scanner.ofText source').answers = (us ++ [last']).map .ok)
    (halike : Alike source source' ts us) (h : unbounded source = .ok p)
    (hserved : Served (unbounded source')) :
    ∃ q, unbounded source' = .ok q ∧ ∀ indent, q.print indent = p.print indent := by
  obtain ⟨ts', hts⟩ := accepted_of_unbounded h
  obtain rfl : ts' = ts := (List.append_inj' (tokens_inj (hts.answers.symm.trans hanswers)) rfl).1
  have hspelled : Grammar.AllSpelled source ts' :=
    hts.functions.spelled (fun _ _ hf => hf.spelled) hts.fresh
  obtain ⟨fs, hfs, hprint⟩ := hts.functions.reprinted (fun _ _ hf => hf.reprinted) us halike
  refine ⟨_, unbounded_of_functions hanswers' (hspelled.alike halike) hfs hserved, fun indent => ?_⟩
  have hprint : fs.map (Function.print source' indent) = p.functions.map (Function.print source indent) := by
    have happly := congrArg (List.map (· indent)) hprint
    simp only [List.map_map] at happly
    exact happly
  have hsource : p.source = source := by rw [hts.program]; rfl
  rw [Program.print, Program.print, hsource]
  exact congrArg _ hprint

theorem readAlike (hanswers : (Scanner.ofText source).answers = (ts ++ [last]).map .ok)
    (hanswers' : (Scanner.ofText source').answers = (us ++ [last']).map .ok)
    (halike : Alike source source' ts us) (hserved : Served (unbounded source))
    (hserved' : Served (unbounded source')) : ReadAlike (unbounded source) (unbounded source') := by
  constructor
  case accepted =>
    constructor
    · rintro ⟨p, hp⟩
      obtain ⟨q, hq, -⟩ := unbounded_alike hanswers hanswers' halike hp hserved'
      exact ⟨q, hq⟩
    · rintro ⟨q, hq⟩
      obtain ⟨p, hp, -⟩ := unbounded_alike hanswers' hanswers halike.symm hq hserved
      exact ⟨p, hp⟩
  case print =>
    intro p q hp hq
    obtain ⟨q', hq', hprint⟩ := unbounded_alike hanswers hanswers' halike hp hserved'
    obtain rfl := Except.ok.inj (hq.symm.trans hq')
    exact hprint

theorem alike_pushed (h : Lossless source (ts.map .ok)) (hparted : Parted source ts before after)
    (w : Text) : Alike source (before ++ w ++ after) ts
      (ts.map (Token.pushed (Text.size before) (Text.size w))) := by
  apply List.forall₂_map_right_iff.2
  apply List.forall₂_same.2
  intro t ht
  obtain ⟨x, piece, y, hsource, hspan⟩ := h.within (.ok t) (List.mem_map_of_mem ht)
  refine ⟨Token.kind_pushed, ?_⟩
  rw [hparted.whole] at hsource ⊢
  exact Token.text_pushed hsource hspan (hparted.token t ht) w

/-- Layout between tokens moves those behind it and leaves the others, and it makes no difference for
whether the text is accepted and how its tree is printed. -/
theorem layout_immaterial {sys sys' : Pool.System} {pool pool' : Pool} {journal journal' : Log.Journal}
    (hlex : lex source = .ok ts) (hparted : Parted source ts before after)
    (hw : Padding (kindsBefore ts (Text.size before)) after w) :
    lex (before ++ w ++ after) = .ok (ts.map (Token.pushed (Text.size before) (Text.size w))) ∧
      (Served (parseText sys source pool journal).1 →
        Served (parseText sys' (before ++ w ++ after) pool' journal').1 →
        ReadAlike (parseText sys source pool journal).1
          (parseText sys' (before ++ w ++ after) pool' journal').1) := by
  have hpadded := lex_padded hlex hparted hw
  refine ⟨hpadded, fun hserved hserved' => ?_⟩
  have hsource := parseText_served hserved
  have hpushed := parseText_served hserved'
  rw [hsource] at hserved ⊢
  rw [hpushed] at hserved' ⊢
  obtain ⟨as, -, hlossless, -, ⟨us, rfl, hlex'⟩ | ⟨us, e, bs, -, hlex'⟩⟩ := lex_cases source
  · obtain rfl := Except.ok.inj (hlex.symm.trans hlex')
    have hanswers := answers_of_lex hpadded
    rw [List.map_append] at hanswers
    have htokens : Parted source us before after :=
      ⟨hparted.whole, fun t ht => hparted.token t (List.mem_append_left _ ht), hparted.comment⟩
    exact readAlike (answers_of_lex hlex) hanswers (alike_pushed hlossless htokens w) hserved hserved'
  · cases hlex.symm.trans hlex'

theorem layout_immaterial_newline :
    let source : Text := "f()\x7bg;\x7d"
    let padded : Text := "f(\n)\x7bg;\x7d"
    let ts : List Token := [⟨.ident, ⟨0, 1⟩⟩, ⟨.lparen, ⟨1, 1⟩⟩, ⟨.rparen, ⟨2, 1⟩⟩, ⟨.lbrace, ⟨3, 1⟩⟩,
      ⟨.ident, ⟨4, 1⟩⟩, ⟨.terminator, ⟨5, 1⟩⟩, ⟨.rbrace, ⟨6, 1⟩⟩, ⟨.eof, ⟨7, 0⟩⟩]
    let pool : Pool := ⟨.standard, ⟨0, 0x1000, 16⟩, [], 0, 0x1000⟩
    let p : Program := .ofFunctions source [⟨⟨0, 1⟩, [], .void,
      ⟨[⟨.expr (.var ⟨4, 1⟩ none ⟨4, 1⟩), ⟨4, 2⟩⟩], ⟨3, 4⟩⟩, ⟨0, 7⟩⟩]
    let q : Program := .ofFunctions padded [⟨⟨0, 1⟩, [], .void,
      ⟨[⟨.expr (.var ⟨5, 1⟩ none ⟨5, 1⟩), ⟨5, 2⟩⟩], ⟨4, 4⟩⟩, ⟨0, 8⟩⟩]
    lex source = .ok ts ∧ Parted source ts "f(" ")\x7bg;\x7d" ∧
      Padding (kindsBefore ts 2) ")\x7bg;\x7d" "\n" ∧
      lex padded = .ok (ts.map (Token.pushed 2 1)) ∧
      (parseText .standard source pool (.empty .info)).1 = .ok p ∧
      (parseText .standard padded pool (.empty .info)).1 = .ok q ∧ ReadAlike (.ok p) (.ok q) := by
  intro source padded ts pool p q
  have hlex : lex source = .ok ts := lex_of_answers? 8 rfl
  have hparted : Parted source ts "f(" ")\x7bg;\x7d" := by
    refine ⟨rfl, by decide, ?_⟩
    rintro ⟨x, y, -, -, hbefore, hafter, hslashes, -⟩
    have hslash : '/' ∈ x ++ y := hslashes.subset (by simp)
    rcases List.mem_append.1 hslash with hx | hy
    · exact absurd (hbefore.subset hx) (by decide)
    · exact absurd (hafter.subset hy) (by decide)
  have hw : Padding (kindsBefore ts 2) ")\x7bg;\x7d" "\n" := by
    apply Padding.newline
    rintro ⟨⟨k, hk, hends⟩, -⟩
    obtain rfl : Kind.lparen = k := Option.some.inj hk
    cases hends
  have hp : (parseText .standard source pool (.empty .info)).1 = .ok p := by
    subst source pool p
    rfl
  have hq : (parseText .standard padded pool (.empty .info)).1 = .ok q := by
    subst padded pool q
    rfl
  obtain ⟨hpushed, halike⟩ := @layout_immaterial _ _ _ _ _ .standard .standard pool pool (.empty .info)
    (.empty .info) hlex hparted hw
  have hread := halike (served_of_ok hp) (served_of_ok hq)
  rw [hp] at hread
  exact ⟨hlex, hparted, hw, hpushed, hp, hq, hq ▸ hread⟩

end Frontend.Session
