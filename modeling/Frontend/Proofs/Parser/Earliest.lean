import Frontend.Proofs.Parser.Program
import Frontend.Proofs.Session.Draft

/-! # The token that is blamed

When a session over a row of tokens fails, it blames the first token that no program can have at its
place: the tokens before it begin a program, and with it they begin none.
-/
namespace Frontend

theorem TokenRow.initial_closed (ts : List Token) : ts <+: (closed ts).toList := by
  cases ts with
  | nil => exact List.nil_prefix
  | cons t ts =>
    unfold closed
    dsimp only
    split
    · exact List.prefix_refl _
    · exact ⟨_, rfl⟩

namespace Parser
variable {source : Text}

/-- A token that one bound lets a plan blame is an error under every bound. -/
theorem program_blames {n : Nat} {ts us : List Token} {e : SourceError}
    (h : (program source n).within ts = some (.error (.source e), us)) (m : Nat) :
    ∃ f vs, (program source m).within ts = some (.error f, vs) := by
  rcases Nat.le_total n m with hnm | hmn
  · rcases (program_continues source hnm (Nat.le_refl _)).within ts with ⟨vs, hs⟩ | heq
    · cases h.symm.trans hs
    · exact ⟨.source e, us, heq.symm.trans h⟩
  · rcases (program_continues source hmn (Nat.le_refl _)).within ts with ⟨vs, hs⟩ | heq
    · exact ⟨.internal .stalled, vs, hs⟩
    · exact ⟨.source e, us, heq.trans h⟩

end Parser

namespace Session
variable {source : Text} {sys : Pool.System} {pool : Pool} {journal : Log.Journal}

def answer (sys : Pool.System) (source : Text) (pool : Pool) (journal : Log.Journal)
    (ts : List Token) : Except ParseError Program :=
  (program sys ⟨source, TokenBuffer.ofTokens ts, pool, journal⟩).1

/-- A row answers as it reads, unless the pool gives out. -/
theorem answer_eq (sys : Pool.System) (source : Text) (pool : Pool) (journal : Log.Journal)
    (ts : List Token) : (∃ f, answer sys source pool journal ts = .error (.internal (.pool f))) ∨
      answer sys source pool journal ts =
        ((Parser.program source ((TokenRow.closed ts).toList.length + 1)).read (.closed ts)).1 := by
  have h := run_host TokenBuffer.replays sys
    (Parser.program source ((TokenRow.closed ts).toList.length + 1))
    ⟨source, TokenBuffer.ofTokens ts, pool, journal⟩ rfl
  exact h.imp_right And.left

theorem answer_of_program {ts : List Token} {last : Token} {p : Program} (hl : last.kind = .eof)
    (hts : ∀ t ∈ ts, t.kind ≠ .eof ∧ Spelled source t)
    (hp : Grammar.Program source (ts ++ [last]) p) (sys : Pool.System) (pool : Pool)
    (journal : Log.Journal) : answer sys source pool journal (ts ++ [last]) = .ok p ∨
      ∃ f, answer sys source pool journal (ts ++ [last]) = .error (.internal (.pool f)) := by
  have hrow : (TokenRow.closed (ts ++ [last])).toList = ts ++ [last] := TokenRow.toList_closed hl
  rw [← hrow] at hp
  obtain ⟨s, hread⟩ := Parser.program_complete _ hp ⟨ts, last, hrow, hl, hts⟩ (Nat.le_succ _)
  rcases answer_eq sys source pool journal (ts ++ [last]) with hpool | heq
  · exact .inr hpool
  · rw [heq]
    exact hread.answer

theorem drafted_of_program {ts : List Token} {last : Token} {p : Program} (hl : last.kind = .eof)
    (hts : ∀ t ∈ ts, t.kind ≠ .eof ∧ Spelled source t)
    (hp : Grammar.Program source (ts ++ [last]) p)
    (hroom : (ts ++ [last]).length < Parser.roomLimit) :
    (drafted source (TokenBuffer.ofTokens (ts ++ [last]))).1 = .ok p := by
  have hrow : (TokenRow.closed (ts ++ [last])).toList = ts ++ [last] := TokenRow.toList_closed hl
  have hr : (TokenRow.closed (ts ++ [last])).Regular source := ⟨ts, last, hrow, hl, hts⟩
  obtain ⟨x, us, hw, -⟩ := Parser.program_answers (hr.fits (Nat.lt_succ_self _)) hr.not_inner
  have hdraft : (drafted source (TokenBuffer.ofTokens (ts ++ [last]))).1 = x := drafted_of_within hw
  rw [← hrow] at hp
  obtain ⟨r, hread⟩ := Parser.program_complete _ hp hr (Nat.le_succ _)
  rcases hread.answer with hread | ⟨f, hread⟩
  · rw [hdraft, ← Parser.read_of_within hw, hread]
  · refine absurd (hdraft.trans ((Parser.read_of_within hw).symm.trans hread))
      (drafted_granted source ?_ f)
    change (TokenRow.closed (ts ++ [last])).toList.length < Parser.roomLimit
    rw [hrow]
    exact hroom

theorem completed {vs : List Token} (hvs : ∀ v ∈ vs, v.kind ≠ .eof ∧ Spelled source v)
    (h : Grammar.Viable (Grammar.Functions source) vs) :
    ∃ us p, Grammar.Program source (vs ++ us) p ∧
      ((vs ++ us).length < Parser.roomLimit →
        (drafted source (TokenBuffer.ofTokens (vs ++ us))).1 = .ok p) ∧
      ∀ sys pool journal, answer sys source pool journal (vs ++ us) = .ok p ∨
        ∃ f, answer sys source pool journal (vs ++ us) = .error (.internal (.pool f)) := by
  obtain ⟨us, p, hus, hp⟩ := h
  have hinner : ∀ t ∈ vs ++ us, t.kind ≠ .eof ∧ Spelled source t := by
    intro t ht
    rcases List.mem_append.1 ht with ht | ht
    · exact hvs t ht
    · exact ⟨Kind.ne_eof_of_isPlain (hus t ht), .of_isPlain (hus t ht)⟩
  have hended : Grammar.Program source (vs ++ us ++ [⟨.eof, .point 0⟩]) p := hp.ended rfl
  refine ⟨us ++ [⟨.eof, .point 0⟩], p, ?_⟩
  rw [← List.append_assoc]
  exact ⟨hended, drafted_of_program rfl hinner hended, answer_of_program rfl hinner hended⟩

theorem answer_ne_ok {n : Nat} {vs : List Token} {e : SourceError}
    (h : ∀ ws, (Parser.program source n).within (vs ++ ws) = some (.error (.source e), ws))
    (us : List Token) (sys : Pool.System) (pool : Pool) (journal : Log.Journal) (p : Program) :
    answer sys source pool journal (vs ++ us) ≠ .ok p := by
  intro hp
  obtain ⟨ws, hws⟩ := TokenRow.initial_closed (vs ++ us)
  have hrow := h (us ++ ws)
  rw [← List.append_assoc, hws] at hrow
  obtain ⟨f, zs, hf⟩ := Parser.program_blames hrow ((TokenRow.closed (vs ++ us)).toList.length + 1)
  rcases answer_eq sys source pool journal (vs ++ us) with ⟨g, hg⟩ | heq
  · cases hp.symm.trans hg
  · cases hp.symm.trans (heq.trans (Parser.read_of_within hf))

/-- Over a row that ends with its only end of input and whose literals state words, a session that does
not run out of memory fails at a token. What stands before that token can be completed to a program,
which is read where nothing is refused, and no row that has the token at its place is one. -/
theorem blames_earliest {ts : List Token} {last : Token} {e : ParseError} (hl : last.kind = .eof)
    (hts : ∀ t ∈ ts, t.kind ≠ .eof ∧ Spelled source t)
    (he : answer sys source pool journal (ts ++ [last]) = .error e)
    (hpool : ∀ f, e ≠ .internal (.pool f)) :
    ∃ i t problem, (ts ++ [last])[i]? = some t ∧ e = .source ⟨problem, t.span⟩ ∧
      (∃ us p, Grammar.Program source ((ts ++ [last]).take i ++ us) p ∧
        (((ts ++ [last]).take i ++ us).length < Parser.roomLimit →
          (drafted source (TokenBuffer.ofTokens ((ts ++ [last]).take i ++ us))).1 = .ok p) ∧
        ∀ sys pool journal, answer sys source pool journal ((ts ++ [last]).take i ++ us) = .ok p ∨
          ∃ f, answer sys source pool journal ((ts ++ [last]).take i ++ us) =
            .error (.internal (.pool f))) ∧
      ∀ us sys pool journal p,
        answer sys source pool journal ((ts ++ [last]).take (i + 1) ++ us) ≠ .ok p := by
  have hrow : (TokenRow.closed (ts ++ [last])).toList = ts ++ [last] := TokenRow.toList_closed hl
  have hr : (TokenRow.closed (ts ++ [last])).Regular source := ⟨ts, last, hrow, hl, hts⟩
  rcases answer_eq sys source pool journal (ts ++ [last]) with ⟨f, hf⟩ | heq
  · cases he.symm.trans hf
    exact absurd rfl (hpool f)
  rw [he] at heq
  cases Parser.program_decides source _ (hr.fits (Nat.lt_succ_self _)) with
  | read hw => cases heq.trans (Parser.read_of_within hw)
  | hungry _ hD => exact absurd (hD.inner Grammar.Functions.bounded) hr.not_inner
  | refused hw =>
    cases heq.trans (Parser.read_of_within hw)
    exact absurd rfl (hpool _)
  | @blamed vs us t problem hsplit _ hw hD =>
    cases heq.trans (Parser.read_of_within ((congrArg _ hsplit).trans (hw us)))
    rw [hrow] at hsplit
    have hvs : ∀ v ∈ vs, v.kind ≠ .eof ∧ Spelled source v := by
      intro v hv
      have hdrop := congrArg List.dropLast hsplit
      rw [List.dropLast_concat, List.dropLast_append_of_ne_nil (List.cons_ne_nil t us)] at hdrop
      exact hts v (hdrop ▸ List.mem_append_left _ hv)
    refine ⟨vs.length, t, problem, ?_, rfl, ?_, ?_⟩
    · rw [hsplit, List.getElem?_append_right (Nat.le_refl _), Nat.sub_self]
      rfl
    · rw [hsplit, List.take_left]
      exact completed hvs hD
    · rw [hsplit, show vs ++ t :: us = vs ++ [t] ++ us by simp, List.take_left' (by simp)]
      exact answer_ne_ok fun ws => by simpa using hw ws

theorem blames_earliest_operand :
    let source : Text := "f(){1+;}"
    let row : List Token := [⟨.ident, ⟨0, 1⟩⟩, ⟨.lparen, ⟨1, 1⟩⟩, ⟨.rparen, ⟨2, 1⟩⟩, ⟨.lbrace, ⟨3, 1⟩⟩,
      ⟨.int none, ⟨4, 1⟩⟩, ⟨.op .add, ⟨5, 1⟩⟩, ⟨.terminator, ⟨6, 1⟩⟩, ⟨.rbrace, ⟨7, 1⟩⟩]
    let pool : Pool := ⟨.standard, ⟨0, 0x1000, 16⟩, [], 0, 0x1000⟩
    answer .standard source pool (.empty .info) (row ++ [⟨.eof, ⟨8, 0⟩⟩]) =
        .error (.source ⟨.expected .expression, ⟨6, 1⟩⟩) ∧
      (∃ us p, Grammar.Program source (row.take 6 ++ us) p) ∧
      ∀ us p, answer .standard source pool (.empty .info) (row.take 7 ++ us) ≠ .ok p := by
  intro source row pool
  have hrun : (match answer .standard source pool (.empty .info) (row ++ [⟨.eof, ⟨8, 0⟩⟩]) with
    | .ok _ => false
    | .error e => decide (e = .source ⟨.expected .expression, ⟨6, 1⟩⟩)) = true := by decide
  have hone : Grammar.Spells source ⟨4, 1⟩ none 1 := ⟨['1'], by simp, by simp, rfl, rfl⟩
  have hrow : ∀ t ∈ row, t.kind ≠ .eof ∧ Spelled source t := by
    simp only [row, List.forall_mem_cons, Spelled]
    simp
    exact ⟨1, by decide, hone⟩
  cases hanswer : answer .standard source pool (.empty .info) (row ++ [⟨.eof, ⟨8, 0⟩⟩]) with
  | ok p =>
    rw [hanswer] at hrun
    cases hrun
  | error e =>
  rw [hanswer] at hrun
  obtain rfl := of_decide_eq_true hrun
  obtain ⟨i, t, problem, hi, he, ⟨us, p, hp, -⟩, hno⟩ :=
    blames_earliest (rfl : (Token.mk .eof ⟨8, 0⟩).kind = .eof) hrow hanswer (by rintro f ⟨⟩)
  have hspan : t.span = ⟨6, 1⟩ := by
    injection he with he
    exact (congrArg SourceError.span he).symm
  obtain rfl : i = 6 := by
    have hmap : ((row ++ [Token.mk .eof ⟨8, 0⟩]).map Token.span)[i]? = some ⟨6, 1⟩ := by
      rw [List.getElem?_map, hi, ← hspan]
      rfl
    have hlt : i < 9 := (List.getElem?_eq_some_iff.1 hmap).1
    have honly : ∀ i < 9, ((row ++ [Token.mk .eof ⟨8, 0⟩]).map Token.span)[i]? = some ⟨6, 1⟩ →
        i = 6 := by decide
    exact honly i hlt hmap
  exact ⟨rfl, ⟨us, p, hp⟩, fun us => hno us _ _ _⟩

end Session
end Frontend
