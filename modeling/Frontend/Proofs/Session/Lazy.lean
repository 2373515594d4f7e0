import Frontend.Proofs.Parser.Program
import Frontend.Proofs.Session.Draft
import Frontend.Proofs.Token.Calls

/-! # Reading while lexing

A session over a lexer answers what a session over the tokens of the whole text answers. On a text that
is malformed somewhere it blames that place or one before it.
-/
namespace Frontend

/-! ## Streams without a pool -/

theorem Host.draft_alike {σ τ : Type} [TokenStream σ] [TokenStream τ] {R : σ → TokenRow → Prop}
    {R' : τ → TokenRow → Prop} (hR : Replays R) (hR' : Replays R') :
    (Host.draft σ).Alike (Host.draft τ) fun s s' => (∃ r, R s.1 r ∧ R' s'.1 r) ∧ s.2 = s'.2 where
  next := by
    rintro s s' ⟨⟨r, hs, hs'⟩, hls⟩
    obtain ⟨u, hu, hur⟩ := hR.next hs
    obtain ⟨u', hu', hur'⟩ := hR'.next hs'
    refine ⟨.ok r.head, (u, s.2), (u', s'.2), ?_, ?_, ⟨_, hur, hur'⟩, hls⟩
    · simp only [draft, hu]
    · simp only [draft, hu']
  peek := by
    rintro s s' ⟨⟨r, hs, hs'⟩, hls⟩
    obtain ⟨u, hu, hur⟩ := hR.peek hs
    obtain ⟨u', hu', hur'⟩ := hR'.peek hs'
    refine ⟨.ok r.head, (u, s.2), (u', s'.2), ?_, ?_, ⟨_, hur, hur'⟩, hls⟩
    · simp only [draft, hu]
    · simp only [draft, hu']
  reserve := by
    rintro l s s' - ⟨h, hls⟩
    exact ⟨.ok ⟨⟩, _, _, rfl, rfl, h, congrArg (· ++ [l]) hls⟩
  report := fun _ h => h

namespace Lexer

theorem replays : Replays fun (l : Lexer) r => ∃ (ts : List Token) (last : Token),
    r = ts ++ TokenRow.mk last [] ∧ ∀ n, l.nth n = .ok (ts.getD n last) where
  next := by
    rintro l _ ⟨ts, last, rfl, hl⟩
    refine ⟨l.next.2, Prod.ext ?_ rfl, ts.tail, last, ?_, fun n => ?_⟩
    · cases ts <;> exact hl 0
    · cases ts with
      | nil => rfl
      | cons t ts => exact TokenRow.advance_cons_append t ts _
    · cases ts <;> exact hl (n + 1)
  peek := by
    rintro l _ ⟨ts, last, rfl, hl⟩
    obtain ⟨hpeek, hnth⟩ := l.peek_eq
    refine ⟨l.peek.2, Prod.ext (hpeek.trans ?_) rfl, ts, last, rfl, ?_⟩
    · cases ts <;> exact hl 0
    · exact fun n => (hnth _ (hl 0) n).trans (hl n)

def Begins (l : Lexer) (as : List (Except SourceError Token)) : Prop :=
  ∀ n a, as[n]? = some a → l.nth n = a

theorem draft_supplies (e : SourceError) :
    (Host.draft Lexer).Supplies fun s ts => s.1.Begins (ts.map .ok ++ [.error e]) where
  next := by
    intro s t ts h
    have hnext : s.1.next.1 = .ok t := h 0 _ rfl
    exact ⟨(s.1.next.2, s.2), Prod.ext hnext rfl, fun n a ha => h (n + 1) a ha⟩
  peek := by
    intro s t ts h
    have hnext : s.1.next.1 = .ok t := h 0 _ rfl
    obtain ⟨hpeek, hnth⟩ := s.1.peek_eq
    exact ⟨(s.1.peek.2, s.2), Prod.ext (hpeek.trans hnext) rfl,
      fun n a ha => (hnth t hnext n).trans (h n a ha)⟩
  reserve := fun _ h => ⟨_, rfl, h⟩
  report := fun _ h => h

theorem begins_malformed {l : Lexer} {ts : List Token} {e : SourceError}
    {as bs : List (Except SourceError Token)} {last : Except SourceError Token}
    (has : as = ts.map .ok ++ .error e :: bs) (h : ∀ n, l.nth n = as.getD n last) :
    l.Begins (ts.map .ok ++ [.error e]) := by
  intro n a ha
  have hlt := (List.getElem?_eq_some_iff.1 ha).1
  rw [h, has, List.getD_eq_getElem?_getD, ← List.singleton_append, ← List.append_assoc,
    List.getElem?_append_left hlt, ha]
  rfl

theorem Begins.draft_error {l : Lexer} {e : SourceError} (h : l.Begins [.error e])
    (ls : List Pool.Layout) : (∃ s, (Host.draft Lexer).next (l, ls) = (.error e, s)) ∧
      ∃ s, (Host.draft Lexer).peek (l, ls) = (.error e, s) := by
  have hnext : l.next.1 = .error e := h 0 _ rfl
  exact ⟨⟨_, Prod.ext hnext rfl⟩, ⟨_, Prod.ext (l.peek_eq.1.trans hnext) rfl⟩⟩

end Lexer

theorem Lossless.written {source : Text} {as : List (Except SourceError Token)}
    (h : Lossless source as) {t : Token} (ht : .ok t ∈ as) : Written source t := by
  intro suffix hk
  have hpos : 0 < t.span.len := by
    refine Nat.pos_of_ne_zero fun hz => ?_
    cases h.eq_of_empty ht hz
    cases hk
  have hs := h.spelling t ht hpos
  rw [hk] at hs
  generalize hw : t.span.text source = w at hs
  cases hs with
  | keyword hmem => exact absurd (Kind.isKeyword_of_mem_keywords _ hmem) (by simp [Kind.isKeyword])
  | symbol hmem => exact absurd (Kind.growsByEq_of_mem_symbols _ hmem).1 (by simp [Kind.isWord])
  | int _ hn hd => exact ⟨_, _, hn, hd, hw, rfl⟩

namespace Session
open Frontend.Parser

/-- Of a malformed text no more is seen than the first malformed piece. -/
theorem unbounded_of_error {source : Text} {ts : List Token} {e : SourceError}
    {bs : List (Except SourceError Token)} (hlen : ts.length ≤ source.length)
    (h : Lossless source (ts.map .ok ++ .error e :: bs))
    (hl : (Lexer.ofText source).Begins (ts.map .ok ++ [.error e])) :
    unbounded source = .error (.source e) ∨
      (∃ f, unbounded source = .error (.internal (.pool f))) ∨
      ∃ d, unbounded source = .error (.source d) ∧ d.span.stop ≤ e.span.start := by
  have hmem {t : Token} (ht : t ∈ ts) :
      Except.ok t ∈ (ts.map .ok ++ .error e :: bs : List (Except SourceError Token)) :=
    List.mem_append_left _ (List.mem_map_of_mem ht)
  have hfits : Fits source (TokenStream.remaining (Lexer.ofText source) + 1) ts :=
    ⟨Nat.lt_succ_of_le (Nat.le_add_right_of_le hlen), fun t ht => h.written (hmem ht)⟩
  have hsupply := Lexer.draft_supplies e
  cases program_decides source _ hfits with
  | @read vs us p hw hts =>
    obtain ⟨t, us, rfl, ht⟩ := program_stops hw
    exact absurd ht (h.noEof t (hmem (by simp [hts])))
  | hungry hw => exact .inl (run_of_hungry hsupply (fun s hs => hs.draft_error s.2) hl hw)
  | refused hw => exact .inr (.inl ⟨_, (run_of_within hsupply hl hw).1⟩)
  | @blamed vs us t problem hts _ hw =>
    refine .inr (.inr ⟨⟨problem, t.span⟩, (run_of_within hsupply hl (hts ▸ hw us)).1, ?_⟩)
    have hord := List.pairwise_append.1 h.ordered
    exact hord.2.2 _ (List.mem_map_of_mem (by simp [hts])) _ List.mem_cons_self

/-- A buffer of all tokens is read like the text, with the same requests. -/
theorem drafted_of_lex {source : Text} {ts : List Token} {last : Token}
    (hlen : ts.length ≤ source.length + 1) (hl : last.kind = .eof) (hts : ∀ t ∈ ts, Written source t)
    (hnth : ∀ n, (Lexer.ofText source).nth n = .ok (ts.getD n last)) :
    drafted source (TokenBuffer.ofTokens (ts ++ [last])) = drafted source (Lexer.ofText source) := by
  have hrow : (TokenRow.closed (ts ++ [last])).toList = ts ++ [last] := TokenRow.toList_closed hl
  have hclosed : TokenRow.closed (ts ++ [last]) = ts ++ TokenRow.mk last [] :=
    TokenRow.toList_inj (by rw [hrow, TokenRow.toList_append]; rfl)
  have hfits : Fits source ((TokenRow.closed (ts ++ [last])).toList.length + 1)
      (TokenRow.closed (ts ++ [last])).toList := by
    refine ⟨Nat.lt_succ_self _, fun t ht => ?_⟩
    rw [hrow, List.mem_append, List.mem_singleton] at ht
    rcases ht with ht | rfl
    · exact hts t ht
    · intro suffix hk
      cases hl.symm.trans hk
  obtain ⟨x, us, hw, hx⟩ := program_answers hfits fun h => h last (by simp [hrow]) hl
  have hans : (drafted source (TokenBuffer.ofTokens (ts ++ [last]))).1 = x := drafted_of_within hw
  have hbound : (TokenRow.closed (ts ++ [last])).toList.length + 1 ≤
      TokenStream.remaining (Lexer.ofText source) + 1 := by
    rw [hrow, List.length_append, List.length_singleton]
    change ts.length + 1 + 1 ≤ source.length + 4
    omega
  rcases (program_continues source hbound (Nat.le_refl _)).run
      (Host.draft_alike TokenBuffer.replays Lexer.replays)
      (s := (TokenBuffer.ofTokens (ts ++ [last]), [])) (t := (Lexer.ofText source, []))
      ⟨⟨_, rfl, ts, last, hclosed, hnth⟩, rfl⟩ with hstall | ⟨hrun, -, hreq⟩
  · exact absurd (hans.symm.trans hstall) hx
  · exact Prod.ext hrun hreq

theorem drafted_eq {source : Text} {b : TokenBuffer} (hb : TokenBuffer.lex source = .ok b) :
    drafted source b = drafted source (Lexer.ofText source) := by
  obtain ⟨as, hlen, hlossless, hnth, ⟨ts, rfl, hlex⟩ | ⟨ts, e, bs, -, hlex⟩⟩ := lex_cases source <;>
    rw [TokenBuffer.lex, hlex] at hb <;> cases hb
  rw [List.length_map] at hlen
  refine drafted_of_lex hlen rfl (fun t ht => hlossless.written (List.mem_map_of_mem ht)) ?_
  intro n
  rw [hnth, getD_tokens]

theorem unbounded_of_lex {source : Text} {e : SourceError}
    (he : TokenBuffer.lex source = .error e) : unbounded source = .error (.source e) ∨
      (∃ f, unbounded source = .error (.internal (.pool f))) ∨
      ∃ d, unbounded source = .error (.source d) ∧ d.span.stop ≤ e.span.start := by
  obtain ⟨as, hlen, hlossless, hnth, ⟨ts, -, hlex⟩ | ⟨ts, d, bs, rfl, hlex⟩⟩ := lex_cases source <;>
    rw [TokenBuffer.lex, hlex] at he <;> cases he
  refine unbounded_of_error ?_ hlossless (Lexer.begins_malformed rfl hnth)
  simp at hlen
  omega

/-- When all of a text can be lexed, reading it while it is lexed answers what reading its tokens
answers, and equal fresh pools count the same afterwards, wherever systems that refuse alike put them.
When it cannot, reading it fails: at the first malformed piece or before, or for want of memory. -/
theorem lazy_agrees (source : Text) :
    (∀ b, TokenBuffer.lex source = .ok b → ∀ sys sys' c p q journal journal',
      sys.Covers sys' → sys'.Covers sys → Pool.create sys c = .ok p → Pool.create sys' c = .ok q →
      (parseText sys source p journal).1 = (program sys' ⟨source, b, q, journal'⟩).1 ∧
      (parseText sys source p journal).2.pool.counts =
        (program sys' ⟨source, b, q, journal'⟩).2.pool.counts) ∧
    ∀ e, TokenBuffer.lex source = .error e → ∀ sys pool journal,
      (parseText sys source pool journal).1 = .error (.source e) ∨
      (∃ f, (parseText sys source pool journal).1 = .error (.internal (.pool f))) ∨
      ∃ d, (parseText sys source pool journal).1 = .error (.source d) ∧
        d.span.stop ≤ e.span.start := by
  constructor
  · intro b hb sys sys' c p q journal journal' hcov hcov' hp hq
    obtain ⟨hlazy, hpool⟩ := parseText_eq sys source p journal
    obtain ⟨heager, hpool'⟩ := program_eq sys' ⟨source, b, q, journal'⟩
    obtain ⟨q', hq', hstep⟩ := Pool.created_inStep hp (Pool.valid_of_created hp) rfl
      (Nat.le_refl _) hcov
    cases hq.symm.trans hq'
    obtain ⟨hserve, hstep⟩ := hstep.serve_eq (.created hp) (.created hq) hcov hcov'
      (requests_ordinary source)
    rw [drafted_eq hb] at heager hpool'
    rw [hlazy, hpool, heager, hpool', hserve]
    exact ⟨rfl, hstep.counts_eq⟩
  · intro e he sys pool journal
    rw [(parseText_eq sys source pool journal).1]
    cases (pool.serve sys (requests source)).1 with
    | error f => exact .inr (.inl ⟨f, rfl⟩)
    | ok u => exact unbounded_of_lex he

theorem lazy_agrees_program :
    let source : Text := "f()\x7bg;\x7d"
    let pool : Pool := ⟨.standard, ⟨0, 0x1000, 16⟩, [], 0, 0x1000⟩
    let body : Block := ⟨[⟨.expr (.var ⟨4, 1⟩ none ⟨4, 1⟩), ⟨4, 2⟩⟩], ⟨3, 4⟩⟩
    let p : Program := .ofFunctions source [⟨⟨0, 1⟩, [], .void, body, ⟨0, 7⟩⟩]
    (∃ b, TokenBuffer.lex source = .ok b ∧
      (parseText .standard source pool (.empty .info)).1 = .ok p ∧
      (program .standard ⟨source, b, pool, .empty .info⟩).1 = .ok p ∧
      (parseText .standard source pool (.empty .info)).2.pool.counts =
        (program .standard ⟨source, b, pool, .empty .info⟩).2.pool.counts) ∧
    ∃ e, TokenBuffer.lex "f@" = .error e ∧
      ((parseText .standard "f@" pool (.empty .info)).1 = .error (.source e) ∨
        (∃ f, (parseText .standard "f@" pool (.empty .info)).1 = .error (.internal (.pool f))) ∨
        ∃ d, (parseText .standard "f@" pool (.empty .info)).1 = .error (.source d) ∧
          d.span.stop ≤ e.span.start) := by
  have hparse : (parseText .standard "f()\x7bg;\x7d" ⟨.standard, ⟨0, 0x1000, 16⟩, [], 0, 0x1000⟩
      (.empty .info)).1 = .ok (.ofFunctions "f()\x7bg;\x7d" [⟨⟨0, 1⟩, [], .void,
        ⟨[⟨.expr (.var ⟨4, 1⟩ none ⟨4, 1⟩), ⟨4, 2⟩⟩], ⟨3, 4⟩⟩, ⟨0, 7⟩⟩]) := rfl
  intro source pool body p
  have hpool : Pool.create .standard .standard = .ok pool := rfl
  let ts : List Token := [⟨.ident, ⟨0, 1⟩⟩, ⟨.lparen, ⟨1, 1⟩⟩, ⟨.rparen, ⟨2, 1⟩⟩, ⟨.lbrace, ⟨3, 1⟩⟩,
    ⟨.ident, ⟨4, 1⟩⟩, ⟨.terminator, ⟨5, 1⟩⟩, ⟨.rbrace, ⟨6, 1⟩⟩, ⟨.eof, ⟨7, 0⟩⟩]
  have hlex : lex source = .ok ts := lex_of_answers? 8 rfl
  have hgood : TokenBuffer.lex source = .ok (.ofTokens ts) := by rw [TokenBuffer.lex, hlex]; rfl
  have hlex' : lex "f@" = .error ⟨.unexpected '@', ⟨1, 1⟩⟩ := lex_of_answers? 4 rfl
  have hbad : TokenBuffer.lex "f@" = .error ⟨.unexpected '@', ⟨1, 1⟩⟩ := by
    rw [TokenBuffer.lex, hlex']; rfl
  obtain ⟨hanswer, hcounts⟩ := (lazy_agrees source).1 _ hgood _ _ _ _ _ (.empty .info)
    (.empty .info) (.refl .standard) (.refl .standard) hpool hpool
  exact ⟨⟨_, hgood, hparse, hanswer.symm.trans hparse, hcounts⟩, _, hbad,
    (lazy_agrees "f@").2 _ hbad _ _ _⟩

end Session
end Frontend
