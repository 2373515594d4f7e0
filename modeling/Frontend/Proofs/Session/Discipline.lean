import Frontend.Proofs.Session.Lazy

/-! # Which errors there are

A session that reads tokens of a lexer fails for want of memory, at one of these tokens, or with the
lexer's error. That the tokens do not fit the source, or that a loop is cut off, is never the reason,
whichever entry points were called before and however these have ended.
-/
namespace Frontend
open Frontend.Parser Grammar

/-! ## Streams that were read from -/

def Lexer.Within (source : Text) (l : Lexer) : Prop :=
  ∃ k, ∀ n, l.nth n = (Lexer.ofText source).nth (k + n)

/-- The error is the lexer's first one, or it is about a token that the lexer answers before. -/
def Lexer.Blames (l : Lexer) (d : SourceError) : Prop :=
  ∃ n, (∀ m < n, ∃ t, l.nth m = .ok t) ∧
    (l.nth n = .error d ∨ ∃ t, l.nth n = .ok t ∧ d.span = t.span)

namespace Session

/-- The sessions that come of one over the text, whatever plans are carried out in it. -/
inductive Reached {σ : Type} [TokenStream σ] (source : Text) (tokens : σ) : Session σ → Prop
  | start (pool : Pool) (journal : Log.Journal) : Reached source tokens ⟨source, tokens, pool, journal⟩
  | run {α : Type} (sys : Pool.System) (plan : Parser α) {s : Session σ} :
      Reached source tokens s → Reached source tokens (plan.run (host sys) s).2

/-- One of the entry points fails with the error. -/
inductive Fails {σ : Type} [TokenStream σ] (sys : Pool.System) (s : Session σ) (e : ParseError) : Prop
  | expression : (expression sys s).1 = .error e → Fails sys s e
  | typeName : (typeName sys s).1 = .error e → Fails sys s e
  | statement : (statement sys s).1 = .error e → Fails sys s e
  | block : (block sys s).1 = .error e → Fails sys s e
  | function : (function sys s).1 = .error e → Fails sys s e
  | program : (program sys s).1 = .error e → Fails sys s e

end Session

namespace Lexer

theorem peek_nth (l : Lexer) :
    (∀ n, l.peek.2.nth n = l.nth n) ∨ ∀ n, l.peek.2.nth n = l.nth (n + 1) := by
  rcases hnext : l.next.1 with e | t
  · refine .inr fun n => ?_
    rw [peek_of_error hnext]
    rfl
  · exact .inl (l.peek_eq.2 t hnext)

variable {source : Text} {l : Lexer}

theorem Within.next (h : l.Within source) : l.next.2.Within source := by
  obtain ⟨k, hk⟩ := h
  refine ⟨k + 1, fun n => ?_⟩
  have hnext := hk (n + 1)
  rw [Nat.add_right_comm k 1 n]
  exact hnext

theorem Within.peek (h : l.Within source) : l.peek.2.Within source := by
  obtain ⟨k, hk⟩ := h
  rcases l.peek_nth with hsame | hnext
  · exact ⟨k, fun n => (hsame n).trans (hk n)⟩
  · refine ⟨k + 1, fun n => ?_⟩
    rw [hnext n, hk (n + 1), Nat.add_right_comm k 1 n]
    rfl

theorem written_nth {n : Nat} {t : Token} (h : (ofText source).nth n = .ok t) : Written source t := by
  obtain ⟨as, -, hlossless, hnth⟩ := nth_ofText source
  rw [hnth, List.getD_eq_getElem?_getD] at h
  rcases ha : as[n]? with _ | a
  · rw [ha] at h
    cases h
    rintro suffix ⟨⟩
  · rw [ha] at h
    cases h
    exact hlossless.written (List.mem_of_getElem? ha)

theorem Within.written (h : l.Within source) {n : Nat} {t : Token} (ht : l.nth n = .ok t) :
    Written source t := by
  obtain ⟨k, hk⟩ := h
  exact written_nth ((hk n).symm.trans ht)

theorem exists_left (l : Lexer) : ∃ (as : List (Except SourceError Token)) (last : Token),
    last.kind = .eof ∧ as.length + 1 ≤ TokenStream.remaining l ∧
      ∀ n, l.nth n = as.getD n (.ok last) := by
  rcases l with ⟨source, s, peeked⟩
  obtain ⟨as, hreads, hnth⟩ := exists_reads source s
  have hlen := hreads.length_le_length
  have hremaining : TokenStream.remaining (Lexer.mk source s peeked) = s.rest.length + 3 := rfl
  let last : Token := ⟨.eof, .point (s.offset + Text.size s.rest)⟩
  cases peeked with
  | none => exact ⟨as, last, rfl, by omega, hnth⟩
  | some t =>
    refine ⟨.ok t :: as, last, rfl, ?_, ?_⟩
    · rw [List.length_cons]
      omega
    · intro n
      cases n with
      | zero => rfl
      | succ n => exact hnth n

end Lexer

/-- What taking and looking keep, a plan keeps. -/
theorem Session.run_keeps {α σ : Type} [TokenStream σ] {I : σ → Prop}
    (hnext : ∀ u, I u → I (TokenStream.next u).2) (hpeek : ∀ u, I u → I (TokenStream.peek u).2)
    (sys : Pool.System) (plan : Parser α) {s : Session σ} (hs : I s.tokens) :
    I (plan.run (host sys) s).2.tokens ∧ (plan.run (host sys) s).2.source = s.source := by
  induction plan generalizing s with
  | done a | fail e => exact ⟨hs, rfl⟩
  | peek k ih =>
    have hI := hpeek _ hs
    simp only [Parser.run, host]
    rcases hx : TokenStream.peek s.tokens with ⟨e | t, u⟩ <;> rw [hx] at hI
    · exact ⟨hI, rfl⟩
    · exact ih t (s := { s with tokens := u }) hI
  | next k ih =>
    have hI := hnext _ hs
    simp only [Parser.run, host]
    rcases hx : TokenStream.next s.tokens with ⟨e | t, u⟩ <;> rw [hx] at hI
    · exact ⟨hI, rfl⟩
    · exact ih t (s := { s with tokens := u }) hI
  | reserve l k ih =>
    simp only [Parser.run, host]
    rcases s.pool.alloc sys l with ⟨e | b, pool⟩
    · exact ⟨hs, rfl⟩
    · exact ih hs
  | report e k ih => exact ih (s := { s with journal := s.journal.report e }) hs

theorem Session.Reached.keeps {σ : Type} [TokenStream σ] {source : Text} {tokens : σ} {I : σ → Prop}
    (hnext : ∀ u, I u → I (TokenStream.next u).2) (hpeek : ∀ u, I u → I (TokenStream.peek u).2)
    (htokens : I tokens) {s : Session σ} (hs : s.Reached source tokens) :
    I s.tokens ∧ s.source = source := by
  induction hs with
  | start pool journal => exact ⟨htokens, rfl⟩
  | run sys plan _ ih =>
    obtain ⟨hI, hsource⟩ := run_keeps hnext hpeek sys plan ih.1
    exact ⟨hI, hsource.trans ih.2⟩

/-! ## Plans of a rule -/

namespace Parser
variable {α : Type} {source : Text} {D : Phrases α} {n : Nat} {p : Parser α} {e : ParseError}
  {ls : List Pool.Layout}

theorem Decides.run_error {σ : Type} [TokenStream σ] {R : σ → TokenRow → Prop} (hR : Replays R)
    (hp : Decides source D n p) (hD : Bounded D) {u : σ} {r : TokenRow} (hu : R u r)
    (hfits : Fits source n r.toList) (hend : ¬ Inner r.toList)
    (h : (p.run (Host.draft σ) (u, ls)).1 = .error e) : (∃ f, e = .internal (.pool f)) ∨
      ∃ t ∈ r.toList, ∃ problem, e = .source ⟨problem, t.span⟩ := by
  have hrun {x : Except ParseError α} {us : List Token} (hw : p.within r.toList = some (x, us)) :
      x = .error e := by
    have hx := (run_of_within (Host.draft_supplies hR) (s := (u, ls)) ⟨r, hu, List.prefix_refl _⟩ hw).1
    exact hx.symm.trans h
  cases hp hfits with
  | read hw _ _ => cases hrun hw
  | hungry _ hv => exact absurd (hv.inner hD) hend
  | refused hw =>
    cases hrun hw
    exact .inl ⟨_, rfl⟩
  | @blamed vs us t problem hsplit _ hw _ =>
    cases hrun ((congrArg _ hsplit).trans (hw us))
    exact .inr ⟨t, hsplit ▸ by simp, problem, rfl⟩

/-- Over a lexer that answers tokens and then an error, a plan of a rule fails with this error, for want
of memory, or at a token. -/
theorem Decides.run_malformed (hp : Decides source D n p) {l : Lexer} {ts : List Token}
    {d : SourceError} (hl : l.Begins (ts.map .ok ++ [.error d])) (hfits : Fits source n ts)
    (h : (p.run (Host.draft Lexer) (l, ls)).1 = .error e) : (∃ f, e = .internal (.pool f)) ∨
      e = .source d ∨ ∃ t ∈ ts, ∃ problem, e = .source ⟨problem, t.span⟩ := by
  have hsupply := Lexer.draft_supplies d
  have hrun {x : Except ParseError α} {us : List Token} (hw : p.within ts = some (x, us)) :
      x = .error e := (run_of_within hsupply (s := (l, ls)) hl hw).1.symm.trans h
  cases hp hfits with
  | read hw _ _ => cases hrun hw
  | hungry hw _ =>
    have herror := run_of_hungry hsupply (fun s hs => hs.draft_error s.2) (s := (l, ls)) hl hw
    cases h.symm.trans herror
    exact .inr (.inl rfl)
  | refused hw =>
    cases hrun hw
    exact .inl ⟨_, rfl⟩
  | @blamed vs us t problem hsplit _ hw _ =>
    cases hrun ((congrArg _ hsplit).trans (hw us))
    exact .inr (.inr ⟨t, hsplit ▸ by simp, problem, rfl⟩)

inductive TypeName : Phrases Ty
  | intro {t : Token} {ty : Ty} : t.kind = .typeName ty → TypeName [t] ty

theorem TypeName.bounded : Bounded TypeName := by
  intro ts ty h
  cases h with
  | intro hk => simp [hk]

theorem typeName_decides (source : Text) (n : Nat) : Decides source TypeName n typeName := by
  intro ts _
  refine .take_bind ⟨[⟨.typeName .void, .point 0⟩], .void, by simp [Kind.isPlain], .intro rfl⟩ ?_
  rintro ⟨kind, span⟩ us -
  cases kind with
  | typeName ty => exact .inr (.done (.intro rfl) us)
  | _ => exact .inl ⟨.expected .typeName, trivial, rfl⟩

end Parser

/-! ## Sessions -/

namespace Lexer
variable {l : Lexer} {ts : List Token}

theorem Begins.of_append {as bs : List (Except SourceError Token)} (h : l.Begins (as ++ bs)) :
    l.Begins as := by
  intro n a ha
  have hlt := (List.getElem?_eq_some_iff.1 ha).1
  exact h n a (by rw [List.getElem?_append_left hlt, ha])

theorem Begins.nth_ok (h : l.Begins (ts.map .ok)) {n : Nat} (hn : n < ts.length) :
    l.nth n = .ok ts[n] :=
  h n _ (by rw [List.getElem?_map, List.getElem?_eq_getElem hn, Option.map_some])

theorem Begins.blames_token (h : l.Begins (ts.map .ok)) {t : Token} (ht : t ∈ ts) (problem : Problem) :
    l.Blames ⟨problem, t.span⟩ := by
  obtain ⟨n, hn, rfl⟩ := List.getElem_of_mem ht
  refine ⟨n, ?_, .inr ⟨ts[n], h.nth_ok hn, rfl⟩⟩
  intro m hm
  exact ⟨_, h.nth_ok (Nat.lt_trans hm hn)⟩

theorem Begins.blames_error {d : SourceError} (h : l.Begins (ts.map .ok ++ [.error d])) :
    l.Blames d := by
  refine ⟨ts.length, ?_, .inl (h _ _ (by simp))⟩
  intro m hm
  exact ⟨_, h.of_append.nth_ok hm⟩

end Lexer

namespace Session
variable {α : Type} {source : Text} {D : Phrases α} {plan : Nat → Parser α} {sys : Pool.System}
  {e : ParseError}

theorem run_error {σ : Type} [TokenStream σ] {p : Parser α} {s : Session σ}
    (h : (p.run (host sys) s).1 = .error e) : (∃ f, e = .internal (.pool f)) ∨
      (p.run (Host.draft σ) (s.tokens, [])).1 = .error e := by
  obtain ⟨more, -, hanswer, -⟩ := run_draft sys p s []
  rw [hanswer] at h
  cases hserve : (s.pool.serve sys more).1 with
  | error f =>
    rw [hserve] at h
    cases h
    exact .inl ⟨f, rfl⟩
  | ok u =>
    rw [hserve] at h
    exact .inr h

theorem lexer_error (hp : ∀ n, Decides source D n (plan n)) (hD : Bounded D) {s : Session Lexer}
    (hs : s.tokens.Within source) (h : (s.run sys plan).1 = .error e) :
    (∃ f, e = .internal (.pool f)) ∨ ∃ d, e = .source d ∧ s.tokens.Blames d := by
  obtain ⟨as, last, hlast, hlen, hnth⟩ := s.tokens.exists_left
  rcases run_error h with hpool | hdraft
  · exact .inl hpool
  rcases tokens_or_error as with ⟨ts, rfl⟩ | ⟨ts, d, bs, rfl⟩
  · -- The lexer meets no error, so its answers are a row with the end of the input behind it.
    have hbegins : s.tokens.Begins ((ts ++ [last]).map .ok) := by
      intro n a ha
      rw [hnth, List.getD_eq_getElem?_getD]
      rw [List.map_append, List.getElem?_append] at ha
      split at ha
      · rw [ha]
        rfl
      · obtain ⟨hn, rfl⟩ := List.getElem?_eq_some_iff.1 ha
        rw [List.getElem?_eq_none (by omega)]
        simp
    have hfits : Fits source (TokenStream.remaining s.tokens + 1) (ts ++ [last]) := by
      constructor
      · simp only [List.length_append, List.length_map, List.length_singleton] at hlen ⊢
        omega
      · intro t ht
        obtain ⟨n, hn, rfl⟩ := List.getElem_of_mem ht
        exact hs.written (hbegins.nth_ok hn)
    have hrow : (ts ++ TokenRow.mk last []).toList = ts ++ [last] := TokenRow.toList_append ..
    have hend : ¬ Inner (ts ++ [last]) := fun hi => hi last (by simp) hlast
    rw [← hrow] at hfits hend
    rcases (hp _).run_error Lexer.replays hD
      ⟨ts, last, rfl, fun n => (hnth n).trans (getD_tokens ts last n)⟩ hfits hend hdraft
      with hpool | ⟨t, ht, problem, rfl⟩
    · exact .inl hpool
    · rw [hrow] at ht
      exact .inr ⟨_, rfl, hbegins.blames_token ht problem⟩
  · have hbegins : s.tokens.Begins (ts.map .ok ++ [.error d]) := Lexer.begins_malformed rfl hnth
    have hfits : Fits source (TokenStream.remaining s.tokens + 1) ts := by
      constructor
      · simp only [List.length_append, List.length_map, List.length_cons] at hlen
        omega
      · intro t ht
        obtain ⟨n, hn, rfl⟩ := List.getElem_of_mem ht
        exact hs.written (hbegins.of_append.nth_ok hn)
    rcases (hp _).run_malformed hbegins hfits hdraft with hpool | rfl | ⟨t, ht, problem, rfl⟩
    · exact .inl hpool
    · exact .inr ⟨d, rfl, hbegins.blames_error⟩
    · exact .inr ⟨_, rfl, hbegins.of_append.blames_token ht problem⟩

theorem buffer_error (hp : ∀ n, Decides source D n (plan n)) (hD : Bounded D) {ts : List Token}
    {last : Token} (hlast : last.kind = .eof) (hts : ∀ t ∈ ts ++ [last], Written source t)
    {s : Session TokenBuffer} (hs : s.tokens.ahead.toList <:+ ts ++ [last])
    (h : (s.run sys plan).1 = .error e) : (∃ f, e = .internal (.pool f)) ∨
      ∃ d, e = .source d ∧ ∃ t ∈ ts ++ [last], d.span = t.span := by
  have hfits : Fits source (TokenStream.remaining s.tokens + 1) s.tokens.ahead.toList :=
    ⟨Nat.lt_succ_self _, fun t ht => hts t (hs.subset ht)⟩
  have hend : ¬ Inner s.tokens.ahead.toList := by
    obtain ⟨before, hbefore⟩ := hs
    have hsplit := List.dropLast_concat_getLast (l := s.tokens.ahead.toList) (List.cons_ne_nil _ _)
    rw [← hsplit, ← List.append_assoc] at hbefore
    obtain ⟨-, hend⟩ := List.append_inj' hbefore rfl
    cases hend
    exact fun hi => hi _ (List.getLast_mem _) hlast
  rcases run_error h with hpool | hdraft
  · exact .inl hpool
  rcases (hp _).run_error TokenBuffer.replays hD rfl hfits hend hdraft
    with hpool | ⟨t, ht, problem, rfl⟩
  · exact .inl hpool
  · exact .inr ⟨_, rfl, t, hs.subset ht, rfl⟩

theorem Fails.elim {σ : Type} [TokenStream σ] {s : Session σ} {Q : Prop} (h : s.Fails sys e)
    (hrun : ∀ {α : Type} {D : Phrases α} {plan : Nat → Parser α},
      (∀ n, Decides s.source D n (plan n)) → Bounded D → (s.run sys plan).1 = .error e → Q) : Q := by
  cases h with
  | expression h => exact hrun (expression_decides s.source) Expression.bounded h
  | typeName h => exact hrun (typeName_decides s.source) TypeName.bounded h
  | statement h => exact hrun (statement_decides s.source) Statement.bounded h
  | block h => exact hrun (block_decides s.source) Block.bounded h
  | function h => exact hrun (function_decides s.source) Function.bounded h
  | program h => exact hrun (program_decides s.source) Functions.bounded h

theorem Reached.within {s : Session Lexer} (hs : s.Reached source (.ofText source)) :
    s.tokens.Within source ∧ s.source = source := by
  have hstart : (Lexer.ofText source).Within source := ⟨0, fun n => by rw [Nat.zero_add]⟩
  exact hs.keeps (fun _ h => h.next) (fun _ h => h.peek) hstart

theorem Reached.ahead {b : TokenBuffer} {s : Session TokenBuffer} (hs : s.Reached source b) :
    s.tokens.ahead.toList <:+ b.ahead.toList ∧ s.source = source := by
  refine hs.keeps (I := fun u : TokenBuffer => u.ahead.toList <:+ b.ahead.toList) ?_ (fun _ h => h)
    (List.suffix_refl _)
  rintro ⟨tokens, ⟨t, _ | ⟨v, us⟩⟩⟩ h
  · exact h
  · exact List.IsSuffix.trans (List.suffix_cons t (v :: us)) h

/-- Reading a text fails because the pool does, with the pool's message, or it blames a token that the
lexer answers before its first error, or it is this error. The entry points of any session over the text
do so too, whatever was done in it before and however that ended, and so do those of a session over all
the tokens of the text. No error says that a token is malformed or cannot be an operator. -/
theorem errors_disciplined (source : Text) :
    (∀ sys pool journal e, (parseText sys source pool journal).1 = .error e →
      (∃ f, e = .internal (.pool f) ∧ e.message = f.message) ∨
        ∃ d, e = .source d ∧ (Lexer.ofText source).Blames d) ∧
    (∀ s : Session Lexer, s.Reached source (.ofText source) → s.tokens.Within source ∧
      ∀ sys e, s.Fails sys e → (∃ f, e = .internal (.pool f) ∧ e.message = f.message) ∨
        ∃ d, e = .source d ∧ s.tokens.Blames d) ∧
    ∀ ts, lex source = .ok ts → ∀ s : Session TokenBuffer, s.Reached source (.ofTokens ts) →
      ∀ sys e, s.Fails sys e → (∃ f, e = .internal (.pool f) ∧ e.message = f.message) ∨
        ∃ d, e = .source d ∧ ∃ t ∈ ts, d.span = t.span := by
  have hmessage {e : ParseError} (h : ∃ f, e = .internal (.pool f)) :
      ∃ f, e = .internal (.pool f) ∧ e.message = f.message := by
    obtain ⟨f, rfl⟩ := h
    exact ⟨f, rfl, rfl⟩
  have hlexer (s : Session Lexer) (hs : s.Reached source (.ofText source)) (sys : Pool.System)
      (e : ParseError) (he : s.Fails sys e) :
      (∃ f, e = .internal (.pool f) ∧ e.message = f.message) ∨
        ∃ d, e = .source d ∧ s.tokens.Blames d := by
    obtain ⟨hwithin, rfl⟩ := hs.within
    exact he.elim fun hp hD h => (lexer_error hp hD hwithin h).imp_left hmessage
  refine ⟨?_, ?_, ?_⟩
  · intro sys pool journal e he
    exact hlexer _ (.start pool journal) sys e (.program he)
  · intro s hs
    exact ⟨hs.within.1, hlexer s hs⟩
  · intro ts hts s hs sys e he
    obtain ⟨hahead, rfl⟩ := hs.ahead
    obtain ⟨as, -, hlossless, -, ⟨us, rfl, hlex⟩ | ⟨us, d, bs, -, hlex⟩⟩ := lex_cases s.source
    · obtain rfl := Except.ok.inj (hts.symm.trans hlex)
      have hwritten : ∀ t ∈ us ++ [⟨.eof, .point (Text.size s.source)⟩], Written s.source t := by
        intro t ht
        rcases List.mem_append.1 ht with ht | ht
        · exact hlossless.written (List.mem_map_of_mem ht)
        · rw [List.mem_singleton.1 ht]
          rintro suffix ⟨⟩
      have hrow : (TokenRow.closed (us ++ [⟨.eof, .point (Text.size s.source)⟩])).toList =
          us ++ [⟨.eof, .point (Text.size s.source)⟩] := TokenRow.toList_closed rfl
      change _ <:+ (TokenRow.closed (us ++ [⟨.eof, .point (Text.size s.source)⟩])).toList at hahead
      rw [hrow] at hahead
      exact he.elim fun hp hD h => (buffer_error hp hD rfl hwritten hahead h).imp_left hmessage
    · cases hts.symm.trans hlex

theorem errors_disciplined_unclosed :
    let pool : Pool := ⟨.standard, ⟨0, 0x1000, 16⟩, [], 0, 0x1000⟩
    (parseText .standard "f(" pool (.empty .info)).1 =
        .error (.source ⟨.expected .paramName, ⟨2, 0⟩⟩) ∧
      (Lexer.ofText "f(").Blames ⟨.expected .paramName, ⟨2, 0⟩⟩ := by
  intro pool
  have hrun : (match (parseText .standard "f(" pool (.empty .info)).1 with
    | .ok _ => false
    | .error e => decide (e = .source ⟨.expected .paramName, ⟨2, 0⟩⟩)) = true := by decide
  cases hparse : (parseText .standard "f(" pool (.empty .info)).1 with
  | ok p =>
    rw [hparse] at hrun
    cases hrun
  | error e =>
    rw [hparse] at hrun
    obtain rfl := of_decide_eq_true hrun
    rcases (errors_disciplined "f(").1 _ _ _ _ hparse with ⟨f, hf, -⟩ | ⟨d, hd, hblames⟩
    · cases hf
    · cases hd
      exact ⟨rfl, hblames⟩

end Session
end Frontend
