import Frontend.Proofs.Token.Answers

/-! # Calls of a stream

A stream is called for the next token or for a look at it, in any order. Each call shows the first of the
answers that are left. A call for the next token takes it; a look takes it only if it is an error, because
a lexer has no place to keep one. So the answers that are taken one after another tell what every sequence
of calls is answered, and streams that agree in them cannot be told apart by looking.
-/
namespace Frontend

namespace TokenStream

inductive Call where
  | next
  | peek
deriving DecidableEq, Repr

def Call.takes (c : Call) (a : Except SourceError Token) : Bool := c = .next || !a.isOk

/-- What a sequence of calls shows where each shows the first answer left. -/
def shown (answer : Nat → Except SourceError Token) : List Call → List (Except SourceError Token)
  | [] => []
  | c :: cs => answer 0 :: shown (if c.takes (answer 0) then fun n => answer (n + 1) else answer) cs

variable {σ τ : Type} [TokenStream σ] [TokenStream τ]

def nth (s : σ) : Nat → Except SourceError Token
  | 0 => (next s).1
  | n + 1 => nth (next s).2 n

def call (s : σ) : Call → Except SourceError Token × σ
  | .next => next s
  | .peek => peek s

def answers (s : σ) : List Call → List (Except SourceError Token)
  | [] => []
  | c :: cs => (call s c).1 :: answers (call s c).2 cs

def after (s : σ) (cs : List Call) : σ := cs.foldl (fun s c => (call s c).2) s

def answersTo (c : Call) (s : σ) (cs : List Call) : List (Except SourceError Token) :=
  (cs.zip (answers s cs)).filterMap fun p => if p.1 = c then some p.2 else none

/-- The answers that are taken by the calls. -/
def passed (s : σ) (cs : List Call) : List (Except SourceError Token) :=
  (cs.zip (answers s cs)).filterMap fun p => if p.1.takes p.2 then some p.2 else none

/-- A look shows what is taken next, and a look at a token does not change what is taken. -/
structure Candid (σ : Type) [TokenStream σ] : Prop where
  peek_answer : ∀ s : σ, (peek s).1 = (next s).1
  nth_peek : ∀ {s : σ} {t : Token}, (next s).1 = .ok t → nth (peek s).2 = nth s

/-- Such a stream is a cursor over its answers if a look at an error takes it. -/
structure Cursor (σ : Type) [TokenStream σ] : Prop extends Candid σ where
  nth_peek_error : ∀ {s : σ} {e : SourceError}, (next s).1 = .error e →
    nth (peek s).2 = nth (next s).2

@[simp] theorem answers_nil (s : σ) : answers s [] = [] := rfl

@[simp] theorem answers_cons (s : σ) (c : Call) (cs : List Call) :
    answers s (c :: cs) = (call s c).1 :: answers (call s c).2 cs := rfl

@[simp] theorem after_nil (s : σ) : after s [] = s := rfl

@[simp] theorem after_cons (s : σ) (c : Call) (cs : List Call) :
    after s (c :: cs) = after (call s c).2 cs := rfl

theorem answersTo_cons (c : Call) (s : σ) (d : Call) (cs : List Call) :
    answersTo c s (d :: cs) =
      if d = c then (call s d).1 :: answersTo c (call s d).2 cs else answersTo c (call s d).2 cs := by
  by_cases h : d = c <;> simp [answersTo, h]

theorem passed_cons (s : σ) (c : Call) (cs : List Call) :
    passed s (c :: cs) =
      if c.takes (call s c).1 then (call s c).1 :: passed (call s c).2 cs
      else passed (call s c).2 cs := by
  cases h : c.takes (call s c).1 <;> simp [passed, h]

theorem mem_answers_of_mem {c : Call} {s : σ} {cs : List Call} {a : Except SourceError Token}
    (h : a ∈ answersTo c s cs) : a ∈ answers s cs := by
  obtain ⟨p, hp, hpa⟩ := List.mem_filterMap.1 h
  split at hpa
  · obtain rfl := Option.some.inj hpa
    exact (List.of_mem_zip hp).2
  · cases hpa

theorem mem_shown {answer : Nat → Except SourceError Token} {cs : List Call}
    {a : Except SourceError Token} (h : a ∈ shown answer cs) : ∃ n, answer n = a := by
  induction cs generalizing answer with
  | nil => cases h
  | cons c cs ih =>
    rcases List.mem_cons.1 h with rfl | h
    · exact ⟨0, rfl⟩
    · obtain ⟨n, hn⟩ := ih h
      split at hn
      · exact ⟨n + 1, hn⟩
      · exact ⟨n, hn⟩

namespace Cursor
variable {s : σ}

/-- One call shows the first answer, and takes it or leaves it. -/
theorem call_eq (hσ : Cursor σ) (s : σ) (c : Call) : (call s c).1 = nth s 0 ∧
    nth (call s c).2 = if c.takes (nth s 0) then fun n => nth s (n + 1) else nth s := by
  cases c with
  | next => exact ⟨rfl, rfl⟩
  | peek =>
    refine ⟨hσ.peek_answer s, ?_⟩
    cases h : (next s).1 with
    | ok t =>
      have hzero : nth s 0 = .ok t := h
      rw [hzero]
      exact hσ.nth_peek h
    | error e =>
      have hzero : nth s 0 = .error e := h
      rw [hzero]
      exact hσ.nth_peek_error h

theorem answers_eq (hσ : Cursor σ) (s : σ) (cs : List Call) : answers s cs = shown (nth s) cs := by
  induction cs generalizing s with
  | nil => rfl
  | cons c cs ih =>
    obtain ⟨hanswer, hrest⟩ := hσ.call_eq s c
    rw [answers_cons, shown, hanswer, ih, hrest]

theorem answers_congr (hσ : Cursor σ) (hτ : Cursor τ) {s : σ} {t : τ} (h : nth s = nth t)
    (cs : List Call) : answers s cs = answers t cs := by
  rw [hσ.answers_eq, hτ.answers_eq, h]

/-- What the calls have taken are the first answers, and the stream goes on behind them. -/
theorem passed_eq (hσ : Cursor σ) (s : σ) (cs : List Call) :
    passed s cs = (List.range (passed s cs).length).map (nth s) ∧
      ∀ n, nth (after s cs) n = nth s ((passed s cs).length + n) := by
  induction cs generalizing s with
  | nil => exact ⟨rfl, fun n => congrArg (nth s) (Nat.zero_add n).symm⟩
  | cons c cs ih =>
    obtain ⟨hanswer, hrest⟩ := hσ.call_eq s c
    obtain ⟨hpassed, hafter⟩ := ih (call s c).2
    rw [passed_cons, hanswer, after_cons]
    by_cases htakes : c.takes (nth s 0)
    · rw [if_pos htakes] at hrest
      rw [hrest] at hpassed hafter
      rw [if_pos htakes]
      refine ⟨?_, fun n => ?_⟩
      · rw [List.length_cons, List.range_succ_eq_map, List.map_cons, List.map_map]
        exact congrArg (nth s 0 :: ·) hpassed
      · rw [hafter, List.length_cons, Nat.add_right_comm]
    · rw [if_neg htakes] at hrest
      rw [hrest] at hpassed hafter
      rw [if_neg htakes]
      exact ⟨hpassed, hafter⟩

/-- Looks that show tokens take nothing, so the calls for the next token are answered as if there were no
looks between them. -/
theorem answersTo_next (hσ : Cursor σ) {cs : List Call}
    (hlooks : ∀ a ∈ answersTo .peek s cs, a.isOk) :
    answersTo .next s cs = (List.range (cs.count .next)).map (nth s) := by
  induction cs generalizing s with
  | nil => rfl
  | cons c cs ih =>
    obtain ⟨hanswer, hrest⟩ := hσ.call_eq s c
    rw [answersTo_cons] at hlooks
    rw [answersTo_cons, hanswer]
    cases c with
    | next =>
      rw [if_pos rfl, List.count_cons_self, List.range_succ_eq_map, List.map_cons, List.map_map]
      exact congrArg (nth s 0 :: ·) ((ih hlooks).trans (by rw [hrest]; rfl))
    | peek =>
      obtain ⟨hlook, hlooks⟩ := List.forall_mem_cons.1 hlooks
      rw [hanswer] at hlook
      have hkept : nth (call s .peek).2 = nth s := by
        rw [hrest, if_neg]
        simp [Call.takes, hlook]
      rw [if_neg (by simp), List.count_cons_of_ne (by simp), ih hlooks, hkept]

end Cursor
end TokenStream

/-! ## Lexers -/

namespace Lexer

theorem nth_eq (l : Lexer) (n : Nat) : TokenStream.nth l n = l.nth n := by
  induction n generalizing l with
  | zero => rfl
  | succ n ih => exact ih l.next.2

/-- A token that was looked at is kept and then taken, so that the look leaves no trace. -/
theorem peek_of_token {l : Lexer} {t : Token} (h : l.next.1 = .ok t) :
    l.peek.1 = .ok t ∧ l.peek.2.peek = l.peek ∧ l.peek.2.next = l.next := by
  rcases l with ⟨source, s, _ | u⟩
  · rcases hs : s.scan with ⟨e | u, s'⟩
    · simp [next, hs] at h
    · obtain rfl : u = t := by simpa [next, hs] using h
      simp [peek, next, hs]
  · exact ⟨h, rfl, rfl⟩

theorem peek_of_error {l : Lexer} {e : SourceError} (h : l.next.1 = .error e) : l.peek = l.next := by
  rcases l with ⟨source, s, _ | u⟩
  · rcases hs : s.scan with ⟨d | u, s'⟩
    · simp [peek, next, hs]
    · simp [next, hs] at h
  · cases h

theorem peek_eq (l : Lexer) : l.peek.1 = l.next.1 ∧
    ∀ t, l.next.1 = .ok t → ∀ n, l.peek.2.nth n = l.nth n := by
  cases h : l.next.1 with
  | error e =>
    rw [peek_of_error h]
    exact ⟨h, by simp⟩
  | ok t =>
    obtain ⟨hanswer, -, hnext⟩ := peek_of_token h
    refine ⟨hanswer, fun _ _ n => ?_⟩
    cases n with
    | zero => exact congrArg Prod.fst hnext
    | succ n => exact congrArg (fun x => nth x.2 n) hnext

theorem cursor : TokenStream.Cursor Lexer where
  peek_answer l := l.peek_eq.1
  nth_peek := by
    intro l t ht
    funext n
    rw [nth_eq, nth_eq]
    exact l.peek_eq.2 t ht n
  nth_peek_error := fun {l e} h => congrArg (fun x : _ × Lexer => TokenStream.nth x.2) (peek_of_error h)

theorem candid : TokenStream.Candid Lexer := cursor.toCandid

theorem next_ne_error {l : Lexer} {e : SourceError} (h : l.next.1 = .error e) :
    l.next.2.next.1 ≠ .error e := by
  rcases l with ⟨source, s, _ | t⟩
  · obtain ⟨as, hreads, hnth⟩ := exists_reads source s
    have hfirst := hnth 0
    have hsecond : (Lexer.next ⟨source, s, none⟩).2.next.1 = _ := hnth 1
    rw [hsecond]
    rw [show nth ⟨source, s, none⟩ 0 = .error e from h] at hfirst
    rcases as with _ | ⟨a, _ | ⟨b, as⟩⟩
    · cases hfirst
    · rintro ⟨⟩
    · -- An error covers some of the text, so the answer behind it starts later.
      have ha : a = .error e := hfirst.symm
      subst ha
      rintro (hb : b = .error e)
      subst hb
      have hlen := hreads.dropLast_nonempty (.error e) (by simp)
      have hle := (List.pairwise_cons.1 hreads.pairwise).1 (.error e) (by simp)
      simp only [Span.stop] at hle
      omega
  · cases h

/-- What a look at a lexer shows, and what it does to the calls behind it. -/
structure Looks (l : Lexer) : Prop where
  answer : l.peek.1 = l.next.1
  token : ∀ t, l.next.1 = .ok t → l.peek.2.peek = l.peek ∧ l.peek.2.next = l.next
  error : ∀ e, l.next.1 = .error e → l.peek.2 = l.next.2 ∧ l.peek.2.peek.1 ≠ l.peek.1
  harmless : (∀ cs, TokenStream.answers l.peek.2 cs = TokenStream.answers l cs) ↔
    ∃ t, l.next.1 = .ok t
  passed : ∀ cs, TokenStream.passed l cs =
      (List.range (TokenStream.passed l cs).length).map (TokenStream.nth l) ∧
    ∀ n, TokenStream.nth (TokenStream.after l cs) n =
      TokenStream.nth l ((TokenStream.passed l cs).length + n)
  inserted : ∀ cs, (∀ a ∈ TokenStream.answersTo .peek l cs, a.isOk) →
    TokenStream.answersTo .next l cs = (List.range (cs.count .next)).map (TokenStream.nth l)

/-- In whatever state a lexer is, a look shows what is taken next. A token is still there afterwards, and
nothing shows that there was a look. An error is not: the look has taken it, and the next call shows what
stands behind it. So what the calls take, looks at errors included, are the lexer's answers in order, and
looks that show tokens only may be put in or left out anywhere. -/
theorem looks_exact (l : Lexer) : l.Looks where
  answer := l.peek_eq.1
  token t h := (peek_of_token h).2
  error e h := by
    rw [peek_of_error h, h, (peek_eq l.next.2).1]
    exact ⟨rfl, next_ne_error h⟩
  harmless := by
    constructor
    · intro hcalls
      cases h : l.next.1 with
      | ok t => exact ⟨t, rfl⟩
      | error e =>
        have hnext : l.peek.2.next.1 = l.next.1 := List.head_eq_of_cons_eq (hcalls [.next])
        rw [peek_of_error h, h] at hnext
        exact absurd hnext (next_ne_error h)
    · rintro ⟨t, h⟩ cs
      exact cursor.answers_congr cursor (cursor.nth_peek h) cs
  passed := cursor.passed_eq l
  inserted _ := cursor.answersTo_next

/-- The error that a look has shown is neither shown nor taken again. -/
theorem malformed_look_taken :
    let l := ofText "@"
    let e : Except SourceError Token := .error ⟨.unexpected '@', ⟨0, 1⟩⟩
    let stop : Except SourceError Token := .ok ⟨.eof, ⟨1, 0⟩⟩
    l.next.1 = e ∧ TokenStream.answers l [.peek, .peek, .next] = [e, stop, stop] := ⟨rfl, rfl⟩

end Lexer

/-! ## Buffers -/

namespace TokenBuffer

theorem cursor : TokenStream.Cursor TokenBuffer where
  peek_answer _ := rfl
  nth_peek _ := rfl
  nth_peek_error := by rintro _ _ ⟨⟩

theorem candid : TokenStream.Candid TokenBuffer := cursor.toCandid

theorem nth_eq {b : TokenBuffer} {ts : List Token} {last : Token}
    (h : b.ahead.toList = ts ++ [last]) (n : Nat) : TokenStream.nth b n = .ok (ts.getD n last) := by
  obtain ⟨tokens, head, tail⟩ := b
  induction n generalizing head tail ts with
  | zero =>
    cases ts <;> cases h <;> rfl
  | succ n ih =>
    cases ts with
    | nil =>
      cases h
      exact @ih [] head [] rfl
    | cons t ts =>
      cases ts <;> cases h
      · exact @ih [] _ [] rfl
      · exact @ih (_ :: _) _ _ rfl

theorem reset_after (b : TokenBuffer) (cs : List TokenStream.Call) :
    (TokenStream.after b cs).reset = b.reset := by
  induction cs generalizing b with
  | nil => rfl
  | cons c cs ih =>
    rw [TokenStream.after_cons, ih]
    cases c with
    | next => exact reset_next b
    | peek => rfl

/-- A buffer of the tokens of a text answers every sequence of calls as a lexer of the text does, also far
behind the end. The calls for the next token are answered with the tokens of the text in order and then
with the end of input, and from any point the buffer goes back to the first token. -/
theorem answers_alike {source : Text} {ts : List Token} (h : Frontend.lex source = .ok ts) :
    ∃ us b, ts = us ++ [⟨.eof, .point (Text.size source)⟩] ∧ (∀ t ∈ us, t.kind ≠ .eof) ∧
      lex source = .ok b ∧ b.tokens.toList = ts ∧ ∀ cs,
        TokenStream.answers (Lexer.ofText source) cs = TokenStream.answers b cs ∧
        TokenStream.answersTo .next b cs = (List.range (cs.count .next)).map (fun n =>
          .ok (us.getD n ⟨.eof, .point (Text.size source)⟩)) ∧
        (TokenStream.after b cs).reset = b := by
  obtain ⟨as, -, hlossless, hnth, ⟨us, rfl, hlex⟩ | ⟨us, e, bs, -, hlex⟩⟩ := lex_cases source
  · obtain rfl := Except.ok.inj (h.symm.trans hlex)
    let last : Token := ⟨.eof, .point (Text.size source)⟩
    have hrow : (ofTokens (us ++ [last])).ahead.toList = us ++ [last] := TokenRow.toList_closed rfl
    have hbuffer : TokenStream.nth (ofTokens (us ++ [last])) = fun n => .ok (us.getD n last) :=
      funext (nth_eq hrow)
    have hlexer : TokenStream.nth (Lexer.ofText source) = fun n => .ok (us.getD n last) := by
      funext n
      rw [Lexer.nth_eq, hnth, getD_tokens]
    refine ⟨us, ofTokens (us ++ [last]), rfl, fun t ht => hlossless.noEof t (List.mem_map_of_mem ht),
      by rw [lex, h]; rfl, hrow, fun cs => ⟨?_, ?_, reset_after _ cs⟩⟩
    · exact Lexer.cursor.answers_congr cursor (hlexer.trans hbuffer.symm) cs
    · rw [cursor.answersTo_next, hbuffer]
      intro a ha
      have hmem := TokenStream.mem_answers_of_mem ha
      rw [cursor.answers_eq, hbuffer] at hmem
      obtain ⟨n, rfl⟩ := TokenStream.mem_shown hmem
      rfl
  · cases h.symm.trans hlex

theorem answers_alike_comment :
    ∃ ts, Frontend.lex "f// x\n" = .ok ts ∧ ∃ us b,
      ts = us ++ [⟨.eof, .point 6⟩] ∧ lex "f// x\n" = .ok b ∧
      TokenStream.answers (Lexer.ofText "f// x\n") [.peek, .next, .next, .peek, .next] =
        TokenStream.answers b [.peek, .next, .next, .peek, .next] := by
  have hlex : Frontend.lex "f// x\n" =
      .ok [⟨.ident, ⟨0, 1⟩⟩, ⟨.terminator, ⟨5, 1⟩⟩, ⟨.eof, ⟨6, 0⟩⟩] := lex_of_answers? 3 rfl
  obtain ⟨us, b, hts, -, hb, -, hcalls⟩ := answers_alike hlex
  exact ⟨_, hlex, us, b, hts, hb, (hcalls _).1⟩

end TokenBuffer
end Frontend
