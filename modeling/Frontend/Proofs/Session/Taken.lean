import Frontend.Proofs.Parser.Progress
import Frontend.Proofs.Token.Calls
import Frontend.Session

/-! # What is taken off a stream

A call sees a stream answer by answer. The answers that count are those up to the first end of input or the
first error: behind them a plan that proceeds does not go.
-/
namespace Frontend

open Grammar (Inner)

/-- Of the answers the tokens up to an end of input, or the tokens before an error and this error. -/
inductive Upcoming :
    (Nat → Except SourceError Token) → List Token → List (Except SourceError Token) → Prop
  | eof {answer : Nat → Except SourceError Token} {t : Token} :
      answer 0 = .ok t → t.kind = .eof → Upcoming answer [t] []
  | error {answer : Nat → Except SourceError Token} {e : SourceError} :
      answer 0 = .error e → Upcoming answer [] [.error e]
  | token {answer : Nat → Except SourceError Token} {t : Token} {ts : List Token}
      {rest : List (Except SourceError Token)} :
      answer 0 = .ok t → t.kind ≠ .eof → Upcoming (fun n => answer (n + 1)) ts rest →
      Upcoming answer (t :: ts) rest

namespace Upcoming
variable {answer : Nat → Except SourceError Token} {ts : List Token}
  {rest : List (Except SourceError Token)}

theorem answer_eq (h : Upcoming answer ts rest) {n : Nat} {a : Except SourceError Token}
    (ha : (ts.map Except.ok ++ rest)[n]? = some a) : answer n = a := by
  induction h generalizing n with
  | eof h | error h =>
    cases n with
    | zero => exact h.trans (Option.some.inj ha)
    | succ n => cases ha
  | token h _ _ ih =>
    cases n with
    | zero => exact h.trans (Option.some.inj ha)
    | succ n => exact ih ha

theorem length_le (h : Upcoming answer ts rest) {n : Nat} {t : Token} (ht : answer n = .ok t)
    (hk : t.kind = .eof) : (ts.map Except.ok ++ rest).length ≤ n + 1 := by
  induction h generalizing n with
  | eof h | error h => exact Nat.le_add_left 1 n
  | token h hne _ ih =>
    cases n with
    | zero =>
      cases h.symm.trans ht
      exact absurd hk hne
    | succ n => exact Nat.succ_le_succ (ih ht)

theorem exists_of_getD {last : Token} (hlast : last.kind = .eof)
    (as : List (Except SourceError Token)) (h : ∀ n, answer n = as.getD n (.ok last)) :
    ∃ ts rest, Upcoming answer ts rest ∧ ts.length ≤ as.length + 1 := by
  induction as generalizing answer with
  | nil => exact ⟨[last], [], .eof (h 0) hlast, Nat.le_refl 1⟩
  | cons a as ih =>
    obtain ⟨ts, rest, hts, hlen⟩ := ih fun n => h (n + 1)
    cases a with
    | error e => exact ⟨[], [.error e], .error (h 0), Nat.zero_le _⟩
    | ok t =>
      by_cases hk : t.kind = .eof
      · exact ⟨[t], [], .eof (h 0) hk, by simp⟩
      · exact ⟨t :: ts, rest, .token (h 0) hk hts, Nat.succ_le_succ hlen⟩

end Upcoming

namespace Parser
variable {α σ : Type}

/-- The answers that the plan takes, in order. Looks are not among them. -/
def taken (h : Host σ) : Parser α → σ → List (Except SourceError Token)
  | done _, _ | fail _, _ => []
  | peek k, s =>
    match h.peek s with
    | (.ok t, s) => taken h (k t) s
    | (.error _, _) => []
  | next k, s =>
    match h.next s with
    | (.ok t, s) => .ok t :: taken h (k t) s
    | (.error e, _) => [.error e]
  | reserve l k, s =>
    match h.reserve l s with
    | (.ok _, s) => taken h k s
    | (.error _, _) => []
  | report e k, s => taken h k (h.report e s)

/-- What a call over the answers comes to: it takes a first part of them and is not cut off, and what it is
done with is of `Q`. -/
structure Kept (Q : α → List Token → Prop) (ts : List Token) (rest : List (Except SourceError Token))
    (taken : List (Except SourceError Token)) (x : Except ParseError α) : Prop where
  initial : taken <+: ts.map .ok ++ rest
  answered : x ≠ .error (.internal .stalled)
  done : ∀ a, x = .ok a → ∃ vs us, ts = vs ++ us ∧ Inner vs ∧ taken = vs.map .ok ∧ Q a us

namespace Kept
variable {Q : α → List Token → Prop} {ts : List Token} {rest as : List (Except SourceError Token)}
  {x : Except ParseError α}

theorem of_error {e : ParseError} (has : as <+: ts.map .ok ++ rest) (he : e ≠ .internal .stalled) :
    Kept Q ts rest as (.error e) := ⟨has, by simpa using he, by simp⟩

theorem cons (h : Kept Q ts rest as x) {t : Token} (ht : t.kind ≠ .eof) :
    Kept Q (t :: ts) rest (.ok t :: as) x where
  initial := List.cons_prefix_cons.2 ⟨rfl, h.initial⟩
  answered := h.answered
  done a ha := by
    obtain ⟨vs, us, rfl, hvs, rfl, hQ⟩ := h.done a ha
    exact ⟨t :: vs, us, rfl, Grammar.inner_cons.2 ⟨ht, hvs⟩, rfl, hQ⟩

end Kept

/-- A session carries a plan out over the answers of its stream as the plan proceeds over the tokens. -/
theorem Proceeds.kept [TokenStream σ] (hσ : TokenStream.Candid σ) {Q : α → List Token → Prop}
    {p : Parser α} {ts : List Token} (hp : p.Proceeds Q ts) (sys : Pool.System)
    {rest : List (Except SourceError Token)} {s : Session σ}
    (hs : Upcoming (TokenStream.nth s.tokens) ts rest) :
    Kept Q ts rest (p.taken (Session.host sys) s) (p.run (Session.host sys) s).1 := by
  induction p generalizing s ts with
  | done a =>
    refine ⟨List.nil_prefix, by rintro ⟨⟩, ?_⟩
    rintro _ ⟨⟩
    exact ⟨[], ts, rfl, Grammar.inner_nil, rfl, hp⟩
  | fail e => exact .of_error List.nil_prefix hp
  | peek k ih =>
    have hanswer := hσ.peek_answer s.tokens
    have hnth := @hσ.nth_peek s.tokens
    simp only [taken, run, Session.host]
    rcases hx : TokenStream.peek s.tokens with ⟨e | t, u⟩ <;> rw [hx] at hanswer hnth
    · exact .of_error List.nil_prefix (by simp)
    · have hts := hnth hanswer.symm
      cases hs with
      | error h => cases hanswer.trans h
      | eof h hk =>
        cases hanswer.trans h
        exact ih t hp (s := { s with tokens := u }) (hts ▸ .eof h hk)
      | token h hk hrest =>
        cases hanswer.trans h
        exact ih t hp (s := { s with tokens := u }) (hts ▸ .token h hk hrest)
  | next k ih =>
    simp only [taken, run, Session.host]
    rcases hx : TokenStream.next s.tokens with ⟨x, u⟩
    have hfirst : TokenStream.nth s.tokens 0 = x := congrArg Prod.fst hx
    have hrest (n : Nat) : TokenStream.nth s.tokens (n + 1) = TokenStream.nth u n :=
      congrArg (TokenStream.nth · n) (congrArg Prod.snd hx)
    cases hs with
    | error h =>
      obtain rfl := hfirst.symm.trans h
      exact .of_error (List.prefix_refl _) (by simp)
    | @eof _ t h hk =>
      obtain rfl := hfirst.symm.trans h
      obtain ⟨e, he, hstall⟩ := (if_pos hk).mp hp
      simp only [he, taken, run]
      exact .of_error (List.prefix_refl _) hstall
    | @token _ t ts rest h hk hs =>
      obtain rfl := hfirst.symm.trans h
      simp only [hrest] at hs
      exact (ih t ((if_neg hk).mp hp) (s := { s with tokens := u }) hs).cons hk
  | reserve l k ih =>
    simp only [taken, run, Session.host]
    rcases s.pool.alloc sys l with ⟨e | b, pool⟩
    · exact .of_error List.nil_prefix (by simp)
    · exact ih hp hs
  | report e k ih => exact ih hp (s := { s with journal := s.journal.report e }) hs

/-- A session whose stream answers with the tokens carries a plan out as the list of them does, unless its
pool gives out. It takes what the list is rid of, and the stream goes on behind that. -/
theorem session_of_within [TokenStream σ] (hσ : TokenStream.Candid σ) (sys : Pool.System)
    {p : Parser α} {ts us : List Token} {x : Except ParseError α} (hp : p.within ts = some (x, us))
    {s : Session σ} (hs : ∀ n t, ts[n]? = some t → TokenStream.nth s.tokens n = .ok t) :
    (∃ f, (p.run (Session.host sys) s).1 = .error (.internal (.pool f))) ∨
      (p.run (Session.host sys) s).1 = x ∧ ∃ vs, ts = vs ++ us ∧
        p.taken (Session.host sys) s = vs.map .ok ∧
        ∀ n, TokenStream.nth (p.run (Session.host sys) s).2.tokens n =
          TokenStream.nth s.tokens (vs.length + n) := by
  induction p generalizing s ts with
  | done a | fail e =>
    cases hp
    refine .inr ⟨rfl, [], rfl, rfl, fun n => ?_⟩
    rw [List.length_nil, Nat.zero_add]
    rfl
  | peek k ih =>
    cases ts with
    | nil => cases hp
    | cons t ts =>
      have hfirst : (TokenStream.next s.tokens).1 = .ok t := hs 0 t rfl
      have hanswer := (hσ.peek_answer s.tokens).trans hfirst
      have hnth := hσ.nth_peek hfirst
      simp only [taken, run, Session.host]
      rcases hx : TokenStream.peek s.tokens with ⟨a, u⟩
      rw [hx] at hanswer hnth
      obtain rfl : a = .ok t := hanswer
      have h := ih t hp (s := { s with tokens := u }) fun n v hv => hnth ▸ hs n v hv
      exact hnth ▸ h
  | next k ih =>
    cases ts with
    | nil => cases hp
    | cons t ts =>
      have hfirst : (TokenStream.next s.tokens).1 = .ok t := hs 0 t rfl
      simp only [taken, run, Session.host]
      rcases hx : TokenStream.next s.tokens with ⟨a, u⟩
      have hrest (n : Nat) : TokenStream.nth s.tokens (n + 1) = TokenStream.nth u n :=
        congrArg (TokenStream.nth · n) (congrArg Prod.snd hx)
      rw [hx] at hfirst
      obtain rfl : a = .ok t := hfirst
      refine (ih t hp (s := { s with tokens := u }) fun n v hv => ?_).imp_right ?_
      · rw [← hrest]
        exact hs (n + 1) v hv
      · rintro ⟨hx, vs, rfl, htaken, hleft⟩
        refine ⟨hx, t :: vs, rfl, congrArg (Except.ok t :: ·) htaken, fun n => (hleft n).trans ?_⟩
        rw [List.length_cons, Nat.succ_add, hrest]
  | reserve l k ih =>
    simp only [taken, run, Session.host]
    rcases s.pool.alloc sys l with ⟨e | b, pool⟩
    · exact .inl ⟨e, rfl⟩
    · exact ih hp hs
  | report e k ih => exact ih hp (s := { s with journal := s.journal.report e }) hs

end Parser
end Frontend
