import Frontend.Proofs.Parser.Steady
import Frontend.Proofs.Session.Discipline
import Frontend.Proofs.Session.Taken

/-! # Every call returns

Whatever tokens a buffer holds and whatever text is lexed, and whatever was called before and however that
ended, a call returns. It takes no answer behind an end of input, it has taken a token if it has read
something, and no span that it puts together leaves the words.
-/
namespace Frontend
open Frontend.Parser Grammar

/-! ## Streams that come to an end -/

/-- From here on the stream gives fewer answers than the bound on the loops, and then an end of input. -/
def TokenStream.Ends {σ : Type} [TokenStream σ] (u : σ) : Prop :=
  ∃ (as : List (Except SourceError Token)) (last : Token), last.kind = .eof ∧
    as.length + 1 ≤ remaining u ∧ ∀ n, nth u n = as.getD n (.ok last)

namespace Lexer

theorem ends (l : Lexer) : TokenStream.Ends l := by
  obtain ⟨as, last, hlast, hlen, hnth⟩ := l.exists_left
  exact ⟨as, last, hlast, hlen, fun n => (l.nth_eq n).trans (hnth n)⟩

theorem Within.stop_le {source : Text} {l : Lexer} (h : l.Within source) {n : Nat} {t : Token}
    (ht : TokenStream.nth l n = .ok t) : t.span.stop ≤ Text.size source := by
  obtain ⟨k, hk⟩ := h
  obtain ⟨as, -, hlossless, hnth, -⟩ := lex_cases source
  rw [nth_eq, hk, hnth, List.getD_eq_getElem?_getD] at ht
  cases ha : as[k + n]? with
  | none =>
    rw [ha] at ht
    cases ht
    exact Nat.le_refl _
  | some a =>
    rw [ha] at ht
    obtain rfl : a = .ok t := ht
    obtain ⟨before, piece, after, hsource, hspan⟩ := hlossless.within _ (List.mem_of_getElem? ha)
    have hspan : t.span = ⟨Text.size before, Text.size piece⟩ := hspan
    rw [hspan, hsource, Text.size_append, Text.size_append]
    exact Nat.le_add_right _ _

end Lexer

namespace TokenRow

theorem exists_closed (ts : List Token) : ∃ us last, (closed ts).toList = us ++ [last] ∧
    last.kind = .eof ∧ ∀ limit, 0 < limit → (∀ t ∈ ts, t.span.stop < limit) →
      ∀ t ∈ us ++ [last], t.span.stop < limit := by
  cases ts with
  | nil => exact ⟨[], ⟨.eof, .point 0⟩, rfl, rfl, fun limit hpos _ => by simpa using hpos⟩
  | cons t ts =>
    have hsplit := List.dropLast_concat_getLast (List.cons_ne_nil t ts)
    unfold closed
    dsimp only
    split
    · next hk =>
      refine ⟨_, _, hsplit.symm, hk, fun limit _ hts => ?_⟩
      rwa [hsplit]
    · refine ⟨t :: ts, _, rfl, rfl, fun limit _ hts => ?_⟩
      refine List.forall_mem_append.2 ⟨hts, List.forall_mem_singleton.2 ?_⟩
      have hlast := hts _ (List.getLast_mem (List.cons_ne_nil t ts))
      exact hlast

end TokenRow

namespace TokenBuffer

theorem ends {b : TokenBuffer} {ts : List Token} {last : Token} (h : b.ahead.toList = ts ++ [last])
    (hlast : last.kind = .eof) : TokenStream.Ends b := by
  refine ⟨ts.map .ok, last, hlast, ?_, fun n => ?_⟩
  · have hlen := congrArg List.length h
    rw [List.length_append, List.length_singleton] at hlen
    rw [List.length_map]
    exact Nat.le_of_eq hlen.symm
  · rw [nth_eq h, getD_tokens]

theorem mem_of_nth {b : TokenBuffer} {ts : List Token} {last t : Token} {n : Nat}
    (h : b.ahead.toList = ts ++ [last]) (ht : TokenStream.nth b n = .ok t) :
    t ∈ b.ahead.toList := by
  rw [nth_eq h, List.getD_eq_getElem?_getD] at ht
  obtain rfl := Except.ok.inj ht
  rw [h]
  cases hn : ts[n]? with
  | none => simp
  | some u => exact List.mem_append_left _ (List.mem_of_getElem? hn)

end TokenBuffer

namespace Session
variable {α σ : Type} [TokenStream σ]

def taken (sys : Pool.System) (plan : Nat → Parser α) (s : Session σ) :
    List (Except SourceError Token) :=
  (plan (TokenStream.remaining s.tokens + 1)).taken (host sys) s

theorem eq_map_ok {as : List (Except SourceError Token)} {ts : List Token}
    (h : as.map Except.toOption = ts.map some) : as = ts.map .ok := by
  induction ts generalizing as with
  | nil => exact List.map_eq_nil_iff.1 h
  | cons t ts ih =>
    cases as with
    | nil => cases h
    | cons a as =>
      obtain ⟨ha, has⟩ := List.cons.inj h
      cases a with
      | error e => cases ha
      | ok u =>
        cases ha
        rw [ih has, List.map_cons]

/-- The call is not cut off. It takes answers of the stream from the next one on, up to the first end of
input at most. If it succeeds it has taken tokens that `D` relates to what it has read. -/
structure Returns (sys : Pool.System) (plan : Nat → Parser α) (D : Phrases α) (s : Session σ) :
    Prop where
  answered : (s.run sys plan).1 ≠ .error (.internal .stalled)
  taken : ∀ n a, (s.taken sys plan)[n]? = some a → TokenStream.nth s.tokens n = a
  bounded : ∀ n t, TokenStream.nth s.tokens n = .ok t → t.kind = .eof →
    (s.taken sys plan).length ≤ n + 1
  read : ∀ a, (s.run sys plan).1 = .ok a → ∃ ts, s.taken sys plan = ts.map .ok ∧ Inner ts ∧ D ts a

theorem returns_of_reads (hσ : TokenStream.Candid σ) {plan : Nat → Parser α} {D : Phrases α}
    {s : Session σ} {ts : List Token} {rest : List (Except SourceError Token)}
    (hts : Upcoming (TokenStream.nth s.tokens) ts rest)
    (hplan : Parser.Reads D (plan (TokenStream.remaining s.tokens + 1)) ts) (sys : Pool.System) :
    s.Returns sys plan D := by
  have hkept := hplan.kept hσ sys hts
  refine ⟨hkept.answered, ?_, ?_, ?_⟩
  · intro n a ha
    obtain ⟨more, hmore⟩ := hkept.initial
    refine hts.answer_eq ?_
    rw [← hmore]
    exact (List.getElem?_append_left (List.getElem?_eq_some_iff.1 ha).1).trans ha
  · intro n t ht hk
    exact Nat.le_trans hkept.initial.length_le (hts.length_le ht hk)
  · intro a ha
    obtain ⟨vs, us, rfl, hinner, htaken, ws, hws, hD⟩ := hkept.done a ha
    obtain rfl := List.append_cancel_right hws
    exact ⟨vs, htaken, hinner, hD⟩

theorem exists_upcoming {u : σ} (hu : TokenStream.Ends u) :
    ∃ ts rest, Upcoming (TokenStream.nth u) ts rest ∧ ts.length < TokenStream.remaining u + 1 := by
  obtain ⟨as, last, hlast, hlen, hnth⟩ := hu
  obtain ⟨ts, rest, hts, hle⟩ := Upcoming.exists_of_getD hlast as hnth
  exact ⟨ts, rest, hts, by omega⟩

theorem returns_of_steady (hσ : TokenStream.Candid σ) {plan : Nat → Parser α} {D : Phrases α}
    (hplan : ∀ n, Steady D n (plan n)) {s : Session σ} (hs : TokenStream.Ends s.tokens)
    (sys : Pool.System) : s.Returns sys plan D := by
  obtain ⟨ts, rest, hts, hlen⟩ := exists_upcoming hs
  exact returns_of_reads hσ hts (hplan _ hlen) sys

/-- An end of input is ahead, and spans put together from those of tokens to come stay within the words.
Every entry point returns, with a token taken if it has read something. -/
structure Orderly (s : Session σ) : Prop where
  stops : ∃ n t, TokenStream.nth s.tokens n = .ok t ∧ t.kind = .eof
  words : ∀ ts, (∀ t ∈ ts, ∃ n, TokenStream.nth s.tokens n = .ok t) →
    ∀ left right, Span.Drawn ts left → Span.Drawn ts right → left.Combinable right
  expression : ∀ sys, s.Returns sys (Parser.expression s.source) fun ts e => ts ≠ [] ∧ e.Drawn ts
  typeName : ∀ sys, s.Returns sys (fun _ => Parser.typeName) fun ts _ => ts ≠ []
  statement : ∀ sys, s.Returns sys (Parser.statement s.source) fun ts x => ts ≠ [] ∧ x.Drawn ts
  block : ∀ sys, s.Returns sys (Parser.block s.source) fun ts b => ts ≠ [] ∧ b.Drawn ts
  function : ∀ sys, s.Returns sys (Parser.function s.source) fun ts f => ts ≠ [] ∧ f.Drawn ts
  program : ∀ sys, s.Returns sys (Parser.program s.source) fun ts p =>
    ∀ f ∈ p.functions, f.Drawn ts

theorem orderly_of_ends (hσ : TokenStream.Candid σ) {s : Session σ}
    (hs : TokenStream.Ends s.tokens)
    (hwords : ∀ n t, TokenStream.nth s.tokens n = .ok t → t.span.stop < Pool.wordLimit) :
    s.Orderly where
  stops := by
    obtain ⟨as, last, hlast, -, hnth⟩ := hs
    refine ⟨as.length, last, ?_, hlast⟩
    rw [hnth, List.getD_eq_getElem?_getD, List.getElem?_eq_none (Nat.le_refl _)]
    rfl
  words ts hts left right hl hr := by
    refine hl.combinable (fun t ht => ?_) hr
    obtain ⟨n, hn⟩ := hts t ht
    exact hwords n t hn
  expression := returns_of_steady hσ (fun n _ h => (drawn_reads s.source n h).imp fun _ _ hd =>
    ⟨hd.root.ne_nil, hd⟩) hs
  typeName := returns_of_steady hσ typeName_reads hs
  statement := returns_of_steady hσ (fun n _ h => (statement_reads s.source n h).imp fun _ _ hd =>
    ⟨hd.span.ne_nil, hd⟩) hs
  block := returns_of_steady hσ (fun n _ h => (block_reads s.source n h).imp fun _ _ hd =>
    ⟨hd.span.ne_nil, hd⟩) hs
  function := returns_of_steady hσ (fun n _ h => (function_reads s.source n h).imp fun _ _ hd =>
    ⟨hd.span.ne_nil, hd⟩) hs
  program := returns_of_steady hσ (program_reads s.source) hs

theorem Reached.exists_ahead {source : Text} {ts us : List Token} {last : Token}
    {s : Session TokenBuffer} (hs : s.Reached source (.ofTokens ts))
    (hclosed : (TokenRow.closed ts).toList = us ++ [last]) :
    ∃ vs, s.tokens.ahead.toList = vs ++ [last] := by
  obtain ⟨before, hbefore⟩ := hs.ahead.1
  change _ = (TokenRow.closed ts).toList at hbefore
  have hsplit := List.dropLast_concat_getLast (l := s.tokens.ahead.toList) (List.cons_ne_nil _ _)
  rw [hclosed, ← hsplit, ← List.append_assoc] at hbefore
  obtain ⟨-, hend⟩ := List.append_inj' hbefore rfl
  rw [← hend]
  exact ⟨_, hsplit.symm⟩

theorem Reached.ends {source : Text} {ts : List Token} {s : Session TokenBuffer}
    (hs : s.Reached source (.ofTokens ts)) : TokenStream.Ends s.tokens := by
  obtain ⟨us, last, hclosed, hlast, -⟩ := TokenRow.exists_closed ts
  obtain ⟨vs, hvs⟩ := hs.exists_ahead hclosed
  exact TokenBuffer.ends hvs hlast

/-- Over any tokens whose ends are words, and over any text that is no longer than the words reach, each
call returns: the first one, and those after any others, however these have ended. -/
theorem calls_return (source : Text) :
    (∀ ts : List Token, (∀ t ∈ ts, t.span.stop < Pool.wordLimit) →
      ∀ s : Session TokenBuffer, s.Reached source (.ofTokens ts) → s.Orderly) ∧
    (Text.size source < Pool.wordLimit →
      ∀ s : Session Lexer, s.Reached source (.ofText source) → s.Orderly) := by
  constructor
  · intro ts hts s hs
    obtain ⟨us, last, hclosed, -, hstop⟩ := TokenRow.exists_closed ts
    obtain ⟨vs, hvs⟩ := hs.exists_ahead hclosed
    have hahead : s.tokens.ahead.toList <:+ us ++ [last] := hclosed ▸ hs.ahead.1
    refine orderly_of_ends TokenBuffer.candid hs.ends fun n t ht => ?_
    exact hstop _ (by decide) hts t (hahead.subset (TokenBuffer.mem_of_nth hvs ht))
  · intro hsize s hs
    refine orderly_of_ends Lexer.candid s.tokens.ends fun n t ht => ?_
    exact Nat.lt_of_le_of_lt (hs.within.1.stop_le ht) hsize

theorem calls_return_after_errors :
    let pool : Pool := ⟨.standard, ⟨0, 0x1000, 16⟩, [], 0, 0x1000⟩
    let ts : List Token := [⟨.rbrace, ⟨7, 3⟩⟩, ⟨.eof, ⟨2, 0⟩⟩, ⟨.ident, ⟨0, 9⟩⟩, ⟨.int none, ⟨40, 2⟩⟩]
    let buffered : Session TokenBuffer := ⟨"f(@", .ofTokens ts, pool, .empty .info⟩
    let lexing : Session Lexer := ⟨"f(@", .ofText "f(@", pool, .empty .info⟩
    (∀ t ∈ ts, t.span.stop < Pool.wordLimit) ∧
      (statement .standard (block .standard buffered).2).2.Orderly ∧
      Text.size "f(@" < Pool.wordLimit ∧ (function .standard lexing).2.Orderly := by
  intro pool ts buffered lexing
  have hts : ∀ t ∈ ts, t.span.stop < Pool.wordLimit := by decide
  have hsize : Text.size "f(@" < Pool.wordLimit := by decide
  exact ⟨hts, (calls_return "f(@").1 ts hts _ (.run _ _ (.run _ _ (.start pool (.empty .info)))), hsize,
    (calls_return "f(@").2 hsize _ (.run _ _ (.start pool (.empty .info)))⟩

end Session
end Frontend
