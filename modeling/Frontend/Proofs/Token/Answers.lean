import Frontend.Proofs.Token.Lossless

/-! # Answers up front

What a scanner says of a text up front is what a lexer says of it answer by answer. A text is lexed
into the answers before its first error, or into all of them and an end of input.
-/
namespace Frontend

namespace Scanner
variable {s : Scanner} {t : Token} {e : SourceError}

theorem answers_of_eof (h : s.scan.1 = .ok t) (ht : t.kind = .eof) : s.answers = [.ok t] := by
  unfold answers
  split
  · next u s' hs =>
    rw [hs] at h
    cases h
    rw [dif_pos ht]
  · next e s' hs =>
    rw [hs] at h
    cases h

theorem answers_of_token (h : s.scan.1 = .ok t) (ht : t.kind ≠ .eof) :
    s.answers = .ok t :: s.scan.2.answers := by
  rw [answers]
  split
  · next u s' hs =>
    rw [hs] at h ⊢
    cases h
    rw [dif_neg ht]
  · next e s' hs =>
    rw [hs] at h
    cases h

theorem answers_of_error (h : s.scan.1 = .error e) : s.answers = .error e :: s.scan.2.answers := by
  rw [answers]
  split
  · next u s' hs =>
    rw [hs] at h
    cases h
  · next e s' hs =>
    rw [hs] at h ⊢
    cases h
    rfl

/-- The answers up to the end of the text, if there are no more than so many. -/
def answers? : Nat → Scanner → Option (List (Except SourceError Token))
  | 0, _ => none
  | n + 1, s =>
    match s.scan with
    | (.ok t, s') => if t.kind = .eof then some [.ok t] else (answers? n s').map (.ok t :: ·)
    | (.error e, s') => (answers? n s').map (.error e :: ·)

theorem answers_of_answers? {n : Nat} {as : List (Except SourceError Token)}
    (h : s.answers? n = some as) : s.answers = as := by
  induction n generalizing s as with
  | zero => cases h
  | succ n ih =>
    rw [answers?] at h
    rcases hscan : s.scan with ⟨e | t, s'⟩ <;> rw [hscan] at h
    · obtain ⟨bs, hbs, rfl⟩ := Option.map_eq_some_iff.1 h
      rw [answers_of_error (congrArg Prod.fst hscan), hscan, ih hbs]
    · dsimp only at h
      split at h
      next ht =>
        cases h
        exact answers_of_eof (congrArg Prod.fst hscan) ht
      next ht =>
        obtain ⟨bs, hbs, rfl⟩ := Option.map_eq_some_iff.1 h
        rw [answers_of_token (congrArg Prod.fst hscan) ht, hscan, ih hbs]

theorem answers_eq {source : Text} {as : List (Except SourceError Token)} (ht : t.kind = .eof)
    (has : ∀ u, .ok u ∈ as → u.kind ≠ .eof)
    (h : ∀ n, Lexer.nth ⟨source, s, none⟩ n = as.getD n (.ok t)) : s.answers = as ++ [.ok t] := by
  induction as generalizing s with
  | nil => exact answers_of_eof (h 0) ht
  | cons a as ih =>
    have hrest := ih (fun u hu => has u (List.mem_cons_of_mem a hu)) fun n => h (n + 1)
    have hscan : s.scan.1 = a := h 0
    cases a with
    | error e => rw [answers_of_error hscan, hrest, List.cons_append]
    | ok u => rw [answers_of_token hscan (has u List.mem_cons_self), hrest, List.cons_append]

end Scanner

/-- A text of so few answers is lexed by going through them. -/
theorem lex_of_answers? {source : Text} {x : Except SourceError (List Token)} (n : Nat)
    (h : ((Scanner.ofText source).answers? n).map (·.mapM id) = some x) : lex source = x := by
  obtain ⟨as, has, rfl⟩ := Option.map_eq_some_iff.1 h
  rw [lex, Scanner.answers_of_answers? has]

theorem tokens_or_error (as : List (Except SourceError Token)) :
    (∃ ts, as = List.map .ok ts) ∨ ∃ ts e bs, as = List.map .ok ts ++ .error e :: bs := by
  induction as with
  | nil => exact .inl ⟨[], rfl⟩
  | cons a as ih =>
    cases a with
    | error e => exact .inr ⟨[], e, as, rfl⟩
    | ok t =>
      rcases ih with ⟨ts, rfl⟩ | ⟨ts, e, bs, rfl⟩
      · exact .inl ⟨t :: ts, rfl⟩
      · exact .inr ⟨t :: ts, e, bs, rfl⟩

theorem mapM_tokens (ts : List Token) :
    (ts.map .ok : List (Except SourceError Token)).mapM id = .ok ts := by
  induction ts with
  | nil => rfl
  | cons t ts ih =>
    rw [List.map_cons, List.mapM_cons, ih]
    rfl

theorem mapM_error (ts : List Token) (e : SourceError) (bs : List (Except SourceError Token)) :
    (ts.map .ok ++ .error e :: bs : List (Except SourceError Token)).mapM id = .error e := by
  induction ts with
  | nil => rfl
  | cons t ts ih =>
    rw [List.map_cons, List.cons_append, List.mapM_cons, ih]
    rfl

theorem getD_tokens (ts : List Token) (last : Token) (n : Nat) :
    (ts.map .ok : List (Except SourceError Token)).getD n (.ok last) = .ok (ts.getD n last) := by
  rw [List.getD_eq_getElem?_getD, List.getD_eq_getElem?_getD, List.getElem?_map]
  cases ts[n]? <;> rfl

/-- What a text is lexed into, beside what a lexer answers of it. -/
theorem lex_cases (source : Text) : ∃ as : List (Except SourceError Token),
    as.length ≤ source.length + 1 ∧ Lossless source as ∧
    (∀ n, (Lexer.ofText source).nth n = as.getD n (.ok ⟨.eof, .point (Text.size source)⟩)) ∧
    ((∃ ts, as = List.map .ok ts ∧ lex source = .ok (ts ++ [⟨.eof, .point (Text.size source)⟩])) ∨
      ∃ ts e bs, as = List.map .ok ts ++ .error e :: bs ∧ lex source = .error e) := by
  obtain ⟨as, hreads, hnth⟩ := Lexer.exists_reads source (.ofText source)
  have hend : (Scanner.ofText source).offset + Text.size (Scanner.ofText source).rest =
      Text.size source := Nat.zero_add _
  rw [hend] at hnth
  have hlossless : Lossless source as := hreads.lossless
  refine ⟨as, hreads.length_le_length, hlossless, hnth, ?_⟩
  rw [lex, Scanner.answers_eq rfl hlossless.noEof hnth]
  rcases tokens_or_error as with ⟨ts, rfl⟩ | ⟨ts, e, bs, rfl⟩
  · refine .inl ⟨ts, rfl, ?_⟩
    rw [← mapM_tokens, List.map_append]
    rfl
  · refine .inr ⟨ts, e, bs, rfl, ?_⟩
    rw [List.append_assoc]
    exact mapM_error ts e _

end Frontend
