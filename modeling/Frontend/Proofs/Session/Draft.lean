import Frontend.Proofs.Parser.Bound

/-! # Parsing apart from memory

What a plan asks of memory depends on the tokens alone. It can be carried out with every request granted
and on record; a session then answers the same, or the pool's first refusal of the requests recorded.
-/
namespace Frontend

/-- A stream whose plans are granted all they ask for; the requests are recorded. -/
def Host.draft (σ : Type) [TokenStream σ] : Host (σ × List Pool.Layout) where
  next s := ((TokenStream.next s.1).1, (TokenStream.next s.1).2, s.2)
  peek s := ((TokenStream.peek s.1).1, (TokenStream.peek s.1).2, s.2)
  reserve l s := (.ok ⟨⟩, s.1, s.2 ++ [l])
  report _ s := s

theorem Host.draft_supplies {σ : Type} [TokenStream σ] {R : σ → TokenRow → Prop} (hR : Replays R) :
    (Host.draft σ).Supplies fun s ts => ∃ r, R s.1 r ∧ ts <+: r.toList where
  next := by
    rintro s t ts ⟨r, hs, hinitial⟩
    obtain ⟨rfl, hts⟩ := TokenRow.cons_initial hinitial
    obtain ⟨s', hnext, hs'⟩ := hR.next hs
    exact ⟨(s', s.2), by simp only [draft, hnext], _, hs', hts⟩
  peek := by
    rintro s t ts ⟨r, hs, hts⟩
    obtain ⟨rfl, -⟩ := TokenRow.cons_initial hts
    obtain ⟨s', hpeek, hs'⟩ := hR.peek hs
    exact ⟨(s', s.2), by simp only [draft, hpeek], _, hs', hts⟩
  reserve := fun _ h => ⟨_, rfl, h⟩
  report := fun _ h => h

/-- What is answered if requests went as `r` before `x` could be. -/
def answered {α : Type} (r : Except Pool.Failure Unit) (x : Except ParseError α) :
    Except ParseError α :=
  match r with
  | .ok _ => x
  | .error f => .error (.internal (.pool f))

section
variable {α σ : Type} [TokenStream σ]

/-- The requests of a plan are made in the order in which they are recorded. -/
theorem Session.run_draft (sys : Pool.System) (p : Parser α) (s : Session σ) (ls : List Pool.Layout) :
    ∃ more, (p.run (Host.draft σ) (s.tokens, ls)).2.2 = ls ++ more ∧
      (p.run (host sys) s).1 =
        answered (s.pool.serve sys more).1 (p.run (Host.draft σ) (s.tokens, ls)).1 ∧
      (p.run (host sys) s).2.pool = (s.pool.serve sys more).2 := by
  induction p generalizing s ls with
  | done a | fail e => exact ⟨[], (List.append_nil ls).symm, rfl, rfl⟩
  | peek k ih =>
    simp only [Parser.run, host, Host.draft]
    rcases TokenStream.peek s.tokens with ⟨e | t, tokens⟩
    · exact ⟨[], (List.append_nil ls).symm, rfl, rfl⟩
    · exact ih t { s with tokens } ls
  | next k ih =>
    simp only [Parser.run, host, Host.draft]
    rcases TokenStream.next s.tokens with ⟨e | t, tokens⟩
    · exact ⟨[], (List.append_nil ls).symm, rfl, rfl⟩
    · exact ih t { s with tokens } ls
  | reserve l k ih =>
    rcases ha : s.pool.alloc sys l with ⟨f | b, pool⟩
    · obtain ⟨more, hmore, -, -⟩ := ih s (ls ++ [l])
      have hstep : ((Parser.reserve l k).run (host sys) s).1 = .error (.internal (.pool f)) ∧
          ((Parser.reserve l k).run (host sys) s).2.pool = pool := by
        simp only [Parser.run, host, ha]
        exact ⟨rfl, rfl⟩
      refine ⟨l :: more, hmore.trans (List.append_assoc ls [l] more), ?_⟩
      rw [Pool.serve_of_error ha]
      exact hstep
    · let s' : Session σ :=
        { s with pool, journal := s.journal.reportAll (s.pool.growthEvents pool) }
      obtain ⟨more, hmore, hrun⟩ := ih s' (ls ++ [l])
      have hstep : (Parser.reserve l k).run (host sys) s = k.run (host sys) s' := by
        simp only [Parser.run, host, ha]
        rfl
      refine ⟨l :: more, hmore.trans (List.append_assoc ls [l] more), ?_⟩
      rw [hstep, Pool.serve_of_ok ha]
      exact hrun
  | report e k ih => exact ih { s with journal := s.journal.report e } ls

theorem Parser.Continues.ordinary {room : Nat} {p q : Parser α} (h : Continues room p q) (s : σ)
    (ls : List Pool.Layout) (hls : ∀ l ∈ ls, l.Ordinary) :
    ∀ l ∈ (p.run (Host.draft σ) (s, ls)).2.2, l.Ordinary := by
  induction h generalizing s ls with
  | cut | done | fail => exact hls
  | peek _ ih =>
    simp only [Parser.run, Host.draft]
    rcases TokenStream.peek s with ⟨e | t, s'⟩
    · exact hls
    · exact ih t s' ls hls
  | next _ ih =>
    simp only [Parser.run, Host.draft]
    rcases TokenStream.next s with ⟨e | t, s'⟩
    · exact hls
    · exact ih t s' ls hls
  | reserve hl _ ih =>
    refine ih s _ ?_
    simp only [List.forall_mem_append, List.forall_mem_singleton]
    exact ⟨hls, hl⟩
  | report e _ ih => exact ih s ls hls

/-- Where every request is granted, nothing is refused to a plan of less than astronomical bound. -/
theorem Parser.Continues.granted {room : Nat} {p q : Parser α} (h : Continues room p q)
    (hroom : room ≤ roomLimit) (s : σ × List Pool.Layout) (f : Pool.Failure) :
    (p.run (Host.draft σ) s).1 ≠ .error (.internal (.pool f)) := by
  induction h generalizing s with
  | cut | done =>
    intro hrun
    cases hrun
  | fail he =>
    intro hrun
    have hlt := he f (Except.error.inj hrun)
    omega
  | peek _ ih =>
    simp only [Parser.run, Host.draft]
    rcases TokenStream.peek s.1 with ⟨e | t, s'⟩
    · rintro ⟨⟩
    · exact ih t (s', s.2)
  | next _ ih =>
    simp only [Parser.run, Host.draft]
    rcases TokenStream.next s.1 with ⟨e | t, s'⟩
    · rintro ⟨⟩
    · exact ih t (s', s.2)
  | reserve _ _ ih => exact ih _
  | report e _ ih => exact ih s

end

namespace Session

def drafted {σ : Type} [TokenStream σ] (source : Text) (tokens : σ) :
    Except ParseError Program × List Pool.Layout :=
  let d := (Parser.program source (TokenStream.remaining tokens + 1)).run (Host.draft σ) (tokens, [])
  (d.1, d.2.2)

/-- A pool decides only whether the requests are granted. -/
theorem program_eq {σ : Type} [TokenStream σ] (sys : Pool.System) (s : Session σ) :
    (program sys s).1 = answered (s.pool.serve sys (drafted s.source s.tokens).2).1
        (drafted s.source s.tokens).1 ∧
      (program sys s).2.pool = (s.pool.serve sys (drafted s.source s.tokens).2).2 := by
  obtain ⟨more, hmore, h⟩ := run_draft sys
    (Parser.program s.source (TokenStream.remaining s.tokens + 1)) s []
  obtain rfl : (drafted s.source s.tokens).2 = more := hmore
  exact h

theorem drafted_of_within {source : Text} {b : TokenBuffer} {x : Except ParseError Program}
    {us : List Token} (h : (Parser.program source (b.ahead.toList.length + 1)).within
      b.ahead.toList = some (x, us)) : (drafted source b).1 = x :=
  (Parser.run_of_within (Host.draft_supplies TokenBuffer.replays) ⟨_, rfl, List.prefix_refl _⟩ h).1

theorem drafted_granted {σ : Type} [TokenStream σ] (source : Text) {tokens : σ}
    (h : TokenStream.remaining tokens < Parser.roomLimit) (f : Pool.Failure) :
    (drafted source tokens).1 ≠ .error (.internal (.pool f)) :=
  (Parser.program_continues source (Nat.le_refl _) (Nat.le_refl _)).granted h (tokens, []) f

/-- What a text comes to in a pool that is never exhausted. -/
def unbounded (source : Text) : Except ParseError Program := (drafted source (Lexer.ofText source)).1

def requests (source : Text) : List Pool.Layout := (drafted source (Lexer.ofText source)).2

theorem requests_ordinary (source : Text) : ∀ l ∈ requests source, l.Ordinary := by
  have hplan := Parser.program_continues source
    (Nat.le_refl (TokenStream.remaining (Lexer.ofText source) + 1)) (Nat.le_refl _)
  exact hplan.ordinary (Lexer.ofText source) [] (by simp)

theorem parseText_eq (sys : Pool.System) (source : Text) (pool : Pool) (journal : Log.Journal) :
    (parseText sys source pool journal).1 =
        answered (pool.serve sys (requests source)).1 (unbounded source) ∧
      (parseText sys source pool journal).2.pool = (pool.serve sys (requests source)).2 := by
  have h := program_eq sys ⟨source, Lexer.ofText source, pool, journal⟩
  exact h

/-- One system to a parse is no restriction: if each request were answered by a system of its own, some
single system would make the parse come to the same. -/
theorem exists_parseText_eq {c : Pool.Config} {pool : Pool} (hp : pool.Sound c) (source : Text)
    {systems : List Pool.System} (hlen : systems.length = (requests source).length)
    (journal : Log.Journal) : ∃ sys,
      (parseText sys source pool journal).1 =
        answered (pool.serveEach (systems.zip (requests source))).1 (unbounded source) ∧
      (parseText sys source pool journal).2.pool =
        (pool.serveEach (systems.zip (requests source))).2 := by
  obtain ⟨sys, hserve⟩ := Pool.exists_serve_eq hp (systems.zip (requests source))
  rw [List.map_snd_zip (Nat.le_of_eq hlen.symm)] at hserve
  rw [← hserve]
  exact ⟨sys, parseText_eq sys source pool journal⟩

end Session
end Frontend
