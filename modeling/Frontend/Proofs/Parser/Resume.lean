import Frontend.Proofs.Parser.Bound
import Frontend.Proofs.Parser.Parallel
import Frontend.Proofs.Parser.Program

/-! # Reading on behind functions

A function is read up to its closing brace, and nothing behind the brace is looked at. So whatever follows
functions that were read, reading goes on there as it does from the start, with these functions already
in the sequence.
-/
namespace Frontend.Parser
variable {α β : Type} {source source' : Text}

theorem within_append {p : Parser α} {ts us : List Token} {x : Except ParseError α}
    (h : p.within ts = some (x, us)) (vs : List Token) : p.within (ts ++ vs) = some (x, us ++ vs) := by
  induction p generalizing ts with
  | done a | fail e =>
    cases h
    rfl
  | peek k ih =>
    cases ts with
    | nil => cases h
    | cons t ts => exact ih t h
  | next k ih =>
    cases ts with
    | nil => cases h
    | cons t ts => exact ih t h
  | reserve l k ih => exact ih h
  | report e k ih => exact ih h

/-- When the plan answers it has taken something, and it has seen nothing behind what it took. -/
def Seals (p : Parser α) : Prop :=
  ∀ ⦃vs us : List Token⦄ ⦃a : α⦄, p.within (vs ++ us) = some (.ok a, us) →
    vs ≠ [] ∧ p.within vs = some (.ok a, [])

namespace Seals
variable {p : Parser α} {f : α → Parser β}

theorem take : Seals take := by
  intro vs us t h
  cases vs with
  | nil =>
    cases us with
    | nil => cases h
    | cons u us => exact absurd (congrArg List.length (Prod.mk.inj (Option.some.inj h)).2) (by simp)
  | cons v vs =>
    obtain ⟨⟨⟩, hvs⟩ := Prod.mk.inj (Option.some.inj h)
    obtain rfl : vs = [] := by simpa using hvs
    exact ⟨List.cons_ne_nil _ _, rfl⟩

theorem bind (hf : ∀ a, Seals (f a)) : Seals (p >>= f) := by
  intro vs us b h
  obtain ⟨a, ws, hp, hfa⟩ := within_bind_ok h
  obtain ⟨ws, rfl⟩ := within_suffix hfa
  obtain ⟨hne, hseal⟩ := hf a hfa
  obtain ⟨w, ws, rfl⟩ := List.exists_cons_of_ne_nil hne
  obtain ⟨vs', hvs⟩ := within_suffix hp
  rw [← List.append_assoc] at hvs
  obtain rfl := List.append_cancel_right hvs
  rw [List.append_assoc] at hp
  have hfirst : p.within (vs' ++ w :: ws) = some (.ok a, w :: ws) := within_congr hp
  refine ⟨by simp, ?_⟩
  rw [within_bind, hfirst]
  exact hseal

theorem map (hp : Seals p) {g : α → β} (hf : ∀ a ts, (f a).within ts = some (.ok (g a), ts)) :
    Seals (p >>= f) := by
  intro vs us b h
  obtain ⟨a, ws, hpa, hfa⟩ := within_bind_ok h
  rw [hf] at hfa
  cases hfa
  obtain ⟨hne, hseal⟩ := hp hpa
  refine ⟨hne, ?_⟩
  rw [within_bind, hseal]
  exact hf a []

theorem within (hp : Seals p) {vs us : List Token} {a : α}
    (h : p.within (vs ++ us) = some (.ok a, us)) (us' : List Token) :
    p.within (vs ++ us') = some (.ok a, us') := within_append (hp h).2 us'

end Seals

theorem statements_seals (n m : Nat) (stmts : Sequence Stmt) :
    Seals (statements source n m stmts) := by
  induction m generalizing stmts with
  | zero =>
    intro vs us a h
    cases h
  | succ m ih =>
    refine .bind fun close => ?_
    cases close with
    | true => exact Seals.take.map fun _ _ => rfl
    | false => exact .bind fun s => .bind ih

theorem block_seals (n : Nat) : Seals (block source n) :=
  .bind fun _ => .bind fun stmts => (statements_seals n n stmts).map fun _ _ => rfl

theorem function_seals (n : Nat) : Seals (function source n) :=
  .bind fun _ => .bind fun _ => .bind fun _ => .bind fun _ => .bind fun _ => .bind fun _ =>
    (block_seals n).map fun _ _ => rfl

/-! ## Functions -/

section Functions
variable {n m : Nat} {fs : Sequence Function}

theorem functions_stop {t : Token} (ht : t.kind = .eof) (us : List Token) :
    (functions source n (m + 1) fs).within (t :: us) = some (.ok fs.items, t :: us) := by
  change (if decide (t.kind = .eof) then _ else _ : Parser _).within (t :: us) = _
  rw [decide_eq_true ht]
  rfl

theorem functions_step {t : Token} (ht : t.kind ≠ .eof) (us : List Token) :
    (functions source n (m + 1) fs).within (t :: us) =
      (function source n >>= fun f => fs.push Function.layout f >>= functions source n m).within
        (t :: us) := by
  change (if decide (t.kind = .eof) then _ else _ : Parser _).within (t :: us) = _
  rw [decide_eq_false ht]
  rfl

theorem Silent.within_bind {p : Parser α} {f : α → Parser β} {a : α} (hp : Silent p a) :
    (∀ ts, (p >>= f).within ts = (f a).within ts) ∨
      ∃ e, ∀ ts, (p >>= f).within ts = some (.error (.internal (.pool e)), ts) := by
  rcases hp with hp | ⟨e, hp⟩
  · exact .inl fun ts => by rw [Parser.within_bind, hp]
  · exact .inr ⟨e, fun ts => by rw [Parser.within_bind, hp]⟩

/-- Behind functions that were read, reading goes on with what follows, whatever that is. -/
theorem functions_resume {ts : List Token} {last : Token} {out : List Function}
    (hts : ∀ t ∈ ts, t.kind ≠ .eof) (hl : last.kind = .eof)
    (h : (functions source n m fs).within (ts ++ [last]) = some (.ok out, [last])) :
    ∃ m' fs', fs'.items = out ∧ m' + out.length = m + fs.items.length ∧
      ∀ us, (functions source n m fs).within (ts ++ us) = (functions source n m' fs').within us := by
  induction m generalizing fs ts with
  | zero => cases h
  | succ m ih =>
    cases ts with
    | nil =>
      rw [List.nil_append, functions_stop hl] at h
      cases h
      exact ⟨m + 1, fs, rfl, rfl, fun us => rfl⟩
    | cons t ts =>
      have ht : t.kind ≠ .eof := hts t List.mem_cons_self
      rw [List.cons_append, functions_step ht] at h
      obtain ⟨f, vs, hf, h⟩ := within_bind_ok h
      obtain ⟨gs, hgs, hpush⟩ := silent_push Function.layout fs f
      obtain hpush | ⟨e, hpush⟩ := hpush.within_bind (f := functions source n m)
      · rw [hpush] at h
        obtain ⟨vs, rfl⟩ := within_suffix h
        obtain ⟨ws, hws⟩ := within_suffix hf
        rw [← List.append_assoc, ← List.cons_append] at hws
        have hsplit : ws ++ vs = t :: ts := List.append_cancel_right hws
        have hseal : ∀ us, (function source n).within (ws ++ us) = some (.ok f, us) := by
          rw [← List.cons_append, ← hsplit, List.append_assoc] at hf
          exact (function_seals n).within hf
        obtain ⟨m', fs', hitems, hcount, hrest⟩ :=
          ih (fun u hu => hts u (hsplit ▸ List.mem_append_right ws hu)) h
        refine ⟨m', fs', hitems, ?_, fun us => ?_⟩
        · rw [hgs, List.length_append, List.length_singleton] at hcount
          omega
        · rw [List.cons_append, functions_step ht, ← List.cons_append, ← hsplit, List.append_assoc,
            within_bind, hseal, ← hrest us]
          exact hpush (vs ++ us)
      · rw [hpush] at h
        cases h

def Refused (x : Option (Except ParseError α × List Token)) : Prop :=
  ∃ f us, x = some (.error (.internal (.pool f)), us)

/-- With functions in the sequence already, the functions of another source are read behind them. -/
theorem functions_behind {k : Nat} {pre : List Function} {fs' : Sequence Function}
    (hfs : fs'.items = pre ++ fs.items.map (Function.shift k)) {ts : List Token}
    (hts : ∀ t ∈ ts, Carried k source source' t (t.shift k)) :
    Refused ((functions source n m fs).within ts) ∨
      Refused ((functions source' n m fs').within (ts.map (Token.shift k))) ∨
      Agrees k (fun a b => b = pre ++ a.map (Function.shift k)) ((functions source n m fs).within ts)
        ((functions source' n m fs').within (ts.map (Token.shift k))) := by
  induction m generalizing fs fs' ts with
  | zero => exact .inr (.inr (.failed .stalled ts))
  | succ m ih =>
    cases ts with
    | nil => exact .inr (.inr .hungry)
    | cons t ts =>
      by_cases ht : t.kind = .eof
      · have ht' : (t.shift k).kind = .eof := ht
        rw [functions_stop ht, List.map_cons, functions_stop ht']
        exact .inr (.inr (.read (t :: ts) hfs))
      · have ht' : (t.shift k).kind ≠ .eof := ht
        have hfun := (@function_parallel k source source' n).within hts
        rw [List.map_cons] at hfun ⊢
        rw [functions_step ht, within_bind, functions_step ht', within_bind]
        generalize hx : (function source n).within (t :: ts) = x at hfun
        generalize (function source' n).within (t.shift k :: ts.map (Token.shift k)) = y at hfun
        cases hfun with
        | hungry => exact .inr (.inr .hungry)
        | blamed e us => exact .inr (.inr (.blamed e us))
        | failed e us => exact .inr (.inr (.failed e us))
        | @read f f' us hf =>
          obtain ⟨rfl, -⟩ := hf
          obtain ⟨gs, hgs, hpush⟩ := silent_push Function.layout fs f
          obtain ⟨gs', hgs', hpush'⟩ := silent_push Function.layout fs' (f.shift k)
          obtain hpush | ⟨e, hpush⟩ := hpush.within_bind (f := functions source n m)
          · obtain hpush' | ⟨e, hpush'⟩ := hpush'.within_bind (f := functions source' n m)
            · have hitems : gs'.items = pre ++ gs.items.map (Function.shift k) := by
                rw [hgs', hgs, hfs, List.map_append, List.append_assoc]
                rfl
              have hus : ∀ u ∈ us, Carried k source source' u (u.shift k) := fun u hu =>
                hts u ((within_suffix hx).subset hu)
              have hrest := ih hitems hus
              rw [← hpush, ← hpush'] at hrest
              exact hrest
            · exact .inr (.inl ⟨e, _, hpush' _⟩)
          · exact .inl ⟨e, _, hpush _⟩

theorem functions_within_eq {ts : List Token} (hts : Fits source n ts) (hnm : n ≤ m) :
    (functions source n n fs).within ts = (functions source m n fs).within ts := by
  have hcont : Continues (fs.items.length + m) (functions source n n fs) (functions source m n fs) :=
    functions_continues source hnm (by omega) (Nat.le_refl n) (by omega)
  have hout : Outcome source (Lists (Grammar.Many (Grammar.Function source)) fs)
      (functions source n n fs) ts := functions_outcome (Nat.le_refl n) hts
  rcases hcont.within ts with ⟨us, hs⟩ | heq
  · cases hout with
    | read hw | hungry hw | refused hw => cases hs.symm.trans hw
    | @blamed vs us t e hsplit _ hw => cases hs.symm.trans ((congrArg _ hsplit).trans (hw us))
  · exact heq

theorem program_within {ts us : List Token} {p : Program}
    (h : (program source n).within ts = some (.ok p, us)) :
    ∃ acc : Sequence Function, acc.items = [] ∧ ∀ source n ts, (program source n).within ts =
      (functions source n n acc >>= fun fs => done (.ofFunctions source fs)).within ts := by
  obtain ⟨acc, hacc, hs | ⟨e, hs⟩⟩ := silent_start (α := Function) Function.layout
  · refine ⟨acc, hacc, fun source n ts => ?_⟩
    rw [program, within_bind, hs]
    rfl
  · rw [program, within_bind, hs] at h
    cases h

end Functions

end Frontend.Parser
