import Frontend.Proofs.Parser.Row

/-! # Plans over the tokens there are

A list of tokens holds all that a plan wants to see, or the plan asks for more. Nothing behind the
list is seen in the first case, so every host that has these tokens to give carries the plan out in the
same way, whatever it gives afterwards.
-/
namespace Frontend

/-- The host has the tokens of the list to give, and refuses no request. -/
structure Host.Supplies {σ : Type} (h : Host σ) (R : σ → List Token → Prop) : Prop where
  next : ∀ {s t ts}, R s (t :: ts) → ∃ s', h.next s = (.ok t, s') ∧ R s' ts
  peek : ∀ {s t ts}, R s (t :: ts) → ∃ s', h.peek s = (.ok t, s') ∧ R s' (t :: ts)
  reserve : ∀ {s ts} l, R s ts → ∃ s', h.reserve l s = (.ok ⟨⟩, s') ∧ R s' ts
  report : ∀ {s ts} e, R s ts → R (h.report e s) ts

theorem TokenRow.host_supplies (r : TokenRow) :
    host.Supplies fun (s : TokenRow) (ts : List Token) => s = ts ++ r where
  next := by
    rintro _ t ts rfl
    exact ⟨ts ++ r, by rw [← advance_cons_append t ts r]; rfl, rfl⟩
  peek := by
    rintro _ t ts rfl
    exact ⟨_, rfl, rfl⟩
  reserve := by
    rintro _ ts l rfl
    exact ⟨_, rfl, rfl⟩
  report := by
    rintro _ ts e rfl
    rfl

theorem TokenRow.cons_initial {r : TokenRow} {t : Token} {ts : List Token}
    (h : t :: ts <+: r.toList) : r.head = t ∧ ts <+: r.advance.toList := by
  rcases r with ⟨u, _ | ⟨v, us⟩⟩
  · obtain ⟨rfl, hts⟩ := List.cons_prefix_cons.1 h
    rw [List.prefix_nil.1 hts]
    exact ⟨rfl, List.nil_prefix⟩
  · obtain ⟨rfl, hts⟩ := List.cons_prefix_cons.1 h
    exact ⟨rfl, hts⟩

theorem TokenRow.host_supplies_initial :
    host.Supplies fun (s : TokenRow) (ts : List Token) => ts <+: s.toList where
  next := by
    intro r t ts h
    obtain ⟨rfl, hts⟩ := cons_initial h
    exact ⟨_, rfl, hts⟩
  peek := by
    intro r t ts h
    obtain ⟨rfl, -⟩ := cons_initial h
    exact ⟨_, rfl, h⟩
  reserve := fun _ h => ⟨_, rfl, h⟩
  report := fun _ h => h

namespace Parser
variable {α β σ : Type}

theorem bind_assoc {γ : Type} (p : Parser α) (f : α → Parser β) (g : β → Parser γ) :
    (p >>= f) >>= g = p >>= fun a => f a >>= g := by
  change (p.bind f).bind g = p.bind fun a => (f a).bind g
  induction p with
  | done a | fail e => rfl
  | peek k ih => exact congrArg Parser.peek (funext ih)
  | next k ih => exact congrArg Parser.next (funext ih)
  | reserve l k ih => exact congrArg (Parser.reserve l) ih
  | report e k ih => exact congrArg (Parser.report e) ih

/-- What the plan comes to over a list of tokens, with the tokens it leaves, or nothing if it asks for
another one. Memory does not give out. -/
def within : Parser α → List Token → Option (Except ParseError α × List Token)
  | done a, ts => some (.ok a, ts)
  | fail e, ts => some (.error e, ts)
  | peek _, [] => none
  | peek k, t :: ts => (k t).within (t :: ts)
  | next _, [] => none
  | next k, t :: ts => (k t).within ts
  | reserve _ k, ts => k.within ts
  | report _ k, ts => k.within ts

theorem within_bind (p : Parser α) (f : α → Parser β) (ts : List Token) :
    (p >>= f).within ts =
      match p.within ts with
      | none => none
      | some (.ok a, us) => (f a).within us
      | some (.error e, us) => some (.error e, us) := by
  change (p.bind f).within ts = _
  induction p generalizing ts with
  | done a => rfl
  | fail e => rfl
  | peek k ih =>
    cases ts with
    | nil => rfl
    | cons t ts => exact ih t (t :: ts)
  | next k ih =>
    cases ts with
    | nil => rfl
    | cons t ts => exact ih t ts
  | reserve l k ih => exact ih ts
  | report e k ih => exact ih ts

theorem within_bind_ok {p : Parser α} {f : α → Parser β} {ts us : List Token} {b : β}
    (h : (p >>= f).within ts = some (.ok b, us)) :
    ∃ a vs, p.within ts = some (.ok a, vs) ∧ (f a).within vs = some (.ok b, us) := by
  rw [within_bind] at h
  rcases hp : p.within ts with _ | ⟨_ | a, vs⟩ <;> rw [hp] at h
  · cases h
  · cases h
  · exact ⟨a, vs, rfl, h⟩

theorem within_suffix {p : Parser α} {ts us : List Token} {x : Except ParseError α}
    (h : p.within ts = some (x, us)) : us <:+ ts := by
  induction p generalizing ts with
  | done a | fail e =>
    cases h
    exact List.suffix_refl _
  | peek k ih =>
    cases ts with
    | nil => cases h
    | cons t ts => exact ih t h
  | next k ih =>
    cases ts with
    | nil => cases h
    | cons t ts => exact (ih t h).trans (List.suffix_cons t ts)
  | reserve l k ih => exact ih h
  | report e k ih => exact ih h

/-- A plan that leaves a token has seen nothing behind it. -/
theorem within_congr {p : Parser α} {vs us us' : List Token} {t : Token} {x : Except ParseError α}
    (h : p.within (vs ++ t :: us) = some (x, t :: us)) :
    p.within (vs ++ t :: us') = some (x, t :: us') := by
  induction p generalizing vs with
  | done a | fail e =>
    obtain ⟨rfl, hts⟩ := Prod.mk.inj (Option.some.inj h)
    obtain rfl : vs = [] := by simpa using hts
    rfl
  | peek k ih =>
    cases vs with
    | nil => exact @ih t [] h
    | cons v vs => exact @ih v (v :: vs) h
  | next k ih =>
    cases vs with
    | nil =>
      have hle := (within_suffix (p := k t) h).length_le
      rw [List.length_cons] at hle
      omega
    | cons v vs => exact ih v h
  | reserve l k ih => exact ih h
  | report e k ih => exact ih h

/-- A host that has the tokens carries the plan out as the list does. -/
theorem run_of_within {h : Host σ} {R : σ → List Token → Prop} (hR : h.Supplies R) {p : Parser α}
    {s : σ} {ts us : List Token} {x : Except ParseError α} (hs : R s ts)
    (hp : p.within ts = some (x, us)) : (p.run h s).1 = x ∧ R (p.run h s).2 us := by
  induction p generalizing s ts with
  | done a | fail e =>
    cases hp
    exact ⟨rfl, hs⟩
  | peek k ih =>
    cases ts with
    | nil => cases hp
    | cons t ts =>
      obtain ⟨s', he, hs'⟩ := hR.peek hs
      simp only [run, he]
      exact ih t hs' hp
  | next k ih =>
    cases ts with
    | nil => cases hp
    | cons t ts =>
      obtain ⟨s', he, hs'⟩ := hR.next hs
      simp only [run, he]
      exact ih t hs' hp
  | reserve l k ih =>
    obtain ⟨s', he, hs'⟩ := hR.reserve l hs
    simp only [run, he]
    exact ih hs' hp
  | report e k ih => exact ih (hR.report e hs) hp

theorem read_of_within {p : Parser α} {r : TokenRow} {us : List Token} {x : Except ParseError α}
    (h : p.within r.toList = some (x, us)) : (p.read r).1 = x :=
  (run_of_within TokenRow.host_supplies_initial (List.prefix_refl _) h).1

theorem within_of_read {p : Parser α} {ts vs us : List Token} {t u : Token} {x : Except ParseError α}
    (h : p.read (ts ++ TokenRow.mk t (u :: us)) = (x, vs ++ TokenRow.mk t (u :: us))) :
    p.within (ts ++ [t]) = some (x, vs ++ [t]) := by
  induction p generalizing ts with
  | done a | fail e =>
    obtain ⟨rfl, hrow⟩ := Prod.mk.inj h
    have hts := congrArg TokenRow.toList hrow
    rw [TokenRow.toList_append, TokenRow.toList_append] at hts
    rw [List.append_cancel_right hts]
    rfl
  | peek k ih =>
    cases ts with
    | nil => exact @ih t [] h
    | cons v ts => exact @ih v (v :: ts) h
  | next k ih =>
    cases ts with
    | nil =>
      have hle := (read_suffix (k t) ⟨u, us⟩).length_le
      have hrow : (k t).read ⟨u, us⟩ = (x, vs ++ TokenRow.mk t (u :: us)) := h
      rw [hrow, TokenRow.toList_append, List.length_append] at hle
      simp only [TokenRow.toList, List.length_cons] at hle
      omega
    | cons v ts =>
      have hrow : (k v).read (v :: ts ++ TokenRow.mk t (u :: us)).advance =
          (x, vs ++ TokenRow.mk t (u :: us)) := h
      rw [TokenRow.advance_cons_append] at hrow
      exact ih v hrow
  | reserve l k ih => exact ih h
  | report e k ih => exact ih h

theorem Gives.within {p : Parser α} {ts : List Token} {a : α} {t : Token}
    (h : Gives (p.read (ts ++ TokenRow.mk t [t])) a ⟨t, [t]⟩) :
    p.within (ts ++ [t]) = some (.ok a, [t]) ∨
      ∃ f us, p.within (ts ++ [t]) = some (.error (.internal (.pool f)), us) := by
  rcases h with h | ⟨f, hf, vs, hvs⟩
  · exact .inl (@within_of_read α p ts [] [] t t _ h)
  · have hrow : (p.read (ts ++ TokenRow.mk t [t])).2 = vs ++ TokenRow.mk t [t] :=
      TokenRow.toList_inj (hvs.symm.trans (TokenRow.toList_append _ _).symm)
    exact .inr ⟨f, _, within_of_read (Prod.ext hf hrow)⟩

/-- A host that answers with an error behind the tokens answers so to a plan that asks for more. -/
theorem run_of_hungry {h : Host σ} {R : σ → List Token → Prop} (hR : h.Supplies R)
    {e : SourceError}
    (hend : ∀ s, R s [] → (∃ s', h.next s = (.error e, s')) ∧ ∃ s', h.peek s = (.error e, s'))
    {p : Parser α} {s : σ} {ts : List Token} (hs : R s ts) (hp : p.within ts = none) :
    (p.run h s).1 = .error (.source e) := by
  induction p generalizing s ts with
  | done a | fail f => cases hp
  | peek k ih =>
    cases ts with
    | nil =>
      obtain ⟨s', he⟩ := (hend s hs).2
      simp only [run, he]
    | cons t ts =>
      obtain ⟨s', he, hs'⟩ := hR.peek hs
      simp only [run, he]
      exact ih t hs' hp
  | next k ih =>
    cases ts with
    | nil =>
      obtain ⟨s', he⟩ := (hend s hs).1
      simp only [run, he]
    | cons t ts =>
      obtain ⟨s', he, hs'⟩ := hR.next hs
      simp only [run, he]
      exact ih t hs' hp
  | reserve l k ih =>
    obtain ⟨s', he, hs'⟩ := hR.reserve l hs
    simp only [run, he]
    exact ih hs' hp
  | report f k ih => exact ih (hR.report f hs) hp

end Parser

end Frontend
