import Frontend.Proofs.Grammar.Viable
import Frontend.Proofs.Parser.Within

/-! # What plans come to

Over a list of tokens a plan of a rule reads a phrase, asks for a token more, blames a token, or
cannot make a request. What it has taken is the beginning of a phrase unless it has read one, and the
token it blames is the first one it took that cannot be part of any. Each rule below says how the
outcome of a plan follows from those of its parts.
-/
namespace Frontend

def Written (source : Text) (t : Token) : Prop :=
  ∀ suffix, t.kind = .int suffix → ∃ value, Grammar.Spells source t.span suffix value

theorem Spelled.written {source : Text} {t : Token} (h : Spelled source t) : Written source t := by
  intro suffix hk
  obtain ⟨value, -, hs⟩ := h suffix hk
  exact ⟨value, hs⟩

theorem Kind.ne_eof_of_isPlain {k : Kind} (h : k.isPlain) : k ≠ .eof := by
  rintro rfl
  cases h

theorem Spelled.of_isPlain {source : Text} {t : Token} (h : t.kind.isPlain) : Spelled source t := by
  intro suffix hk
  rw [hk] at h
  cases h

namespace Parser
open Grammar
variable {α β : Type} {source : Text}

/-- What can be wrong with a token: it is not what was expected, or no word holds its value. -/
def Fault (source : Text) (t : Token) : Problem → Prop
  | .expected _ => True
  | .overflow text => text = t.span.text source ∧ ¬ Spelled source t
  | .unexpected _ | .badSuffix => False

/-- What a plan comes to over a row of tokens, if it reads phrases of `D`. -/
inductive Outcome (source : Text) (D : Phrases α) (p : Parser α) (ts : List Token) : Prop
  | read {vs us : List Token} {a : α} :
      p.within ts = some (.ok a, us) → ts = vs ++ us → D vs a → Outcome source D p ts
  | hungry : p.within ts = none → Viable D ts → Outcome source D p ts
  | blamed {vs us : List Token} {t : Token} {e : Problem} : ts = vs ++ t :: us → Fault source t e →
      (∀ ws, p.within (vs ++ t :: ws) = some (.error (.source ⟨e, t.span⟩), ws)) →
      Viable D vs → Outcome source D p ts
  | refused {us : List Token} {f : Pool.Failure} :
      p.within ts = some (.error (.internal (.pool f)), us) → Outcome source D p ts

namespace Outcome

theorem done {D : Phrases α} {a : α} (h : D [] a) (ts : List Token) :
    Outcome source D (done a) ts := .read rfl rfl h

/-- What was read so far is a phrase. -/
theorem complete {D : Phrases α} {a : α} {pre : List Token} (h : D pre a) (ts : List Token) :
    Outcome source (Behind pre D) (Parser.done a) ts := by
  refine done ?_ ts
  rw [Behind, List.append_nil]
  exact h

theorem imp {C D : Phrases α} {p : Parser α} {ts : List Token} (h : Outcome source C p ts)
    (hD : ∀ us a, C us a → D us a) : Outcome source D p ts := by
  have hv (us : List Token) (hC : Viable C us) : Viable D us := hC.imp fun us a h => ⟨a, hD us a h⟩
  cases h with
  | read hw hts hC => exact .read hw hts (hD _ _ hC)
  | hungry hw hC => exact .hungry hw (hv _ hC)
  | blamed hts he hw hC => exact .blamed hts he hw (hv _ hC)
  | refused hw => exact .refused hw

theorem bind {C : Phrases α} {D : Phrases β} {p : Parser α} {f : α → Parser β} {ts : List Token}
    (hp : Outcome source C p ts) (hv : ∀ vs, Viable C vs → Viable D vs)
    (hf : ∀ vs us a, p.within ts = some (.ok a, us) → ts = vs ++ us → C vs a →
      Outcome source (Behind vs D) (f a) us) : Outcome source D (p >>= f) ts := by
  cases hp with
  | hungry hw hC => exact .hungry (by rw [within_bind, hw]) (hv _ hC)
  | blamed hts he hw hC => exact .blamed hts he (fun ws => by rw [within_bind, hw]) (hv _ hC)
  | refused hw => exact .refused (by rw [within_bind, hw])
  | @read vs us a hw hts hC =>
    subst hts
    have hbind : (p >>= f).within (vs ++ us) = (f a).within us := by rw [within_bind, hw]
    cases hf vs us a hw rfl hC with
    | read hw' hus hD =>
      subst hus
      exact .read (hbind.trans hw') (List.append_assoc ..).symm hD
    | hungry hw' hD => exact .hungry (hbind.trans hw') hD.behind
    | refused hw' => exact .refused (hbind.trans hw')
    | @blamed vs' us' t e hus he hw' hD =>
      subst hus
      have hts : vs ++ (vs' ++ t :: us') = vs ++ vs' ++ t :: us' := (List.append_assoc ..).symm
      refine .blamed hts he (fun ws => ?_) hD.behind
      -- The first plan has seen at most the token up to which the second one reads.
      have hfirst : p.within (vs ++ (vs' ++ t :: ws)) = some (.ok a, vs' ++ t :: ws) := by
        cases vs' with
        | nil => exact within_congr hw
        | cons v vs' => exact within_congr hw
      rw [List.append_assoc, within_bind, hfirst]
      exact hw' ws

theorem seen_bind {D : Phrases β} {f : Token → Parser β} {t : Token} {us : List Token}
    (h : Outcome source (Behind [t] D) (f t) us) : Outcome source D (take >>= f) (t :: us) := by
  cases h with
  | read hw hus hD => exact .read hw (congrArg (t :: ·) hus) hD
  | hungry hw hD => exact .hungry hw hD.behind
  | refused hw => exact .refused hw
  | @blamed vs us' u e hus he hw hD =>
    have hts : t :: us = (t :: vs) ++ u :: us' := congrArg (t :: ·) hus
    exact .blamed hts he hw hD.behind

theorem take_bind {D : Phrases β} {f : Token → Parser β} {ts : List Token} (hv : Viable D [])
    (hf : ∀ t us, ts = t :: us → (∃ e, Fault source t e ∧ f t = fail (.source ⟨e, t.span⟩)) ∨
      Outcome source (Behind [t] D) (f t) us) : Outcome source D (take >>= f) ts := by
  cases ts with
  | nil => exact .hungry rfl hv
  | cons t us =>
    rcases hf t us rfl with ⟨e, he, hft⟩ | h
    · have hts : t :: us = [] ++ t :: us := rfl
      refine .blamed hts he (fun ws => ?_) hv
      change (f t).within ws = _
      rw [hft]
      rfl
    · exact seen_bind h

theorem expect_bind {D : Phrases β} {k : Kind} {e : Expected} {f : Token → Parser β}
    {ts : List Token} (hv : Viable D [])
    (hf : ∀ t us, ts = t :: us → t.kind = k → Outcome source (Behind [t] D) (f t) us) :
    Outcome source D (expect k e >>= f) ts := by
  have hexpect : expect k e >>= f =
      take >>= fun t => (if t.kind = k then Parser.done t else unexpected e t) >>= f := rfl
  rw [hexpect]
  refine take_bind hv fun t us hts => ?_
  split
  · next hk => exact .inr (hf t us hts hk)
  · exact .inl ⟨.expected e, trivial, rfl⟩

theorem look_bind {D : Phrases β} {f : Token → Parser β} {ts : List Token} (hv : Viable D [])
    (hf : ∀ t us, ts = t :: us → Outcome source D (f t) ts) : Outcome source D (look >>= f) ts := by
  cases ts with
  | nil => exact .hungry rfl hv
  | cons t us =>
    cases hf t us rfl with
    | read hw hts hD => exact .read hw hts hD
    | hungry hw hD => exact .hungry hw hD
    | refused hw => exact .refused hw
    | @blamed vs us' u e hts he hw hD =>
      refine .blamed hts he (fun ws => ?_) hD
      cases vs with
      | nil =>
        obtain ⟨rfl, -⟩ := List.cons.inj hts
        exact hw ws
      | cons v vs =>
        obtain ⟨rfl, -⟩ := List.cons.inj hts
        exact hw ws

theorem check_bind {D : Phrases β} {k : Kind} {f : Bool → Parser β} {ts : List Token}
    (hv : Viable D []) (hyes : ∀ t us, ts = t :: us → t.kind = k → Outcome source D (f true) ts)
    (hno : ∀ t us, ts = t :: us → t.kind ≠ k → Outcome source D (f false) ts) :
    Outcome source D (check k >>= f) ts := by
  have hcheck : check k >>= f = look >>= fun t => f (decide (t.kind = k)) := rfl
  rw [hcheck]
  refine look_bind hv fun t us hts => ?_
  by_cases hk : t.kind = k
  · rw [decide_eq_true hk]
    exact hyes t us hts hk
  · rw [decide_eq_false hk]
    exact hno t us hts hk

theorem congr {D : Phrases α} {p q : Parser α} {ts : List Token}
    (h : ∀ us, p.within us = q.within us) (hq : Outcome source D q ts) : Outcome source D p ts := by
  cases hq with
  | read hw hts hD => exact .read ((h _).trans hw) hts hD
  | hungry hw hD => exact .hungry ((h _).trans hw) hD
  | blamed hts he hw hD => exact .blamed hts he (fun ws => (h _).trans (hw ws)) hD
  | refused hw => exact .refused ((h _).trans hw)

end Outcome

/-- The plan asks for memory only, and makes `a` unless the request cannot be made. -/
def Silent (p : Parser α) (a : α) : Prop :=
  (∀ ts, p.within ts = some (.ok a, ts)) ∨
    ∃ f, ∀ ts, p.within ts = some (.error (.internal (.pool f)), ts)

theorem Silent.bind {p : Parser α} {f : α → Parser β} {a : α} {b : β} (hp : Silent p a)
    (hf : Silent (f a) b) : Silent (p >>= f) b := by
  rcases hp with hp | ⟨e, hp⟩
  · rcases hf with hf | ⟨e, hf⟩
    · exact .inl fun ts => by rw [within_bind, hp]; exact hf ts
    · exact .inr ⟨e, fun ts => by rw [within_bind, hp]; exact hf ts⟩
  · exact .inr ⟨e, fun ts => by rw [within_bind, hp]⟩

theorem Outcome.silent_bind {D : Phrases β} {p : Parser α} {f : α → Parser β} {a : α}
    {ts : List Token} (hp : Silent p a) (h : Outcome source D (f a) ts) :
    Outcome source D (p >>= f) ts := by
  rcases hp with hp | ⟨e, hp⟩
  · exact h.congr fun us => by rw [within_bind, hp]
  · exact .refused (by rw [within_bind, hp])

theorem Outcome.silent {D : Phrases α} {p : Parser α} {a : α} (hp : Silent p a) (h : D [] a)
    (ts : List Token) : Outcome source D p ts := by
  rcases hp with hp | ⟨e, hp⟩
  · exact .read (hp ts) rfl h
  · exact .refused (hp ts)

theorem silent_buffer (l : Pool.Layout) (n : Nat) : Silent (buffer l n) ⟨⟩ := by
  unfold buffer
  split
  · exact .inl fun ts => rfl
  · next e _ => exact .inr ⟨e, fun ts => rfl⟩

theorem silent_start (l : Pool.Layout) :
    ∃ s : Sequence α, s.items = [] ∧ Silent (Sequence.start l) s :=
  ⟨⟨[], Pool.standardCapacity⟩, rfl, (silent_buffer l _).bind (.inl fun _ => rfl)⟩

theorem silent_push (l : Pool.Layout) (s : Sequence α) (a : α) :
    ∃ s' : Sequence α, s'.items = s.items ++ [a] ∧ Silent (s.push l a) s' := by
  unfold Sequence.push
  split
  · split
    · next e _ => exact ⟨⟨s.items ++ [a], 0⟩, rfl, .inr ⟨e, fun _ => rfl⟩⟩
    · next c _ => exact ⟨⟨s.items ++ [a], c⟩, rfl, (silent_buffer l c).bind (.inl fun _ => rfl)⟩
  · exact ⟨{ s with items := s.items ++ [a] }, rfl, .inl fun _ => rfl⟩

theorem silent_node (e : Expr) : Silent (node e) e := .inl fun _ => rfl

/-- Literals in the row are written as such, and it is shorter than the bound of the loops. -/
structure Fits (source : Text) (n : Nat) (ts : List Token) : Prop where
  length_lt : ts.length < n
  written : ∀ t ∈ ts, Written source t

namespace Fits
variable {n : Nat} {ts us : List Token}

theorem of_append (h : Fits source n (ts ++ us)) : Fits source n us where
  length_lt := by
    have hl := h.length_lt
    rw [List.length_append] at hl
    omega
  written t ht := h.written t (List.mem_append_right _ ht)

theorem tail {t : Token} (h : Fits source (n + 1) (t :: ts)) : Fits source n ts where
  length_lt := Nat.lt_of_succ_lt_succ h.length_lt
  written u hu := h.written u (List.mem_cons_of_mem t hu)

theorem drop (h : Fits source n ts) (k : Nat) : Fits source n (ts.drop k) where
  length_lt := by
    rw [List.length_drop]
    have hl := h.length_lt
    omega
  written t ht := h.written t (List.mem_of_mem_drop ht)

theorem mono {m : Nat} (h : Fits source n ts) (hm : n ≤ m) : Fits source m ts :=
  ⟨Nat.lt_of_lt_of_le h.length_lt hm, h.written⟩

theorem behind (h : Fits source (n + 1) (ts ++ us)) (hts : 0 < ts.length) : Fits source n us where
  length_lt := by
    have hl := h.length_lt
    rw [List.length_append] at hl
    omega
  written t ht := h.written t (List.mem_append_right _ ht)

end Fits

/-- The plan reads phrases of `D`, with `n` as the bound of its loops. -/
def Decides (source : Text) (D : Phrases α) (n : Nat) (p : Parser α) : Prop :=
  ∀ ⦃ts : List Token⦄, Fits source n ts → Outcome source D p ts

end Parser

namespace TokenRow.Regular
variable {source : Text} {r : TokenRow}

theorem not_inner (h : Regular source r) : ¬ Grammar.Inner r.toList := by
  obtain ⟨ts, last, hr, hl, -⟩ := h
  intro hi
  exact hi last (by simp [hr]) hl

theorem fits {n : Nat} (h : Regular source r) (hn : r.toList.length < n) :
    Parser.Fits source n r.toList where
  length_lt := hn
  written := by
    obtain ⟨ts, last, hr, hl, hm⟩ := h
    intro t ht suffix hk
    rw [hr, List.mem_append, List.mem_singleton] at ht
    rcases ht with ht | rfl
    · exact (hm t ht).2.written suffix hk
    · cases hl.symm.trans hk

end TokenRow.Regular
end Frontend
