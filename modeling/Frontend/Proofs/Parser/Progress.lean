import Frontend.Proofs.Grammar.Loose
import Frontend.Proofs.Parser.Expression

/-! # Plans make progress on any tokens

Tokens that do not fit the source, and rows with an end of input anywhere, are read by the same plans. A
plan fails at an end of input that it takes, and a loop has taken a token when it comes back to its head; so
no loop is cut off over a row that is shorter than its bound.
-/
namespace Frontend.Parser
open Grammar

variable {α β : Type}

/-- Over the tokens the plan is not cut off, and it fails at an end of input that it takes. When it is done,
its answer and the tokens it leaves are of `Q`. -/
def Proceeds (Q : α → List Token → Prop) : Parser α → List Token → Prop
  | done a, ts => Q a ts
  | fail e, _ => e ≠ .internal .stalled
  | peek _, [] => True
  | peek k, t :: ts => (k t).Proceeds Q (t :: ts)
  | next _, [] => True
  | next k, t :: ts =>
    if t.kind = .eof then ∃ e, k t = fail e ∧ e ≠ .internal .stalled else (k t).Proceeds Q ts
  | reserve _ k, ts => k.Proceeds Q ts
  | report _ k, ts => k.Proceeds Q ts

namespace Proceeds
variable {Q Q' : α → List Token → Prop} {R : β → List Token → Prop} {p : Parser α} {ts : List Token}

theorem bind {f : α → Parser β} (h : p.Proceeds Q ts)
    (hf : ∀ a us, Q a us → (f a).Proceeds R us) : (p >>= f).Proceeds R ts := by
  change (p.bind f).Proceeds R ts
  induction p generalizing ts with
  | done a => exact hf a ts h
  | fail e => exact h
  | peek k ih =>
    cases ts with
    | nil => trivial
    | cons t ts => exact ih t h
  | next k ih =>
    cases ts with
    | nil => trivial
    | cons t ts =>
      simp only [Parser.bind, Proceeds] at h ⊢
      split at h
      · next hk =>
        obtain ⟨e, he, hs⟩ := h
        rw [if_pos hk, he]
        exact ⟨e, rfl, hs⟩
      · next hk =>
        rw [if_neg hk]
        exact ih t h
  | reserve l k ih => exact ih h
  | report e k ih => exact ih h

theorem imp_within (h : p.Proceeds Q ts)
    (hQ : ∀ a us, p.within ts = some (.ok a, us) → Q a us → Q' a us) : p.Proceeds Q' ts := by
  induction p generalizing ts with
  | done a => exact hQ a ts rfl h
  | fail e => exact h
  | peek k ih =>
    cases ts with
    | nil => trivial
    | cons t ts => exact ih t h hQ
  | next k ih =>
    cases ts with
    | nil => trivial
    | cons t ts =>
      simp only [Proceeds] at h ⊢
      split at h
      · next hk => rwa [if_pos hk]
      · next hk =>
        rw [if_neg hk]
        exact ih t h hQ
  | reserve l k ih => exact ih h hQ
  | report e k ih => exact ih h hQ

theorem imp (h : p.Proceeds Q ts) (hQ : ∀ a us, Q a us → Q' a us) : p.Proceeds Q' ts :=
  h.imp_within fun a us _ => hQ a us

theorem of_within {x : Except ParseError α} {us : List Token} (h : p.within [] = some (x, us))
    (hs : x ≠ .error (.internal .stalled)) (hQ : ∀ a, x = .ok a → Q a ts) : p.Proceeds Q ts := by
  induction p with
  | done a =>
    cases h
    exact hQ a rfl
  | fail e =>
    cases h
    rintro rfl
    exact hs rfl
  | peek k | next k => cases h
  | reserve l k ih => exact ih h
  | report e k ih => exact ih h

end Proceeds

/-- The plan proceeds over the row, and what it reads is a phrase. -/
def Reads (D : Phrases α) (p : Parser α) (ts : List Token) : Prop :=
  p.Proceeds (fun a us => ∃ vs, ts = vs ++ us ∧ D vs a) ts

namespace Reads
variable {C : Phrases α} {D : Phrases β} {ts us : List Token}

theorem done {b : β} (h : D [] b) (ts : List Token) : Reads D (Parser.done b) ts := ⟨[], rfl, h⟩

theorem fail {e : ParseError} (h : e ≠ .internal .stalled) (ts : List Token) :
    Reads D (Parser.fail e) ts := h

theorem complete {b : β} {pre : List Token} (h : D pre b) (ts : List Token) :
    Reads (Behind pre D) (Parser.done b) ts := by
  refine done ?_ ts
  rw [Behind, List.append_nil]
  exact h

theorem imp {C D : Phrases α} {p : Parser α} (h : Reads C p ts) (hD : ∀ us a, C us a → D us a) :
    Reads D p ts := by
  refine Proceeds.imp h ?_
  rintro a us ⟨vs, hts, hC⟩
  exact ⟨vs, hts, hD vs a hC⟩

theorem bind {p : Parser α} {f : α → Parser β} (hp : Reads C p ts)
    (hf : ∀ vs us a, p.within ts = some (.ok a, us) → ts = vs ++ us → C vs a →
      Reads (Behind vs D) (f a) us) : Reads D (p >>= f) ts := by
  have hread : p.Proceeds (fun a us => p.within ts = some (.ok a, us) ∧ ∃ vs, ts = vs ++ us ∧ C vs a)
      ts := Proceeds.imp_within hp fun _ _ => And.intro
  refine hread.bind ?_
  rintro a us ⟨hw, vs, rfl, hC⟩
  refine Proceeds.imp (hf vs us a hw rfl hC) ?_
  rintro b ws ⟨vs', rfl, hD⟩
  exact ⟨vs ++ vs', (List.append_assoc ..).symm, hD⟩

theorem seen_bind {f : Token → Parser β} {t : Token} (ht : t.kind ≠ .eof)
    (h : Reads (Behind [t] D) (f t) us) : Reads D (take >>= f) (t :: us) := by
  change if t.kind = .eof then _ else (f t).Proceeds _ us
  rw [if_neg ht]
  refine Proceeds.imp h ?_
  rintro b ws ⟨vs, rfl, hD⟩
  exact ⟨t :: vs, rfl, hD⟩

theorem take_bind {f : Token → Parser β}
    (hf : ∀ t us, ts = t :: us → (∃ e, f t = Parser.fail e ∧ e ≠ .internal .stalled) ∨
      t.kind ≠ .eof ∧ Reads (Behind [t] D) (f t) us) : Reads D (take >>= f) ts := by
  cases ts with
  | nil => trivial
  | cons t us =>
    rcases hf t us rfl with ⟨e, hft, he⟩ | ⟨hk, h⟩
    · change if t.kind = .eof then _ else (f t).Proceeds _ us
      split
      · exact ⟨e, hft, he⟩
      · rw [hft]
        exact he
    · exact seen_bind hk h

theorem expect_bind {k : Kind} {e : Expected} {f : Token → Parser β} (hk : k ≠ .eof)
    (hf : ∀ t us, ts = t :: us → t.kind = k → Reads (Behind [t] D) (f t) us) :
    Reads D (expect k e >>= f) ts := by
  have hexpect : expect k e >>= f =
      take >>= fun t => (if t.kind = k then Parser.done t else unexpected e t) >>= f := rfl
  rw [hexpect]
  refine take_bind fun t us hts => ?_
  split
  · next ht => exact .inr ⟨by rwa [ht], hf t us hts ht⟩
  · exact .inl ⟨_, rfl, by rintro ⟨⟩⟩

theorem look_bind {f : Token → Parser β} (hf : ∀ t us, ts = t :: us → Reads D (f t) ts) :
    Reads D (look >>= f) ts := by
  cases ts with
  | nil => trivial
  | cons t us => exact hf t us rfl

theorem check_bind {k : Kind} {f : Bool → Parser β}
    (hyes : ∀ t us, ts = t :: us → t.kind = k → Reads D (f true) ts)
    (hno : ∀ t us, ts = t :: us → t.kind ≠ k → Reads D (f false) ts) :
    Reads D (check k >>= f) ts := by
  have hcheck : check k >>= f = look >>= fun t => f (decide (t.kind = k)) := rfl
  rw [hcheck]
  refine look_bind fun t us hts => ?_
  by_cases hk : t.kind = k
  · rw [decide_eq_true hk]
    exact hyes t us hts hk
  · rw [decide_eq_false hk]
    exact hno t us hts hk

theorem silent_bind {p : Parser α} {f : α → Parser β} {a : α} (hp : Silent p a)
    (h : Reads D (f a) ts) : Reads D (p >>= f) ts := by
  have hp : p.Proceeds (fun a' us => a' = a ∧ us = ts) ts := by
    rcases hp with hp | ⟨e, hp⟩
    · refine .of_within (hp []) (by simp) ?_
      rintro _ ⟨⟩
      exact ⟨rfl, rfl⟩
    · exact .of_within (hp []) (by simp) (by simp)
  refine hp.bind ?_
  rintro _ _ ⟨rfl, rfl⟩
  exact h

theorem silent {p : Parser β} {b : β} (hp : Silent p b) (h : D [] b) (ts : List Token) :
    Reads D p ts := by
  rcases hp with hp | ⟨e, hp⟩
  · refine .of_within (hp []) (by simp) ?_
    rintro _ ⟨⟩
    exact ⟨[], rfl, h⟩
  · exact .of_within (hp []) (by simp) (by simp)

end Reads

theorem Reads.decided {source : Text} {C D : Phrases α} {p : Parser α} {ts : List Token}
    (h : Reads C p ts) (hp : Outcome source D p ts) : Reads D p ts := by
  refine Proceeds.imp_within h fun a us hw _ => ?_
  cases hp with
  | read hw' hts hD =>
    cases hw.symm.trans hw'
    exact ⟨_, hts, hD⟩
  | hungry hw' _ | refused hw' => cases hw.symm.trans hw'
  | @blamed vs us' t _ hts _ hw' _ =>
    subst hts
    cases hw.symm.trans (hw' us')

/-- The plan reads phrases off all rows of less than `n` tokens. -/
def Steady (D : Phrases α) (n : Nat) (p : Parser α) : Prop :=
  ∀ ⦃ts : List Token⦄, ts.length < n → Reads D p ts

/-! ## Expressions -/

variable {source : Text} {n m : Nat}

theorem Reads.binaryOp_bind {D : Phrases β} {f : BinOp → Parser β} {t : Token} {us : List Token}
    {o : BinOp} (hk : t.kind = .op o) (h : Reads (Behind [t] D) (f o) us) :
    Reads D (binaryOp >>= f) (t :: us) := by
  have ht : t.kind ≠ .eof := by simp [hk]
  rw [binaryOp, bind_assoc]
  refine seen_bind ht ?_
  rw [hk]
  exact h

theorem chain_reads {p : Precedence} {operand : Parser Expr} {D : Phrases Expr}
    (hop : Steady D n operand) {left : Expr} {pre ts : List Token} (hl : Level p D pre left)
    (hm : m ≤ n) (hts : ts.length < m) :
    Reads (Behind pre (Level p D)) (chain p operand m left) ts := by
  induction m generalizing left pre ts with
  | zero => exact absurd hts (Nat.not_lt_zero _)
  | succ m ih =>
    rw [chain]
    refine .look_bind fun t us hts' => ?_
    subst hts'
    rw [List.length_cons] at hts
    split
    · next hmem =>
      obtain ⟨o, hk, hp⟩ := mem_operators.1 hmem
      refine .binaryOp_bind hk (.bind (hop (by omega)) ?_)
      rintro vs us r - rfl hr
      rw [List.length_append] at hts
      refine .silent_bind (silent_node _) ?_
      refine (ih (.join hl hk hp hr) (by omega) (by omega)).imp fun ws e he => ?_
      simpa [Behind] using he
    · exact .complete hl _

theorem level_reads {p : Precedence} {operand : Parser Expr} {D : Phrases Expr}
    (hop : Steady D (n + 1) operand) (hne : ∀ {ts e}, D ts e → 0 < ts.length) :
    Steady (Level p D) (n + 1) (level p operand n) := by
  intro ts hts
  refine .bind (hop hts) ?_
  rintro vs us e - rfl he
  have hv := hne he
  rw [List.length_append] at hts
  exact chain_reads hop (.operand he) (Nat.le_succ n) (by omega)

theorem arguments_reads {expression : Parser Expr} {D : Phrases Expr} (he : Steady D n expression)
    {acc : Sequence Expr} {ts : List Token} (hm : m ≤ n) (hts : ts.length < m) :
    Reads (Adds (Arguments D) acc) (arguments expression m acc) ts := by
  induction m generalizing acc ts with
  | zero => exact absurd hts (Nat.not_lt_zero _)
  | succ m ih =>
    have hnone : Adds (Arguments D) acc [] acc := ⟨[], (List.append_nil _).symm, .none⟩
    rw [arguments]
    refine .check_bind (fun t us _ _ => .done hnone _) fun t us _ _ => ?_
    refine .bind (he (Nat.lt_of_lt_of_le hts hm)) ?_
    rintro vs us e - rfl hD
    obtain ⟨acc', hacc, hs⟩ := silent_push Expr.referenceLayout acc e
    have hone : Adds (Arguments D) acc vs acc' := ⟨[e], hacc, .items (.one hD)⟩
    refine .silent_bind hs (.check_bind ?_ fun t us _ _ => .complete hone _)
    rintro t us rfl ht
    rw [List.length_append, List.length_cons] at hts
    refine .seen_bind (by simp [ht]) ((ih (by omega) (by omega)).imp fun ws s hs => ?_)
    have hcons : Adds (Arguments D) acc (vs ++ t :: ws) s := hs.cons hacc fun as => .cons hD ht
    simpa [Behind] using hcons

theorem literal_reads {t : Token} {suffix : Suffix} (hk : t.kind = .int suffix)
    (expression : Phrases Expr) (ts : List Token) :
    Reads (Behind [t] (Loose.Primary source expression)) (literal source t.span suffix) ts := by
  unfold literal
  dsimp only
  split
  · next value hv => exact .silent (silent_node _) (Loose.Primary.int hk hv) ts
  · exact .fail (by simp) ts
  · exact .fail (by simp) ts

theorem primary_reads {expression : Unit → Parser Expr} {D : Phrases Expr}
    (he : Steady D n (expression ())) :
    Steady (Loose.Primary source D) (n + 1) (primary source expression n) := by
  intro ts hts
  refine .take_bind fun t us hus => ?_
  subst hus
  have hus : us.length < n := Nat.lt_of_succ_lt_succ hts
  split
  · next suffix hk => exact .inr ⟨by simp [hk], literal_reads hk D us⟩
  · next hk =>
    refine .inr ⟨by simp [hk], .check_bind ?_ fun u us _ _ =>
      .silent (silent_node _) (Loose.Primary.var hk) _⟩
    rintro opening us rfl ho
    rw [List.length_cons] at hus
    rw [call]
    refine .seen_bind (by simp [ho]) ?_
    obtain ⟨acc, hacc, hs⟩ := silent_start (α := Expr) Expr.referenceLayout
    refine .silent_bind hs (.bind (arguments_reads he (Nat.le_refl n) (by omega)) ?_)
    rintro vs us args - rfl ⟨es, hes, hA⟩
    refine .expect_bind (by simp) ?_
    rintro closing us rfl hc
    refine .silent (silent_node _) ?_ us
    rw [hes, hacc]
    exact Loose.Primary.call hk ho hA hc
  · next hk =>
    refine .inr ⟨by simp [hk], .bind (he hus) ?_⟩
    rintro vs us e - rfl hD
    refine .expect_bind (by simp) ?_
    rintro closing us rfl hc
    exact .done (Loose.Primary.group hk hD hc) us
  · exact .inl ⟨_, rfl, by simp⟩

theorem expression_reads (source : Text) (n : Nat) :
    Steady (Loose.Expression source) n (expression source n) := by
  induction n with
  | zero => exact fun ts hts => absurd hts (Nat.not_lt_zero _)
  | succ n ih =>
    have hp : Steady (Loose.Primary source (Loose.Expression source)) (n + 1)
        (primary source (fun _ => expression source n) n) := primary_reads ih
    have h₁ := level_reads (p := .product) hp fun h => h.opens.length_pos
    have h₂ := level_reads (p := .sum) h₁ fun h => (h.opens Loose.Primary.opens).length_pos
    have h₃ := level_reads (p := .comparison) h₂ fun h =>
      (h.opens fun h => h.opens Loose.Primary.opens).length_pos
    exact fun ts hts => (h₃ hts).imp fun us e he => .intro he

end Frontend.Parser
