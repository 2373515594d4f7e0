import Frontend.Proofs.Grammar

/-! # Grouping by strength

Operands joined by operators can be grouped in many ways that read the same from left to right. One of them is
ordered: no weaker operator stands at the left of an operator, and none as weak at its right. The levels of
the grammar stand for the ordered one.
-/
namespace Frontend

def Precedence.rank : Precedence → Nat
  | comparison => 0 | sum => 1 | product => 2

/-- Operands joined by operators. Operators inside an operand are not among them. -/
inductive Grouping where
  | operand (e : Expr)
  | join (left : Grouping) (o : BinOp) (right : Grouping)

namespace Grouping

/-- The first operand and then each operator with the operand behind it, from left to right. -/
def reading : Grouping → Expr × List (BinOp × Expr)
  | operand e => (e, [])
  | join l o r => (l.reading.1, l.reading.2 ++ (o, r.reading.1) :: r.reading.2)

def toExpr : Grouping → Expr
  | operand e => e
  | join l o r => .binary (.combine l.toExpr.span r.toExpr.span) none o l.toExpr r.toExpr

/-- Strength of the join at the root, if there is one. -/
def strength? : Grouping → Option Precedence
  | operand _ => none
  | join _ o _ => some o.precedence

/-- At every join, a join at the left is at least as strong and one at the right is stronger. -/
def Ordered : Grouping → Prop
  | operand _ => True
  | join l o r => (∀ p ∈ l.strength?, o.precedence.rank ≤ p.rank) ∧
      (∀ p ∈ r.strength?, o.precedence.rank < p.rank) ∧ l.Ordered ∧ r.Ordered

/-- One operator and operand more, at the right of all that binds at least as strongly. -/
def extend (g : Grouping) (x : BinOp × Expr) : Grouping :=
  match g with
  | operand e => join (operand e) x.1 (operand x.2)
  | join l o r =>
    if o.precedence.rank < x.1.precedence.rank then join l o (r.extend x)
    else join (join l o r) x.1 (operand x.2)

def ofReading (c : Expr × List (BinOp × Expr)) : Grouping := c.2.foldl extend (operand c.1)

variable {g g' : Grouping} {o : BinOp} {x : BinOp × Expr} {p : Precedence}

theorem reading_extend (g : Grouping) (x : BinOp × Expr) :
    (g.extend x).reading = (g.reading.1, g.reading.2 ++ [x]) := by
  induction g with
  | operand e => rfl
  | join l o r _ ih =>
    rw [extend]
    split
    · rw [reading, ih, reading, List.append_assoc, List.cons_append]
    · rfl

theorem strength_extend (h : p ∈ (g.extend x).strength?) :
    p = x.1.precedence ∨ p ∈ g.strength? := by
  cases g with
  | operand e => exact .inl (Option.some.inj h).symm
  | join l o r =>
    rw [extend] at h
    split at h
    · exact .inr h
    · exact .inl (Option.some.inj h).symm

theorem Ordered.extend (h : g.Ordered) (x : BinOp × Expr) : (g.extend x).Ordered := by
  induction g with
  | operand e => exact ⟨by rintro p ⟨⟩, by rintro p ⟨⟩, trivial, trivial⟩
  | join l o r _ ih =>
    rw [Grouping.extend]
    obtain ⟨hleft, hright, hl, hr⟩ := h
    split
    · next hlt =>
      refine ⟨hleft, fun p hp => ?_, hl, ih hr⟩
      rcases strength_extend hp with rfl | hp
      · exact hlt
      · exact hright p hp
    · next hle =>
      refine ⟨?_, by rintro p ⟨⟩, ⟨hleft, hright, hl, hr⟩, trivial⟩
      rintro p ⟨⟩
      exact Nat.le_of_not_lt hle

theorem reading_foldl (xs : List (BinOp × Expr)) (g : Grouping) :
    (xs.foldl extend g).reading = (g.reading.1, g.reading.2 ++ xs) := by
  induction xs generalizing g with
  | nil => rw [List.foldl_nil, List.append_nil]
  | cons x xs ih => rw [List.foldl_cons, ih, reading_extend, List.append_assoc, List.singleton_append]

theorem reading_ofReading (c : Expr × List (BinOp × Expr)) : (ofReading c).reading = c :=
  reading_foldl c.2 (operand c.1)

theorem ordered_ofReading (c : Expr × List (BinOp × Expr)) : (ofReading c).Ordered := by
  have hfold (xs : List (BinOp × Expr)) (g : Grouping) (hg : g.Ordered) :
      (xs.foldl Grouping.extend g).Ordered := by
    induction xs generalizing g with
    | nil => exact hg
    | cons x xs ih => exact ih _ (hg.extend x)
  exact hfold c.2 _ trivial

theorem Ordered.rank_le {n : Nat} (h : g.Ordered) (hn : ∀ p ∈ g.strength?, n ≤ p.rank) :
    ∀ x ∈ g.reading.2, n ≤ x.1.precedence.rank := by
  induction g with
  | operand e => exact fun x hx => absurd hx List.not_mem_nil
  | join l o r ihl ihr =>
    obtain ⟨hleft, hright, hl, hr⟩ := h
    have ho : n ≤ o.precedence.rank := hn _ rfl
    have hl := ihl hl fun p hp => Nat.le_trans ho (hleft p hp)
    have hr := ihr hr fun p hp => Nat.le_trans ho (Nat.le_of_lt (hright p hp))
    exact List.forall_mem_append.2 ⟨hl, List.forall_mem_cons.2 ⟨ho, hr⟩⟩

/-- Stronger operators are taken in by the operand at the right. -/
theorem foldl_extend_join {xs : List (BinOp × Expr)}
    (hxs : ∀ x ∈ xs, o.precedence.rank < x.1.precedence.rank) (l r : Grouping) :
    xs.foldl extend (join l o r) = join l o (xs.foldl extend r) := by
  induction xs generalizing r with
  | nil => rfl
  | cons x xs ih =>
    obtain ⟨hx, hxs⟩ := List.forall_mem_cons.1 hxs
    rw [List.foldl_cons, List.foldl_cons, extend, if_pos hx, ih hxs]

/-- An ordered grouping is determined by how it reads. -/
theorem Ordered.ofReading_reading (h : g.Ordered) : ofReading g.reading = g := by
  induction g with
  | operand e => rfl
  | join l o r ihl ihr =>
    obtain ⟨hleft, hright, hl, hr⟩ := h
    have hjoin : l.extend (o, r.reading.1) = join l o (operand r.reading.1) := by
      cases l with
      | operand e => rfl
      | join l o' r' => exact if_neg (Nat.not_lt.2 (hleft _ rfl))
    have hstrong : ∀ x ∈ r.reading.2, o.precedence.rank < x.1.precedence.rank := hr.rank_le hright
    calc ofReading (join l o r).reading
        = r.reading.2.foldl Grouping.extend ((ofReading l.reading).extend (o, r.reading.1)) := by
          rw [ofReading, reading, List.foldl_append, List.foldl_cons]
          rfl
      _ = r.reading.2.foldl Grouping.extend (join l o (operand r.reading.1)) := by rw [ihl hl, hjoin]
      _ = join l o (ofReading r.reading) := foldl_extend_join hstrong l _
      _ = join l o r := by rw [ihr hr]

theorem Ordered.unique (h : g.Ordered) (h' : g'.Ordered) (heq : g.reading = g'.reading) : g = g' := by
  rw [← h.ofReading_reading, heq, h'.ofReading_reading]

end Grouping

namespace Grammar

/-- Operands with an operator between neighbours, as they stand in the row. -/
inductive Chain (operand : Phrases Expr) : Phrases (Expr × List (BinOp × Expr))
  | operand {ts : List Token} {e : Expr} : operand ts e → Chain operand ts (e, [])
  | join {ts us : List Token} {c : Expr × List (BinOp × Expr)} {e : Expr} {t : Token} {o : BinOp} :
      Chain operand ts c → t.kind = .op o → operand us e →
      Chain operand (ts ++ t :: us) (c.1, c.2 ++ [(o, e)])

variable {operand : Phrases Expr} {ts : List Token}

theorem Chain.single {e : Expr} (h : Chain operand ts (e, [])) : operand ts e := by
  generalize hc : (e, []) = c at h
  cases h with
  | operand he =>
    cases hc
    exact he
  | join => simp at hc

theorem Chain.split {a b : Expr} {xs ys : List (BinOp × Expr)} {o : BinOp}
    (h : Chain operand ts (a, xs ++ (o, b) :: ys)) : ∃ us t vs, ts = us ++ t :: vs ∧
      Chain operand us (a, xs) ∧ t.kind = .op o ∧ Chain operand vs (b, ys) := by
  generalize hc : (a, xs ++ (o, b) :: ys) = c at h
  induction h generalizing ys with
  | operand _ => simp at hc
  | @join ts us c e t o' hts hk he ih =>
    obtain ⟨rfl, hys⟩ := Prod.mk.inj hc
    rcases List.eq_nil_or_concat ys with rfl | ⟨ys, y, rfl⟩
    · obtain ⟨hxs, hlast⟩ := List.append_inj' hys rfl
      cases hlast
      exact ⟨ts, t, us, rfl, hxs ▸ hts, hk, .operand he⟩
    · rw [List.concat_eq_append, ← List.cons_append, ← List.append_assoc] at hys
      obtain ⟨hxs, hlast⟩ := List.append_inj' hys rfl
      cases hlast
      obtain ⟨us', t', vs, rfl, hus, hk', hvs⟩ := ih (Prod.ext rfl hxs)
      refine ⟨us', t', vs ++ t :: us, by simp, hus, hk', ?_⟩
      have hjoin := Chain.join hvs hk he
      exact List.concat_eq_append ▸ hjoin

def Tighter (operand : Phrases Expr) : Precedence → Phrases Expr
  | .comparison => Level .sum (Level .product operand)
  | .sum => Level .product operand
  | .product => operand

theorem Level.loosen {p q : Precedence} {e : Expr} (hpq : p.rank ≤ q.rank)
    (h : Level q (Tighter operand q) ts e) : Level p (Tighter operand p) ts e := by
  cases p <;> cases q <;>
    first
      | exact h
      | exact .operand h
      | exact .operand (.operand h)
      | exact absurd hpq (by decide)

/-- What has only operators stronger than `p` in it, at whichever levels it can be read, can be an operand
of such an operator. -/
theorem Chain.tighter {g : Grouping} {p : Precedence} (h : Chain operand ts g.reading)
    (hp : ∀ q ∈ g.strength?, p.rank < q.rank)
    (hlevel : ∀ q, (∀ s ∈ g.strength?, q.rank ≤ s.rank) → Level q (Tighter operand q) ts g.toExpr) :
    Tighter operand p ts g.toExpr := by
  cases p with
  | comparison => exact hlevel .sum hp
  | sum => exact hlevel .product hp
  | product =>
    cases g with
    | operand e => exact h.single
    | join l o r =>
      have htop : o.precedence.rank ≤ 2 := by cases o.precedence <;> decide
      exact absurd (hp _ rfl) (Nat.not_lt.2 htop)

/-- The levels of the grammar stand for an ordered grouping of the chain. -/
theorem Chain.level {g : Grouping} (hg : g.Ordered) (h : Chain operand ts g.reading) {p : Precedence}
    (hp : ∀ q ∈ g.strength?, p.rank ≤ q.rank) : Level p (Tighter operand p) ts g.toExpr := by
  induction g generalizing ts p with
  | operand e =>
    have hone : Level .product operand ts e := .operand h.single
    exact hone.loosen (by cases p <;> decide)
  | join l o r ihl ihr =>
    obtain ⟨hleft, hright, hl, hr⟩ := hg
    obtain ⟨us, t, vs, rfl, hus, hk, hvs⟩ := h.split
    have hoperand : Tighter operand o.precedence vs r.toExpr :=
      hvs.tighter hright fun q hq => ihr hr hvs hq
    have hjoin : Level o.precedence (Tighter operand o.precedence) (us ++ t :: vs)
        (Grouping.join l o r).toExpr := .join (ihl hl hus hleft) hk rfl hoperand
    exact hjoin.loosen (hp _ rfl)

theorem Chain.expression {source : Text} {c : Expr × List (BinOp × Expr)}
    (h : Chain (Primary source (Expression source)) ts c) :
    Expression source ts (Grouping.ofReading c).toExpr := by
  have hg := Grouping.reading_ofReading c
  exact .intro ((hg.symm ▸ h).level (p := .comparison) (Grouping.ordered_ofReading c)
    fun q _ => Nat.zero_le _)

end Grammar
end Frontend
