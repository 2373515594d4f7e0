import Mathlib.Data.List.Chain
import Frontend.Proofs.Grammar.Loose

/-! # The comma behind the last argument

Of an expression the grammar sees kinds alone. A call may have a comma behind its last argument, or it may
not: these are two rules for rows of kinds. Rows of the first are of the second if a token that begins an
expression stands behind every comma, and only then.
-/
namespace Frontend.Grammar

abbrev Language := List Kind → Prop

inductive Joined (separator : Kind → Prop) (item : Language) : Language
  | one {ks : List Kind} : item ks → Joined separator item ks
  | more {ks js : List Kind} {k : Kind} :
      item ks → separator k → Joined separator item js → Joined separator item (ks ++ k :: js)

/-- What stands between the parentheses of a call. -/
inductive ArgumentKinds (trailing : Bool) (expression : Language) : Language
  | none : ArgumentKinds trailing expression []
  | items {ks : List Kind} :
      Joined (· = .comma) expression ks → ArgumentKinds trailing expression ks
  | trailing {ks : List Kind} : trailing = true →
      Joined (· = .comma) expression ks → ArgumentKinds trailing expression (ks ++ [.comma])

inductive PrimaryKinds (trailing : Bool) (expression : Language) : Language
  | int (suffix : Suffix) : PrimaryKinds trailing expression [.int suffix]
  | var : PrimaryKinds trailing expression [.ident]
  | call {ks : List Kind} : ArgumentKinds trailing expression ks →
      PrimaryKinds trailing expression (.ident :: .lparen :: ks ++ [.rparen])
  | group {ks : List Kind} :
      expression ks → PrimaryKinds trailing expression (.lparen :: ks ++ [.rparen])

def IsOperator (p : Precedence) (k : Kind) : Prop := ∃ o, k = .op o ∧ o.precedence = p

/-- Comparisons of sums of products; a comma may stand behind the last argument of a call, or not. -/
inductive ExpressionKinds (trailing : Bool) : Language
  | intro {ks : List Kind} :
      Joined (IsOperator .comparison) (Joined (IsOperator .sum) (Joined (IsOperator .product)
        (PrimaryKinds trailing (ExpressionKinds trailing)))) ks →
      ExpressionKinds trailing ks

theorem Joined.append {separator : Kind → Prop} {item : Language} {ks js : List Kind} {k : Kind}
    (h : Joined separator item ks) (hk : separator k) (h' : Joined separator item js) :
    Joined separator item (ks ++ k :: js) := by
  induction h with
  | one hi => exact .more hi hk h'
  | @more ks is i hi hsep _ ih =>
    rw [List.append_assoc]
    exact .more hi hsep ih

/-! ## Kinds of the tokens of an expression -/

theorem kinds_join {p : Precedence} {item : Language} {ts us : List Token} {t : Token} {o : BinOp}
    (hl : Joined (IsOperator p) item (ts.map Token.kind)) (hk : t.kind = .op o)
    (ho : o.precedence = p) (hr : item (us.map Token.kind)) :
    Joined (IsOperator p) item ((ts ++ t :: us).map Token.kind) := by
  rw [List.map_append]
  exact hl.append ⟨o, hk, ho⟩ (.one hr)

theorem Loose.Expression.kinds {source : Text} {ts : List Token} {e : Expr}
    (h : Loose.Expression source ts e) : ExpressionKinds true (ts.map Token.kind) := by
  induction h using @Loose.Expression.rec source _
    (fun ts _ _ => Joined (IsOperator .comparison) (Joined (IsOperator .sum)
      (Joined (IsOperator .product) (PrimaryKinds true (ExpressionKinds true)))) (ts.map Token.kind))
    (fun ts _ _ => Joined (IsOperator .sum) (Joined (IsOperator .product)
      (PrimaryKinds true (ExpressionKinds true))) (ts.map Token.kind))
    (fun ts _ _ => Joined (IsOperator .product) (PrimaryKinds true (ExpressionKinds true))
      (ts.map Token.kind))
    (fun ts _ _ => PrimaryKinds true (ExpressionKinds true) (ts.map Token.kind))
    (fun ts _ _ => ArgumentKinds true (ExpressionKinds true) (ts.map Token.kind))
    (fun ts _ _ => Joined (· = .comma) (ExpressionKinds true) (ts.map Token.kind))
  case intro ih => exact .intro ih
  case operand ih | operand ih | operand ih => exact .one ih
  case join hk ho _ hl hr | join hk ho _ hl hr | join hk ho _ hl hr => exact kinds_join hl hk ho hr
  case int hk _ => simpa [hk] using PrimaryKinds.int _
  case var hk => simpa [hk] using PrimaryKinds.var
  case call hk ho _ hc ih => simpa [hk, ho, hc] using PrimaryKinds.call ih
  case group ho _ hc ih => simpa [ho, hc] using PrimaryKinds.group ih
  case none => exact .none
  case items ih => exact .items ih
  case trailing hk ih => simpa [hk] using ArgumentKinds.trailing rfl ih
  case one ih => exact .one ih
  case more hk _ ih ihs =>
    rw [List.map_append]
    exact .more ih hk ihs

/-! ## Rows without such a comma -/

/-- Behind every comma stands a token that begins an expression. -/
def Followed (ks : List Kind) : Prop := ks.IsChain fun a b => a = .comma → opensExpression b

theorem Followed.of_append {ks js : List Kind} (h : Followed (ks ++ js)) :
    Followed ks ∧ Followed js := by
  obtain ⟨hks, hjs, -⟩ := List.isChain_append.1 h
  exact ⟨hks, hjs⟩

theorem Followed.tail {k : Kind} {ks : List Kind} (h : Followed (k :: ks)) : Followed ks :=
  (of_append (show Followed ([k] ++ ks) from h)).2

theorem Joined.strict {separator : Kind → Prop} {item : Language} {ks js : List Kind} {k : Kind}
    (h : Followed ks → item ks) (hk : separator k) (h' : Followed js → Joined separator item js)
    (hf : Followed (ks ++ k :: js)) : Joined separator item (ks ++ k :: js) :=
  .more (h hf.of_append.1) hk (h' hf.of_append.2.tail)

theorem ExpressionKinds.strict {ks : List Kind} (h : ExpressionKinds true ks) :
    Followed ks → ExpressionKinds false ks := by
  induction h using @ExpressionKinds.rec true _
    (fun ks _ => Followed ks → Joined (IsOperator .comparison) (Joined (IsOperator .sum)
      (Joined (IsOperator .product) (PrimaryKinds false (ExpressionKinds false)))) ks)
    (fun ks _ => Followed ks → Joined (IsOperator .sum) (Joined (IsOperator .product)
      (PrimaryKinds false (ExpressionKinds false))) ks)
    (fun ks _ => Followed ks → Joined (IsOperator .product)
      (PrimaryKinds false (ExpressionKinds false)) ks)
    (fun ks _ => Followed ks → PrimaryKinds false (ExpressionKinds false) ks)
    (fun ks _ => Followed (ks ++ [.rparen]) → ArgumentKinds false (ExpressionKinds false) ks)
    (fun ks _ => Followed ks → Joined (· = .comma) (ExpressionKinds false) ks)
  case intro ih => exact fun hf => .intro (ih hf)
  case one ih hf | one ih hf | one ih hf | one ih hf => exact .one (ih hf)
  case more hk _ ih ihs hf | more hk _ ih ihs hf | more hk _ ih ihs hf | more hk _ ih ihs hf =>
    exact Joined.strict ih hk ihs hf
  case int => exact .int _
  case var => exact .var
  case call ih hf => exact .call (ih hf.tail.tail)
  case group ih hf => exact .group (ih hf.of_append.1.tail)
  case none => exact .none
  case items ih hf => exact .items (ih hf.of_append.1)
  case trailing ks _ _ _ hf =>
    rw [List.append_assoc] at hf
    have hlast := List.isChain_cons_cons.1 hf.of_append.2
    exact absurd (hlast.1 rfl) (by simp [opensExpression])

/-- The row begins as an expression does and does not end with a comma. -/
structure Whole (ks : List Kind) : Prop where
  opens : ∃ k js, ks = k :: js ∧ opensExpression k
  closes : ∀ k ∈ ks.getLast?, k ≠ .comma
  followed : Followed ks

namespace Whole
variable {ks js : List Kind} {k : Kind}

theorem single (h : opensExpression k) : Whole [k] where
  opens := ⟨k, [], rfl, h⟩
  closes := by
    rintro _ ⟨⟩ rfl
    cases h
  followed := List.isChain_singleton _

theorem join (h : Whole ks) (h' : Whole js) : Whole (ks ++ k :: js) := by
  obtain ⟨a, as, rfl, ha⟩ := h.opens
  obtain ⟨b, bs, rfl, hb⟩ := h'.opens
  refine ⟨⟨a, as ++ k :: b :: bs, rfl, ha⟩, ?_, ?_⟩
  · rw [List.getLast?_append_cons, List.getLast?_cons_cons]
    exact h'.closes
  · refine List.isChain_append.2 ⟨h.followed, List.isChain_cons_cons.2 ⟨fun _ => hb, h'.followed⟩, ?_⟩
    intro c hc _ _ hcomma
    exact absurd hcomma (h.closes c hc)

theorem cons (h : Whole ks) (hk : opensExpression k) : Whole (k :: ks) := by
  obtain ⟨a, as, rfl, ha⟩ := h.opens
  refine ⟨⟨k, a :: as, rfl, hk⟩, ?_, List.isChain_cons_cons.2 ⟨fun _ => ha, h.followed⟩⟩
  rw [List.getLast?_cons_cons]
  exact h.closes

theorem close (h : Whole ks) : Whole (ks ++ [.rparen]) := by
  obtain ⟨a, as, rfl, ha⟩ := h.opens
  refine ⟨⟨a, as ++ [.rparen], rfl, ha⟩, ?_, ?_⟩
  · rw [List.getLast?_concat]
    rintro _ ⟨⟩ ⟨⟩
  · refine List.isChain_append.2 ⟨h.followed, List.isChain_singleton _, ?_⟩
    intro c hc _ _ hcomma
    exact absurd hcomma (h.closes c hc)

end Whole

/-- No row of the rule without the comma makes use of it. -/
theorem ExpressionKinds.whole {ks : List Kind} (h : ExpressionKinds false ks) : Whole ks := by
  induction h using @ExpressionKinds.rec false _ (fun ks _ => Whole ks) (fun ks _ => Whole ks)
    (fun ks _ => Whole ks) (fun ks _ => Whole ks) (fun ks _ => ks = [] ∨ Whole ks)
    (fun ks _ => Whole ks)
  case intro ih | one ih | one ih | one ih | one ih => exact ih
  case more ih ihs | more ih ihs | more ih ihs | more ih ihs => exact ih.join ihs
  case int | var => exact .single rfl
  case call ih =>
    have hopen : Whole (.lparen :: _) := ih.elim (fun h => h ▸ .single rfl) fun h => h.cons rfl
    exact (hopen.cons rfl).close
  case group ih => exact (ih.cons rfl).close
  case none => exact .inl rfl
  case items ih => exact .inr ih
  case trailing hno _ _ => exact absurd hno (by decide)

/-- A row of the rule with the comma is one of the rule without exactly if the comma is not made use of. -/
theorem ExpressionKinds.strict_iff {ks : List Kind} (h : ExpressionKinds true ks) :
    ExpressionKinds false ks ↔ Followed ks :=
  ⟨fun h => h.whole.followed, h.strict⟩

end Frontend.Grammar
