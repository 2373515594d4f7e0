import Frontend.Proofs.Tree.Spans

/-! # Expressions over tokens that need not fit the source

A parser takes tokens as they are given. Of a literal it checks that digits are left when its text loses as
many bytes as the suffix has, whatever these bytes are; all else that it looks at are kinds.
-/
namespace Frontend.Grammar.Loose

/-- A primary expression of which the tokens need not fit the source. -/
inductive Primary (source : Text) (expression : Phrases Expr) : Phrases Expr
  | int {t : Token} {suffix : Suffix} {value : Nat} :
      t.kind = .int suffix → literalValue (t.span.text source) suffix = .ok value →
      Primary source expression [t] (.int t.span none value suffix)
  | var {t : Token} : t.kind = .ident → Primary source expression [t] (.var t.span none t.span)
  | call {t opening closing : Token} {ts : List Token} {args : List Expr} :
      t.kind = .ident → opening.kind = .lparen → Arguments expression ts args →
      closing.kind = .rparen →
      Primary source expression (t :: opening :: ts ++ [closing])
        (.call (.combine t.span closing.span) none t.span args)
  | group {opening closing : Token} {ts : List Token} {e : Expr} :
      opening.kind = .lparen → expression ts e → closing.kind = .rparen →
      Primary source expression (opening :: ts ++ [closing]) e

inductive Expression (source : Text) : Phrases Expr
  | intro {ts : List Token} {e : Expr} :
      Level .comparison (Level .sum (Level .product (Primary source (Expression source)))) ts e →
      Expression source ts e

variable {source : Text} {ts us : List Token} {e : Expr}

theorem Primary.opens {expression : Phrases Expr} (h : Primary source expression ts e) :
    Opens opensExpression ts := by
  cases h with
  | int hk | var hk | call hk | group hk => exact ⟨_, _, rfl, by rw [hk]; rfl⟩

/-! ## Spans -/

def AllDrawn (ts : List Token) (es : List Expr) : Prop := ∀ e ∈ es, e.Drawn ts

theorem AllDrawn.mono {es : List Expr} (h : AllDrawn ts es) (hsub : ts ⊆ us) : AllDrawn us es :=
  fun e he => (h e he).mono hsub

theorem drawn_join {l r : Expr} (hl : l.Drawn ts) (t : Token) (o : BinOp) (hr : r.Drawn us) :
    (Expr.binary (.combine l.span r.span) none o l r).Drawn (ts ++ t :: us) := by
  have hl : l.Drawn (ts ++ t :: us) := hl.mono (List.subset_append_left _ _)
  have hr : r.Drawn (ts ++ t :: us) := hr.mono (by simp)
  exact .binary (.combine hl.root hr.root) hl hr

theorem drawn_call {es : List Expr} (t opening closing : Token) (hes : AllDrawn ts es) :
    (Expr.call (.combine t.span closing.span) none t.span es).Drawn
      (t :: opening :: ts ++ [closing]) := by
  have ht : Span.Drawn (t :: opening :: ts ++ [closing]) t.span := .token (by simp)
  exact .call (.combine ht (.token (by simp))) ht (hes.mono fun u hu => by simp [hu])

/-- Every span of an expression comes from the tokens it was read from. -/
theorem Expression.drawn (h : Expression source ts e) : e.Drawn ts := by
  induction h using @Expression.rec source _ (fun ts e _ => e.Drawn ts) (fun ts e _ => e.Drawn ts)
    (fun ts e _ => e.Drawn ts) (fun ts e _ => e.Drawn ts) (fun ts es _ => AllDrawn ts es)
    (fun ts es _ => AllDrawn ts es)
  case operand ih | operand ih | operand ih | intro ih | items ih => exact ih
  case join hl hr | join hl hr | join hl hr => exact drawn_join hl _ _ hr
  case int => exact .int (.token (List.mem_singleton_self _))
  case var => exact .var (.token (List.mem_singleton_self _)) (.token (List.mem_singleton_self _))
  case call ih => exact drawn_call _ _ _ ih
  case group ih => exact ih.mono fun u hu => by simp [hu]
  case none => exact fun _ he => absurd he List.not_mem_nil
  case trailing ih => exact ih.mono (List.subset_append_left _ _)
  case one ih => exact List.forall_mem_singleton.2 ih
  case more ih ihs =>
    exact List.forall_mem_cons.2 ⟨ih.mono (List.subset_append_left _ _), ihs.mono (by simp)⟩

end Frontend.Grammar.Loose
