import Frontend.Proofs.Tree.Nesting

/-! # Where the spans of a tree come from

Every span in a tree is that of a token, or it is put together from two such spans. However the tokens are
made up, no such span ends behind the last of their ends; so where these are words, all sums and differences
that are formed are words as well.
-/
namespace Frontend

inductive Expr.EverySpan (S : Span → Prop) : Expr → Prop
  | int {span : Span} {ty : Option Ty} {value : Nat} {suffix : Suffix} :
      S span → EverySpan S (.int span ty value suffix)
  | var {span name : Span} {ty : Option Ty} : S span → S name → EverySpan S (.var span ty name)
  | binary {span : Span} {ty : Option Ty} {o : BinOp} {left right : Expr} :
      S span → EverySpan S left → EverySpan S right → EverySpan S (.binary span ty o left right)
  | call {span callee : Span} {ty : Option Ty} {args : List Expr} :
      S span → S callee → (∀ e ∈ args, EverySpan S e) → EverySpan S (.call span ty callee args)

structure Stmt.EverySpan (S : Span → Prop) (s : Stmt) : Prop where
  span : S s.span
  name : ∀ name ∈ s.name?, S name
  expr : ∀ e ∈ s.expr?, e.EverySpan S

structure Block.EverySpan (S : Span → Prop) (b : Block) : Prop where
  span : S b.span
  stmts : ∀ s ∈ b.stmts, s.EverySpan S

structure Function.EverySpan (S : Span → Prop) (f : Function) : Prop where
  span : S f.span
  name : S f.name
  params : ∀ p ∈ f.params, S p.name
  body : f.body.EverySpan S

namespace Span

/-- The span of a token of the row, or one put together from spans of tokens. -/
inductive Drawn (ts : List Token) : Span → Prop
  | token {t : Token} : t ∈ ts → Drawn ts t.span
  | combine {left right : Span} : Drawn ts left → Drawn ts right → Drawn ts (.combine left right)

namespace Drawn
variable {ts us : List Token} {left right s : Span}

theorem mono (h : Drawn ts s) (hsub : ts ⊆ us) : Drawn us s := by
  induction h with
  | token ht => exact .token (hsub ht)
  | combine _ _ ihl ihr => exact .combine ihl ihr

theorem ne_nil (h : Drawn ts s) : ts ≠ [] := by
  induction h with
  | token ht => exact List.ne_nil_of_mem ht
  | combine _ _ ih _ => exact ih

theorem stop_lt {limit : Nat} (h : Drawn ts s) (hts : ∀ t ∈ ts, t.span.stop < limit) :
    s.stop < limit := by
  induction h with
  | token ht => exact hts _ ht
  | combine _ _ ihl ihr =>
    rw [stop_combine]
    exact Nat.max_lt.2 ⟨ihl, ihr⟩

end Drawn

/-- The ends of the two spans, and the length of what is put together from them, are words. -/
structure Combinable (left right : Span) : Prop where
  left_stop : left.stop < Pool.wordLimit
  right_stop : right.stop < Pool.wordLimit
  start_le : left.start ≤ max left.stop right.stop

theorem Drawn.combinable {ts : List Token} {left right : Span}
    (hts : ∀ t ∈ ts, t.span.stop < Pool.wordLimit) (hl : Drawn ts left) (hr : Drawn ts right) :
    Combinable left right where
  left_stop := hl.stop_lt hts
  right_stop := hr.stop_lt hts
  start_le := Nat.le_trans (Nat.le_add_right left.start left.len) (Nat.le_max_left _ _)

end Span

/-! ## Trees of which every span comes from tokens -/

abbrev Expr.Drawn (ts : List Token) (e : Expr) : Prop := e.EverySpan (Span.Drawn ts)

abbrev Stmt.Drawn (ts : List Token) (s : Stmt) : Prop := s.EverySpan (Span.Drawn ts)

abbrev Block.Drawn (ts : List Token) (b : Block) : Prop := b.EverySpan (Span.Drawn ts)

abbrev Param.Drawn (ts : List Token) (p : Param) : Prop := Span.Drawn ts p.name

abbrev Function.Drawn (ts : List Token) (f : Function) : Prop := f.EverySpan (Span.Drawn ts)

section
variable {ts us : List Token}

theorem Expr.EverySpan.root {S : Span → Prop} {e : Expr} (h : e.EverySpan S) : S e.span := by
  cases h with
  | int hs | var hs | binary hs | call hs => exact hs

theorem Expr.EverySpan.mono {e : Expr} (h : e.Drawn ts) (hsub : ts ⊆ us) : e.Drawn us := by
  induction h with
  | int hs => exact .int (hs.mono hsub)
  | var hs hn => exact .var (hs.mono hsub) (hn.mono hsub)
  | binary hs _ _ ihl ihr => exact .binary (hs.mono hsub) ihl ihr
  | call hs hc _ ih => exact .call (hs.mono hsub) (hc.mono hsub) ih

theorem Stmt.EverySpan.mono {s : Stmt} (h : s.Drawn ts) (hsub : ts ⊆ us) : s.Drawn us where
  span := h.span.mono hsub
  name name hn := (h.name name hn).mono hsub
  expr e he := (h.expr e he).mono hsub

theorem Block.EverySpan.mono {b : Block} (h : b.Drawn ts) (hsub : ts ⊆ us) : b.Drawn us where
  span := h.span.mono hsub
  stmts s hs := (h.stmts s hs).mono hsub

theorem Function.EverySpan.mono {f : Function} (h : f.Drawn ts) (hsub : ts ⊆ us) : f.Drawn us where
  span := h.span.mono hsub
  name := h.name.mono hsub
  params p hp := (h.params p hp).mono hsub
  body := h.body.mono hsub

end
end Frontend
