import Frontend.Proofs.Tree.Nesting

/-! # What the span of a statement covers

A binding and a return start at their keyword, and every statement reaches up to the end of its terminator.
An expression leaves no trace of the parentheses around it or around its leftmost operand, and a statement
that is an expression starts where the expression does.
-/
namespace Frontend.Grammar

variable {source : Text} {ts us : List Token} {e : Expr} {x : Stmt} {s : Span}

/-- The span starts at the first token of the row that is no opening parenthesis. -/
def Leads (ts : List Token) (s : Span) : Prop :=
  ∃ groups t us, ts = groups ++ t :: us ∧ (∀ g ∈ groups, g.kind = .lparen) ∧ t.kind ≠ .lparen ∧
    s.start = t.span.start

namespace Leads

theorem token {t : Token} (ht : t.kind ≠ .lparen) (us : List Token) (hs : s.start = t.span.start) :
    Leads (t :: us) s := ⟨[], t, us, rfl, by simp, ht, hs⟩

theorem append {s' : Span} (h : Leads ts s) (us : List Token) (hs : s'.start = s.start) :
    Leads (ts ++ us) s' := by
  obtain ⟨groups, t, vs, rfl, hgroups, ht, hstart⟩ := h
  exact ⟨groups, t, vs ++ us, by simp, hgroups, ht, hs.trans hstart⟩

theorem group {opening : Token} (ho : opening.kind = .lparen) (h : Leads ts s) :
    Leads (opening :: ts) s := by
  obtain ⟨groups, t, vs, rfl, hgroups, ht, hstart⟩ := h
  exact ⟨opening :: groups, t, vs, rfl, List.forall_mem_cons.2 ⟨ho, hgroups⟩, ht, hstart⟩

end Leads

theorem Expression.leads (h : Expression source ts e) : Leads ts e.span := by
  -- Only the leftmost operand counts, so nothing is asked of arguments.
  induction h using @Expression.rec source _ (fun ts e _ => Leads ts e.span)
    (fun ts e _ => Leads ts e.span) (fun ts e _ => Leads ts e.span) (fun ts e _ => Leads ts e.span)
    (fun _ _ _ => True) (fun _ _ _ => True)
  case operand ih | operand ih | operand ih | intro ih => exact ih
  case join hl _ | join hl _ | join hl _ => exact hl.append _ rfl
  case int hk _ | var hk => exact .token (by simp [hk]) _ rfl
  case call hk _ _ _ _ => exact .token (by simp [hk]) _ rfl
  case group ho _ _ ih => exact (ih.group ho).append _ rfl
  case none | items | trailing | one | more => trivial

/-- Tokens as a lexer finds them, of which only terminators may be empty. -/
def Lexed (source : Text) (ts : List Token) : Prop :=
  Laid source ts ∧ ∀ t ∈ ts, t.kind ≠ .terminator → 0 < t.span.len

theorem Lexed.of_append (h : Lexed source (ts ++ us)) : Lexed source ts ∧ Lexed source us := by
  obtain ⟨hts, hus⟩ := h.1.of_append
  obtain ⟨hpos, hpos'⟩ := List.forall_mem_append.1 h.2
  exact ⟨⟨hts, hpos⟩, hus, hpos'⟩

theorem Lexed.tail {t : Token} (h : Lexed source (t :: ts)) : Lexed source ts :=
  (of_append (show Lexed source ([t] ++ ts) from h)).2

/-- The row of a statement ends with its only terminator, and the statement's span reaches to the end of it
from the first token that is no opening parenthesis. So it starts with the row if this is the first one. -/
structure Extent (ts : List Token) (s : Span) : Prop where
  leads : Leads ts s
  stops : ∃ us last, ts = us ++ [last] ∧ Unended us ∧ last.kind = .terminator ∧
    s.stop = last.span.stop
  whole : ∀ t ∈ ts.head?, s.start = t.span.start ↔ t.kind ≠ .lparen

theorem Leads.whole (h : Leads ts s) (hts : Lexed source ts) {t : Token} (ht : t ∈ ts.head?) :
    s.start = t.span.start ↔ t.kind ≠ .lparen := by
  obtain ⟨groups, lead, us, rfl, hgroups, hlead, hstart⟩ := h
  cases groups with
  | nil =>
    cases ht
    exact iff_of_true hstart hlead
  | cons g groups =>
    cases ht
    have hg := hgroups t List.mem_cons_self
    -- The span starts behind the parenthesis, which is not empty.
    refine iff_of_false (fun heq => ?_) (by simpa using hg)
    have hstop : t.span.stop ≤ lead.span.start :=
      (List.pairwise_cons.1 hts.1.apart).1 lead (by simp)
    have hpos := hts.2 t List.mem_cons_self (by simp [hg])
    rw [Span.stop] at hstop
    omega

/-- What leads a statement, its keyword or its expression, lies before the terminator. -/
def LedBy (source : Text) (ts : List Token) (x : Stmt) : Prop :=
  ∃ us last s, ts = us ++ [last] ∧ Leads us s ∧ x.span = .combine s last.span ∧
    (Laid source us → Within us s)

theorem ledBy_word {word last : Token} (us : List Token) (hw : word.kind ≠ .lparen)
    (hx : x.span = .combine word.span last.span) : LedBy source (word :: us ++ [last]) x :=
  ⟨word :: us, last, word.span, rfl, .token hw us rfl, hx, fun _ => (within_token word).mono (by simp)⟩

theorem Statement.ledBy (h : Statement source ts x) : LedBy source ts x := by
  cases h with
  | @init mutable _ _ _ _ _ _ hw | @typed mutable _ _ _ _ _ _ _ _ _ hw =>
    exact ledBy_word _ (hw ▸ (bindingWord_plain mutable).1) rfl
  | @declared mutable word name colon type _ _ hw =>
    exact ledBy_word [name, colon, type] (hw ▸ (bindingWord_plain mutable).1) rfl
  | ret hw => exact ledBy_word [] (by simp [hw]) rfl
  | retValue hw => exact ledBy_word _ (by simp [hw]) rfl
  | @expr last _ e he => exact ⟨_, last, e.span, rfl, he.leads, rfl, fun hrow => (he.settled hrow).2⟩

theorem Statement.extent (h : Statement source ts x) (hts : Lexed source ts) : Extent ts x.span := by
  obtain ⟨us, last, s, rfl, hlead, hspan, hwithin⟩ := h.ledBy
  obtain ⟨us', last', hsplit, hkind, hterminable⟩ := h.terminable
  obtain ⟨rfl, hlast⟩ := List.append_inj' hsplit rfl
  obtain rfl := List.singleton_inj.1 hlast
  have hleads : Leads (us ++ [last]) x.span := hlead.append _ (by rw [hspan]; rfl)
  refine ⟨hleads, ⟨us, last, rfl, hterminable.unended, hkind, ?_⟩, fun t ht => hleads.whole hts ht⟩
  obtain ⟨-, -, t, ht, -, hstop⟩ := hwithin hts.1.of_append.1
  have hle : t.span.stop ≤ last.span.start :=
    (List.pairwise_append.1 hts.1.apart).2.2 t ht last (List.mem_singleton_self last)
  rw [hspan, Span.stop_combine, hstop]
  exact Nat.max_eq_right (Nat.le_trans hle (Nat.le_add_right _ _))

/-! ## Rows of statements -/

def BlockExtent (source : Text) : Phrases Frontend.Block := fun ts b =>
  ∃ opening row closing, ts = opening :: row ++ [closing] ∧ opening.kind = .lbrace ∧
    closing.kind = .rbrace ∧ Many (fun us x => Statement source us x ∧ Extent us x.span) row b.stmts

def FunctionExtent (source : Text) : Phrases Frontend.Function := fun ts f =>
  ∃ header row, ts = header ++ row ∧ (∀ t ∈ header, t.kind ≠ .lbrace) ∧ BlockExtent source row f.body

theorem Many.extend {α : Type} {item item' : Phrases α} {as : List α} (h : Many item ts as)
    (hts : Lexed source ts) (hi : ∀ us a, item us a → Lexed source us → item' us a) :
    Many item' ts as := by
  induction h with
  | nil => exact .nil
  | cons ha _ ih =>
    obtain ⟨hts, hus⟩ := hts.of_append
    exact .cons (hi _ _ ha hts) (ih hus)

theorem Block.extent {b : Frontend.Block} (h : Block source ts b) (hts : Lexed source ts) :
    BlockExtent source ts b := by
  cases h with
  | @intro opening closing row stmts ho hm hc =>
    have hrow : Lexed source row := hts.of_append.1.tail
    exact ⟨opening, row, closing, rfl, ho, hc, hm.extend hrow fun _ _ hx h => ⟨hx, hx.extent h⟩⟩

theorem Many.params_unbraced {ps : List Frontend.Param} (h : Many Param ts ps) :
    ∀ t ∈ ts, t.kind ≠ .lbrace := by
  induction h with
  | nil => simp
  | cons hp _ ih => exact List.forall_mem_append.2 ⟨by cases hp <;> simp_all, ih⟩

theorem ReturnType.unbraced {ty : Ty} (h : ReturnType source ts ty) : ∀ t ∈ ts, t.kind ≠ .lbrace := by
  have hnl {ts : List Token} (h : ∀ t ∈ ts, IsNewline source t) : ∀ t ∈ ts, t.kind ≠ .lbrace :=
    fun t ht => by simp [(h t ht).1]
  cases h with
  | void hts => exact hnl hts
  | written hts ht hus =>
    exact List.forall_mem_append.2 ⟨hnl hts, List.forall_mem_cons.2 ⟨by simp [ht], hnl hus⟩⟩

theorem Function.extent {f : Frontend.Function} (h : Function source ts f) (hts : Lexed source ts) :
    FunctionExtent source ts f := by
  cases h with
  | @intro name opening closing ps rs bs params ret body hn ho hm hc hty hb =>
    refine ⟨_, bs, rfl, List.forall_mem_append.2 ⟨?_, ?_⟩, hb.extent hts.of_append.2⟩
    · simpa [hn, ho] using hm.params_unbraced
    · exact List.forall_mem_cons.2 ⟨by simp [hc], hty.unbraced⟩

end Frontend.Grammar
