import Frontend.Proofs.Session.Accepted
import Frontend.Tree.Annotation

/-! # Spans nest and name real text

The span of a node is put together from those of its parts, and parentheses around a part are in none of
them. So a node is compared with the tokens it was read from: its span runs from where one of them starts
to where one stops, and the tokens of its parts lie apart and in order.
-/
namespace Frontend

/-- A character starts at the offset, or the source ends there. -/
def Boundary (source : Text) (offset : Nat) : Prop :=
  ∃ before after, source = before ++ after ∧ offset = Text.size before

/-- Text that names something: an identifier that is no keyword. -/
def Text.IsName (w : Text) : Prop :=
  ∃ c t, w = c :: t ∧ isWordStart c ∧ (∀ d ∈ t, isWordChar d) ∧ ∀ k, (w, k) ∉ Kind.keywords

namespace Span

/-- The span lies in the source and splits no character. -/
def Cuts (source : Text) (s : Span) : Prop := Boundary source s.start ∧ Boundary source s.stop

abbrev Apart (spans : List Span) : Prop := spans.Pairwise fun a b => a.stop ≤ b.start

/-- The spans of a node's parts lie in its own, apart and in order. -/
structure Holds (source : Text) (s : Span) (parts : List Span) : Prop where
  cuts : s.Cuts source
  parts_cut : ∀ part ∈ parts, part.Cuts source
  contains : ∀ part ∈ parts, s.contains part
  apart : Apart parts

end Span

/-- Every span in the tree holds those below it; names and literals stand in the source. -/
inductive Expr.Nested (source : Text) : Expr → Prop
  | int {span : Span} {ty : Option Ty} {value : Nat} {suffix : Suffix} :
      span.Holds source [] → Grammar.Spells source span suffix value →
      Nested source (.int span ty value suffix)
  | var {span name : Span} {ty : Option Ty} :
      span.Holds source [name] → (name.text source).IsName → Nested source (.var span ty name)
  | binary {span : Span} {ty : Option Ty} {o : BinOp} {left right : Expr} :
      span.Holds source [left.span, right.span] → Nested source left → Nested source right →
      Nested source (.binary span ty o left right)
  | call {span callee : Span} {ty : Option Ty} {args : List Expr} :
      span.Holds source (callee :: args.map Expr.span) → (callee.text source).IsName →
      (∀ e ∈ args, Nested source e) → Nested source (.call span ty callee args)

/-- The name and the expression of a statement, as far as it has them. -/
def Stmt.parts (s : Stmt) : List Span :=
  match s.form with
  | .bind name _ init _ => name :: (init.map Expr.span).toList
  | .expr e => [e.span]
  | .ret value => (value.map Expr.span).toList

def Stmt.name? (s : Stmt) : Option Span :=
  match s.form with
  | .bind name _ _ _ => some name
  | .expr _ | .ret _ => none

structure Stmt.Nested (source : Text) (s : Stmt) : Prop where
  holds : s.span.Holds source s.parts
  name : ∀ name ∈ s.name?, (name.text source).IsName
  expr : ∀ e ∈ s.expr?, e.Nested source

structure Block.Nested (source : Text) (b : Block) : Prop where
  holds : b.span.Holds source (b.stmts.map Stmt.span)
  stmts : ∀ s ∈ b.stmts, s.Nested source

structure Function.Nested (source : Text) (f : Function) : Prop where
  holds : f.span.Holds source (f.name :: f.params.map Param.name ++ [f.body.span])
  name : (f.name.text source).IsName
  params : ∀ p ∈ f.params, (p.name.text source).IsName
  body : f.body.Nested source

structure Program.Nested (p : Program) : Prop where
  apart : Span.Apart (p.functions.map Function.span)
  functions : ∀ f ∈ p.functions, f.Nested p.source

namespace Grammar
variable {source : Text}

/-- Tokens as a lexer finds them: they cut the source, one behind the other, and identifiers are names. -/
structure Laid (source : Text) (ts : List Token) : Prop where
  cuts : ∀ t ∈ ts, t.span.Cuts source
  apart : ts.Pairwise fun a b => a.span.stop ≤ b.span.start
  names : ∀ t ∈ ts, t.kind = .ident → (t.span.text source).IsName

/-- The span runs from where a token of the row starts to where one stops. -/
def Within (ts : List Token) (s : Span) : Prop :=
  ∃ a ∈ ts, ∃ b ∈ ts, s.start = a.span.start ∧ s.stop = b.span.stop

structure Along (ts : List Token) (spans : List Span) : Prop where
  within : ∀ s ∈ spans, Within ts s
  apart : Span.Apart spans

namespace Laid
variable {ts us : List Token}

theorem of_append (h : Laid source (ts ++ us)) : Laid source ts ∧ Laid source us := by
  obtain ⟨hts, hus, -⟩ := List.pairwise_append.1 h.apart
  exact ⟨⟨fun t ht => h.cuts t (List.mem_append_left us ht), hts,
      fun t ht => h.names t (List.mem_append_left us ht)⟩,
    ⟨fun t ht => h.cuts t (List.mem_append_right ts ht), hus,
      fun t ht => h.names t (List.mem_append_right ts ht)⟩⟩

theorem tail {t : Token} (h : Laid source (t :: ts)) : Laid source ts :=
  (of_append (show Laid source ([t] ++ ts) from h)).2

end Laid

theorem Within.cuts {ts : List Token} {s : Span} (h : Within ts s) (hts : Laid source ts) :
    s.Cuts source := by
  obtain ⟨a, ha, b, hb, hstart, hstop⟩ := h
  refine ⟨?_, ?_⟩
  · rw [hstart]
    exact (hts.cuts a ha).1
  · rw [hstop]
    exact (hts.cuts b hb).2

theorem Within.mono {ts us : List Token} {s : Span} (h : Within ts s) (hsub : ts ⊆ us) :
    Within us s := by
  obtain ⟨a, ha, b, hb, hspan⟩ := h
  exact ⟨a, hsub ha, b, hsub hb, hspan⟩

theorem within_token (t : Token) : Within [t] t.span :=
  ⟨t, List.mem_singleton_self t, t, List.mem_singleton_self t, rfl, rfl⟩

theorem Within.combine {ts : List Token} {l r : Span} (hl : Within ts l) (hr : Within ts r) :
    Within ts (.combine l r) := by
  obtain ⟨a, ha, b, hb, hstart, hstop⟩ := hl
  obtain ⟨-, -, d, hd, -, hstop'⟩ := hr
  rcases Nat.le_total l.stop r.stop with hle | hle
  · exact ⟨a, ha, d, hd, hstart, by rw [Span.stop_combine, Nat.max_eq_right hle, hstop']⟩
  · exact ⟨a, ha, b, hb, hstart, by rw [Span.stop_combine, Nat.max_eq_left hle, hstop]⟩

namespace Along
variable {ts us : List Token} {spans spans' : List Span}

theorem nil (ts : List Token) : Along ts [] := ⟨by simp, .nil⟩

theorem of_within {s : Span} (h : Within ts s) : Along ts [s] :=
  ⟨by simpa using h, List.pairwise_singleton _ _⟩

theorem token (t : Token) : Along [t] [t.span] := of_within (within_token t)

theorem mono (h : Along ts spans) (hsub : ts ⊆ us) : Along us spans :=
  ⟨fun s hs => (h.within s hs).mono hsub, h.apart⟩

theorem append (hrow : Laid source (ts ++ us)) (h : Along ts spans) (h' : Along us spans') :
    Along (ts ++ us) (spans ++ spans') := by
  constructor
  · intro s hs
    rcases List.mem_append.1 hs with hs | hs
    · exact (h.within s hs).mono (List.subset_append_left ts us)
    · exact (h'.within s hs).mono (List.subset_append_right ts us)
  · refine List.pairwise_append.2 ⟨h.apart, h'.apart, fun s hs s' hs' => ?_⟩
    obtain ⟨-, -, b, hb, -, hstop⟩ := h.within s hs
    obtain ⟨a, ha, -, -, hstart, -⟩ := h'.within s' hs'
    rw [hstop, hstart]
    exact (List.pairwise_append.1 hrow.apart).2.2 b hb a ha

theorem cons {t : Token} (hrow : Laid source (t :: us)) (h : Along us spans) :
    Along (t :: us) (t.span :: spans) := @append _ [t] us _ _ hrow (token t) h

theorem skip {t : Token} (h : Along us spans) : Along (t :: us) spans := h.mono (List.subset_cons_self t us)

/-- A node that reaches from the first of some spans to the last of them holds those that are its parts. -/
theorem holds {first last : Span} {parts : List Span} (h : Along ts spans) (hrow : Laid source ts)
    (hfirst : spans.head? = some first) (hlast : spans.getLast? = some last)
    (hparts : parts.Sublist spans) : (Span.combine first last).Holds source parts := by
  have hmem {s : Span} (hs : s ∈ parts) : s ∈ spans := hparts.subset hs
  obtain ⟨rest, hrest⟩ := List.head?_eq_some_iff.1 hfirst
  obtain ⟨init, hinit⟩ := List.getLast?_eq_some_iff.1 hlast
  have hbefore : ∀ s ∈ spans, first.start ≤ s.start := by
    have hapart := h.apart
    rw [hrest] at hapart ⊢
    refine List.forall_mem_cons.2 ⟨Nat.le_refl _, fun s hs => ?_⟩
    exact Nat.le_trans (Nat.le_add_right _ _) ((List.pairwise_cons.1 hapart).1 s hs)
  have hafter : ∀ s ∈ spans, s.stop ≤ last.stop := by
    have hapart := h.apart
    rw [hinit] at hapart ⊢
    intro s hs
    rcases List.mem_append.1 hs with hs | hs
    · exact Nat.le_trans ((List.pairwise_append.1 hapart).2.2 s hs last (by simp)) (Nat.le_add_right _ _)
    · obtain rfl := List.mem_singleton.1 hs
      exact Nat.le_refl _
  have hends := (h.within first (List.mem_of_mem_head? hfirst)).combine
    (h.within last (List.mem_of_mem_getLast? hlast))
  refine ⟨hends.cuts hrow, fun s hs => (h.within s (hmem hs)).cuts hrow, fun s hs => ?_,
    h.apart.sublist hparts⟩
  rw [Span.contains, Span.stop_combine, Span.start_combine, decide_eq_true (hbefore s (hmem hs)),
    decide_eq_true (Nat.le_trans (hafter s (hmem hs)) (Nat.le_max_right _ _))]
  rfl

end Along

/-! ## Expressions -/

def Settled (source : Text) (ts : List Token) (e : Expr) : Prop :=
  Laid source ts → e.Nested source ∧ Within ts e.span

def AllSettled (source : Text) (ts : List Token) (es : List Expr) : Prop :=
  Laid source ts → (∀ e ∈ es, e.Nested source) ∧ Along ts (es.map Expr.span)

section Settled
variable {ts us : List Token} {l r e : Expr} {es : List Expr}

theorem Settled.join (hl : Settled source ts l) (t : Token) (o : BinOp) (hr : Settled source us r) :
    Settled source (ts ++ t :: us) (.binary (.combine l.span r.span) none o l r) := by
  intro hrow
  obtain ⟨hts, hus⟩ := hrow.of_append
  obtain ⟨hln, hlw⟩ := hl hts
  obtain ⟨hrn, hrw⟩ := hr hus.tail
  have halong := Along.append hrow (.of_within hlw) (.skip (t := t) (.of_within hrw))
  refine ⟨.binary (halong.holds hrow rfl rfl (List.Sublist.refl _)) hln hrn, ?_⟩
  exact (halong.within _ (by simp)).combine (halong.within _ (by simp))

theorem Settled.group (he : Settled source ts e) (opening closing : Token) :
    Settled source (opening :: ts ++ [closing]) e := by
  intro hrow
  obtain ⟨hen, hew⟩ := he hrow.of_append.1.tail
  refine ⟨hen, hew.mono ?_⟩
  exact List.Subset.trans (List.subset_cons_self _ _) (List.subset_append_left _ _)

theorem Settled.one (he : Settled source ts e) : AllSettled source ts [e] := by
  intro hrow
  obtain ⟨hen, hew⟩ := he hrow
  exact ⟨by simpa using hen, .of_within hew⟩

theorem AllSettled.trailing (hes : AllSettled source ts es) (t : Token) :
    AllSettled source (ts ++ [t]) es := by
  intro hrow
  obtain ⟨hesn, hesw⟩ := hes hrow.of_append.1
  exact ⟨hesn, hesw.mono (List.subset_append_left _ _)⟩

theorem AllSettled.cons (he : Settled source ts e) (t : Token) (hes : AllSettled source us es) :
    AllSettled source (ts ++ t :: us) (e :: es) := by
  intro hrow
  obtain ⟨hts, hus⟩ := hrow.of_append
  obtain ⟨hen, hew⟩ := he hts
  obtain ⟨hesn, hesw⟩ := hes hus.tail
  exact ⟨List.forall_mem_cons.2 ⟨hen, hesn⟩, Along.append hrow (.of_within hew) (.skip hesw)⟩

theorem settled_int {t : Token} {suffix : Suffix} {value : Nat}
    (h : Spells source t.span suffix value) : Settled source [t] (.int t.span none value suffix) := by
  intro hrow
  have hcuts := hrow.cuts t (List.mem_singleton_self t)
  exact ⟨.int ⟨hcuts, by simp, by simp, .nil⟩ h, within_token t⟩

theorem settled_var {t : Token} (h : t.kind = .ident) :
    Settled source [t] (.var t.span none t.span) := by
  intro hrow
  have hcuts := hrow.cuts t (List.mem_singleton_self t)
  refine ⟨.var ⟨hcuts, by simpa using hcuts, ?_, List.pairwise_singleton _ _⟩
    (hrow.names t (List.mem_singleton_self t) h), within_token t⟩
  simp [Span.contains]

theorem settled_call {t opening closing : Token} (h : t.kind = .ident)
    (hes : AllSettled source ts es) : Settled source (t :: opening :: ts ++ [closing])
      (.call (.combine t.span closing.span) none t.span es) := by
  intro hrow
  obtain ⟨hleft, -⟩ := hrow.of_append
  obtain ⟨hesn, hesw⟩ := hes hleft.tail.tail
  have halong : Along (t :: opening :: ts ++ [closing])
      (t.span :: es.map Expr.span ++ [closing.span]) :=
    .append hrow (.cons hleft (.skip hesw)) (.token closing)
  have hlast : (t.span :: es.map Expr.span ++ [closing.span]).getLast? = some closing.span :=
    List.getLast?_concat
  refine ⟨.call (halong.holds hrow rfl hlast (List.sublist_append_left ..))
    (hrow.names t List.mem_cons_self h) hesn, ?_⟩
  exact (halong.within _ (by simp)).combine (halong.within _ (by simp))

end Settled

theorem Expression.settled {ts : List Token} {e : Expr} (h : Expression source ts e) :
    Settled source ts e := by
  induction h using @Expression.rec source _ (fun ts e _ => Settled source ts e)
    (fun ts e _ => Settled source ts e) (fun ts e _ => Settled source ts e)
    (fun ts e _ => Settled source ts e) (fun ts es _ => AllSettled source ts es)
    (fun ts es _ => AllSettled source ts es)
  case operand ih | operand ih | operand ih | intro ih => exact ih
  case join hl hr | join hl hr | join hl hr => exact hl.join _ _ hr
  case int h => exact settled_int h
  case var h => exact settled_var h
  case call hk _ _ _ ih => exact settled_call hk ih
  case group ih => exact ih.group _ _
  case none => exact fun _ => ⟨by simp, .nil _⟩
  case items ih => exact ih
  case trailing ih => exact ih.trailing _
  case one ih => exact ih.one
  case more he hes => exact .cons he _ hes

/-! ## Statements -/

theorem nested_statement {ts : List Token} {form : StmtForm} {first last : Span} {spans : List Span}
    (hrow : Laid source ts) (h : Along ts spans)
    (hfirst : spans.head? = some first) (hlast : spans.getLast? = some last)
    (hparts : (Stmt.parts ⟨form, .combine first last⟩).Sublist spans)
    (hname : ∀ name ∈ Stmt.name? ⟨form, .combine first last⟩, (name.text source).IsName)
    (hexpr : ∀ e ∈ Stmt.expr? ⟨form, .combine first last⟩, e.Nested source) :
    (Stmt.mk form (.combine first last)).Nested source ∧ Within ts (.combine first last) :=
  ⟨⟨h.holds hrow hfirst hlast hparts, hname, hexpr⟩,
    (h.within _ (List.mem_of_mem_head? hfirst)).combine (h.within _ (List.mem_of_mem_getLast? hlast))⟩

theorem Statement.nested {ts : List Token} {s : Stmt} (h : Statement source ts s)
    (hrow : Laid source ts) : s.Nested source ∧ Within ts s.span := by
  cases h with
  | @init mutable word name eq last ts e hw hn hq he hl =>
    obtain ⟨hleft, -⟩ := hrow.of_append
    obtain ⟨hen, hew⟩ := he.settled hleft.tail.tail.tail
    have halong : Along (word :: name :: eq :: ts ++ [last])
        ([word.span, name.span, e.span] ++ [last.span]) :=
      .append hrow (.cons hleft (.cons hleft.tail (.skip (.of_within hew)))) (.token last)
    refine nested_statement hrow halong rfl rfl (.cons _ (List.sublist_append_left _ _)) ?_ ?_
    · rintro _ ⟨⟩
      exact hrow.names name (by simp) hn
    · rintro _ ⟨⟩
      exact hen
  | @typed mutable word name colon type eq last ty ts e hw hn hc ht hq he hl =>
    obtain ⟨hleft, -⟩ := hrow.of_append
    obtain ⟨hen, hew⟩ := he.settled hleft.tail.tail.tail.tail.tail
    have halong : Along (word :: name :: colon :: type :: eq :: ts ++ [last])
        ([word.span, name.span, e.span] ++ [last.span]) :=
      .append hrow (.cons hleft (.cons hleft.tail (.skip (.skip (.skip (.of_within hew))))))
        (.token last)
    refine nested_statement hrow halong rfl rfl (.cons _ (List.sublist_append_left _ _)) ?_ ?_
    · rintro _ ⟨⟩
      exact hrow.names name (by simp) hn
    · rintro _ ⟨⟩
      exact hen
  | @declared mutable word name colon type last ty hw hn hc ht hl =>
    have halong : Along [word, name, colon, type, last] [word.span, name.span, last.span] :=
      .cons hrow (.cons hrow.tail (.skip (.skip (.token last))))
    refine nested_statement hrow halong rfl rfl (.cons _ (List.sublist_append_left [_] _)) ?_ ?_
    · rintro _ ⟨⟩
      exact hrow.names name (by simp) hn
    · rintro _ ⟨⟩
  | @ret word last hw hl =>
    have halong : Along [word, last] [word.span, last.span] := .cons hrow (.token last)
    refine nested_statement hrow halong rfl rfl (List.nil_sublist _) ?_ ?_ <;> rintro _ ⟨⟩
  | @retValue word last ts e hw he hl =>
    obtain ⟨hleft, -⟩ := hrow.of_append
    obtain ⟨hen, hew⟩ := he.settled hleft.tail
    have halong : Along (word :: ts ++ [last]) ([word.span, e.span] ++ [last.span]) :=
      .append hrow (.cons hleft (.of_within hew)) (.token last)
    refine nested_statement hrow halong rfl rfl (.cons _ (List.sublist_append_left _ _)) ?_ ?_
    · rintro _ ⟨⟩
    · rintro _ ⟨⟩
      exact hen
  | @expr last ts e he hl =>
    obtain ⟨hen, hew⟩ := he.settled hrow.of_append.1
    have halong : Along (ts ++ [last]) ([e.span] ++ [last.span]) :=
      .append hrow (.of_within hew) (.token last)
    refine nested_statement hrow halong rfl rfl (List.sublist_append_left _ _) ?_ ?_
    · rintro _ ⟨⟩
    · rintro _ ⟨⟩
      exact hen

/-- Items read off a row lie along it if each lies where it was read. -/
theorem Many.along {α : Type} {item : Phrases α} {span : α → Span} {good : α → Prop}
    {ts : List Token} {as : List α} (h : Many item ts as)
    (hi : ∀ ts a, item ts a → Laid source ts → good a ∧ Within ts (span a)) (hrow : Laid source ts) :
    (∀ a ∈ as, good a) ∧ Along ts (as.map span) := by
  induction h with
  | nil => exact ⟨by simp, .nil _⟩
  | cons ha _ ih =>
    obtain ⟨hts, hus⟩ := hrow.of_append
    obtain ⟨hgood, hwithin⟩ := hi _ _ ha hts
    obtain ⟨hgoods, halong⟩ := ih hus
    exact ⟨List.forall_mem_cons.2 ⟨hgood, hgoods⟩, .append hrow (.of_within hwithin) halong⟩

/-! ## Functions -/

theorem Block.nested {ts : List Token} {b : Frontend.Block} (h : Block source ts b)
    (hrow : Laid source ts) : b.Nested source ∧ Within ts b.span := by
  cases h with
  | @intro opening closing ts stmts ho hm hc =>
    obtain ⟨hleft, -⟩ := hrow.of_append
    obtain ⟨hstmts, hspans⟩ := hm.along (fun _ _ h => h.nested) hleft.tail
    have halong : Along (opening :: ts ++ [closing])
        (opening.span :: stmts.map Stmt.span ++ [closing.span]) :=
      .append hrow (.cons hleft hspans) (.token closing)
    refine ⟨⟨halong.holds hrow rfl List.getLast?_concat (.cons _ (List.sublist_append_left _ _)),
      hstmts⟩, ?_⟩
    exact (halong.within _ (by simp)).combine (halong.within _ (by simp))

theorem Param.nested {ts : List Token} {p : Frontend.Param} (h : Param ts p)
    (hrow : Laid source ts) : (p.name.text source).IsName ∧ Within ts p.name := by
  cases h with
  | plain hn | comma hn =>
    exact ⟨hrow.names _ List.mem_cons_self hn, (within_token _).mono (by simp)⟩

theorem Function.nested {ts : List Token} {f : Frontend.Function} (h : Function source ts f)
    (hrow : Laid source ts) : f.Nested source ∧ Within ts f.span := by
  cases h with
  | @intro name opening closing ps rs bs params ret body hn ho hm hc hty hb =>
    obtain ⟨hleft, hbs⟩ := hrow.of_append
    obtain ⟨hhead, -⟩ := hleft.of_append
    obtain ⟨hparams, hspans⟩ := hm.along (fun _ _ h => h.nested) hhead.tail.tail
    obtain ⟨hbody, hbodyw⟩ := hb.nested hbs
    have halong : Along (name :: opening :: ps ++ closing :: rs ++ bs)
        (name.span :: params.map Param.name ++ [body.span]) :=
      .append hrow (.mono (.cons hhead (.skip hspans)) (List.subset_append_left _ _))
        (.of_within hbodyw)
    refine ⟨⟨halong.holds hrow rfl List.getLast?_concat (List.Sublist.refl _),
      hrow.names name (by simp) hn, hparams, hbody⟩, ?_⟩
    exact (halong.within _ (by simp)).combine (halong.within _ (by simp))

end Grammar

theorem Kind.isName_of_spelling {w : Text} (h : Kind.Spelling .ident w) : w.IsName := by
  have hk : (Kind.ident.display, Kind.ident) ∉ keywords := by decide
  have hs : (Kind.ident.display, Kind.ident) ∉ symbols := by decide
  cases h with
  | keyword h => exact absurd h hk
  | symbol h => exact absurd h hs
  | ident hc ht hno => exact ⟨_, _, rfl, hc, ht, hno⟩

theorem Lossless.laid_of_sublist {source : Text} {as : List (Except SourceError Token)}
    {ts : List Token} (h : Lossless source as) (hts : (ts.map .ok).Sublist as) :
    Grammar.Laid source ts := by
  have hmem {t : Token} (ht : t ∈ ts) : Except.ok t ∈ as := hts.subset (List.mem_map_of_mem ht)
  refine ⟨fun t ht => ?_, List.pairwise_map.1 (h.ordered.sublist hts), fun t ht hk => ?_⟩
  · obtain ⟨before, piece, after, hsource, hspan⟩ := h.within _ (hmem ht)
    have hspan : t.span = ⟨Text.size before, Text.size piece⟩ := hspan
    rw [hspan]
    refine ⟨⟨before, piece ++ after, by rw [hsource, List.append_assoc], rfl⟩,
      before ++ piece, after, hsource, ?_⟩
    rw [Text.size_append]
    rfl
  · have hlen : 0 < t.span.len := by
      refine Nat.pos_of_ne_zero fun hz => ?_
      obtain rfl := Except.ok.inj (h.eq_of_empty (hmem ht) hz)
      cases hk
    have hspell := h.spelling t (hmem ht) hlen
    rw [hk] at hspell
    exact Kind.isName_of_spelling hspell

theorem Lossless.laid {source : Text} {ts : List Token} (h : Lossless source (ts.map .ok)) :
    Grammar.Laid source ts := h.laid_of_sublist (List.Sublist.refl _)

namespace Session
variable {source : Text} {sys : Pool.System} {pool : Pool} {journal : Log.Journal} {p : Program}

theorem Accepted.nested {ts : List Token} (h : Accepted source ts p) : p.Nested := by
  have hsource : p.source = source := by rw [h.program]; rfl
  obtain ⟨hfs, halong⟩ := h.functions.along (fun _ _ hf => hf.nested) h.lossless.laid
  exact ⟨halong.apart, hsource ▸ hfs⟩

/-- In the tree of a source that is accepted, every span lies in the source between characters and holds
the spans of its name and of what is below it, which lie apart and in order, as the functions do. Names
are identifiers that are no keywords, and a literal is the digits of its value and its suffix. -/
theorem tree_nested (h : (parseText sys source pool journal).1 = .ok p) :
    p.source = source ∧ p.Nested := by
  obtain ⟨ts, hts⟩ := accepted_of_unbounded (unbounded_of_parseText h)
  refine ⟨?_, hts.nested⟩
  rw [hts.program]
  rfl

theorem tree_nested_call :
    let source : Text := "f(a: i32) \x7b let b = a + g(1); \x7d"
    let pool : Pool := ⟨.standard, ⟨0, 0x1000, 16⟩, [], 0, 0x1000⟩
    let call : Expr := .call ⟨24, 4⟩ none ⟨24, 1⟩ [.int ⟨26, 1⟩ none 1 none]
    let sum : Expr := .binary ⟨20, 8⟩ none .add (.var ⟨20, 1⟩ none ⟨20, 1⟩) call
    let body : Block := ⟨[⟨.bind ⟨16, 1⟩ none sum false, ⟨12, 17⟩⟩], ⟨10, 21⟩⟩
    let p : Program :=
      .ofFunctions source [⟨⟨0, 1⟩, [⟨⟨2, 1⟩, .int .i32⟩], .void, body, ⟨0, 31⟩⟩]
    (parseText .standard source pool (.empty .info)).1 = .ok p ∧ p.source = source ∧ p.Nested := by
  intro source pool call sum body p
  have hparse : (parseText .standard source pool (.empty .info)).1 = .ok p := by
    subst source pool call sum body p
    rfl
  exact ⟨hparse, tree_nested hparse⟩

end Session
end Frontend
