import Frontend.Proofs.Grammar.Viable
import Frontend.Proofs.Token.Terminator

/-! # Parentheses and the ends of phrases

In a phrase every parenthesis has its other, and what stands before the terminator of a statement is
balanced and ends with a token after which a statement may end. Where the grammar has a terminator that
is written as a semicolon, a newline would have been one too.
-/
namespace Frontend

namespace Kind
variable {k : Kind} {ks ks' : List Kind}

theorem Balanced.append (h : Balanced ks) (h' : Balanced ks') : Balanced (ks ++ ks') := by
  induction h with
  | nil => exact h'
  | other hl hr _ ih => exact .other hl hr ih
  | @paren inner _ hi _ _ ih =>
    rw [List.cons_append, List.append_assoc]
    exact .paren hi ih

theorem Balanced.group (h : Balanced ks) : Balanced (.lparen :: (ks ++ [.rparen])) := .paren h .nil

theorem Balanced.endsStatement (h : Balanced ks) (hk : ∃ k ∈ ks.getLast?, k.endsStatement) :
    EndsStatement ks := by
  refine ⟨hk, openAfter_eq_zero_iff.1 ?_⟩
  exact h.openAfter_eq

end Kind

namespace Grammar
variable {α : Type} {source : Text}

def Even (ts : List Token) : Prop := Kind.Balanced (ts.map Token.kind)

@[simp] theorem even_nil : Even [] := .nil

theorem Even.append {ts us : List Token} (h : Even ts) (h' : Even us) : Even (ts ++ us) := by
  rw [Even, List.map_append]
  exact Kind.Balanced.append h h'

theorem Even.cons {t : Token} {ts : List Token} (hl : t.kind ≠ .lparen) (hr : t.kind ≠ .rparen)
    (h : Even ts) : Even (t :: ts) := .other hl hr h

theorem Even.group {opening closing : Token} {ts : List Token} (ho : opening.kind = .lparen)
    (h : Even ts) (hc : closing.kind = .rparen) : Even (opening :: (ts ++ [closing])) := by
  rw [Even, List.map_cons, List.map_append, List.map_singleton, ho, hc]
  exact Kind.Balanced.group h

theorem even_of_forall {ts : List Token} (h : ∀ t ∈ ts, t.kind ≠ .lparen ∧ t.kind ≠ .rparen) :
    Even ts := by
  induction ts with
  | nil => exact even_nil
  | cons t ts ih =>
    obtain ⟨⟨hl, hr⟩, hts⟩ := List.forall_mem_cons.1 h
    exact .cons hl hr (ih hts)

def Ends (test : Kind → Bool) (ts : List Token) : Prop := ∃ us t, ts = us ++ [t] ∧ test t.kind

theorem Ends.prepend {test : Kind → Bool} {ts : List Token} (h : Ends test ts) (us : List Token) :
    Ends test (us ++ ts) := by
  obtain ⟨vs, t, rfl, ht⟩ := h
  exact ⟨us ++ vs, t, (List.append_assoc ..).symm, ht⟩

theorem Ends.getLast? {test : Kind → Bool} {ts : List Token} (h : Ends test ts) :
    ∃ k ∈ (ts.map Token.kind).getLast?, test k := by
  obtain ⟨us, t, rfl, ht⟩ := h
  exact ⟨t.kind, by rw [List.map_append, List.map_singleton, List.getLast?_concat]; rfl, ht⟩

/-! ## Expressions -/

theorem Level.ends {p : Precedence} {operand : Phrases Expr} {test : Kind → Bool}
    (h : ∀ {ts e}, operand ts e → Ends test ts) {ts : List Token} {e : Expr}
    (hl : Level p operand ts e) : Ends test ts := by
  cases hl with
  | operand ho => exact h ho
  | @join ts us l r t o _ _ _ ho =>
    rw [List.append_cons]
    exact (h ho).prepend _

theorem Primary.ends {expression : Phrases Expr} {ts : List Token} {e : Expr}
    (h : Primary source expression ts e) : Ends Kind.endsStatement ts := by
  cases h with
  | int hk | var hk => exact ⟨[], _, rfl, by rw [hk]; rfl⟩
  | call _ _ _ hc | group _ _ hc => exact ⟨_, _, rfl, by rw [hc]; rfl⟩

theorem Expression.ends {ts : List Token} {e : Expr} (h : Expression source ts e) :
    Ends Kind.endsStatement ts := by
  cases h with
  | intro hl => exact hl.ends fun hs => hs.ends fun hp => hp.ends Primary.ends

theorem Expression.even {ts : List Token} {e : Expr} (h : Expression source ts e) : Even ts := by
  induction h using @Expression.rec source _ (fun ts _ _ => Even ts) (fun ts _ _ => Even ts)
    (fun ts _ _ => Even ts) (fun ts _ _ => Even ts) (fun ts _ _ => Even ts) (fun ts _ _ => Even ts)
    <;> simp_all [Even.append, Even.cons, Even.group]

def Unended (ts : List Token) : Prop := ∀ t ∈ ts, t.kind ≠ .terminator

@[simp] theorem unended_nil : Unended [] := fun _ ht => absurd ht List.not_mem_nil

@[simp] theorem unended_cons {t : Token} {ts : List Token} :
    Unended (t :: ts) ↔ t.kind ≠ .terminator ∧ Unended ts := List.forall_mem_cons

@[simp] theorem unended_append {ts us : List Token} :
    Unended (ts ++ us) ↔ Unended ts ∧ Unended us := List.forall_mem_append

theorem Expression.unended {ts : List Token} {e : Expr} (h : Expression source ts e) :
    Unended ts := by
  induction h using @Expression.rec source _ (fun ts _ _ => Unended ts) (fun ts _ _ => Unended ts)
    (fun ts _ _ => Unended ts) (fun ts _ _ => Unended ts) (fun ts _ _ => Unended ts)
    (fun ts _ _ => Unended ts) <;> simp_all

/-! ## Statements -/

/-- A row that a terminator makes a statement of. -/
structure Terminable (ts : List Token) : Prop where
  even : Even ts
  ends : Ends Kind.endsStatement ts
  unended : Unended ts

theorem Expression.terminable {ts : List Token} {e : Expr} (h : Expression source ts e) :
    Terminable ts := ⟨h.even, h.ends, h.unended⟩

theorem Terminable.cons {t : Token} {ts : List Token} (h : Terminable ts) (hl : t.kind ≠ .lparen)
    (hr : t.kind ≠ .rparen) (hk : t.kind ≠ .terminator) : Terminable (t :: ts) :=
  ⟨h.even.cons hl hr, h.ends.prepend [t], unended_cons.2 ⟨hk, h.unended⟩⟩

theorem terminable_token {t : Token} (ht : t.kind.endsStatement) (hr : t.kind ≠ .rparen) :
    Terminable [t] := by
  have hk : t.kind ≠ .lparen ∧ t.kind ≠ .terminator := by
    constructor <;> intro h <;> rw [h] at ht <;> cases ht
  exact ⟨.cons hk.1 hr even_nil, ⟨[], t, rfl, ht⟩, by simp [hk.2]⟩

theorem bindingWord_plain (mutable : Bool) : bindingWord mutable ≠ .lparen ∧
    bindingWord mutable ≠ .rparen ∧ bindingWord mutable ≠ .terminator := by
  cases mutable <;> decide

theorem Statement.terminable {ts : List Token} {s : Stmt} (h : Statement source ts s) :
    ∃ us last, ts = us ++ [last] ∧ last.kind = .terminator ∧ Terminable us := by
  cases h with
  | @init mutable _ _ _ _ _ _ hw hn hq he hl =>
    obtain ⟨hwl, hwr, hwt⟩ := bindingWord_plain mutable
    refine ⟨_, _, rfl, hl, ?_⟩
    refine .cons (.cons (.cons he.terminable ?_ ?_ ?_) ?_ ?_ ?_) ?_ ?_ ?_ <;> simp_all
  | @typed mutable _ _ _ _ _ _ _ _ _ hw hn hc ht hq he hl =>
    obtain ⟨hwl, hwr, hwt⟩ := bindingWord_plain mutable
    refine ⟨_, _, rfl, hl, ?_⟩
    refine .cons (.cons (.cons (.cons (.cons he.terminable ?_ ?_ ?_) ?_ ?_ ?_) ?_ ?_ ?_) ?_ ?_ ?_)
      ?_ ?_ ?_ <;> simp_all
  | @declared mutable word name colon type last ty hw hn hc ht hl =>
    obtain ⟨hwl, hwr, hwt⟩ := bindingWord_plain mutable
    refine ⟨[word, name, colon, type], last, rfl, hl, ?_⟩
    refine .cons (.cons (.cons (terminable_token (by rw [ht]; rfl) ?_) ?_ ?_ ?_) ?_ ?_ ?_) ?_ ?_ ?_
      <;> simp_all
  | @ret word last hw hl =>
    exact ⟨[word], last, rfl, hl, terminable_token (by rw [hw]; rfl) (by simp [hw])⟩
  | retValue hw he hl =>
    refine ⟨_, _, rfl, hl, ?_⟩
    refine .cons he.terminable ?_ ?_ ?_ <;> simp_all
  | expr he hl => exact ⟨_, _, rfl, hl, he.terminable⟩

/-- Behind tokens of the kinds, every terminator of the row is a newline as written, or stands where a
newline is a token. -/
def Terminates (source : Text) : List Kind → List Token → Prop
  | _, [] => True
  | ks, t :: ts => (t.kind = .terminator → IsNewline source t ∨ EndsStatement ks) ∧
      Terminates source (ks ++ [t.kind]) ts

theorem terminates_append {ks : List Kind} {ts us : List Token} :
    Terminates source ks (ts ++ us) ↔
      Terminates source ks ts ∧ Terminates source (ks ++ ts.map Token.kind) us := by
  induction ts generalizing ks with
  | nil => simp [Terminates]
  | cons t ts ih => simp [Terminates, ih, and_assoc]

theorem terminates_of_forall {ks : List Kind} {ts : List Token}
    (h : ∀ t ∈ ts, t.kind = .terminator → IsNewline source t) : Terminates source ks ts := by
  induction ts generalizing ks with
  | nil => trivial
  | cons t ts ih =>
    obtain ⟨ht, hts⟩ := List.forall_mem_cons.1 h
    exact ⟨fun hk => .inl (ht hk), ih hts⟩

/-- The terminators of the phrases stand where statements may end, and their parentheses match. -/
def Orderly (source : Text) (D : Phrases α) : Prop :=
  ∀ ⦃ts a⦄, D ts a → Even ts ∧ ∀ ks, Kind.Balanced ks → Terminates source ks ts

theorem Statement.orderly : Orderly source (Statement source) := by
  intro ts s h
  obtain ⟨us, last, rfl, hl, hus⟩ := h.terminable
  refine ⟨hus.even.append (.cons (by simp [hl]) (by simp [hl]) even_nil), fun ks hks => ?_⟩
  refine terminates_append.2 ⟨terminates_of_forall fun t ht hk => ?_, fun _ => .inr ?_, trivial⟩
  · exact absurd hk (hus.unended t ht)
  · refine (hks.append hus.even).endsStatement ?_
    obtain ⟨k, hk, hkt⟩ := hus.ends.getLast?
    exact ⟨k, by rw [List.getLast?_append, hk]; rfl, hkt⟩

theorem Many.orderly {item : Phrases α} (hi : Orderly source item) :
    Orderly source (Many item) := by
  intro ts as h
  induction h with
  | nil => exact ⟨even_nil, fun _ _ => trivial⟩
  | cons ha _ ih =>
    obtain ⟨heven, hends⟩ := hi ha
    refine ⟨heven.append ih.1, fun ks hks => terminates_append.2 ⟨hends ks hks, ?_⟩⟩
    exact ih.2 _ (hks.append heven)

/-! ## Functions -/

theorem Block.orderly : Orderly source (Block source) := by
  intro ts b h
  cases h with
  | @intro opening closing ts stmts ho hm hc =>
    obtain ⟨heven, hends⟩ := hm.orderly Statement.orderly
    have hopen : Even [opening] := .cons (by simp [ho]) (by simp [ho]) even_nil
    have hclose : Even [closing] := .cons (by simp [hc]) (by simp [hc]) even_nil
    refine ⟨(hopen.append heven).append hclose, fun ks hks => ?_⟩
    refine terminates_append.2 ⟨⟨by simp [ho], hends _ (hks.append hopen)⟩, by simp [hc], trivial⟩

theorem Param.unended {ts : List Token} {p : Frontend.Param} (h : Param ts p) : Unended ts := by
  cases h <;> simp_all

theorem Param.even {ts : List Token} {p : Frontend.Param} (h : Param ts p) : Even ts := by
  cases h <;> refine even_of_forall ?_ <;> simp_all

theorem Many.params_plain {ts : List Token} {ps : List Frontend.Param} (h : Many Param ts ps) :
    Even ts ∧ Unended ts := by
  induction h with
  | nil => exact ⟨even_nil, unended_nil⟩
  | cons hp _ ih => exact ⟨hp.even.append ih.1, unended_append.2 ⟨hp.unended, ih.2⟩⟩

theorem ReturnType.orderly : Orderly source (ReturnType source) := by
  have hnl {ts : List Token} (h : ∀ t ∈ ts, IsNewline source t) : Even ts :=
    even_of_forall fun t ht => by simp [(h t ht).1]
  intro ts ty h
  cases h with
  | void hts => exact ⟨hnl hts, fun _ _ => terminates_of_forall fun t ht _ => hts t ht⟩
  | @written ts us type ty hts ht hus =>
    refine ⟨(hnl hts).append (.cons (by simp [ht]) (by simp [ht]) (hnl hus)), fun _ _ => ?_⟩
    refine terminates_of_forall ?_
    rintro t htm hk
    rcases List.mem_append.1 htm with htm | htm
    · exact hts t htm
    · rcases List.mem_cons.1 htm with rfl | htm
      · cases ht.symm.trans hk
      · exact hus t htm

theorem header_plain {name opening closing : Token} {ps : List Token} {params : List Frontend.Param}
    (hn : name.kind = .ident) (ho : opening.kind = .lparen) (hm : Many Param ps params)
    (hc : closing.kind = .rparen) : Even (name :: opening :: (ps ++ [closing])) ∧
      Unended (name :: opening :: (ps ++ [closing])) := by
  obtain ⟨heven, hunended⟩ := hm.params_plain
  refine ⟨.cons (by simp [hn]) (by simp [hn]) (.group ho heven hc), ?_⟩
  simp [hn, ho, hunended, hc]

theorem Function.orderly : Orderly source (Function source) := by
  intro ts f h
  cases h with
  | @intro name opening closing ps rs bs params ret body hn ho hm hc hty hb =>
    obtain ⟨hheven, hhends⟩ := header_plain hn ho hm hc
    obtain ⟨hreven, hrends⟩ := hty.orderly
    obtain ⟨hbeven, hbends⟩ := hb.orderly
    have hrow : name :: opening :: ps ++ closing :: rs ++ bs =
        name :: opening :: (ps ++ [closing]) ++ rs ++ bs := by simp
    rw [hrow]
    refine ⟨(hheven.append hreven).append hbeven, fun ks hks => ?_⟩
    refine terminates_append.2 ⟨terminates_append.2 ⟨?_, hrends _ (hks.append hheven)⟩,
      hbends _ (hks.append (hheven.append hreven))⟩
    exact terminates_of_forall fun t ht hk => absurd hk (hhends t ht)

theorem Function.ends {ts : List Token} {f : Frontend.Function} (h : Function source ts f) :
    Ends (fun k => decide (k = .rbrace)) ts := by
  cases h with
  | @intro _ _ _ ps rs bs _ _ body _ _ _ _ _ hb =>
    cases hb with
    | @intro opening closing bs stmts _ _ hc =>
      exact Ends.prepend ⟨_, closing, rfl, decide_eq_true hc⟩ _

theorem Many.ends {ts : List Token} {fs : List Frontend.Function}
    (h : Many (Function source) ts fs) : ts = [] ∨ Ends (fun k => decide (k = .rbrace)) ts := by
  induction h with
  | nil => exact .inl rfl
  | @cons ts us f fs hf _ ih =>
    right
    rcases ih with rfl | hus
    · rw [List.append_nil]
      exact hf.ends
    · exact hus.prepend ts

/-- Functions leave no statement open: behind them a newline is layout. -/
theorem Many.not_endsStatement {ts : List Token} {fs : List Frontend.Function}
    (h : Many (Function source) ts fs) : ¬ EndsStatement (ts.map Token.kind) := by
  rintro ⟨⟨k, hk, hends⟩, -⟩
  rcases h.ends with rfl | hlast
  · cases hk
  · obtain ⟨k', hk', hbrace⟩ := hlast.getLast?
    cases hk.symm.trans hk'
    cases of_decide_eq_true hbrace
    cases hends

end Grammar
end Frontend
