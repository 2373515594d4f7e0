import Frontend.Proofs.Parser.Within
import Frontend.Proofs.Tree.Shift

/-! # Plans over tokens of another source

A plan looks at the kinds of tokens and at their text, and puts their spans into what it builds. So over
the tokens of another source with the same kinds and texts it does the same, request by request, and what
it builds and what it blames is further on by as much as the tokens are.
-/
namespace Frontend

/-- As expressions are read: literals are words, and no type slot is filled. -/
inductive Expr.Fresh : Expr → Prop
  | int {span : Span} {value : Nat} {suffix : Suffix} :
      value < literalLimit → Fresh (.int span none value suffix)
  | var {span name : Span} : Fresh (.var span none name)
  | binary {span : Span} {o : BinOp} {left right : Expr} :
      Fresh left → Fresh right → Fresh (.binary span none o left right)
  | call {span callee : Span} {args : List Expr} :
      (∀ e ∈ args, Fresh e) → Fresh (.call span none callee args)

def Stmt.Fresh (s : Stmt) : Prop := ∀ e ∈ s.expr?, e.Fresh

def Block.Fresh (b : Block) : Prop := ∀ s ∈ b.stmts, s.Fresh

def Function.Fresh (f : Function) : Prop := f.body.Fresh

/-- The token of another source with the same kind and text, that many bytes further on. -/
structure Carried (k : Nat) (source source' : Text) (t t' : Token) : Prop where
  eq : t' = t.shift k
  text : t'.span.text source' = t.span.text source

/-- The second of two trees is a copy of the first, with its spans elsewhere. -/
structure Copied {α : Type} (move : α → α) (good : α → Prop) (a a' : α) : Prop where
  eq : a' = move a
  good : good a

namespace Parser
variable {α β γ δ : Type}

/-- Over tokens that are carried over, the plans make the same requests, take as many tokens, and end
with results that are related, or with the same fault. -/
inductive Parallel (k : Nat) (source source' : Text) (R : α → β → Prop) : Parser α → Parser β → Prop
  | done {a : α} {b : β} : R a b → Parallel k source source' R (done a) (done b)
  | blame (e : SourceError) :
      Parallel k source source' R (fail (.source e)) (fail (.source (e.shift k)))
  | fail (e : InternalError) : Parallel k source source' R (fail (.internal e)) (fail (.internal e))
  | peek {p : Token → Parser α} {q : Token → Parser β} :
      (∀ t t', Carried k source source' t t' → Parallel k source source' R (p t) (q t')) →
      Parallel k source source' R (peek p) (peek q)
  | next {p : Token → Parser α} {q : Token → Parser β} :
      (∀ t t', Carried k source source' t t' → Parallel k source source' R (p t) (q t')) →
      Parallel k source source' R (next p) (next q)
  | reserve (l : Pool.Layout) {p : Parser α} {q : Parser β} : Parallel k source source' R p q →
      Parallel k source source' R (reserve l p) (reserve l q)
  | report (e e' : Log.Event) {p : Parser α} {q : Parser β} : Parallel k source source' R p q →
      Parallel k source source' R (report e p) (report e' q)

variable {k : Nat} {source source' : Text} {R : α → β → Prop} {S : γ → δ → Prop}

namespace Parallel

theorem bind {p : Parser α} {q : Parser β} {f : α → Parser γ} {g : β → Parser δ}
    (h : Parallel k source source' R p q)
    (hf : ∀ a b, R a b → Parallel k source source' S (f a) (g b)) :
    Parallel k source source' S (p >>= f) (q >>= g) := by
  change Parallel k source source' S (p.bind f) (q.bind g)
  induction h with
  | done hab => exact hf _ _ hab
  | blame e => exact .blame e
  | fail e => exact .fail e
  | peek _ ih => exact .peek ih
  | next _ ih => exact .next ih
  | reserve l _ ih => exact .reserve l ih
  | report e e' _ ih => exact .report e e' ih

theorem look : Parallel k source source' (Carried k source source') look look :=
  .peek fun _ _ ht => .done ht

theorem take : Parallel k source source' (Carried k source source') take take :=
  .next fun _ _ ht => .done ht

theorem check (c : Kind) : Parallel k source source' Eq (check c) (check c) := by
  refine .peek fun t t' ht => .done ?_
  rw [ht.eq]
  rfl

theorem unexpected (e : Expected) {t t' : Token} (ht : Carried k source source' t t') :
    Parallel k source source' R (unexpected e t) (unexpected e t') := by
  rw [ht.eq]
  exact .blame _

theorem expect (c : Kind) (e : Expected) :
    Parallel k source source' (Carried k source source') (expect c e) (expect c e) := by
  refine .next fun t t' ht => ?_
  have hk : t'.kind = t.kind := by rw [ht.eq]; rfl
  rw [hk]
  split
  · exact .done ht
  · exact .unexpected e ht

end Parallel

/-- What two plans come to over rows of tokens, the second row further on. -/
inductive Agrees (k : Nat) (R : α → β → Prop) :
    Option (Except ParseError α × List Token) → Option (Except ParseError β × List Token) → Prop
  | hungry : Agrees k R none none
  | read {a : α} {b : β} (us : List Token) : R a b →
      Agrees k R (some (.ok a, us)) (some (.ok b, us.map (Token.shift k)))
  | blamed (e : SourceError) (us : List Token) :
      Agrees k R (some (.error (.source e), us)) (some (.error (.source (e.shift k)), us.map (Token.shift k)))
  | failed (e : InternalError) (us : List Token) :
      Agrees k R (some (.error (.internal e), us)) (some (.error (.internal e), us.map (Token.shift k)))

theorem Agrees.eq_none_iff {x : Option (Except ParseError α × List Token)}
    {y : Option (Except ParseError β × List Token)} (h : Agrees k R x y) : x = none ↔ y = none := by
  cases h <;> simp

theorem Parallel.within {p : Parser α} {q : Parser β} (h : Parallel k source source' R p q)
    {ts : List Token} (hts : ∀ t ∈ ts, Carried k source source' t (t.shift k)) :
    Agrees k R (p.within ts) (q.within (ts.map (Token.shift k))) := by
  induction h generalizing ts with
  | done hab => exact .read ts hab
  | blame e => exact .blamed e ts
  | fail e => exact .failed e ts
  | peek _ ih =>
    cases ts with
    | nil => exact .hungry
    | cons t ts => exact ih t _ (hts t List.mem_cons_self) hts
  | next _ ih =>
    cases ts with
    | nil => exact .hungry
    | cons t ts => exact ih t _ (hts t List.mem_cons_self) fun u hu => hts u (List.mem_cons_of_mem t hu)
  | reserve _ _ ih => exact ih hts
  | report _ _ _ ih => exact ih hts

/-! ## Sequences -/

def CopiedItems (move : α → α) (good : α → Prop) (s s' : Sequence α) : Prop :=
  s' = ⟨s.items.map move, s.capacity⟩ ∧ ∀ a ∈ s.items, good a

section Sequences
variable {move : α → α} {good : α → Prop}

theorem copiedItems_nil {s : Sequence α} (hs : s.items = []) : CopiedItems move good s s := by
  obtain ⟨items, capacity⟩ := s
  obtain rfl : items = [] := hs
  exact ⟨rfl, by simp⟩

theorem buffer_parallel (l : Pool.Layout) (n : Nat) :
    Parallel k source source' Eq (buffer l n) (buffer l n) := by
  unfold buffer
  split
  · exact .reserve _ (.done rfl)
  · exact .fail _

theorem start_parallel (move : α → α) (good : α → Prop) (l : Pool.Layout) :
    Parallel k source source' (CopiedItems move good) (Sequence.start l) (Sequence.start l) :=
  (buffer_parallel l _).bind fun _ _ _ => .done (copiedItems_nil rfl)

theorem push_parallel (l : Pool.Layout) {s s' : Sequence α} (hs : CopiedItems move good s s')
    {a a' : α} (ha : Copied move good a a') :
    Parallel k source source' (CopiedItems move good) (s.push l a) (s'.push l a') := by
  obtain ⟨rfl, hgood⟩ := hs
  obtain ⟨rfl, ha⟩ := ha
  have hmore (c : Nat) : CopiedItems move good ⟨s.items ++ [a], c⟩
      ⟨s.items.map move ++ [move a], c⟩ := by
    refine ⟨by simp, fun b hb => ?_⟩
    rcases List.mem_append.1 hb with hb | hb
    · exact hgood b hb
    · rw [List.mem_singleton.1 hb]
      exact ha
  unfold Sequence.push
  dsimp only
  rw [List.length_map]
  split
  · cases Pool.nextCapacity s.capacity with
    | error e => exact .fail _
    | ok c => exact (buffer_parallel l _).bind fun _ _ _ => .done (hmore _)
  · exact .done (hmore _)

end Sequences

/-! ## Expressions -/

section Expressions
variable {operand operand' expression expression' : Parser Expr}

abbrev ParallelExpr (k : Nat) (source source' : Text) : Parser Expr → Parser Expr → Prop :=
  Parallel k source source' (Copied (Expr.shift k) Expr.Fresh)

theorem node_parallel {e e' : Expr} (he : e.Fresh) (heq : e' = e.shift k) :
    ParallelExpr k source source' (node e) (node e') :=
  .reserve _ (.done ⟨heq, he⟩)

theorem binaryOp_parallel : Parallel k source source' Eq binaryOp binaryOp := by
  refine .bind .take fun t t' ht => ?_
  obtain ⟨rfl, -⟩ := ht
  rcases t with ⟨kind, span⟩
  cases kind with
  | op o => exact .done rfl
  | _ => exact .fail _

theorem chain_parallel (p : Precedence) (ho : ParallelExpr k source source' operand operand')
    (n : Nat) {left : Expr} (hl : left.Fresh) : ParallelExpr k source source'
      (chain p operand n left) (chain p operand' n (left.shift k)) := by
  induction n generalizing left with
  | zero => exact .fail _
  | succ n ih =>
    refine .bind .look fun t t' ht => ?_
    have hk : t'.kind = t.kind := by rw [ht.eq]; rfl
    rw [hk]
    split
    · refine binaryOp_parallel.bind fun o o' ho' => ho.bind fun right right' hr => ?_
      obtain rfl := ho'
      obtain ⟨rfl, hr⟩ := hr
      refine (node_parallel (.binary hl hr) ?_).bind fun e e' he => ?_
      · rw [Expr.shift, Span.shift_combine, Expr.span_shift, Expr.span_shift]
      · obtain ⟨rfl, he⟩ := he
        exact ih he
    · exact .done ⟨rfl, hl⟩

theorem level_parallel (p : Precedence) (ho : ParallelExpr k source source' operand operand') (n : Nat) :
    ParallelExpr k source source' (level p operand n) (level p operand' n) := by
  refine ho.bind fun left left' hl => ?_
  obtain ⟨rfl, hl⟩ := hl
  exact chain_parallel p ho n hl

theorem literal_parallel {span : Span} (htext : (span.shift k).text source' = span.text source)
    (suffix : Suffix) : ParallelExpr k source source' (literal source span suffix)
      (literal source' (span.shift k) suffix) := by
  unfold literal
  dsimp only
  rw [htext]
  cases hv : literalValue (span.text source) suffix with
  | ok value => exact node_parallel (.int (literalValue_eq_ok.1 hv).2) rfl
  | error fault =>
    cases fault with
    | malformed => exact .fail _
    | overflow => exact .blame _

theorem arguments_parallel (he : ParallelExpr k source source' expression expression') (n : Nat)
    {args args' : Sequence Expr} (hargs : CopiedItems (Expr.shift k) Expr.Fresh args args') :
    Parallel k source source' (CopiedItems (Expr.shift k) Expr.Fresh) (arguments expression n args)
      (arguments expression' n args') := by
  induction n generalizing args args' with
  | zero => exact .fail _
  | succ n ih =>
    refine .bind (.check _) fun close _ hclose => ?_
    subst hclose
    split
    · exact .done hargs
    · refine he.bind fun e e' he => (push_parallel _ hargs he).bind fun args args' hargs => ?_
      refine .bind (.check _) fun comma _ hcomma => ?_
      subst hcomma
      split
      · exact .bind .take fun _ _ _ => ih hargs
      · exact .done hargs

theorem call_parallel (he : ParallelExpr k source source' expression expression') (callee : Span)
    (n : Nat) : ParallelExpr k source source' (call expression callee n)
      (call expression' (callee.shift k) n) := by
  refine .bind .take fun _ _ _ => ?_
  refine (start_parallel (Expr.shift k) Expr.Fresh _).bind fun args args' hargs => ?_
  refine (arguments_parallel he n hargs).bind fun args args' hargs => ?_
  refine .bind (.expect _ _) fun close close' hclose => ?_
  obtain ⟨rfl, hargs⟩ := hargs
  obtain ⟨rfl, -⟩ := hclose
  refine node_parallel (.call hargs) ?_
  rw [Expr.shift, Span.shift_combine, Expr.shiftArgs_eq]
  rfl

theorem primary_parallel {expression expression' : Unit → Parser Expr}
    (he : ParallelExpr k source source' (expression ()) (expression' ())) (n : Nat) :
    ParallelExpr k source source' (primary source expression n) (primary source' expression' n) := by
  refine .bind .take fun t t' ht => ?_
  obtain ⟨rfl, htext⟩ := ht
  rcases t with ⟨kind, span⟩
  cases kind with
  | int suffix => exact literal_parallel htext suffix
  | ident =>
    refine .bind (.check _) fun opens _ hopens => ?_
    subst hopens
    split
    · exact call_parallel he span n
    · exact node_parallel .var rfl
  | lparen =>
    refine he.bind fun e e' he => .bind (.expect _ _) fun _ _ _ => .done he
  | _ => exact .blame _

theorem expression_parallel (n : Nat) : ParallelExpr k source source'
    (Parser.expression source n) (Parser.expression source' n) := by
  induction n with
  | zero => exact .fail _
  | succ n ih =>
    have hp : ParallelExpr k source source' (primary source (fun _ => Parser.expression source n) n)
        (primary source' (fun _ => Parser.expression source' n) n) := primary_parallel ih n
    exact level_parallel _ (level_parallel _ (level_parallel _ hp n) n) n

end Expressions

/-! ## Statements -/

section Statements

abbrev ParallelStmt (k : Nat) (source source' : Text) : Parser Stmt → Parser Stmt → Prop :=
  Parallel k source source' (Copied (Stmt.shift k) Stmt.Fresh)

theorem typeName_parallel : Parallel k source source' Eq typeName typeName := by
  refine .bind .take fun t t' ht => ?_
  obtain ⟨rfl, -⟩ := ht
  rcases t with ⟨kind, span⟩
  cases kind with
  | typeName ty => exact .done rfl
  | _ => exact .blame _

theorem expression_terminator_parallel (n : Nat) {f f' : Expr → Token → Stmt}
    (hf : ∀ (e : Expr) (t : Token), e.Fresh →
      Copied (Stmt.shift k) Stmt.Fresh (f e t) (f' (e.shift k) (t.shift k))) :
    ParallelStmt k source source'
      (do let e ← Parser.expression source n; return f e (← terminator))
      (do let e ← Parser.expression source' n; return f' e (← terminator)) := by
  refine (expression_parallel n).bind fun e e' he => .bind (.expect _ _) fun t t' ht => ?_
  obtain ⟨rfl, he⟩ := he
  obtain ⟨rfl, -⟩ := ht
  exact .done (hf e t he)

theorem copied_stmt {form : StmtForm} {first last : Span} (h : Stmt.Fresh ⟨form, .combine first last⟩) :
    Copied (Stmt.shift k) Stmt.Fresh ⟨form, .combine first last⟩
      ⟨form.shift k, .combine (first.shift k) (last.shift k)⟩ := by
  refine ⟨?_, h⟩
  rw [Stmt.shift, Span.shift_combine]

theorem binding_parallel (n : Nat) (mutable : Bool) : ParallelStmt k source source'
    (binding source n mutable) (binding source' n mutable) := by
  refine .bind .take fun first first' hfirst => .bind (.expect _ _) fun name name' hname => ?_
  refine .bind .take fun middle middle' hmiddle => ?_
  obtain ⟨rfl, -⟩ := hfirst
  obtain ⟨rfl, -⟩ := hname
  obtain ⟨rfl, -⟩ := hmiddle
  rcases middle with ⟨kind, span⟩
  cases kind with
  | assign =>
    refine expression_terminator_parallel n fun e t he => copied_stmt ?_
    rintro _ ⟨⟩
    exact he
  | colon =>
    refine typeName_parallel.bind fun ty _ hty => .bind .take fun after after' hafter => ?_
    subst hty
    obtain ⟨rfl, -⟩ := hafter
    rcases after with ⟨kind, span⟩
    cases kind with
    | assign =>
      refine expression_terminator_parallel n fun e t he => copied_stmt ?_
      rintro _ ⟨⟩
      exact he
    | terminator =>
      refine .done (copied_stmt ?_)
      rintro _ ⟨⟩
    | _ => exact .blame _
  | _ => exact .blame _

theorem returnStatement_parallel (n : Nat) : ParallelStmt k source source'
    (returnStatement source n) (returnStatement source' n) := by
  refine .bind .take fun first first' hfirst => .bind (.check _) fun bare _ hbare => ?_
  obtain ⟨rfl, -⟩ := hfirst
  subst hbare
  split
  · refine .bind .take fun last last' hlast => ?_
    obtain ⟨rfl, -⟩ := hlast
    refine .done (copied_stmt ?_)
    rintro _ ⟨⟩
  · refine expression_terminator_parallel n fun e t he => copied_stmt ?_
    rintro _ ⟨⟩
    exact he

theorem expressionStatement_parallel (n : Nat) : ParallelStmt k source source'
    (expressionStatement source n) (expressionStatement source' n) := by
  refine expression_terminator_parallel n fun e t he => ?_
  rw [Expr.span_shift]
  refine copied_stmt ?_
  rintro _ ⟨⟩
  exact he

theorem statement_parallel (n : Nat) : ParallelStmt k source source'
    (statement source n) (statement source' n) := by
  refine .bind .look fun t t' ht => ?_
  obtain ⟨rfl, -⟩ := ht
  rcases t with ⟨kind, span⟩
  cases kind with
  | letWord => exact binding_parallel n false
  | mutWord => exact binding_parallel n true
  | returnWord => exact returnStatement_parallel n
  | _ => exact expressionStatement_parallel n

theorem statements_parallel (n m : Nat) {stmts stmts' : Sequence Stmt}
    (hstmts : CopiedItems (Stmt.shift k) Stmt.Fresh stmts stmts') :
    Parallel k source source' (fun a a' => Copied (List.map (Stmt.shift k)) (∀ s ∈ ·, s.Fresh) a.1 a'.1 ∧
        Carried k source source' a.2 a'.2)
      (statements source n m stmts) (statements source' n m stmts') := by
  induction m generalizing stmts stmts' with
  | zero => exact .fail _
  | succ m ih =>
    refine .bind (.check _) fun close _ hclose => ?_
    subst hclose
    split
    · refine .bind .take fun close close' hclose => ?_
      obtain ⟨rfl, hgood⟩ := hstmts
      exact .done ⟨⟨rfl, hgood⟩, hclose⟩
    · refine (statement_parallel n).bind fun s s' hs => (push_parallel _ hstmts hs).bind ?_
      exact fun stmts stmts' hstmts => ih hstmts

theorem block_parallel (n : Nat) : Parallel k source source' (Copied (Block.shift k) Block.Fresh)
    (block source n) (block source' n) := by
  refine .bind (.expect _ _) fun opening opening' hopening => ?_
  refine (start_parallel (Stmt.shift k) Stmt.Fresh _).bind fun stmts stmts' hstmts => ?_
  refine (statements_parallel n n hstmts).bind fun a a' ha => ?_
  obtain ⟨stmts, close⟩ := a
  obtain ⟨stmts', close'⟩ := a'
  obtain ⟨⟨rfl, hgood⟩, hclose⟩ := ha
  obtain ⟨rfl, -⟩ := hopening
  obtain ⟨rfl, -⟩ := hclose
  refine .done ⟨?_, hgood⟩
  rw [Block.shift, Span.shift_combine]
  rfl

end Statements

/-! ## Functions -/

section Functions

theorem skipNewlines_parallel (n : Nat) : Parallel k source source' Eq
    (skipNewlines source n) (skipNewlines source' n) := by
  induction n with
  | zero => exact .fail _
  | succ n ih =>
    refine .bind .look fun t t' ht => ?_
    rw [ht.text, ht.eq, Token.shift]
    split
    · exact .bind .take fun _ _ _ => ih
    · exact .done rfl

theorem params_parallel (n : Nat) {ps ps' : Sequence Param}
    (hps : CopiedItems (Param.shift k) (fun _ => True) ps ps') :
    Parallel k source source' (CopiedItems (Param.shift k) fun _ => True) (params n ps)
      (params n ps') := by
  induction n generalizing ps ps' with
  | zero => exact .fail _
  | succ n ih =>
    refine .bind (.check _) fun close _ hclose => ?_
    subst hclose
    split
    · exact .done hps
    · refine .bind (.expect _ _) fun name name' hname => .bind (.expect _ _) fun _ _ _ => ?_
      refine typeName_parallel.bind fun ty _ hty => ?_
      obtain ⟨rfl, -⟩ := hname
      subst hty
      refine (push_parallel _ hps ⟨rfl, trivial⟩).bind fun qs qs' hqs => ?_
      refine .bind (.check _) fun comma _ hcomma => ?_
      subst hcomma
      split
      · exact .bind .take fun _ _ _ => ih hqs
      · exact ih hqs

theorem returnType_parallel (n : Nat) : Parallel k source source' Eq
    (returnType source n) (returnType source' n) := by
  refine (skipNewlines_parallel n).bind fun _ _ _ => .bind (.check _) fun brace _ hbrace => ?_
  subst hbrace
  split
  · exact .done rfl
  · refine typeName_parallel.bind fun ty _ hty => (skipNewlines_parallel n).bind fun _ _ _ => ?_
    exact .done hty

theorem function_parallel (n : Nat) : Parallel k source source'
    (Copied (Function.shift k) Function.Fresh) (function source n) (function source' n) := by
  refine .bind (.expect _ _) fun name name' hname => .bind (.expect _ _) fun _ _ _ => ?_
  refine (start_parallel (Param.shift k) (fun _ => True) _).bind fun ps ps' hps => ?_
  refine (params_parallel n hps).bind fun ps ps' hps => ?_
  refine .bind .take fun _ _ _ => (returnType_parallel n).bind fun ret _ hret => ?_
  refine (block_parallel n).bind fun body body' hbody => .report _ _ (.done ?_)
  obtain ⟨rfl, -⟩ := hname
  obtain ⟨rfl, -⟩ := hps
  subst hret
  obtain ⟨rfl, hbody⟩ := hbody
  refine ⟨?_, hbody⟩
  rw [Function.shift, Span.shift_combine]
  rfl

theorem functions_parallel (n m : Nat) {fs fs' : Sequence Function}
    (hfs : CopiedItems (Function.shift k) Function.Fresh fs fs') :
    Parallel k source source' (Copied (List.map (Function.shift k)) (∀ f ∈ ·, f.Fresh))
      (functions source n m fs) (functions source' n m fs') := by
  induction m generalizing fs fs' with
  | zero => exact .fail _
  | succ m ih =>
    refine .bind (.check _) fun finished _ hfinished => ?_
    subst hfinished
    split
    · obtain ⟨rfl, hgood⟩ := hfs
      exact .done ⟨rfl, hgood⟩
    · refine (function_parallel n).bind fun f f' hf => (push_parallel _ hfs hf).bind ?_
      exact fun fs fs' hfs => ih hfs

theorem program_parallel (n : Nat) : Parallel k source source'
    (fun p q => q = .ofFunctions source' (p.functions.map (Function.shift k)) ∧ ∀ f ∈ p.functions, f.Fresh)
    (program source n) (program source' n) := by
  refine (start_parallel (Function.shift k) Function.Fresh _).bind fun fs fs' hfs => ?_
  refine (functions_parallel n n hfs).bind fun fs fs' hfs => .done ⟨?_, hfs.good⟩
  rw [hfs.eq]
  rfl

end Functions

end Parser

namespace Session.Accepted
variable {source : Text} {ts : List Token} {p : Program}

theorem carried (h : Accepted source ts p) (after : Text) :
    ∀ t ∈ ts ++ [Text.stop source], Carried 0 source (source ++ after) t (t.shift 0) := by
  intro t ht
  refine ⟨rfl, ?_⟩
  rcases List.mem_append.1 ht with ht | ht
  · obtain ⟨before, piece, rest, hsource, hspan⟩ := h.lossless.within _ (List.mem_map_of_mem ht)
    have hspan : t.span = ⟨Text.size before, Text.size piece⟩ := hspan
    have hslice : Text.slice? t.span.start t.span.len source = some piece := by
      rw [hspan, hsource]
      exact Text.slice?_append before piece rest
    exact Span.text_after hslice after
  · have hslice := Text.slice?_append source [] []
    rw [List.append_nil, List.append_nil] at hslice
    rw [List.mem_singleton.1 ht]
    exact Span.text_after hslice after

theorem fresh (h : Accepted source ts p) : ∀ f ∈ p.functions, f.Fresh := by
  have hagrees := (Parser.program_parallel (ts.length + 2)).within (h.carried [])
  rw [h.within _ (Nat.lt_succ_self _)] at hagrees
  generalize (Parser.program (source ++ []) _).within _ = x at hagrees
  cases hagrees with
  | read _ hp => exact hp.2

end Session.Accepted
end Frontend
