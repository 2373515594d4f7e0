import Frontend.Proofs.Parser.Within
import Frontend.Proofs.Pool.Shape

/-! # What the bound on the loops does

A plan with a larger bound does the same as one with a smaller bound, until that one is cut off. In the
comparison every request is on record, so that a pool knows what may be asked of it, and so are the
arrays that outgrow every buffer: a bound that is not astronomical rules them out.
-/
namespace Frontend

/-- The hosts answer alike as long as the relation is kept, and keep it. -/
structure Host.Alike {σ τ : Type} (h : Host σ) (h' : Host τ) (R : σ → τ → Prop) : Prop where
  next : ∀ {s s'}, R s s' → ∃ x u u', h.next s = (x, u) ∧ h'.next s' = (x, u') ∧ R u u'
  peek : ∀ {s s'}, R s s' → ∃ x u u', h.peek s = (x, u) ∧ h'.peek s' = (x, u') ∧ R u u'
  reserve : ∀ {l s s'}, l.Ordinary → R s s' →
    ∃ x u u', h.reserve l s = (x, u) ∧ h'.reserve l s' = (x, u') ∧ R u u'
  report : ∀ {s s'} e, R s s' → R (h.report e s) (h'.report e s')

namespace Parser
variable {α β σ τ : Type}

/-- With so many elements an array of small ones still can grow. -/
def roomLimit : Nat := 0x10000000000000

/-- The second plan does as the first one until that one is cut off, with ordinary requests only. An
array of at most `room` elements is refused its buffer before the pool is asked only if that is a lot. -/
inductive Continues (room : Nat) : Parser α → Parser α → Prop
  | cut {q : Parser α} : Continues room stalled q
  | done (a : α) : Continues room (done a) (done a)
  | fail {e : ParseError} : (∀ f, e = .internal (.pool f) → roomLimit < room) →
      Continues room (fail e) (fail e)
  | peek {k k' : Token → Parser α} : (∀ t, Continues room (k t) (k' t)) →
      Continues room (peek k) (peek k')
  | next {k k' : Token → Parser α} : (∀ t, Continues room (k t) (k' t)) →
      Continues room (next k) (next k')
  | reserve {l : Pool.Layout} {k k' : Parser α} : l.Ordinary → Continues room k k' →
      Continues room (reserve l k) (reserve l k')
  | report (e : Log.Event) {k k' : Parser α} : Continues room k k' →
      Continues room (report e k) (report e k')

variable {room : Nat}

namespace Continues

theorem bind {p q : Parser α} {f g : α → Parser β} (h : Continues room p q)
    (hf : ∀ a, Continues room (f a) (g a)) : Continues room (p >>= f) (q >>= g) := by
  change Continues room (p.bind f) (q.bind g)
  induction h with
  | cut => exact .cut
  | done a => exact hf a
  | fail he => exact .fail he
  | peek _ ih => exact .peek ih
  | next _ ih => exact .next ih
  | reserve hl _ ih => exact .reserve hl ih
  | report e _ ih => exact .report e ih

theorem blame (e : SourceError) :
    Continues room (Parser.fail (.source e) : Parser α) (Parser.fail (.source e)) :=
  .fail (by rintro f ⟨⟩)

theorem look : Continues room look look := .peek .done

theorem take : Continues room take take := .next .done

theorem check (k : Kind) : Continues room (check k) (check k) := .peek fun _ => .done _

theorem expect (k : Kind) (e : Expected) : Continues room (expect k e) (expect k e) := by
  refine .next fun t => ?_
  split
  · exact .done t
  · exact .blame _

theorem within {p q : Parser α} (h : Continues room p q) (ts : List Token) :
    (∃ us, p.within ts = some (.error (.internal .stalled), us)) ∨ p.within ts = q.within ts := by
  induction h generalizing ts with
  | cut => exact .inl ⟨ts, rfl⟩
  | done a => exact .inr rfl
  | fail e => exact .inr rfl
  | peek _ ih =>
    cases ts with
    | nil => exact .inr rfl
    | cons t ts => exact ih t (t :: ts)
  | next _ ih =>
    cases ts with
    | nil => exact .inr rfl
    | cons t ts => exact ih t ts
  | reserve _ _ ih => exact ih ts
  | report _ _ ih => exact ih ts

/-- Hosts that answer alike carry out the two plans alike. -/
theorem run {h : Host σ} {h' : Host τ} {R : σ → τ → Prop} (hR : h.Alike h' R) {p q : Parser α}
    (hpq : Continues room p q) {s : σ} {t : τ} (hs : R s t) :
    (p.run h s).1 = .error (.internal .stalled) ∨
      ((p.run h s).1 = (q.run h' t).1 ∧ R (p.run h s).2 (q.run h' t).2) := by
  induction hpq generalizing s t with
  | cut => exact .inl rfl
  | done a => exact .inr ⟨rfl, hs⟩
  | fail e => exact .inr ⟨rfl, hs⟩
  | peek _ ih =>
    obtain ⟨x, u, u', hx, hx', hu⟩ := hR.peek hs
    simp only [Parser.run, hx, hx']
    cases x with
    | error e => exact .inr ⟨rfl, hu⟩
    | ok t => exact ih t hu
  | next _ ih =>
    obtain ⟨x, u, u', hx, hx', hu⟩ := hR.next hs
    simp only [Parser.run, hx, hx']
    cases x with
    | error e => exact .inr ⟨rfl, hu⟩
    | ok t => exact ih t hu
  | reserve hl _ ih =>
    obtain ⟨x, u, u', hx, hx', hu⟩ := hR.reserve hl hs
    simp only [Parser.run, hx, hx']
    cases x with
    | error e => exact .inr ⟨rfl, hu⟩
    | ok _ => exact ih hu
  | report e _ ih => exact ih (hR.report e hs)

end Continues

/-! ## Plans with two bounds -/

theorem ordinary_words (n : Nat) (h : n ≤ 64) (hn : 0 < n) : (Pool.Layout.words n h).Ordinary :=
  ⟨Nat.mul_pos (by decide) hn, (by decide : 8 ≤ Pool.segmentAlign)⟩

section Sequences
variable {f g : Sequence α → Parser β} {n : Nat} {hn : n ≤ 64}

theorem buffer_bind (hpos : 0 < n) {slots : Nat} (hslots : 0 < slots)
    (hroom : slots ≤ 2 * roomLimit ∨ roomLimit < room) {f g : PUnit → Parser β}
    (h : Continues room (f ⟨⟩) (g ⟨⟩)) :
    Continues room (buffer (.words n hn) slots >>= f) (buffer (.words n hn) slots >>= g) := by
  have hl := ordinary_words n hn hpos
  unfold buffer Pool.bufferLayout
  cases ha : (Pool.Layout.words n hn).array? slots with
  | none =>
    refine .fail fun _ _ => hroom.resolve_left fun hle => ?_
    unfold Pool.Layout.array? at ha
    split at ha
    · cases ha
    · next hbig =>
      have hmul : 8 * n * slots ≤ 8 * 64 * (2 * roomLimit) :=
        Nat.mul_le_mul (Nat.mul_le_mul_left 8 hn) hle
      have hspan : 8 * 64 * (2 * roomLimit) + 8 ≤ Pool.spanLimit := by decide
      exact hbig (Nat.le_trans (Nat.add_le_add_right hmul 8) hspan)
  | some b =>
    obtain ⟨hsize, halign⟩ := Pool.Layout.size_array? ha
    refine .reserve ⟨?_, ?_⟩ h
    · rw [hsize]
      exact Nat.mul_pos hl.size_pos hslots
    · rw [halign]
      exact hl.align_le

theorem start_bind (hpos : 0 < n) (h : ∀ s, s.items.length = 0 → Continues room (f s) (g s)) :
    Continues room (Sequence.start (.words n hn) >>= f) (Sequence.start (.words n hn) >>= g) := by
  rw [Sequence.start, bind_assoc, bind_assoc]
  exact buffer_bind hpos (by decide : 0 < Pool.standardCapacity) (.inl (by decide)) (h _ rfl)

theorem push_bind (hpos : 0 < n) {s : Sequence α} (hs : s.items.length ≤ room) (a : α)
    (h : ∀ s', s'.items.length = s.items.length + 1 → Continues room (f s') (g s')) :
    Continues room (s.push (.words n hn) a >>= f) (s.push (.words n hn) a >>= g) := by
  unfold Sequence.push
  split
  · next hfull =>
    cases hc : Pool.nextCapacity s.capacity with
    | error e =>
      refine .fail fun _ _ => ?_
      unfold Pool.nextCapacity at hc
      split at hc
      · next hbig =>
        have hword : 2 * roomLimit < Pool.wordLimit := by decide
        omega
      · cases hc
    | ok c =>
      have hslots : c ≤ 2 * roomLimit ∨ roomLimit < room := by
        unfold Pool.nextCapacity at hc
        split at hc
        · cases hc
        · cases hc
          unfold roomLimit
          omega
      dsimp only
      rw [bind_assoc, bind_assoc]
      have hpos' : 0 < c := Nat.zero_lt_of_lt (Pool.lt_nextCapacity hc)
      exact buffer_bind hpos hpos' hslots (h _ List.length_append)
  · exact h _ List.length_append

end Sequences

theorem node_continues (e : Expr) : Continues room (node e) (node e) :=
  .reserve (ordinary_words 10 _ (by decide)) (.done e)

section Expressions
variable {operand operand' expression expression' : Parser Expr} {source : Text} {n m : Nat}

theorem binaryOp_continues : Continues room binaryOp binaryOp := by
  refine .bind .take fun t => ?_
  split
  · exact .done _
  · exact .fail (by rintro f ⟨⟩)

theorem chain_continues (p : Precedence) (ho : Continues room operand operand') (hnm : n ≤ m)
    (left : Expr) : Continues room (chain p operand n left) (chain p operand' m left) := by
  induction n generalizing m left with
  | zero => exact .cut
  | succ n ih =>
    obtain ⟨m, rfl⟩ : ∃ k, m = k + 1 := ⟨m - 1, by omega⟩
    refine .bind .look fun t => ?_
    split
    · refine binaryOp_continues.bind fun o => ho.bind fun right => ?_
      exact (node_continues _).bind fun e => ih (Nat.le_of_succ_le_succ hnm) e
    · exact .done left

theorem level_continues (p : Precedence) (ho : Continues room operand operand') (hnm : n ≤ m) :
    Continues room (level p operand n) (level p operand' m) :=
  ho.bind (chain_continues p ho hnm)

theorem arguments_continues (he : Continues room expression expression') (hnm : n ≤ m)
    {args : Sequence Expr} (hargs : args.items.length + n ≤ room) :
    Continues room (arguments expression n args) (arguments expression' m args) := by
  induction n generalizing m args with
  | zero => exact .cut
  | succ n ih =>
    obtain ⟨m, rfl⟩ : ∃ k, m = k + 1 := ⟨m - 1, by omega⟩
    refine .bind (.check _) fun close => ?_
    split
    · exact .done args
    · refine he.bind fun e => push_bind (by decide) (by omega) e fun args hpush => ?_
      refine .bind (.check _) fun comma => ?_
      split
      · exact .bind .take fun _ => ih (Nat.le_of_succ_le_succ hnm) (by omega)
      · exact .done args

theorem call_continues (he : Continues room expression expression') (callee : Span) (hnm : n ≤ m)
    (hn : n ≤ room) :
    Continues room (call expression callee n) (call expression' callee m) := by
  refine .bind .take fun _ => start_bind (by decide) fun args hargs => ?_
  refine (arguments_continues he hnm (by omega)).bind fun args => ?_
  exact .bind (.expect _ _) fun close => node_continues _

theorem literal_continues (source : Text) (span : Span) (suffix : Suffix) :
    Continues room (literal source span suffix) (literal source span suffix) := by
  unfold literal
  dsimp only
  split
  · exact node_continues _
  · exact .fail (by rintro f ⟨⟩)
  · exact .blame _

theorem primary_continues {expression expression' : Unit → Parser Expr}
    (he : Continues room (expression ()) (expression' ())) (hnm : n ≤ m) (hn : n ≤ room) :
    Continues room (primary source expression n) (primary source expression' m) := by
  refine .bind .take fun t => ?_
  split
  · exact literal_continues source _ _
  · refine .bind (.check _) fun opens => ?_
    split
    · exact call_continues he _ hnm hn
    · exact node_continues _
  · exact he.bind fun e => .bind (.expect _ _) fun _ => .done e
  · exact .blame _

theorem expression_continues (source : Text) (hnm : n ≤ m) (hn : n ≤ room) :
    Continues room (Parser.expression source n) (Parser.expression source m) := by
  induction n generalizing m with
  | zero => exact .cut
  | succ n ih =>
    obtain ⟨m, rfl⟩ : ∃ k, m = k + 1 := ⟨m - 1, by omega⟩
    have hnm := Nat.le_of_succ_le_succ hnm
    have hp : Continues room (primary source (fun _ => Parser.expression source n) n)
        (primary source (fun _ => Parser.expression source m) m) :=
      primary_continues (ih hnm (Nat.le_of_succ_le hn)) hnm (Nat.le_of_succ_le hn)
    exact level_continues _ (level_continues _ (level_continues _ hp hnm) hnm) hnm

end Expressions

section Statements

theorem typeName_continues : Continues room typeName typeName := by
  refine .bind .take fun t => ?_
  split
  · exact .done _
  · exact .blame _

variable (source : Text) {n m : Nat} (hnm : n ≤ m) (hn : n ≤ room)
include hnm hn

theorem expression_terminator_continues (f : Expr → Token → α) :
    Continues room (do let e ← Parser.expression source n; return f e (← terminator))
      (do let e ← Parser.expression source m; return f e (← terminator)) :=
  (expression_continues source hnm hn).bind fun _ => .bind (.expect _ _) fun _ => .done _

theorem binding_continues (mutable : Bool) :
    Continues room (binding source n mutable) (binding source m mutable) := by
  refine .bind .take fun first => .bind (.expect _ _) fun name => .bind .take fun middle => ?_
  split
  · exact expression_terminator_continues source hnm hn _
  · refine typeName_continues.bind fun ty => .bind .take fun after => ?_
    split
    · exact expression_terminator_continues source hnm hn _
    · exact .done _
    · exact .blame _
  · exact .blame _

theorem returnStatement_continues :
    Continues room (returnStatement source n) (returnStatement source m) := by
  refine .bind .take fun first => .bind (.check _) fun bare => ?_
  split
  · exact .bind .take fun _ => .done _
  · exact expression_terminator_continues source hnm hn _

theorem statement_continues :
    Continues room (statement source n) (statement source m) := by
  refine .bind .look fun t => ?_
  split
  · exact binding_continues source hnm hn false
  · exact binding_continues source hnm hn true
  · exact returnStatement_continues source hnm hn
  · exact expression_terminator_continues source hnm hn _

theorem statements_continues {j k : Nat} (hjk : j ≤ k) {stmts : Sequence Stmt}
    (hstmts : stmts.items.length + j ≤ room) :
    Continues room (statements source n j stmts) (statements source m k stmts) := by
  induction j generalizing k stmts with
  | zero => exact .cut
  | succ j ih =>
    obtain ⟨k, rfl⟩ : ∃ i, k = i + 1 := ⟨k - 1, by omega⟩
    refine .bind (.check _) fun close => ?_
    split
    · exact .bind .take fun _ => .done _
    · refine (statement_continues source hnm hn).bind fun s => ?_
      refine push_bind (by decide) (by omega) s fun stmts hpush => ?_
      exact ih (Nat.le_of_succ_le_succ hjk) (by omega)

theorem block_continues : Continues room (block source n) (block source m) := by
  refine .bind (.expect _ _) fun opening => ?_
  refine start_bind (by decide) fun stmts hstmts => ?_
  exact (statements_continues source hnm hn hnm (by omega)).bind fun _ => .done _

end Statements

section Programs
variable (source : Text) {n m : Nat}

theorem skipNewlines_continues (hnm : n ≤ m) :
    Continues room (skipNewlines source n) (skipNewlines source m) := by
  induction n generalizing m with
  | zero => exact .cut
  | succ n ih =>
    obtain ⟨m, rfl⟩ : ∃ k, m = k + 1 := ⟨m - 1, by omega⟩
    refine .bind .look fun t => ?_
    split
    · exact .bind .take fun _ => ih (Nat.le_of_succ_le_succ hnm)
    · exact .done _

theorem params_continues (hnm : n ≤ m) {ps : Sequence Param} (hps : ps.items.length + n ≤ room) :
    Continues room (params n ps) (params m ps) := by
  induction n generalizing m ps with
  | zero => exact .cut
  | succ n ih =>
    obtain ⟨m, rfl⟩ : ∃ k, m = k + 1 := ⟨m - 1, by omega⟩
    refine .bind (.check _) fun close => ?_
    split
    · exact .done ps
    · refine .bind (.expect _ _) fun name => .bind (.expect _ _) fun _ => ?_
      refine typeName_continues.bind fun ty => push_bind (by decide) (by omega) _ fun qs hpush => ?_
      have hrest : Continues room (params n qs) (params m qs) :=
        ih (Nat.le_of_succ_le_succ hnm) (by omega)
      refine .bind (.check _) fun comma => ?_
      split
      · exact .bind .take fun _ => hrest
      · exact hrest

theorem returnType_continues (hnm : n ≤ m) :
    Continues room (returnType source n) (returnType source m) := by
  refine (skipNewlines_continues source hnm).bind fun _ => .bind (.check _) fun brace => ?_
  split
  · exact .done _
  · exact typeName_continues.bind fun ty => (skipNewlines_continues source hnm).bind fun _ => .done ty

variable (hnm : n ≤ m) (hn : n ≤ room)
include hnm hn

theorem function_continues :
    Continues room (function source n) (function source m) := by
  refine .bind (.expect _ _) fun name => .bind (.expect _ _) fun _ => ?_
  refine start_bind (by decide) fun ps hps => ?_
  refine (params_continues hnm (by omega)).bind fun ps => .bind .take fun _ => ?_
  refine (returnType_continues source hnm).bind fun ret => ?_
  exact (block_continues source hnm hn).bind fun body => .report _ (.done _)

theorem functions_continues {j k : Nat} (hjk : j ≤ k) {fs : Sequence Function}
    (hfs : fs.items.length + j ≤ room) :
    Continues room (functions source n j fs) (functions source m k fs) := by
  induction j generalizing k fs with
  | zero => exact .cut
  | succ j ih =>
    obtain ⟨k, rfl⟩ : ∃ i, k = i + 1 := ⟨k - 1, by omega⟩
    refine .bind (.check _) fun finished => ?_
    split
    · exact .done _
    · refine (function_continues source hnm hn).bind fun f => ?_
      refine push_bind (by decide) (by omega) f fun fs hpush => ?_
      exact ih (Nat.le_of_succ_le_succ hjk) (by omega)

theorem program_continues : Continues room (program source n) (program source m) := by
  refine start_bind (by decide) fun fs hfs => ?_
  exact (functions_continues source hnm hn hnm (by omega)).bind fun _ => .done _

end Programs

end Parser
end Frontend
