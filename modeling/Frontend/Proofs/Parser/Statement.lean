import Frontend.Parser.Statement
import Frontend.Proofs.Parser.Expression

/-! # Statements and blocks are read as the grammar says

A statement ends with its terminator, so nothing behind it can change how it is read. The loop over a
block needs one turn for each statement and one for the closing brace.
-/
namespace Frontend.Parser
open Grammar

variable {source : Text}

theorem Outcome.typeName_bind {β : Type} {D : Phrases β} {f : Ty → Parser β} {ts : List Token}
    (hv : Viable D []) (hf : ∀ t us ty, ts = t :: us → t.kind = .typeName ty →
      Outcome source (Behind [t] D) (f ty) us) : Outcome source D (typeName >>= f) ts := by
  rw [typeName, bind_assoc]
  refine .take_bind hv fun t us hts => ?_
  split
  · next ty hk => exact .inr (hf t us ty hts hk)
  · exact .inl ⟨.expected .typeName, trivial, rfl⟩

theorem Gives.typeName_bind {β : Type} {f : Ty → Parser β} {t : Token} {ty : Ty}
    {ts : List Token} {r s : TokenRow} {b : β} (hk : t.kind = .typeName ty)
    (hf : Gives ((f ty).read (ts ++ r)) b s) : Gives ((typeName >>= f).read (t :: ts ++ r)) b s := by
  refine .bind (a := ty) (s := ts ++ r) ?_ hf
  rw [typeName, read_take_bind, TokenRow.head_cons_append, TokenRow.advance_cons_append, hk]
  exact .refl _ _

theorem Outcome.expression_terminator {β : Type} {n : Nat} {D : Phrases β} {g : Expr → Token → β}
    {ts : List Token} (hts : Fits source n ts)
    (hD : ∀ vs e last, Expression source vs e → last.kind = .terminator → D (vs ++ [last]) (g e last)) :
    Outcome source D (do let e ← expression source n; return g e (← terminator)) ts := by
  refine .bind (expression_decides source n hts) ?_ ?_
  · exact fun vs hvs => hvs.followed [.terminator] (by decide) fun ws e he => ⟨_, hD ws e _ he rfl⟩
  · rintro vs us e - rfl he
    refine .expect_bind ⟨blanks [.terminator], _, by decide, hD vs e _ he rfl⟩ ?_
    rintro last us rfl hl
    exact .done (hD vs e last he hl) us

theorem gives_expression_terminator {β : Type} {n : Nat} {ts : List Token} {e : Expr} {last : Token}
    {f : Expr → Token → Parser β} {b : β} {r s : TokenRow} (he : Expression source ts e)
    (hl : last.kind = .terminator) (hn : ts.length < n) (hr : AllSpelled source ts)
    (hf : Gives ((f e last).read r) b s) :
    Gives ((expression source n >>= fun e => terminator >>= f e).read (ts ++ ([last] ++ r))) b s := by
  have hs : EndsExpression ts.getLast? ([last] ++ r).head.kind :=
    endsExpression_of_ends (.inr (.inr hl))
  exact .bind (expression_complete source n he hn hs hr) (.expect_bind hl hf)

/-! ## Bindings -/

theorem binding_outcome {n : Nat} {mutable : Bool} {word : Token} {ts : List Token}
    (hw : word.kind = bindingWord mutable) (hts : Fits source n (word :: ts)) :
    Outcome source (Statement source) (binding source n mutable) (word :: ts) := by
  refine .seen_bind (.expect_bind ⟨blanks [.ident, .colon, .typeName .bool, .terminator], _,
    by decide, .declared hw rfl rfl rfl rfl⟩ ?_)
  rintro name ts rfl hn
  refine .take_bind ⟨blanks [.colon, .typeName .bool, .terminator], _, by decide,
    .declared hw hn rfl rfl rfl⟩ ?_
  rintro middle ts rfl
  split
  · next hm =>
    right
    refine .expression_terminator (hts.drop 3) ?_
    exact fun vs e last he hl => .init hw hn hm he hl
  · next hm =>
    right
    refine .typeName_bind ⟨blanks [.typeName .bool, .terminator], _, by decide,
      .declared hw hn hm rfl rfl⟩ ?_
    rintro type ts ty rfl ht
    refine .take_bind ⟨blanks [.terminator], _, by decide, .declared hw hn hm ht rfl⟩ ?_
    rintro after ts rfl
    split
    · next ha =>
      right
      refine .expression_terminator (hts.drop 5) ?_
      exact fun vs e last he hl => .typed hw hn hm ht ha he hl
    · next ha => exact .inr (.done (.declared hw hn hm ht ha) ts)
    · exact .inl ⟨.expected .valueOrEnd, trivial, rfl⟩
  · exact .inl ⟨.expected .valueOrType, trivial, rfl⟩

/-! ## Statements -/

theorem returnStatement_outcome {n : Nat} {word : Token} {ts : List Token}
    (hw : word.kind = .returnWord) (hts : Fits source n (word :: ts)) :
    Outcome source (Statement source) (returnStatement source n) (word :: ts) := by
  refine .seen_bind (.check_bind ⟨blanks [.terminator], _, by decide, .ret hw rfl⟩ ?_ ?_)
  · rintro last ts rfl hl
    exact .seen_bind (.done (.ret hw hl) ts)
  · rintro t us rfl -
    refine .expression_terminator (hts.drop 1) ?_
    exact fun vs e last he hl => .retValue hw he hl

theorem statement_decides (source : Text) (n : Nat) :
    Decides source (Statement source) n (statement source n) := by
  intro ts hts
  have hstart : Viable (Statement source) [] :=
    ⟨blanks [.ident, .terminator], _, by decide, .expr (.var rfl) rfl⟩
  refine .look_bind hstart ?_
  rintro t us rfl
  split
  · next hk => exact binding_outcome (show t.kind = bindingWord false from hk) hts
  · next hk => exact binding_outcome (show t.kind = bindingWord true from hk) hts
  · next hk => exact returnStatement_outcome hk hts
  · exact .expression_terminator hts fun vs e last he hl => .expr he hl

theorem read_statement_binding (n : Nat) {mutable : Bool} {word : Token} (ts : List Token)
    (r : TokenRow) (hw : word.kind = bindingWord mutable) :
    (statement source n).read (word :: ts ++ r) =
      (binding source n mutable).read (word :: ts ++ r) := by
  rw [statement, read_look_bind, TokenRow.head_cons_append]
  cases mutable <;> rw [hw] <;> rfl

theorem statement_complete (source : Text) (n : Nat) :
    Complete source (Statement source) (fun _ _ => True) n (statement source n) := by
  intro ts x r hx hn _ hr
  cases hx with
  | @init mutable word name eq last ts e hw hna heq he hl =>
    simp only [List.length_append, List.length_cons, List.length_nil] at hn
    have hts : AllSpelled source ts := fun t ht => hr t (by simp [ht])
    rw [TokenRow.append_assoc]
    rw [read_statement_binding n _ _ hw, binding, read_take_bind, TokenRow.advance_cons_append]
    refine .expect_bind hna ?_
    rw [read_take_bind, TokenRow.head_cons_append, TokenRow.advance_cons_append]
    simp only [heq]
    exact gives_expression_terminator he hl (by omega) hts (.refl _ _)
  | @typed mutable word name colon type eq last ty ts e hw hna hc ht heq he hl =>
    simp only [List.length_append, List.length_cons, List.length_nil] at hn
    have hts : AllSpelled source ts := fun t ht => hr t (by simp [ht])
    rw [TokenRow.append_assoc]
    rw [read_statement_binding n _ _ hw, binding, read_take_bind, TokenRow.advance_cons_append]
    refine .expect_bind hna ?_
    rw [read_take_bind, TokenRow.head_cons_append, TokenRow.advance_cons_append]
    simp only [hc]
    refine .typeName_bind ht ?_
    rw [read_take_bind, TokenRow.head_cons_append, TokenRow.advance_cons_append]
    simp only [heq]
    exact gives_expression_terminator he hl (by omega) hts (.refl _ _)
  | @declared mutable word name colon type last ty hw hna hc ht hl =>
    rw [read_statement_binding n _ _ hw, binding, read_take_bind, TokenRow.advance_cons_append]
    refine .expect_bind hna ?_
    rw [read_take_bind, TokenRow.head_cons_append, TokenRow.advance_cons_append]
    simp only [hc]
    refine .typeName_bind ht ?_
    rw [read_take_bind, TokenRow.head_cons_append, TokenRow.advance_cons_append]
    simp only [hl]
    exact .refl _ _
  | @ret word last hw hl =>
    rw [statement, read_look_bind, TokenRow.head_cons_append, hw]
    dsimp only
    rw [returnStatement, read_take_bind, TokenRow.advance_cons_append, read_check_bind,
      TokenRow.head_cons_append, decide_eq_true hl]
    exact .refl _ _
  | @retValue word last ts e hw he hl =>
    simp only [List.length_append, List.length_cons, List.length_nil] at hn
    have hts : AllSpelled source ts := fun t ht => hr t (by simp [ht])
    rw [TokenRow.append_assoc]
    rw [statement, read_look_bind, TokenRow.head_cons_append, hw]
    dsimp only
    rw [returnStatement, read_take_bind, TokenRow.advance_cons_append, read_check_bind,
      decide_eq_false (TokenRow.kind_head_ne he.opens rfl _)]
    exact gives_expression_terminator he hl (by omega) hts (.refl _ _)
  | @expr last ts e he hl =>
    simp only [List.length_append, List.length_cons, List.length_nil] at hn
    have hts : AllSpelled source ts := fun t ht => hr t (by simp [ht])
    rw [TokenRow.append_assoc]
    have hg : Gives ((expressionStatement source n).read (ts ++ ([last] ++ r)))
        ⟨.expr e, .combine e.span last.span⟩ r :=
      gives_expression_terminator he hl (by omega) hts (.refl _ _)
    have hk (k : Kind) (h : opensExpression k = false) := TokenRow.kind_head_ne he.opens h ([last] ++ r)
    rw [statement, read_look_bind]
    split
    · next h => exact absurd h (hk _ rfl)
    · next h => exact absurd h (hk _ rfl)
    · next h => exact absurd h (hk _ rfl)
    · exact hg

/-! ## Blocks -/

/-- Items behind those that the sequence holds, and the brace that closes them. -/
def Closes {α : Type} (D : Phrases (List α)) (acc : Sequence α) : Phrases (List α × Token) :=
  fun ts x => ∃ us as, ts = us ++ [x.2] ∧ x.1 = acc.items ++ as ∧ D us as ∧ x.2.kind = .rbrace

theorem statements_outcome {n m : Nat} {acc : Sequence Stmt} {ts : List Token} (hm : m ≤ n)
    (hts : Fits source m ts) : Outcome source (Closes (Many (Statement source)) acc)
      (statements source n m acc) ts := by
  induction m generalizing acc ts with
  | zero => exact absurd hts.length_lt (Nat.not_lt_zero _)
  | succ m ih =>
    have hclose (close : Token) (hc : close.kind = .rbrace) :
        Closes (Many (Statement source)) acc [close] (acc.items, close) :=
      ⟨[], [], rfl, (List.append_nil _).symm, .nil, hc⟩
    have hstart : Viable (Closes (Many (Statement source)) acc) [] :=
      ⟨blanks [.rbrace], _, by decide, hclose _ rfl⟩
    refine .check_bind hstart ?_ ?_
    · rintro close us rfl hc
      exact .seen_bind (.done (hclose close hc) us)
    · rintro t us - -
      refine .bind (statement_decides source n (hts.mono hm)) ?_ ?_
      · intro vs hvs
        refine hvs.followed [.rbrace] (by decide) fun ws s hs => ?_
        exact ⟨(acc.items ++ [s], _), ws, [s], rfl, rfl, .one hs, rfl⟩
      · rintro vs us s - rfl hs
        obtain ⟨acc', hacc, hpush⟩ := silent_push Stmt.layout acc s
        refine .silent_bind hpush ?_
        refine (ih (by omega) (hts.behind hs.opens.length_pos)).imp ?_
        rintro _ ⟨_, close⟩ ⟨ws, as, rfl, rfl, hmany, hc⟩
        refine ⟨vs ++ ws, s :: as, (List.append_assoc ..).symm, ?_, .cons hs hmany, hc⟩
        rw [hacc, List.append_assoc]
        rfl

theorem block_decides (source : Text) (n : Nat) :
    Decides source (Grammar.Block source) n (block source n) := by
  intro ts hts
  have hstart : Viable (Grammar.Block source) [] :=
    ⟨blanks [.lbrace, .rbrace], _, by decide, .intro rfl .nil rfl⟩
  refine .expect_bind hstart ?_
  rintro opening ts rfl ho
  obtain ⟨acc, hacc, hs⟩ := silent_start (α := Stmt) Stmt.layout
  refine .silent_bind hs (.bind (statements_outcome (Nat.le_refl n) (hts.drop 1)) ?_ ?_)
  · refine fun vs hvs => hvs.imp ?_
    rintro _ ⟨_, close⟩ ⟨us, as, rfl, -, hmany, hc⟩
    exact ⟨_, .intro ho hmany hc⟩
  · rintro _ us ⟨_, close⟩ - rfl ⟨ws, as, rfl, rfl, hmany, hc⟩
    refine .complete ?_ us
    rw [hacc]
    exact .intro ho hmany hc

theorem statements_complete (n k : Nat) (acc : Sequence Stmt) {ts : List Token} {stmts : List Stmt}
    {closing : Token} {r : TokenRow} (hm : Many (Statement source) ts stmts)
    (hc : closing.kind = .rbrace) (hn : ts.length < n) (hk : ts.length < k)
    (hr : AllSpelled source ts) :
    Gives ((statements source n k acc).read (ts ++ ([closing] ++ r)))
      (acc.items ++ stmts, closing) r := by
  obtain ⟨k, rfl⟩ : ∃ j, k = j + 1 := ⟨k - 1, by omega⟩
  induction hm generalizing k acc with
  | nil =>
    rw [TokenRow.nil_append, statements, read_check_bind, TokenRow.head_cons_append,
      decide_eq_true hc, if_pos rfl, read_take_bind, List.append_nil]
    exact .refl _ _
  | @cons ts us x xs hx _ ih =>
    have ho := hx.opens
    have hl := ho.length_pos
    rw [List.length_append] at hn hk
    obtain ⟨hts, hus⟩ := allSpelled_append.1 hr
    rw [TokenRow.append_assoc]
    obtain ⟨k, rfl⟩ : ∃ j, k = j + 1 := ⟨k - 1, by omega⟩
    rw [statements, read_check_bind, decide_eq_false (TokenRow.kind_head_ne ho rfl _)]
    obtain ⟨acc', hacc, hg⟩ := gives_push Stmt.layout acc x (us ++ ([closing] ++ r))
    have h := ih acc' (by omega) hus k (by omega)
    rw [hacc, List.append_assoc] at h
    exact .bind (statement_complete source n hx (by omega) trivial hts) (.bind hg h)

theorem block_complete (source : Text) (n : Nat) :
    Complete source (Grammar.Block source) (fun _ _ => True) n (block source n) := by
  intro ts b r hb hn _ hr
  cases hb with
  | @intro opening closing ts stmts ho hm hc =>
    simp only [List.length_append, List.length_cons, List.length_nil] at hn
    have hts : AllSpelled source ts := fun t ht => hr t (by simp [ht])
    rw [TokenRow.append_assoc]
    obtain ⟨acc, hacc, hg⟩ := gives_start Stmt.layout (ts ++ ([closing] ++ r))
    have h : Gives ((statements source n n acc).read (ts ++ ([closing] ++ r))) (stmts, closing) r := by
      have h := statements_complete n n acc hm hc (r := r) (by omega) (by omega) hts
      rwa [hacc, List.nil_append] at h
    exact .expect_bind ho (.bind hg (.bind h (.refl _ _)))

end Frontend.Parser
