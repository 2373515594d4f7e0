import Frontend.Proofs.Parser.Program
import Frontend.Proofs.Parser.Progress

/-! # Statements and functions over any tokens

Each statement, each function and each of the parameters takes a token, so the loops over them end before
the row does. What is read has its spans from the tokens that were taken.
-/
namespace Frontend.Parser
open Grammar

variable {α β : Type} {source : Text} {n m : Nat}

theorem Reads.typeName_bind {D : Phrases β} {f : Ty → Parser β} {ts : List Token}
    (hf : ∀ t us ty, ts = t :: us → t.kind = .typeName ty → Reads (Behind [t] D) (f ty) us) :
    Reads D (typeName >>= f) ts := by
  rw [typeName, bind_assoc]
  refine .take_bind fun t us hts => ?_
  split
  · next ty hk => exact .inr ⟨by simp [hk], hf t us ty hts hk⟩
  · exact .inl ⟨_, rfl, by simp⟩

theorem typeName_reads (n : Nat) : Steady (fun ts (_ : Ty) => ts ≠ []) n typeName := by
  intro ts _
  refine .take_bind fun t us _ => ?_
  split
  · next ty hk => exact .inr ⟨by simp [hk], .done (by simp [Behind]) us⟩
  · exact .inl ⟨_, rfl, by simp⟩

theorem drawn_reads (source : Text) (n : Nat) : Steady Expr.Drawn n (expression source n) :=
  fun _ hts => (expression_reads source n hts).imp fun _ _ h => h.drawn

/-! ## Statements -/

theorem drawn_stmt {ts : List Token} {form : StmtForm} {first last : Span}
    (hfirst : Span.Drawn ts first) (hlast : Span.Drawn ts last)
    (hname : ∀ name ∈ Stmt.name? ⟨form, .combine first last⟩, Span.Drawn ts name)
    (hexpr : ∀ e ∈ Stmt.expr? ⟨form, .combine first last⟩, e.Drawn ts) :
    Stmt.Drawn ts ⟨form, .combine first last⟩ := ⟨.combine hfirst hlast, hname, hexpr⟩

theorem Reads.expression_terminator {D : Phrases β} {g : Expr → Token → β} {ts : List Token}
    (hts : ts.length < n)
    (hD : ∀ vs e last, e.Drawn vs → D (vs ++ [last]) (g e last)) :
    Reads D (do let e ← expression source n; return g e (← terminator)) ts := by
  refine .bind (drawn_reads source n hts) ?_
  rintro vs us e - rfl he
  refine .expect_bind (by simp) ?_
  rintro last us rfl -
  exact .done (hD vs e last he) us

theorem binding_reads (mutable : Bool) {word : Token} {ts : List Token} (hw : word.kind ≠ .eof)
    (hts : ts.length < n) : Reads Stmt.Drawn (binding source n mutable) (word :: ts) := by
  refine .seen_bind hw (.expect_bind (by simp) ?_)
  rintro name ts rfl -
  refine .take_bind ?_
  rintro middle ts rfl
  simp only [List.length_cons] at hts
  split
  · next hm =>
    refine .inr ⟨by simp [hm], .expression_terminator (by omega) fun vs e last he => ?_⟩
    refine drawn_stmt (.token (by simp)) (.token (by simp)) ?_ ?_
    · rintro _ ⟨⟩
      exact .token (by simp)
    · rintro _ ⟨⟩
      exact he.mono fun u hu => by simp [hu]
  · next hm =>
    refine .inr ⟨by simp [hm], .typeName_bind ?_⟩
    rintro type ts ty rfl -
    refine .take_bind ?_
    rintro after ts rfl
    simp only [List.length_cons] at hts
    split
    · next ha =>
      refine .inr ⟨by simp [ha], .expression_terminator (by omega) fun vs e last he => ?_⟩
      refine drawn_stmt (.token (by simp)) (.token (by simp)) ?_ ?_
      · rintro _ ⟨⟩
        exact .token (by simp)
      · rintro _ ⟨⟩
        exact he.mono fun u hu => by simp [hu]
    · next ha =>
      refine .inr ⟨by simp [ha], .done ?_ ts⟩
      change Stmt.Drawn [word, name, middle, type, after] _
      refine drawn_stmt (.token (by simp)) (.token (by simp)) ?_ ?_
      · rintro _ ⟨⟩
        exact .token (by simp)
      · rintro _ ⟨⟩
    · exact .inl ⟨_, rfl, by simp⟩
  · exact .inl ⟨_, rfl, by simp⟩

theorem returnStatement_reads {word : Token} {ts : List Token} (hw : word.kind ≠ .eof)
    (hts : ts.length < n) : Reads Stmt.Drawn (returnStatement source n) (word :: ts) := by
  refine .seen_bind hw (.check_bind ?_ ?_)
  · rintro last ts rfl hl
    refine .seen_bind (by simp [hl]) (.done ?_ ts)
    change Stmt.Drawn [word, last] _
    refine drawn_stmt (.token (by simp)) (.token (by simp)) ?_ ?_
    · rintro _ ⟨⟩
    · rintro _ ⟨⟩
  · rintro t us rfl -
    refine .expression_terminator hts fun vs e last he => ?_
    refine drawn_stmt (.token (by simp)) (.token (by simp)) ?_ ?_
    · rintro _ ⟨⟩
    · rintro _ ⟨⟩
      exact he.mono fun u hu => by simp [hu]

theorem expressionStatement_reads {ts : List Token} (hts : ts.length < n) :
    Reads Stmt.Drawn (expressionStatement source n) ts := by
  refine .expression_terminator hts fun vs e last he => ?_
  have he : e.Drawn (vs ++ [last]) := he.mono (List.subset_append_left _ _)
  refine drawn_stmt he.root (.token (by simp)) ?_ ?_
  · rintro _ ⟨⟩
  · rintro _ ⟨⟩
    exact he

theorem statement_reads (source : Text) (n : Nat) : Steady Stmt.Drawn n (statement source n) := by
  intro ts hts
  refine .look_bind ?_
  rintro t us rfl
  have hus : us.length < n := Nat.lt_of_succ_lt hts
  split
  · next hk => exact binding_reads false (by simp [hk]) hus
  · next hk => exact binding_reads true (by simp [hk]) hus
  · next hk => exact returnStatement_reads (by simp [hk]) hus
  · exact expressionStatement_reads hts

/-! ## Blocks -/

theorem forall_of_many {D : Phrases α} {ts : List Token} {as : List α} (h : Many D ts as)
    (hD : ∀ {ts us a}, D ts a → ts ⊆ us → D us a) : ∀ a ∈ as, D ts a := by
  induction h with
  | nil => simp
  | cons ha _ ih =>
    refine List.forall_mem_cons.2 ⟨hD ha (List.subset_append_left _ _), fun a has => ?_⟩
    exact hD (ih a has) (List.subset_append_right _ _)

theorem statements_reads {acc : Sequence Stmt} {ts : List Token} (hm : m ≤ n) (hts : ts.length < m) :
    Reads (Closes (Many Stmt.Drawn) acc) (statements source n m acc) ts := by
  induction m generalizing acc ts with
  | zero => exact absurd hts (Nat.not_lt_zero _)
  | succ m ih =>
    refine .check_bind ?_ ?_
    · rintro close us rfl hc
      exact .seen_bind (by simp [hc]) (.done ⟨[], [], rfl, (List.append_nil _).symm, .nil, hc⟩ us)
    · rintro t us - -
      refine .bind (statement_reads source n (Nat.lt_of_lt_of_le hts hm)) ?_
      rintro vs us s - rfl hs
      obtain ⟨acc', hacc, hpush⟩ := silent_push Stmt.layout acc s
      have hv := List.length_pos_iff.2 hs.span.ne_nil
      rw [List.length_append] at hts
      refine .silent_bind hpush ((ih (by omega) (by omega)).imp ?_)
      rintro _ ⟨_, close⟩ ⟨ws, as, rfl, rfl, hmany, hc⟩
      refine ⟨vs ++ ws, s :: as, (List.append_assoc ..).symm, ?_, .cons hs hmany, hc⟩
      rw [hacc, List.append_assoc]
      rfl

theorem block_reads (source : Text) (n : Nat) : Steady Block.Drawn n (block source n) := by
  intro ts hts
  refine .expect_bind (by simp) ?_
  rintro opening ts rfl -
  obtain ⟨acc, hacc, hs⟩ := silent_start (α := Stmt) Stmt.layout
  refine .silent_bind hs (.bind (statements_reads (Nat.le_refl n) (Nat.lt_of_succ_lt hts)) ?_)
  rintro _ us ⟨_, close⟩ - rfl ⟨ws, as, rfl, rfl, hmany, -⟩
  refine .complete (D := Behind [opening] Block.Drawn) ⟨.combine (.token ?_) (.token ?_), ?_⟩ us
  · simp
  · simp
  · rw [hacc]
    exact fun s hs => (forall_of_many hmany Stmt.EverySpan.mono s hs).mono fun u hu => by simp [hu]

/-! ## Functions -/

theorem skipNewlines_reads {ts : List Token} (hts : ts.length < n) :
    Reads (fun _ _ => True) (skipNewlines source n) ts := by
  induction n generalizing ts with
  | zero => exact absurd hts (Nat.not_lt_zero _)
  | succ n ih =>
    refine .look_bind ?_
    rintro t us rfl
    split
    · next h => exact .seen_bind (by simp [h.1]) (ih (Nat.lt_of_succ_lt_succ hts))
    · exact .done trivial _

theorem params_reads {acc : Sequence Param} {ts : List Token} (hts : ts.length < n) :
    Reads (Adds (Many Param.Drawn) acc) (params n acc) ts := by
  induction n generalizing acc ts with
  | zero => exact absurd hts (Nat.not_lt_zero _)
  | succ n ih =>
    have hnone : Adds (Many Param.Drawn) acc [] acc := ⟨[], (List.append_nil _).symm, .nil⟩
    refine .check_bind (fun t us _ _ => .done hnone _) fun t us _ _ => ?_
    refine .expect_bind (by simp) ?_
    rintro name ts rfl -
    refine .expect_bind (by simp) ?_
    rintro colon ts rfl -
    refine .typeName_bind ?_
    rintro type ts ty rfl -
    simp only [List.length_cons] at hts
    obtain ⟨acc', hacc, hpush⟩ := silent_push Param.layout acc ⟨name.span, ty⟩
    refine .silent_bind hpush (.check_bind ?_ ?_)
    · rintro comma ts rfl hk
      rw [List.length_cons] at hts
      refine .seen_bind (by simp [hk]) ((ih (by omega)).imp fun ws s hs => ?_)
      have hparam : Param.Drawn [name, colon, type, comma] ⟨name.span, ty⟩ := .token (by simp)
      exact hs.cons hacc fun as has => (Many.cons hparam has :)
    · rintro t us rfl -
      refine (ih (by omega)).imp fun ws s hs => ?_
      have hparam : Param.Drawn [name, colon, type] ⟨name.span, ty⟩ := .token (by simp)
      exact hs.cons hacc fun as has => (Many.cons hparam has :)

theorem returnType_reads {ts : List Token} (hts : ts.length < n) :
    Reads (fun _ _ => True) (returnType source n) ts := by
  refine .bind (skipNewlines_reads hts) ?_
  rintro vs us _ - rfl -
  rw [List.length_append] at hts
  refine .check_bind (fun t us _ _ => .done trivial _) fun t us _ _ => ?_
  refine .typeName_bind ?_
  rintro type us ty rfl -
  rw [List.length_cons] at hts
  refine .bind (skipNewlines_reads (by omega)) ?_
  rintro ws us _ - rfl -
  exact .done trivial us

theorem function_reads (source : Text) (n : Nat) : Steady Function.Drawn n (function source n) := by
  intro ts hts
  refine .expect_bind (by simp) ?_
  rintro name ts rfl -
  refine .expect_bind (by simp) ?_
  rintro opening ts rfl -
  simp only [List.length_cons] at hts
  obtain ⟨acc, hacc, hs⟩ := silent_start (α := Frontend.Param) Param.layout
  refine .silent_bind hs (.bind (params_reads (by omega)) ?_)
  rintro vs us ps hstop rfl ⟨as, hps, hmany⟩
  obtain ⟨closing, us, rfl, hc⟩ := params_stops hstop
  simp only [List.length_append, List.length_cons] at hts
  refine .seen_bind (by simp [hc]) (.bind (returnType_reads (by omega)) ?_)
  rintro rs us ty - rfl -
  rw [List.length_append] at hts
  refine .bind (block_reads source n (by omega)) ?_
  rintro bs us body - rfl hbody
  rw [hacc, List.nil_append] at hps
  have hbody : body.Drawn (name :: opening :: (vs ++ closing :: (rs ++ bs))) :=
    hbody.mono fun u hu => by simp [hu]
  have hname : Span.Drawn (name :: opening :: (vs ++ closing :: (rs ++ bs))) name.span :=
    .token (by simp)
  have hparams : ∀ p ∈ ps.items, Span.Drawn (name :: opening :: (vs ++ closing :: (rs ++ bs))) p.name := by
    rw [hps]
    exact fun p hp => (forall_of_many hmany Span.Drawn.mono p hp).mono fun u hu => by simp [hu]
  refine ⟨[], rfl, ?_⟩
  simp only [Behind, List.append_nil]
  exact ⟨.combine hname hbody.span, hname, hparams, hbody⟩

theorem functions_reads {acc : Sequence Function} {ts : List Token} (hm : m ≤ n)
    (hts : ts.length < m) :
    Reads (Lists (Many Function.Drawn) acc) (functions source n m acc) ts := by
  induction m generalizing acc ts with
  | zero => exact absurd hts (Nat.not_lt_zero _)
  | succ m ih =>
    have hnone : Lists (Many Function.Drawn) acc [] acc.items := ⟨[], (List.append_nil _).symm, .nil⟩
    refine .check_bind (fun t us _ _ => .done hnone _) fun t us _ _ => ?_
    refine .bind (function_reads source n (Nat.lt_of_lt_of_le hts hm)) ?_
    rintro vs us f - rfl hf
    obtain ⟨acc', hacc, hpush⟩ := silent_push Function.layout acc f
    have hv := List.length_pos_iff.2 hf.span.ne_nil
    rw [List.length_append] at hts
    refine .silent_bind hpush ((ih (by omega) (by omega)).imp ?_)
    rintro ws fs ⟨as, rfl, has⟩
    exact ⟨f :: as, by rw [hacc, List.append_assoc]; rfl, .cons hf has⟩

/-- Each span of a program comes from the tokens that were taken for it. -/
theorem program_reads (source : Text) (n : Nat) :
    Steady (fun ts p => ∀ f ∈ p.functions, f.Drawn ts) n (program source n) := by
  intro ts hts
  obtain ⟨acc, hacc, hs⟩ := silent_start (α := Frontend.Function) Function.layout
  refine .silent_bind hs (.bind (functions_reads (Nat.le_refl n) hts) ?_)
  rintro vs us _ - rfl ⟨fs, rfl, hmany⟩
  refine .complete (D := fun ts (p : Frontend.Program) => ∀ f ∈ p.functions, f.Drawn ts) ?_ us
  rw [hacc]
  exact forall_of_many hmany Function.EverySpan.mono

end Frontend.Parser
