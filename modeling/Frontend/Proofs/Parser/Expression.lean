import Frontend.Proofs.Parser.Outcome

/-! # Expressions are read as the grammar says

For each plan two statements: its outcome is one of its rule, and a row of the language is read in
full when what stands behind it cannot go on with the rule. Both are by induction on the bound of the
loops, which a row shorter than the bound cannot use up.
-/
namespace Frontend.Parser
open Grammar

variable {α : Type} {source : Text}

/-- Rows of less than `n` tokens are read in full before a token at which the language stops, whatever
comes behind it. Where it stops depends on the last token of the row. -/
def Complete (source : Text) (D : Phrases α) (stop : Option Token → Kind → Prop) (n : Nat)
    (p : Parser α) : Prop :=
  ∀ ⦃ts : List Token⦄ ⦃a : α⦄ ⦃r : TokenRow⦄, D ts a → ts.length < n →
    stop ts.getLast? r.head.kind → AllSpelled source ts → Gives (p.read (ts ++ r)) a r

/-! ## Sequences -/

theorem Silent.gives {p : Parser α} {a : α} (h : Silent p a) (r : TokenRow) :
    Gives (p.read r) a r := by
  have hrow {x : Except ParseError α} (hx : p.within [] = some (x, [])) : p.read r = (x, r) := by
    obtain ⟨h₁, h₂⟩ := run_of_within r.host_supplies rfl hx
    exact Prod.ext h₁ h₂
  rcases h with h | ⟨e, h⟩
  · exact .inl (hrow (h []))
  · rw [hrow (h [])]
    exact .inr ⟨e, rfl, List.suffix_refl _⟩

theorem gives_start (l : Pool.Layout) (r : TokenRow) :
    ∃ s : Sequence α, s.items = [] ∧ Gives ((Sequence.start l).read r) s r := by
  obtain ⟨s, hs, h⟩ := silent_start (α := α) l
  exact ⟨s, hs, h.gives r⟩

theorem gives_push (l : Pool.Layout) (s : Sequence α) (a : α) (r : TokenRow) :
    ∃ s' : Sequence α, s'.items = s.items ++ [a] ∧ Gives ((s.push l a).read r) s' r := by
  obtain ⟨s', hs, h⟩ := silent_push l s a
  exact ⟨s', hs, h.gives r⟩

/-! ## Operators of one strength -/

theorem op_mem_operators (o : BinOp) (p : Precedence) :
    .op o ∈ operators p ↔ o.precedence = p := by
  cases o <;> cases p <;> decide

theorem mem_operators {p : Precedence} {k : Kind} :
    k ∈ operators p ↔ ∃ o, k = .op o ∧ o.precedence = p := by
  constructor
  · intro h
    cases k with
    | op o => exact ⟨o, rfl, (op_mem_operators o p).1 h⟩
    | _ => cases p <;> simp [operators] at h
  · rintro ⟨o, rfl, hp⟩
    exact (op_mem_operators o p).2 hp

theorem Outcome.binaryOp_bind {β : Type} {D : Phrases β} {f : BinOp → Parser β} {t : Token}
    {us : List Token} {o : BinOp} (hk : t.kind = .op o)
    (h : Outcome source (Behind [t] D) (f o) us) :
    Outcome source D (binaryOp >>= f) (t :: us) := by
  rw [binaryOp, bind_assoc]
  refine seen_bind ?_
  rw [hk]
  exact h

theorem chain_outcome {p : Precedence} {operand : Parser Expr} {D : Phrases Expr} {n m : Nat}
    (hop : Decides source D n operand) {left : Expr} {pre ts : List Token}
    (hl : Level p D pre left) (hm : m ≤ n) (hts : Fits source m ts) :
    Outcome source (Behind pre (Level p D)) (chain p operand m left) ts := by
  induction m generalizing left pre ts with
  | zero => exact absurd hts.length_lt (Nat.not_lt_zero _)
  | succ m ih =>
    have hread : Behind pre (Level p D) [] left := by
      rw [Behind, List.append_nil]
      exact hl
    rw [chain]
    refine .look_bind (.of_phrase hread) fun t us hts' => ?_
    subst hts'
    split
    · next hmem =>
      obtain ⟨o, hk, hp⟩ := mem_operators.1 hmem
      refine .binaryOp_bind hk ?_
      refine .bind (hop (hts.tail.mono (by omega))) ?_ ?_
      · intro vs hvs
        exact hvs.imp fun ws r hr => ⟨_, .join hl hk hp hr⟩
      · rintro vs us r - rfl hr
        refine .silent_bind (silent_node _) ?_
        have h := ih (.join hl hk hp hr) (by omega) hts.tail.of_append
        refine h.imp fun ws e he => ?_
        simpa [Behind] using he
    · exact .done hread _

theorem level_decides {p : Precedence} {operand : Parser Expr} {D : Phrases Expr} {n : Nat}
    (hop : Decides source D (n + 1) operand) (hne : ∀ {ts e}, D ts e → 0 < ts.length) :
    Decides source (Level p D) (n + 1) (level p operand n) := by
  intro ts hts
  refine .bind (hop hts) (fun vs hvs => hvs.imp fun ws e he => ⟨e, .operand he⟩) ?_
  rintro vs us e - rfl he
  exact chain_outcome hop (.operand he) (Nat.le_succ n) (hts.behind (hne he))

theorem getLast?_join {ts us : List Token} {t : Token} (hu : 0 < us.length) :
    (ts ++ t :: us).getLast? = us.getLast? := by
  rw [← List.dropLast_concat_getLast (List.length_pos_iff.1 hu), ← List.cons_append,
    ← List.append_assoc, List.getLast?_concat, List.getLast?_concat]

/-- Each turn of the loop takes two tokens at least, so a turn is left for looking at the end. -/
theorem chain_complete {p : Precedence} {operand : Parser Expr} {D : Phrases Expr}
    {stop : Option Token → Kind → Prop} {n m : Nat} (hop : Complete source D stop n operand)
    (hne : ∀ {ts e}, D ts e → 0 < ts.length)
    (hstop : ∀ (last : Option Token) (o : BinOp), o.precedence = p → stop last (.op o))
    {ts : List Token} {e : Expr} (hl : Level p D ts e) {r : TokenRow} (hn : ts.length < n)
    (hm : ts.length ≤ m) (hs : stop ts.getLast? r.head.kind) (hr : AllSpelled source ts) :
    ∃ j, m < ts.length + j ∧ ∀ {a : Expr} {s : TokenRow},
      Gives ((chain p operand j e).read r) a s → Gives ((level p operand m).read (ts ++ r)) a s := by
  induction hl generalizing r with
  | operand hD =>
    have := hne hD
    exact ⟨m, by omega, fun h => .bind (hop hD hn hs hr) h⟩
  | @join ts us l e t o hl hk hp hD ih =>
    have hu := hne hD
    rw [List.length_append, List.length_cons] at hn hm ⊢
    rw [getLast?_join hu] at hs
    rw [TokenRow.append_assoc]
    obtain ⟨hts, hus⟩ := allSpelled_append.1 hr
    obtain ⟨j, hj, hg⟩ := ih (r := t :: us ++ r) (by omega) (by omega)
      (by rw [TokenRow.head_cons_append, hk]; exact hstop _ o hp) hts
    obtain ⟨i, rfl⟩ : ∃ i, j = i + 1 := ⟨j - 1, by omega⟩
    refine ⟨i, by omega, fun h => hg ?_⟩
    have htake : Gives (binaryOp.read (t :: us ++ r)) o (us ++ r) := by
      rw [binaryOp, read_take_bind, TokenRow.head_cons_append, TokenRow.advance_cons_append, hk]
      exact .refl _ _
    rw [chain, read_look_bind, TokenRow.head_cons_append, if_pos (mem_operators.2 ⟨o, hk, hp⟩)]
    exact .bind htake (.bind (hop hD (by omega) hs (allSpelled_cons.1 hus).2) h)

theorem level_complete {p : Precedence} {operand : Parser Expr} {D : Phrases Expr}
    {stop : Option Token → Kind → Prop} {n : Nat} (hop : Complete source D stop (n + 1) operand)
    (hne : ∀ {ts e}, D ts e → 0 < ts.length)
    (hstop : ∀ (last : Option Token) (o : BinOp), o.precedence = p → stop last (.op o)) :
    Complete source (Level p D) (fun last k => stop last k ∧ k ∉ operators p) (n + 1)
      (level p operand n) := by
  intro ts e r hl hn hs hr
  obtain ⟨j, hj, hg⟩ := chain_complete hop hne hstop hl hn (Nat.le_of_lt_succ hn) hs.1 hr
  obtain ⟨i, rfl⟩ : ∃ i, j = i + 1 := ⟨j - 1, by omega⟩
  refine hg ?_
  rw [chain, read_look_bind, if_neg hs.2]
  exact .refl _ _

/-! ## Primary expressions -/

def EndsPrimary (last : Option Token) (k : Kind) : Prop :=
  k = .lparen → ∀ t ∈ last, t.kind ≠ .ident

def EndsExpression (last : Option Token) (k : Kind) : Prop :=
  EndsPrimary last k ∧ ∀ o, k ≠ .op o

theorem not_mem_operators {last : Option Token} {k : Kind} (h : EndsExpression last k)
    (p : Precedence) : k ∉ operators p := by
  rw [mem_operators]
  rintro ⟨o, hk, -⟩
  exact h.2 o hk

theorem endsPrimary_of_ne {last : Option Token} {k : Kind} (h : k ≠ .lparen) : EndsPrimary last k :=
  fun hk => absurd hk h

theorem endsExpression_of_ends {last : Option Token} {k : Kind}
    (h : k = .rparen ∨ k = .comma ∨ k = .terminator) : EndsExpression last k := by
  rcases h with rfl | rfl | rfl <;> exact ⟨endsPrimary_of_ne (by decide), by simp⟩

theorem literal_eq {span : Span} {suffix : Suffix} {value : Nat}
    (h : Denotes (span.text source) suffix value) (hv : value < literalLimit) :
    literal source span suffix = node (.int span none value suffix) := by
  simp only [literal, h.literalValue, if_pos hv]

/-- The sequence holds what it held and then items that the row stands for. -/
def Adds (D : Phrases (List α)) (acc : Sequence α) : Phrases (Sequence α) :=
  fun ts s => ∃ as, s.items = acc.items ++ as ∧ D ts as

theorem Adds.cons {C D : Phrases (List α)} {acc acc' s : Sequence α} {a : α} {ts us : List Token}
    (ha : acc'.items = acc.items ++ [a]) (hD : ∀ as, C us as → D ts (a :: as))
    (h : Adds C acc' us s) : Adds D acc ts s := by
  obtain ⟨as, hs, hC⟩ := h
  exact ⟨a :: as, by rw [hs, ha, List.append_assoc]; rfl, hD as hC⟩

theorem arguments_outcome {expression : Parser Expr} {D : Phrases Expr} {n m : Nat}
    (he : Decides source D n expression) {acc : Sequence Expr} {ts : List Token} (hm : m ≤ n)
    (hts : Fits source m ts) :
    Outcome source (Adds (Arguments D) acc) (arguments expression m acc) ts := by
  induction m generalizing acc ts with
  | zero => exact absurd hts.length_lt (Nat.not_lt_zero _)
  | succ m ih =>
    have hnone : Adds (Arguments D) acc [] acc := ⟨[], (List.append_nil _).symm, .none⟩
    rw [arguments]
    refine .check_bind (.of_phrase hnone) (fun t us _ _ => .done hnone _) fun t us _ _ => ?_
    refine .bind (he (hts.mono hm)) ?_ ?_
    · intro vs hvs
      exact hvs.imp fun ws e hD => ⟨⟨acc.items ++ [e], 0⟩, [e], rfl, .items (.one hD)⟩
    · rintro vs us e - rfl hD
      obtain ⟨acc', hacc, hs⟩ := silent_push Expr.referenceLayout acc e
      have hone : Behind vs (Adds (Arguments D) acc) [] acc' := by
        refine ⟨[e], hacc, ?_⟩
        rw [List.append_nil]
        exact .items (.one hD)
      refine .silent_bind hs (.check_bind (.of_phrase hone) ?_ fun t us _ _ => .done hone _)
      rintro t us rfl ht
      refine .seen_bind ?_
      have hlen : us.length < m := by
        have := hts.length_lt
        simp only [List.length_append, List.length_cons] at this
        omega
      have h := @ih acc' us (by omega) ⟨hlen, hts.of_append.tail.written⟩
      exact h.imp fun ws args hargs => hargs.cons hacc fun es hes => .cons hD ht hes

theorem arguments_step {expression : Parser Expr} {D : Phrases Expr} {n : Nat}
    (he : Complete source D EndsExpression n expression) {ts : List Token} {e : Expr}
    (ho : Opens opensExpression ts) (hD : D ts e) (hn : ts.length < n) (m : Nat)
    (acc : Sequence Expr) {r : TokenRow} (hs : EndsExpression ts.getLast? r.head.kind)
    (hr : AllSpelled source ts) :
    ∃ acc' : Sequence Expr, acc'.items = acc.items ++ [e] ∧
      (r.head.kind ≠ .comma → Gives ((arguments expression (m + 1) acc).read (ts ++ r)) acc' r) ∧
      (r.head.kind = .comma → ∀ {args s}, Gives ((arguments expression m acc').read r.advance) args s →
        Gives ((arguments expression (m + 1) acc).read (ts ++ r)) args s) := by
  obtain ⟨acc', hacc, hp⟩ := gives_push Expr.referenceLayout acc e r
  refine ⟨acc', hacc, ?_, ?_⟩ <;> intro hk <;>
    rw [arguments, read_check_bind, decide_eq_false (TokenRow.kind_head_ne ho rfl r)]
  · refine .bind (he hD hn hs hr) (.bind hp ?_)
    rw [read_check_bind, decide_eq_false hk]
    exact .refl _ _
  · intro args s hg
    refine .bind (he hD hn hs hr) (.bind hp ?_)
    rw [read_check_bind, decide_eq_true hk]
    exact hg

/-- Arguments are read up to the closing parenthesis, with a comma before it or without. -/
theorem items_complete {expression : Parser Expr} {D : Phrases Expr} {n : Nat}
    (he : Complete source D EndsExpression n expression)
    (hD : ∀ {ts e}, D ts e → Opens opensExpression ts) {ts : List Token} {es : List Expr}
    (hi : Items D ts es) (m : Nat) (acc : Sequence Expr) {r : TokenRow} (hn : ts.length < n)
    (hr : AllSpelled source ts) :
    (r.head.kind = .rparen → ts.length < m → ∃ args : Sequence Expr,
      args.items = acc.items ++ es ∧ Gives ((arguments expression m acc).read (ts ++ r)) args r) ∧
    (r.head.kind = .comma → r.advance.head.kind = .rparen → ts.length + 1 < m →
      ∃ args : Sequence Expr, args.items = acc.items ++ es ∧
        Gives ((arguments expression m acc).read (ts ++ r)) args r.advance) := by
  induction hi generalizing m acc with
  | @one ts e he' =>
    have ho := hD he'
    have hl := ho.length_pos
    constructor
    · intro hk hm
      obtain ⟨m, rfl⟩ : ∃ k, m = k + 1 := ⟨m - 1, by omega⟩
      obtain ⟨args, ha, hg, -⟩ :=
        arguments_step he ho he' hn m acc (r := r) (endsExpression_of_ends (.inl hk)) hr
      exact ⟨args, ha, hg (by simp [hk])⟩
    · intro hk hk' hm
      obtain ⟨m, rfl⟩ : ∃ k, m = k + 1 + 1 := ⟨m - 2, by omega⟩
      obtain ⟨args, ha, -, hg⟩ :=
        arguments_step he ho he' hn (m + 1) acc (r := r) (endsExpression_of_ends (.inr (.inl hk))) hr
      refine ⟨args, ha, hg hk ?_⟩
      rw [arguments, read_check_bind, decide_eq_true hk']
      exact .refl _ _
  | @more ts us e es t he' ht _ ih =>
    have ho := hD he'
    have hl := ho.length_pos
    rw [List.length_append, List.length_cons] at hn ⊢
    rw [TokenRow.append_assoc]
    obtain ⟨hts, hus⟩ := allSpelled_append.1 hr
    have hstep (m : Nat) := arguments_step he ho he' (by omega) m acc (r := t :: us ++ r)
      (endsExpression_of_ends (.inr (.inl ht))) hts
    have ih (m : Nat) (acc' : Sequence Expr) :=
      ih m acc' (by omega) (allSpelled_cons.1 hus).2
    constructor
    · intro hk hm
      obtain ⟨m, rfl⟩ : ∃ k, m = k + 1 := ⟨m - 1, by omega⟩
      obtain ⟨acc', ha', -, hg⟩ := hstep m
      obtain ⟨args, ha, hg'⟩ := (ih m acc').1 hk (by omega)
      refine ⟨args, by rw [ha, ha', List.append_assoc]; rfl, hg ht ?_⟩
      rwa [TokenRow.advance_cons_append]
    · intro hk hk' hm
      obtain ⟨m, rfl⟩ : ∃ k, m = k + 1 := ⟨m - 1, by omega⟩
      obtain ⟨acc', ha', -, hg⟩ := hstep m
      obtain ⟨args, ha, hg'⟩ := (ih m acc').2 hk hk' (by omega)
      refine ⟨args, by rw [ha, ha', List.append_assoc]; rfl, hg ht ?_⟩
      rwa [TokenRow.advance_cons_append]

theorem arguments_complete {expression : Parser Expr} {D : Phrases Expr} {n : Nat}
    (he : Complete source D EndsExpression n expression)
    (hD : ∀ {ts e}, D ts e → Opens opensExpression ts) {ts : List Token} {es : List Expr}
    (ha : Arguments D ts es) {m : Nat} (acc : Sequence Expr) {r : TokenRow} (hn : ts.length < n)
    (hm : ts.length < m) (hk : r.head.kind = .rparen) (hr : AllSpelled source ts) :
    ∃ args : Sequence Expr, args.items = acc.items ++ es ∧
      Gives ((arguments expression m acc).read (ts ++ r)) args r := by
  cases ha with
  | none =>
    obtain ⟨m, rfl⟩ : ∃ k, m = k + 1 := ⟨m - 1, by simp at hm; omega⟩
    refine ⟨acc, (List.append_nil _).symm, ?_⟩
    rw [TokenRow.nil_append, arguments, read_check_bind, decide_eq_true hk]
    exact .refl _ _
  | items hi => exact (items_complete he hD hi m acc hn hr).1 hk hm
  | @trailing ts _ c hi hc =>
    rw [List.length_append, List.length_singleton] at hn hm
    rw [TokenRow.append_assoc]
    have h := (items_complete he hD hi m acc (r := [c] ++ r) (by omega) (allSpelled_append.1 hr).1).2 hc
    rw [TokenRow.advance_cons_append] at h
    exact h hk hm

theorem literal_overflow {span : Span} {suffix : Suffix} {value : Nat}
    (h : Denotes (span.text source) suffix value) (hv : ¬ value < literalLimit) :
    literal source span suffix = fail (.source ⟨.overflow (span.text source), span⟩) := by
  simp only [literal, h.literalValue, if_neg hv]

theorem primary_decides {expression : Unit → Parser Expr} {D : Phrases Expr} {n : Nat}
    (he : Decides source D n (expression ())) :
    Decides source (Primary source D) (n + 1) (primary source expression n) := by
  intro ts hts
  have hstart : Viable (Primary source D) [] := ⟨blanks [.ident], _, by decide, .var rfl⟩
  refine .take_bind hstart fun t us hus => ?_
  subst hus
  have hus := hts.tail
  split
  · next suffix hk =>
    obtain ⟨value, hsp⟩ := hts.written t List.mem_cons_self suffix hk
    by_cases hlt : value < literalLimit
    · rw [literal_eq hsp.denotes hlt]
      have hint : Behind [t] (Primary source D) [] (.int t.span none value suffix) := .int hk hsp
      exact .inr (.silent (silent_node _) hint us)
    · refine .inl ⟨.overflow (t.span.text source), ⟨rfl, ?_⟩, literal_overflow hsp.denotes hlt⟩
      intro hs
      obtain ⟨value', hlt', hsp'⟩ := hs suffix hk
      exact hlt (hsp.unique hsp' ▸ hlt')
  · next hk =>
    have hvar : Behind [t] (Primary source D) [] (.var t.span none t.span) := .var hk
    right
    refine .check_bind (.of_phrase hvar) ?_ fun u us _ _ => .silent (silent_node _) hvar _
    rintro opening us rfl ho
    rw [call]
    refine .seen_bind ?_
    obtain ⟨acc, hacc, hs⟩ := silent_start (α := Expr) Expr.referenceLayout
    refine .silent_bind hs (.bind (arguments_outcome he (Nat.le_refl n) ?_) ?_ ?_)
    · exact ⟨Nat.lt_of_succ_lt hus.length_lt, fun u hu => hus.written u (List.mem_cons_of_mem _ hu)⟩
    · rintro vs hvs
      refine hvs.followed [.rparen] (by decide) ?_
      rintro ws args ⟨es, -, hA⟩
      exact ⟨_, .call hk ho hA rfl⟩
    · rintro vs us args - rfl ⟨es, hes, hA⟩
      have hclose (closing : Token) (hc : closing.kind = .rparen) :
          Primary source D (t :: opening :: vs ++ [closing]) _ := .call hk ho hA hc
      refine .expect_bind ⟨blanks [.rparen], _, by decide, hclose _ rfl⟩ ?_
      rintro closing us rfl hc
      refine .silent (silent_node _) ?_ us
      rw [hes, hacc]
      exact hclose closing hc
  · next hk =>
    right
    refine .bind (he hus) ?_ ?_
    · rintro vs hvs
      exact hvs.followed [.rparen] (by decide) fun ws e hD => ⟨e, .group hk hD rfl⟩
    · rintro vs us e - rfl hD
      have hclose (closing : Token) (hc : closing.kind = .rparen) :
          Primary source D (t :: vs ++ [closing]) e := .group hk hD hc
      refine .expect_bind ⟨blanks [.rparen], _, by decide, hclose _ rfl⟩ ?_
      rintro closing us rfl hc
      exact .done (hclose closing hc) us
  · exact .inl ⟨.expected .expression, trivial, rfl⟩

theorem primary_complete {expression : Unit → Parser Expr} {D : Phrases Expr} {n : Nat}
    (he : Complete source D EndsExpression n (expression ()))
    (hD : ∀ {ts e}, D ts e → Opens opensExpression ts) :
    Complete source (Primary source D) EndsPrimary (n + 1) (primary source expression n) := by
  intro ts e r hp hn hs hr
  cases hp with
  | @int t suffix value hk hsp =>
    obtain ⟨value', hv, hsp'⟩ := hr t (List.mem_singleton_self t) suffix hk
    obtain rfl := hsp.unique hsp'
    rw [primary, read_take_bind, TokenRow.head_cons_append, TokenRow.advance_cons_append]
    simp only [hk, literal_eq hsp.denotes hv]
    exact .refl _ _
  | @var t hk =>
    rw [primary, read_take_bind, TokenRow.head_cons_append, TokenRow.advance_cons_append]
    simp only [hk]
    rw [read_check_bind, TokenRow.nil_append, decide_eq_false fun h => hs h t rfl hk]
    exact .refl _ _
  | @call t opening closing ts args hk ho ha hc =>
    simp only [List.length_append, List.length_cons, List.length_nil] at hn
    have hts : AllSpelled source ts := fun t ht => hr t (by simp [ht])
    rw [TokenRow.append_assoc]
    rw [primary, read_take_bind, TokenRow.head_cons_append, TokenRow.advance_cons_append]
    simp only [hk]
    rw [read_check_bind, TokenRow.head_cons_append, decide_eq_true ho, if_pos rfl, call,
      read_take_bind, TokenRow.advance_cons_append]
    obtain ⟨acc, hacc, hg⟩ := gives_start Expr.referenceLayout (ts ++ ([closing] ++ r))
    obtain ⟨es, hes, hg'⟩ := arguments_complete he hD ha (m := n) acc (r := [closing] ++ r)
      (by omega) (by omega) hc hts
    refine .bind hg (.bind hg' (.expect_bind hc ?_))
    rw [read_node, hes, hacc]
    exact .refl _ _
  | @group opening closing ts e ho hE hc =>
    simp only [List.length_append, List.length_cons, List.length_nil] at hn
    have hts : AllSpelled source ts := fun t ht => hr t (by simp [ht])
    rw [TokenRow.append_assoc]
    rw [primary, read_take_bind, TokenRow.head_cons_append, TokenRow.advance_cons_append]
    simp only [ho]
    have hx : EndsExpression ts.getLast? ([closing] ++ r).head.kind := endsExpression_of_ends (.inl hc)
    exact .bind (he hE (by omega) hx hts) (.expect_bind hc (.refl _ _))

/-! ## Expressions -/

theorem expression_decides (source : Text) (n : Nat) :
    Decides source (Expression source) n (expression source n) := by
  induction n with
  | zero => exact fun ts hts => absurd hts.length_lt (Nat.not_lt_zero _)
  | succ n ih =>
    have hp : Decides source (Primary source (Expression source)) (n + 1)
        (primary source (fun _ => expression source n) n) := primary_decides ih
    have h₁ := level_decides (p := .product) hp fun h => h.opens.length_pos
    have h₂ := level_decides (p := .sum) h₁ fun h => (h.opens Primary.opens).length_pos
    have h₃ := level_decides (p := .comparison) h₂ fun h =>
      (h.opens fun h => h.opens Primary.opens).length_pos
    exact fun ts hts => (h₃ hts).imp fun us e he => .intro he

theorem expression_complete (source : Text) (n : Nat) :
    Complete source (Expression source) EndsExpression n (expression source n) := by
  induction n with
  | zero => exact fun ts e r _ hn => absurd hn (Nat.not_lt_zero _)
  | succ n ih =>
    rintro ts e r ⟨hL⟩ hn hs hr
    have hp : Complete source (Primary source (Expression source)) EndsPrimary (n + 1)
        (primary source (fun _ => expression source n) n) := primary_complete ih Expression.opens
    have hop (last : Option Token) (o : BinOp) : EndsPrimary last (.op o) := endsPrimary_of_ne (by simp)
    have h₁ := level_complete hp (fun h => h.opens.length_pos) (p := .product) fun last o _ => hop last o
    have h₂ := level_complete h₁ (fun h => (h.opens Primary.opens).length_pos) (p := .sum)
      fun last o ho => ⟨hop last o, by simp [op_mem_operators, ho]⟩
    have h₃ := level_complete h₂ (fun h => (h.opens fun h => h.opens Primary.opens).length_pos)
      (p := .comparison) fun last o ho =>
        ⟨⟨hop last o, by simp [op_mem_operators, ho]⟩, by simp [op_mem_operators, ho]⟩
    exact h₃ hL hn ⟨⟨⟨hs.1, not_mem_operators hs _⟩, not_mem_operators hs _⟩, not_mem_operators hs _⟩ hr

end Frontend.Parser
