import Frontend.Proofs.Parser.Parallel

/-! # Phrases over another source

Of the source a phrase takes the digits of its literals, and how the terminators before a block are
written; all else are kinds and spans. So its tokens are a phrase over another source that agrees with the
first on these, and for the same tree, however its statements are ended there.
-/
namespace Frontend

theorem Spelled.of_kind {source : Text} {t : Token} {k : Kind} (h : t.kind = k) (hk : k.isPlain) :
    Spelled source t := .of_isPlain (h ▸ hk)

namespace Grammar
variable {source source' : Text} {ts us : List Token} {e : Expr}

/-! ## Literals -/

theorem Expression.spelled (h : Expression source ts e) : e.Fresh → AllSpelled source ts := by
  induction h using @Expression.rec source _ (fun ts e _ => e.Fresh → AllSpelled source ts)
    (fun ts e _ => e.Fresh → AllSpelled source ts) (fun ts e _ => e.Fresh → AllSpelled source ts)
    (fun ts e _ => e.Fresh → AllSpelled source ts)
    (fun ts es _ => (∀ e ∈ es, e.Fresh) → AllSpelled source ts)
    (fun ts es _ => (∀ e ∈ es, e.Fresh) → AllSpelled source ts)
  case intro ih => exact ih
  case operand ih hf | operand ih hf | operand ih hf | items ih hf => exact ih hf
  case join hk _ _ ihl ihr hf | join hk _ _ ihl ihr hf | join hk _ _ ihl ihr hf =>
    cases hf with
    | binary hl hr =>
      exact allSpelled_append.2 ⟨ihl hl, allSpelled_cons.2 ⟨.of_kind hk rfl, ihr hr⟩⟩
  case int t suffix value hk hs hf =>
    cases hf with
    | int hv =>
      refine allSpelled_cons.2 ⟨fun suffix' hk' => ?_, allSpelled_nil⟩
      obtain rfl : suffix = suffix' := Kind.int.inj (hk.symm.trans hk')
      exact ⟨value, hv, hs⟩
  case var hk hf => exact allSpelled_cons.2 ⟨.of_kind hk rfl, allSpelled_nil⟩
  case call hk ho _ hc ih hf =>
    cases hf with
    | call hes => simp [Spelled.of_kind hk rfl, Spelled.of_kind ho rfl, ih hes, Spelled.of_kind hc rfl]
  case group ho _ hc ih hf => simp [Spelled.of_kind ho rfl, ih hf, Spelled.of_kind hc rfl]
  case none => exact allSpelled_nil
  case trailing hk ih hf => simp [ih hf, Spelled.of_kind hk rfl]
  case one ih hf => exact ih (hf _ (List.mem_singleton_self _))
  case more hk _ ih ihs hf =>
    obtain ⟨he, hes⟩ := List.forall_mem_cons.1 hf
    simp [ih he, Spelled.of_kind hk rfl, ihs hes]

theorem bindingWord_isPlain (mutable : Bool) : (bindingWord mutable).isPlain := by
  cases mutable <;> rfl

theorem Statement.spelled {s : Stmt} (h : Statement source ts s) (hf : s.Fresh) :
    AllSpelled source ts := by
  cases h with
  | init hw hn hq he hl =>
    simp [Spelled.of_kind hw (bindingWord_isPlain _), Spelled.of_kind hn rfl, Spelled.of_kind hq rfl,
      he.spelled (hf _ rfl), Spelled.of_kind hl rfl]
  | typed hw hn hc ht hq he hl =>
    simp [Spelled.of_kind hw (bindingWord_isPlain _), Spelled.of_kind hn rfl, Spelled.of_kind hc rfl,
      Spelled.of_kind ht rfl, Spelled.of_kind hq rfl, he.spelled (hf _ rfl), Spelled.of_kind hl rfl]
  | declared hw hn hc ht hl =>
    simp [Spelled.of_kind hw (bindingWord_isPlain _), Spelled.of_kind hn rfl, Spelled.of_kind hc rfl,
      Spelled.of_kind ht rfl, Spelled.of_kind hl rfl]
  | ret hw hl => simp [Spelled.of_kind hw rfl, Spelled.of_kind hl rfl]
  | retValue hw he hl => simp [Spelled.of_kind hw rfl, he.spelled (hf _ rfl), Spelled.of_kind hl rfl]
  | expr he hl => simp [he.spelled (hf _ rfl), Spelled.of_kind hl rfl]

theorem Many.spelled {α : Type} {item : Phrases α} {good : α → Prop} {as : List α}
    (h : Many item ts as) (hi : ∀ ts a, item ts a → good a → AllSpelled source ts)
    (has : ∀ a ∈ as, good a) : AllSpelled source ts := by
  induction h with
  | nil => exact allSpelled_nil
  | cons ha _ ih =>
    obtain ⟨hgood, hgoods⟩ := List.forall_mem_cons.1 has
    exact allSpelled_append.2 ⟨hi _ _ ha hgood, ih hgoods⟩

theorem Block.spelled {b : Frontend.Block} (h : Block source ts b) (hf : b.Fresh) :
    AllSpelled source ts := by
  cases h with
  | intro ho hm hc =>
    simp [Spelled.of_kind ho rfl, hm.spelled (fun _ _ hs => hs.spelled) hf, Spelled.of_kind hc rfl]

theorem Param.spelled {p : Frontend.Param} (h : Param ts p) : AllSpelled source ts := by
  cases h with
  | plain hn hc ht => simp [Spelled.of_kind hn rfl, Spelled.of_kind hc rfl, Spelled.of_kind ht rfl]
  | comma hn hc ht hk =>
    simp [Spelled.of_kind hn rfl, Spelled.of_kind hc rfl, Spelled.of_kind ht rfl, Spelled.of_kind hk rfl]

theorem ReturnType.spelled {ty : Ty} (h : ReturnType source ts ty) : AllSpelled source ts := by
  have hnl {ts : List Token} (h : ∀ t ∈ ts, IsNewline source t) : AllSpelled source ts :=
    fun t ht => .of_kind (h t ht).1 rfl
  cases h with
  | void hts => exact hnl hts
  | written hts ht hus => simp [hnl hts, Spelled.of_kind ht rfl, hnl hus]

theorem Function.spelled {f : Frontend.Function} (h : Function source ts f) (hf : f.Fresh) :
    AllSpelled source ts := by
  cases h with
  | @intro name opening closing ps rs bs params ret body hn ho hm hc hty hb =>
    have hps : AllSpelled source ps := hm.spelled (fun _ _ hp _ => hp.spelled) fun _ _ => trivial
    simp [Spelled.of_kind hn rfl, Spelled.of_kind ho rfl, hps, Spelled.of_kind hc rfl, hty.spelled,
      hb.spelled hf]

/-! ## Another source -/

def LiteralsKept (source source' : Text) : Prop :=
  ∀ ⦃span suffix value⦄, Spells source span suffix value → Spells source' span suffix value

theorem LiteralsKept.spelled (h : LiteralsKept source source') {t : Token} (ht : Spelled source t) :
    Spelled source' t := by
  intro suffix hk
  obtain ⟨value, hv, hs⟩ := ht suffix hk
  exact ⟨value, hv, h hs⟩

theorem Expression.transfer (hkept : LiteralsKept source source') (h : Expression source ts e) :
    Expression source' ts e := by
  induction h using @Expression.rec source _
    (fun ts e _ => Level .comparison (Level .sum (Level .product (Primary source' (Expression source'))))
      ts e)
    (fun ts e _ => Level .sum (Level .product (Primary source' (Expression source'))) ts e)
    (fun ts e _ => Level .product (Primary source' (Expression source')) ts e)
    (fun ts e _ => Primary source' (Expression source') ts e)
    (fun ts es _ => Arguments (Expression source') ts es)
    (fun ts es _ => Items (Expression source') ts es)
  case intro ih => exact .intro ih
  case operand ih | operand ih | operand ih => exact .operand ih
  case join hk hp _ ihl ihr | join hk hp _ ihl ihr | join hk hp _ ihl ihr => exact .join ihl hk hp ihr
  case int hk hs => exact .int hk (hkept hs)
  case var hk => exact .var hk
  case call hk ho _ hc ih => exact .call hk ho ih hc
  case group ho _ hc ih => exact .group ho ih hc
  case none => exact .none
  case items ih => exact .items ih
  case trailing hk ih => exact .trailing ih hk
  case one ih => exact .one ih
  case more hk _ ih ihs => exact .more ih hk ihs

theorem Statement.transfer (hkept : LiteralsKept source source') {s : Stmt}
    (h : Statement source ts s) : Statement source' ts s := by
  cases h with
  | init hw hn hq he hl => exact .init hw hn hq (he.transfer hkept) hl
  | typed hw hn hc ht hq he hl => exact .typed hw hn hc ht hq (he.transfer hkept) hl
  | declared hw hn hc ht hl => exact .declared hw hn hc ht hl
  | ret hw hl => exact .ret hw hl
  | retValue hw he hl => exact .retValue hw (he.transfer hkept) hl
  | expr he hl => exact .expr (he.transfer hkept) hl

theorem Many.mono {α : Type} {item item' : Phrases α} {as : List α} (h : Many item ts as)
    (hi : ∀ ts a, item ts a → item' ts a) : Many item' ts as := by
  induction h with
  | nil => exact .nil
  | cons ha _ ih => exact .cons (hi _ _ ha) ih

theorem Block.transfer (hkept : LiteralsKept source source') {b : Frontend.Block}
    (h : Block source ts b) : Block source' ts b := by
  cases h with
  | intro ho hm hc => exact .intro ho (hm.mono fun _ _ hs => hs.transfer hkept) hc

theorem ReturnType.transfer {ty : Ty} (h : ReturnType source ts ty)
    (hkeep : ∀ t ∈ ts, IsNewline source t → IsNewline source' t) : ReturnType source' ts ty := by
  cases h with
  | void hts => exact .void fun t ht => hkeep t ht (hts t ht)
  | written hts ht hus =>
    refine .written (fun t ht => hkeep t ?_ (hts t ht)) ht fun t ht => hkeep t ?_ (hus t ht)
    · exact List.mem_append_left _ ht
    · exact List.mem_append_right _ (List.mem_cons_of_mem _ ht)

/-! ## Ends of statements -/

theorem Laid.stop_lt (h : Laid source (ts ++ us)) (hpos : ∀ u ∈ us, 0 < u.span.len) {t u : Token}
    (ht : t ∈ ts) (hu : u ∈ us) : t.span.stop < u.span.stop :=
  Nat.lt_of_le_of_lt ((List.pairwise_append.1 h.apart).2.2 t ht u hu)
    (Nat.lt_add_of_pos_right (hpos u hu))

/-- A statement of the functions stops at the offset. -/
def StatementStops (fs : List Frontend.Function) (offset : Nat) : Prop :=
  ∃ f ∈ fs, ∃ s ∈ f.body.stmts, s.span.stop = offset

theorem Block.stops_within {b : Frontend.Block} (h : Block source ts b) (hrow : Laid source ts) :
    ∀ s ∈ b.stmts, ∃ t ∈ ts, s.span.stop = t.span.stop := by
  cases h with
  | @intro opening closing ts stmts ho hm hc =>
    obtain ⟨-, hspans⟩ := hm.along (fun _ _ h => h.nested) hrow.of_append.1.tail
    intro s hs
    obtain ⟨-, -, t, ht, -, hstop⟩ := hspans.within _ (List.mem_map_of_mem hs)
    exact ⟨t, by simp [ht], hstop⟩

theorem Function.stops_within {f : Frontend.Function} (h : Function source ts f)
    (hrow : Laid source ts) : ∀ s ∈ f.body.stmts, ∃ t ∈ ts, s.span.stop = t.span.stop := by
  cases h with
  | intro _ _ _ _ _ hb =>
    intro s hs
    obtain ⟨t, ht, hstop⟩ := hb.stops_within hrow.of_append.2 s hs
    exact ⟨t, List.mem_append_right _ ht, hstop⟩

theorem Many.stops_within {fs : List Frontend.Function} (h : Many (Function source) ts fs)
    (hrow : Laid source ts) {offset : Nat} (hstops : StatementStops fs offset) :
    ∃ t ∈ ts, offset = t.span.stop := by
  induction h with
  | nil =>
    obtain ⟨f, hf, -⟩ := hstops
    cases hf
  | @cons ts us f fs hf _ ih =>
    obtain ⟨hts, hus⟩ := hrow.of_append
    obtain ⟨g, hg, s, hs, rfl⟩ := hstops
    rcases List.mem_cons.1 hg with rfl | hg
    · obtain ⟨t, ht, hstop⟩ := hf.stops_within hts s hs
      exact ⟨t, List.mem_append_left _ ht, hstop⟩
    · obtain ⟨t, ht, hstop⟩ := ih hus ⟨g, hg, s, hs, rfl⟩
      exact ⟨t, List.mem_append_right _ ht, hstop⟩

theorem Function.transfer (hkept : LiteralsKept source source') {f : Frontend.Function}
    (h : Function source ts f) (hrow : Laid source ts) (hpos : ∀ t ∈ ts, 0 < t.span.len)
    (hkeep : ∀ t ∈ ts, IsNewline source t → (∀ s ∈ f.body.stmts, s.span.stop ≠ t.span.stop) →
      IsNewline source' t) : Function source' ts f := by
  cases h with
  | @intro name opening closing ps rs bs params ret body hn ho hm hc hty hb =>
    refine .intro hn ho hm hc (hty.transfer fun t ht hnl => ?_) (hb.transfer hkept)
    have hhead : t ∈ name :: opening :: ps ++ closing :: rs := by simp [ht]
    refine hkeep t (List.mem_append_left _ hhead) hnl fun s hs hstop => ?_
    obtain ⟨u, hu, hu'⟩ := hb.stops_within hrow.of_append.2 s hs
    have hlt := hrow.stop_lt (fun u hu => hpos u (List.mem_append_right _ hu)) hhead hu
    omega

/-- Functions are the same over another source that keeps the literals and every terminator at which no
statement stops. -/
theorem Many.transfer (hkept : LiteralsKept source source') {fs : List Frontend.Function}
    (h : Many (Function source) ts fs) (hrow : Laid source ts) (hpos : ∀ t ∈ ts, 0 < t.span.len)
    (hkeep : ∀ t ∈ ts, IsNewline source t → ¬ StatementStops fs t.span.stop → IsNewline source' t) :
    Many (Function source') ts fs := by
  induction h with
  | nil => exact .nil
  | @cons ts us f fs hf hfs ih =>
    obtain ⟨hts, hus⟩ := hrow.of_append
    obtain ⟨hpos, hpos'⟩ := List.forall_mem_append.1 hpos
    -- A terminator of one function is behind, or before, every statement of another one.
    refine .cons (hf.transfer hkept hts hpos fun t ht hnl hno => ?_) (ih hus hpos' fun t ht hnl hno => ?_)
    · refine hkeep t (List.mem_append_left _ ht) hnl ?_
      rintro ⟨g, hg, s, hs, hstop⟩
      rcases List.mem_cons.1 hg with rfl | hg
      · exact hno s hs hstop
      · obtain ⟨u, hu, hu'⟩ := hfs.stops_within hus ⟨g, hg, s, hs, rfl⟩
        have hlt := hrow.stop_lt hpos' ht hu
        omega
    · refine hkeep t (List.mem_append_right _ ht) hnl ?_
      rintro ⟨g, hg, s, hs, hstop⟩
      rcases List.mem_cons.1 hg with rfl | hg
      · obtain ⟨u, hu, hu'⟩ := hf.stops_within hts s hs
        have hlt := hrow.stop_lt hpos' hu ht
        omega
      · exact hno ⟨g, hg, s, hs, hstop⟩

end Grammar
end Frontend
