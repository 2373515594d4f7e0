import Frontend.Proofs.Parser.Statement

/-! # Programs are read as the grammar says

The last rules, and with them the whole: a session over a row of tokens succeeds exactly when the row
is a program, and answers the tree that the row stands for.
-/
namespace Frontend.Parser
open Grammar

variable {α : Type} {source : Text}

/-! ## Headers of functions -/

theorem skipNewlines_outcome {n : Nat} {ts : List Token} (hts : Fits source n ts) :
    Outcome source (fun ts _ => ∀ t ∈ ts, IsNewline source t) (skipNewlines source n) ts := by
  induction n generalizing ts with
  | zero => exact absurd hts.length_lt (Nat.not_lt_zero _)
  | succ n ih =>
    refine .look_bind ⟨[], ⟨⟩, by simp, by simp⟩ ?_
    rintro t us rfl
    split
    · next h =>
      refine .seen_bind ((ih hts.tail).imp fun ws _ hws => ?_)
      exact List.forall_mem_cons.2 ⟨h, hws⟩
    · exact .done (by simp) _

theorem skipNewlines_complete {n : Nat} {ts : List Token} {r : TokenRow}
    (hts : ∀ t ∈ ts, IsNewline source t) (hn : ts.length < n) (hr : r.head.kind ≠ .terminator) :
    Gives ((skipNewlines source n).read (ts ++ r)) ⟨⟩ r := by
  obtain ⟨n, rfl⟩ : ∃ k, n = k + 1 := ⟨n - 1, by omega⟩
  induction ts generalizing n with
  | nil =>
    rw [TokenRow.nil_append, skipNewlines, read_look_bind, if_neg fun h => hr h.1]
    exact .refl _ _
  | cons t ts ih =>
    obtain ⟨ht, hts⟩ := List.forall_mem_cons.1 hts
    rw [List.length_cons] at hn
    obtain ⟨n, rfl⟩ : ∃ k, n = k + 1 := ⟨n - 1, by omega⟩
    rw [skipNewlines, read_look_bind, TokenRow.head_cons_append, if_pos (c := _ ∧ _) ht,
      read_take_bind, TokenRow.advance_cons_append]
    exact ih hts n (by omega)

theorem params_outcome {n : Nat} {acc : Sequence Frontend.Param} {ts : List Token}
    (hts : Fits source n ts) :
    Outcome source (Adds (Many Grammar.Param) acc) (params n acc) ts := by
  induction n generalizing acc ts with
  | zero => exact absurd hts.length_lt (Nat.not_lt_zero _)
  | succ n ih =>
    have hnone : Adds (Many Grammar.Param) acc [] acc := ⟨[], (List.append_nil _).symm, .nil⟩
    have hadd (ws : List Token) (h : Viable Grammar.Param ws) :
        Viable (Adds (Many Grammar.Param) acc) ws :=
      h.imp fun us a ha => ⟨⟨acc.items ++ [a], 0⟩, [a], rfl, .one ha⟩
    refine .check_bind (.of_phrase hnone) (fun t us _ _ => .done hnone _) fun t us _ _ => ?_
    refine .expect_bind (.of_phrase hnone) ?_
    rintro name ts rfl hn
    refine .expect_bind (hadd [name] ⟨blanks [.colon, .typeName .bool], _, by decide,
      .plain hn rfl rfl⟩) ?_
    rintro colon ts rfl hc
    refine .typeName_bind (hadd [name, colon] ⟨blanks [.typeName .bool], _, by decide,
      .plain hn hc rfl⟩) ?_
    rintro type ts ty rfl ht
    have hts := hts.tail
    obtain ⟨acc', hacc, hpush⟩ := silent_push Param.layout acc ⟨name.span, ty⟩
    refine .silent_bind hpush (.check_bind
      (hadd [name, colon, type] (.of_phrase (.plain hn hc ht))) ?_ ?_)
    · rintro comma ts rfl hco
      refine .seen_bind ((ih (hts.drop 3)).imp fun ws s hs => ?_)
      exact hs.cons hacc fun as has => (Many.cons (Param.comma hn hc ht hco) has :)
    · rintro t us rfl -
      refine (ih (hts.drop 2)).imp fun ws s hs => ?_
      exact hs.cons hacc fun as has => (Many.cons (Param.plain hn hc ht) has :)

theorem params_stops {n : Nat} {acc ps : Sequence Frontend.Param} {ts us : List Token}
    (h : (params n acc).within ts = some (.ok ps, us)) :
    ∃ t vs, us = t :: vs ∧ t.kind = .rparen := by
  induction n generalizing acc ts with
  | zero => cases h
  | succ n ih =>
    rw [params] at h
    cases ts with
    | nil => cases h
    | cons t ts =>
      by_cases hk : t.kind = .rparen
      · change (if decide (t.kind = .rparen) then _ else _ : Parser _).within (t :: ts) = _ at h
        rw [decide_eq_true hk] at h
        cases h
        exact ⟨t, ts, rfl, hk⟩
      · change (if decide (t.kind = .rparen) then _ else _ : Parser _).within (t :: ts) = _ at h
        rw [decide_eq_false hk, if_neg (by decide)] at h
        obtain ⟨name, vs, -, h⟩ := within_bind_ok h
        obtain ⟨colon, vs, -, h⟩ := within_bind_ok h
        obtain ⟨ty, vs, -, h⟩ := within_bind_ok h
        obtain ⟨acc', vs, -, h⟩ := within_bind_ok h
        obtain ⟨comma, vs, -, h⟩ := within_bind_ok h
        split at h
        · obtain ⟨t, vs, -, h⟩ := within_bind_ok h
          exact ih h
        · exact ih h

theorem kind_head_params {ts : List Token} {as : List Frontend.Param} {r : TokenRow}
    (hm : Many Grammar.Param ts as) (hr : r.head.kind = .rparen) : (ts ++ r).head.kind ≠ .comma := by
  cases hm with
  | nil => simp [hr]
  | cons hp _ => cases hp <;> next hn _ _ => simp_all

theorem params_complete (n : Nat) (acc : Sequence Frontend.Param) {ts : List Token}
    {as : List Frontend.Param} {r : TokenRow} (hm : Many Grammar.Param ts as) (hn : ts.length < n)
    (hr : r.head.kind = .rparen) :
    ∃ ps : Sequence Frontend.Param, ps.items = acc.items ++ as ∧
      Gives ((params n acc).read (ts ++ r)) ps r := by
  obtain ⟨n, rfl⟩ : ∃ k, n = k + 1 := ⟨n - 1, by omega⟩
  induction hm generalizing n acc with
  | nil =>
    refine ⟨acc, (List.append_nil _).symm, ?_⟩
    rw [TokenRow.nil_append, params, read_check_bind, decide_eq_true hr]
    exact .refl _ _
  | @cons ts us a as hp hm ih =>
    rw [List.length_append] at hn
    rw [TokenRow.append_assoc]
    have hk := kind_head_params hm hr
    cases hp with
    | @plain name colon type ty hna hc ht =>
      simp only [List.length_cons, List.length_nil] at hn
      obtain ⟨n, rfl⟩ : ∃ k, n = k + 1 := ⟨n - 1, by omega⟩
      obtain ⟨acc', hacc, hg⟩ := gives_push Param.layout acc ⟨name.span, ty⟩ (us ++ r)
      obtain ⟨ps, hps, hg'⟩ := ih acc' n (by omega)
      refine ⟨ps, by rw [hps, hacc, List.append_assoc]; rfl, ?_⟩
      rw [params, read_check_bind, TokenRow.head_cons_append, hna]
      refine .expect_bind hna (.expect_bind hc (.typeName_bind ht (.bind hg ?_)))
      rw [read_check_bind, decide_eq_false hk]
      exact hg'
    | @comma name colon type comma ty hna hc ht hco =>
      simp only [List.length_cons, List.length_nil] at hn
      obtain ⟨n, rfl⟩ : ∃ k, n = k + 1 := ⟨n - 1, by omega⟩
      obtain ⟨acc', hacc, hg⟩ := gives_push Param.layout acc ⟨name.span, ty⟩ ([comma] ++ (us ++ r))
      obtain ⟨ps, hps, hg'⟩ := ih acc' n (by omega)
      refine ⟨ps, by rw [hps, hacc, List.append_assoc]; rfl, ?_⟩
      rw [params, read_check_bind, TokenRow.head_cons_append, hna]
      refine .expect_bind hna (.expect_bind hc (.typeName_bind ht (.bind hg ?_)))
      rw [read_check_bind, TokenRow.head_cons_append, decide_eq_true hco, if_pos rfl,
        read_take_bind, TokenRow.advance_cons_append]
      exact hg'

theorem returnType_decides (source : Text) (n : Nat) :
    Decides source (ReturnType source) n (returnType source n) := by
  intro ts hts
  refine .bind (skipNewlines_outcome hts) ?_ ?_
  · exact fun vs hvs => hvs.imp fun us _ hus => ⟨_, .void hus⟩
  · rintro vs ts _ - rfl hvs
    have hvoid : Behind vs (ReturnType source) [] .void := by
      rw [Behind, List.append_nil]
      exact .void hvs
    refine .check_bind (.of_phrase hvoid) (fun t us _ _ => .done hvoid _) fun t us _ _ => ?_
    refine .typeName_bind (.of_phrase hvoid) ?_
    rintro type us ty rfl ht
    refine .bind (skipNewlines_outcome (hts.of_append.drop 1)) ?_ ?_
    · exact fun ws hws => hws.imp fun us _ hus => ⟨_, .written hvs ht hus⟩
    · rintro ws us _ - rfl hws
      exact .complete (.written hvs ht hws) us

theorem returnType_complete (source : Text) (n : Nat) :
    Complete source (ReturnType source) (fun _ k => k = .lbrace) n (returnType source n) := by
  intro ts ty r h hn hk _
  have hr : r.head.kind ≠ .terminator := by rw [hk]; decide
  cases h with
  | void hts =>
    refine .bind (skipNewlines_complete hts hn hr) ?_
    rw [read_check_bind, decide_eq_true hk]
    exact .refl _ _
  | @written ts us type _ hts ht hus =>
    rw [List.length_append, List.length_cons] at hn
    rw [TokenRow.append_assoc]
    have hr' : (type :: us ++ r).head.kind ≠ .terminator := by simp [ht]
    refine .bind (skipNewlines_complete hts (by omega) hr') ?_
    rw [read_check_bind, TokenRow.head_cons_append, ht]
    exact .typeName_bind ht (.bind (skipNewlines_complete hus (by omega) hr) (.refl _ _))

/-! ## Functions -/

theorem function_decides (source : Text) (n : Nat) :
    Decides source (Grammar.Function source) n (function source n) := by
  intro ts hts
  have hstart : Viable (Grammar.Function source) [] := by
    obtain ⟨f, hf⟩ := @Function.of_params source ⟨.ident, .point 0⟩ ⟨.lparen, .point 0⟩ [] [] rfl rfl .nil
    exact ⟨blanks [.ident, .lparen, .rparen, .lbrace, .rbrace], f, by decide, hf⟩
  refine .expect_bind hstart ?_
  rintro name ts rfl hn
  have hopen : Viable (Grammar.Function source) [name] := by
    obtain ⟨f, hf⟩ := @Function.of_params source name ⟨.lparen, .point 0⟩ [] [] hn rfl .nil
    exact ⟨blanks [.lparen, .rparen, .lbrace, .rbrace], f, by decide, hf⟩
  refine .expect_bind hopen ?_
  rintro opening ts rfl ho
  obtain ⟨acc, hacc, hs⟩ := silent_start (α := Frontend.Param) Param.layout
  refine .silent_bind hs (.bind (params_outcome (hts.drop 2)) ?_ ?_)
  · refine fun vs hvs => hvs.followed [.rparen, .lbrace, .rbrace] (by decide) ?_
    rintro ws ps ⟨as, -, hm⟩
    exact Function.of_params source hn ho hm
  rintro vs us ps hstop rfl ⟨as, hps, hm⟩
  obtain ⟨closing, us, rfl, hc⟩ := params_stops hstop
  have hus : Fits source n us := (hts.drop 2).of_append.drop 1
  refine .seen_bind (.bind (returnType_decides source n hus) ?_ ?_)
  · refine fun ws hws => hws.followed [.lbrace, .rbrace] (by decide) fun rs ty hty => ?_
    exact Function.of_returnType hn ho hm hc hty
  rintro rs us ty - rfl hty
  have hbody {bs : List Token} {body : Frontend.Block} (hb : Grammar.Block source bs body) :
      Grammar.Function source (name :: opening :: (vs ++ closing :: (rs ++ bs)))
        ⟨name.span, as, ty, body, .combine name.span body.span⟩ := by
    have h := Function.intro hn ho hm hc hty hb
    rwa [List.append_assoc] at h
  refine .bind (block_decides source n hus.of_append) ?_ ?_
  · exact fun bs hbs => hbs.imp fun ws body hb => ⟨_, hbody hb⟩
  · rintro bs us body - rfl hb
    refine .congr (q := .done ⟨name.span, ps.items, ty, body, .combine name.span body.span⟩)
      (fun _ => rfl) (.complete ?_ us)
    rw [hps, hacc]
    exact hbody hb

theorem function_complete (source : Text) (n : Nat) :
    Complete source (Grammar.Function source) (fun _ _ => True) n (function source n) := by
  intro ts f r hf hn _ hr
  cases hf with
  | @intro name opening closing ps rs bs as ty body hna ho hm hc hty hb =>
    simp only [List.length_append, List.length_cons] at hn
    have hrs : AllSpelled source rs := fun t ht => hr t (by simp [ht])
    have hbs : AllSpelled source bs := (allSpelled_append.1 hr).2
    simp only [TokenRow.append_assoc]
    obtain ⟨acc, hacc, hg⟩ := gives_start Param.layout (ps ++ (closing :: rs ++ (bs ++ r)))
    obtain ⟨qs, hqs, hg'⟩ := params_complete n acc hm (by omega) (r := closing :: rs ++ (bs ++ r)) hc
    refine .expect_bind hna (.expect_bind ho (.bind hg (.bind hg' ?_)))
    have hk : (bs ++ r).head.kind = .lbrace := by
      cases hb with
      | intro ho => exact ho
    rw [read_take_bind, TokenRow.advance_cons_append]
    refine .bind (returnType_complete source n hty (by omega) hk hrs) ?_
    refine .bind (block_complete source n hb (by omega) trivial hbs) ?_
    rw [read_report, read_done, hqs, hacc]
    exact .refl _ _

def Lists (D : Phrases (List α)) (acc : Sequence α) : Phrases (List α) :=
  fun ts as => ∃ bs, as = acc.items ++ bs ∧ D ts bs

theorem functions_outcome {n m : Nat} {acc : Sequence Frontend.Function} {ts : List Token}
    (hm : m ≤ n) (hts : Fits source m ts) :
    Outcome source (Lists (Many (Grammar.Function source)) acc) (functions source n m acc) ts := by
  induction m generalizing acc ts with
  | zero => exact absurd hts.length_lt (Nat.not_lt_zero _)
  | succ m ih =>
    have hnone : Lists (Many (Grammar.Function source)) acc [] acc.items :=
      ⟨[], (List.append_nil _).symm, .nil⟩
    refine .check_bind (.of_phrase hnone) (fun t us _ _ => .done hnone _) fun t us _ _ => ?_
    refine .bind (function_decides source n (hts.mono hm)) ?_ ?_
    · exact fun vs hvs => hvs.imp fun us f hf => ⟨_, [f], rfl, .one hf⟩
    · rintro vs us f - rfl hf
      obtain ⟨acc', hacc, hpush⟩ := silent_push Function.layout acc f
      refine .silent_bind hpush ((ih (by omega) (hts.behind hf.opens.length_pos)).imp ?_)
      rintro ws fs ⟨as, rfl, has⟩
      exact ⟨f :: as, by rw [hacc, List.append_assoc]; rfl, .cons hf has⟩

theorem functions_stops {n m : Nat} {acc : Sequence Frontend.Function} {fs : List Frontend.Function}
    {ts us : List Token} (h : (functions source n m acc).within ts = some (.ok fs, us)) :
    ∃ t vs, us = t :: vs ∧ t.kind = .eof := by
  induction m generalizing acc ts with
  | zero => cases h
  | succ m ih =>
    rw [functions] at h
    cases ts with
    | nil => cases h
    | cons t ts =>
      by_cases hk : t.kind = .eof
      · change (if decide (t.kind = .eof) then _ else _ : Parser _).within (t :: ts) = _ at h
        rw [decide_eq_true hk] at h
        cases h
        exact ⟨t, ts, rfl, hk⟩
      · change (if decide (t.kind = .eof) then _ else _ : Parser _).within (t :: ts) = _ at h
        rw [decide_eq_false hk, if_neg (by decide)] at h
        obtain ⟨f, vs, -, h⟩ := within_bind_ok h
        obtain ⟨acc', vs, -, h⟩ := within_bind_ok h
        exact ih h

theorem functions_complete (n k : Nat) (acc : Sequence Frontend.Function) {ts : List Token}
    {as : List Frontend.Function} {r : TokenRow} (hm : Many (Grammar.Function source) ts as)
    (hk : r.head.kind = .eof) (hn : ts.length < n) (hl : ts.length < k)
    (hr : AllSpelled source ts) :
    Gives ((functions source n k acc).read (ts ++ r)) (acc.items ++ as) r := by
  obtain ⟨k, rfl⟩ : ∃ j, k = j + 1 := ⟨k - 1, by omega⟩
  induction hm generalizing k acc with
  | nil =>
    rw [TokenRow.nil_append, functions, read_check_bind, decide_eq_true hk, List.append_nil]
    exact .refl _ _
  | @cons ts us f as hf _ ih =>
    have ho := hf.opens
    have hpos := ho.length_pos
    rw [List.length_append] at hn hl
    obtain ⟨hts, hus⟩ := allSpelled_append.1 hr
    rw [TokenRow.append_assoc]
    obtain ⟨k, rfl⟩ : ∃ j, k = j + 1 := ⟨k - 1, by omega⟩
    rw [functions, read_check_bind, decide_eq_false (TokenRow.kind_head_ne ho rfl _)]
    obtain ⟨acc', hacc, hg⟩ := gives_push Function.layout acc f (us ++ r)
    have h := ih acc' (by omega) hus k (by omega)
    rw [hacc, List.append_assoc] at h
    exact .bind (function_complete source n hf (by omega) trivial hts) (.bind hg h)

/-! ## Programs -/

theorem program_decides (source : Text) (n : Nat) :
    Decides source (Functions source) n (program source n) := by
  intro ts hts
  obtain ⟨acc, hacc, hs⟩ := silent_start (α := Frontend.Function) Function.layout
  refine .silent_bind hs (.bind (functions_outcome (Nat.le_refl n) hts) ?_ ?_)
  · refine fun vs hvs => hvs.imp ?_
    rintro us _ ⟨fs, -, hm⟩
    exact ⟨_, fs, hm, rfl⟩
  · rintro vs us _ - rfl ⟨fs, rfl, hm⟩
    refine .complete ⟨fs, hm, ?_⟩ us
    rw [hacc, List.nil_append]

theorem program_stops {n : Nat} {p : Frontend.Program} {ts us : List Token}
    (h : (program source n).within ts = some (.ok p, us)) : ∃ t vs, us = t :: vs ∧ t.kind = .eof := by
  obtain ⟨acc, vs, -, h⟩ := within_bind_ok h
  obtain ⟨fs, ws, hfs, h⟩ := within_bind_ok h
  cases h
  exact functions_stops hfs

/-- An end of input is enough to come to an answer, and no loop is cut off before. -/
theorem program_answers {n : Nat} {ts : List Token} (hts : Fits source n ts) (hend : ¬ Inner ts) :
    ∃ x us, (program source n).within ts = some (x, us) ∧ x ≠ .error (.internal .stalled) := by
  cases program_decides source n hts with
  | read hw => exact ⟨_, _, hw, by simp⟩
  | hungry _ hD => exact absurd (hD.inner Functions.bounded) hend
  | @blamed vs us t e hsplit _ hw => exact ⟨_, _, hsplit ▸ hw us, by simp⟩
  | refused hw => exact ⟨_, _, hw, by simp⟩

theorem program_sound {n : Nat} {r : TokenRow} (hr : r.Regular source) (hn : r.toList.length < n)
    {p : Frontend.Program} (hp : ((program source n).read r).1 = .ok p) :
    Grammar.Program source r.toList p := by
  cases program_decides source n (hr.fits hn) with
  | @read vs us q hw hts hD =>
    cases hp.symm.trans (read_of_within hw)
    obtain ⟨t, us, rfl, ht⟩ := program_stops hw
    rw [hr.eq_nil_of_eof hts ht] at hts
    rw [hts]
    exact hD.ended ht
  | hungry _ hD => exact absurd (hD.inner Functions.bounded) hr.not_inner
  | @blamed vs us t e hts _ hw =>
    have hrow := (congrArg (program source n).within hts).trans (hw us)
    cases hp.symm.trans (read_of_within hrow)
  | refused hw => cases hp.symm.trans (read_of_within hw)

theorem program_complete (n : Nat) {r : TokenRow} {p : Frontend.Program}
    (hp : Grammar.Program source r.toList p) (hr : r.Regular source) (hn : r.toList.length ≤ n) :
    ∃ s, Gives ((program source n).read r) p s := by
  rcases r with ⟨t, us⟩
  generalize hts : (TokenRow.mk t us).toList = ts at hp hn
  cases hp with
  | @intro last ts as hm hk =>
    have hrow : TokenRow.mk t us = ts ++ TokenRow.mk last [] := by
      refine TokenRow.toList_inj ?_
      rw [TokenRow.toList_append]
      exact hts
    have hspelled := hr.spelled
    rw [hts] at hspelled
    rw [hrow]
    rw [List.length_append, List.length_singleton] at hn
    obtain ⟨acc, hacc, hg⟩ := gives_start Function.layout (ts ++ TokenRow.mk last [])
    have h := functions_complete n n acc hm (r := ⟨last, []⟩) hk (by omega) (by omega)
      (allSpelled_append.1 hspelled).1
    rw [hacc, List.nil_append] at h
    exact ⟨⟨last, []⟩, .bind hg (.bind h (.refl _ _))⟩

/-- Reading a program fails only where the grammar has none, or for want of memory. -/
theorem read_program_iff {n : Nat} {r : TokenRow} (hr : r.Regular source)
    (hn : r.toList.length < n)
    (hpool : ∀ e, ((program source n).read r).1 ≠ .error (.internal (.pool e)))
    (p : Frontend.Program) :
    ((program source n).read r).1 = .ok p ↔ Grammar.Program source r.toList p := by
  constructor
  · intro h
    exact program_sound hr hn h
  · intro h
    obtain ⟨s, hs⟩ := program_complete n h hr (Nat.le_of_lt hn)
    exact hs.answer.resolve_right fun ⟨e, he⟩ => hpool e he

end Frontend.Parser

namespace Frontend

namespace Session

end Session
end Frontend
