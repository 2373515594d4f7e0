import Frontend.Proofs.Parser.Parallel
import Frontend.Proofs.Tree.Outline

/-! # Printed trees are read back

Every reader answers what was printed and stops where the print ends, if what follows cannot be taken for
more of it. Of a tree that comes from a source this needs that names are identifiers: an identifier never
begins like a literal or with a parenthesis, so two kinds of nodes are told apart by their first characters.
-/
namespace Frontend

def Text.endsWord (t : Text) : Bool := !t.head?.any isWordChar

theorem Text.span_append {p : Char → Bool} {w t : Text} (hw : ∀ c ∈ w, p c)
    (ht : t.head?.any p = false) : (w ++ t).takeWhile p = w ∧ (w ++ t).dropWhile p = t := by
  have hnil : t.takeWhile p = [] := takeWhile_eq_nil_iff.2 ht
  have hdrop := List.takeWhile_append_dropWhile (p := p) (l := t)
  rw [hnil, List.nil_append] at hdrop
  refine ⟨?_, ?_⟩
  · rw [List.takeWhile_append_of_pos hw, hnil, List.append_nil]
  · rw [List.dropWhile_append_of_pos hw, hdrop]

theorem Text.endsWord_iff {t : Text} : t.endsWord ↔ t.head?.any isWordChar = false := by
  simp [endsWord]

namespace Reading
variable {α β : Type} {s t u w : Text}

theorem run_bind {p : Reading α} {f : α → Reading β} {a : α} (h : p.run t = some (a, u)) :
    (p >>= f).run t = (f a).run u := by
  rw [StateT.run_bind, h]
  rfl

theorem lit?_true (s t : Text) : (lit? s).run (s ++ t) = some (true, t) := by
  have hs : s.isPrefixOf (s ++ t) = true := List.isPrefixOf_iff_prefix.2 (List.prefix_append s t)
  change (if s.isPrefixOf (s ++ t) then _ else _) = _
  rw [if_pos hs, List.drop_left]

theorem lit?_false (h : s.isPrefixOf t = false) : (lit? s).run t = some (false, t) := by
  change (if s.isPrefixOf t then _ else _) = _
  rw [h]
  rfl

theorem lit_run (s t : Text) : (lit s).run (s ++ t) = some (⟨⟩, t) := run_bind (lit?_true s t)

theorem word_run (hw : ∀ c ∈ w, isWordChar c) (ht : t.endsWord) : word.run (w ++ t) = some (w, t) := by
  obtain ⟨htake, hdrop⟩ := Text.span_append hw (Text.endsWord_iff.1 ht)
  change some ((w ++ t).takeWhile isWordChar, (w ++ t).dropWhile isWordChar) = _
  rw [htake, hdrop]

theorem operator_run (o : BinOp) (t : Text) :
    operator.run (o.symbol ++ (" " ++ t)) = some (o, " " ++ t) := by
  cases o <;> rfl

theorem typeName_run (ty : Ty) (ht : t.endsWord) : typeName.run (ty.name ++ t) = some (ty, t) := by
  have hfind : (Ty.void :: Ty.written).find? (fun ty' => ty'.name = ty.name) = some ty := by
    rcases ty with i | _ | _
    · cases i <;> rfl
    · rfl
    · rfl
  rw [typeName, run_bind (word_run ty.isWordChar_of_mem_name ht), hfind]
  rfl

def optional (s : Text) (print : β → Text) : Option β → Text
  | none => []
  | some b => s ++ print b

theorem behind?_run {p : Reading α} {x : Option β} {print : β → Text} {outline : β → α}
    (h : ∀ b ∈ x, p.run (print b ++ t) = some (outline b, t)) (hs : s.isPrefixOf t = false) :
    (behind? s p).run (optional s print x ++ t) = some (x.map outline, t) := by
  cases x with
  | none => exact run_bind (lit?_false hs)
  | some b =>
    have hread : p.run (print b ++ t) = some (outline b, t) := h b rfl
    change (behind? s p).run (s ++ print b ++ t) = _
    rw [List.append_assoc, behind?, run_bind (lit?_true s _), if_pos rfl, run_bind hread]
    rfl

/-- Items are read if each is printed as some text, and is read off it in front of a separator and of
what stands behind the last. -/
theorem joined_run {p : Reading α} {print : β → Text} {outline : β → α} {ends : Text → Bool}
    {sep : Text} {bs : List β} (hne : bs ≠ []) (hprint : ∀ b ∈ bs, print b ≠ [])
    (h : ∀ b ∈ bs, ∀ t, ends t → p.run (print b ++ t) = some (outline b, t))
    (hsep : ∀ t, ends (sep ++ t)) (ht : ends t) (hstop : sep.isPrefixOf t = false) {n : Nat}
    (hn : (Text.join sep (bs.map print)).length ≤ n) :
    (joined sep p n).run (Text.join sep (bs.map print) ++ t) = some (bs.map outline, t) := by
  induction bs generalizing n with
  | nil => exact absurd rfl hne
  | cons b bs ih =>
    obtain ⟨hb, hbs⟩ := List.forall_mem_cons.1 h
    obtain ⟨hprintb, hprintbs⟩ := List.forall_mem_cons.1 hprint
    have hpos : 0 < (print b).length := List.length_pos_iff.2 hprintb
    by_cases hnil : bs = []
    · subst hnil
      have hn : (print b).length ≤ n := hn
      obtain ⟨n, rfl⟩ : ∃ m, n = m + 1 := ⟨n - 1, by omega⟩
      change (joined sep p (n + 1)).run (print b ++ t) = _
      rw [joined, run_bind (hb t ht), run_bind (lit?_false hstop)]
      rfl
    · have hmap : bs.map print ≠ [] := by simpa using hnil
      rw [List.map_cons, Text.join_cons hmap, List.length_append, List.length_append] at hn
      obtain ⟨n, rfl⟩ : ∃ m, n = m + 1 := ⟨n - 1, by omega⟩
      rw [List.map_cons, Text.join_cons hmap, List.append_assoc, List.append_assoc, joined,
        run_bind (hb _ (hsep _)), run_bind (lit?_true sep _), if_pos rfl,
        run_bind (ih hnil hprintbs hbs (by omega))]
      rfl

/-! ## Expressions -/

theorem head_of_isName (h : w.IsName) : ∃ c v, w = c :: v ∧ isWordStart c ∧ ∀ d ∈ w, isWordChar d := by
  obtain ⟨c, v, rfl, hc, hv, -⟩ := h
  exact ⟨c, v, rfl, hc, List.forall_mem_cons.2 ⟨isWordChar_of_isWordStart hc, hv⟩⟩

theorem not_isDigit_of_isWordStart {c : Char} (h : isWordStart c) : c.isDigit = false := by
  rcases Bool.or_eq_true_iff.1 h with hc | hc
  · rw [isAlpha_iff] at hc
    simp only [Char.isDigit, Bool.and_eq_false_iff, decide_eq_false_iff_not]
    grind
  · obtain rfl : c = '_' := by simpa using hc
    rfl

theorem leaf_name (h : w.IsName) (t : Text) : (leaf w).run t = some (.var none w, t) := by
  obtain ⟨c, v, rfl, hc, -⟩ := head_of_isName h
  have hdigit : c.isDigit = false := not_isDigit_of_isWordStart hc
  rw [leaf, if_neg]
  · rfl
  · simp [hdigit]

theorem isWordChar_of_mem_literal (suffix : Suffix) (value : Nat) :
    ∀ c ∈ suffix.literal value, isWordChar c := by
  refine List.forall_mem_append.2 ⟨fun c hc => ?_, suffix.isWordChar_of_mem_text⟩
  exact isWordChar_of_isDigit (Nat.isDigit_of_mem_toDigits (by decide) (by decide) hc)

theorem head_literal (suffix : Suffix) (value : Nat) :
    ∃ c v, suffix.literal value = c :: v ∧ c.isDigit := by
  obtain ⟨c, v, hv⟩ := List.exists_cons_of_ne_nil (Nat.toDigits_ne_nil (n := value) (b := 10))
  refine ⟨c, v ++ suffix.text, ?_, ?_⟩
  · rw [Suffix.literal, Text.ofNat, hv]
    rfl
  · exact Nat.isDigit_of_mem_toDigits (by decide) (by decide) (hv ▸ List.mem_cons_self)

theorem leaf_literal (suffix : Suffix) (value : Nat) (t : Text) :
    (leaf (suffix.literal value)).run t = some (.int none value suffix, t) := by
  have hdigits : ∀ c ∈ Nat.toDigits 10 value, c.isDigit := fun c hc =>
    Nat.isDigit_of_mem_toDigits (by decide) (by decide) hc
  have hsuffix : suffix.text.head?.any Char.isDigit = false := by
    rcases suffix with _ | i
    · rfl
    · cases i <;> rfl
  obtain ⟨htake, hdrop⟩ := Text.span_append hdigits hsuffix
  obtain ⟨c, v, hv, hc⟩ := head_literal suffix value
  have hhead : (suffix.literal value).head?.any Char.isDigit := by
    rw [hv]
    exact hc
  rw [leaf, if_pos hhead, Suffix.literal, Text.ofNat, htake, hdrop, Suffix.ofText?_eq_some.2 rfl,
    Nat.ofDigitChars_toDigits (by decide) (by decide)]
  rfl

/-- What an expression is printed as begins a word or opens a parenthesis. -/
theorem head_print {source : Text} {e : Expr} (h : e.Nested source) :
    ∃ c v, e.print source = c :: v ∧ (isWordChar c ∨ c = '(') := by
  cases h with
  | @int _ _ value suffix _ _ =>
    obtain ⟨c, v, hv, hc⟩ := head_literal suffix value
    exact ⟨c, v, hv, .inl (isWordChar_of_isDigit hc)⟩
  | var _ hname =>
    obtain ⟨c, v, hv, hc, -⟩ := head_of_isName hname
    exact ⟨c, v, hv, .inl (isWordChar_of_isWordStart hc)⟩
  | binary | call => exact ⟨_, _, rfl, .inr rfl⟩

theorem isPrefixOf_of_ne {c d : Char} (h : c ≠ d) (s t : Text) : (c :: s).isPrefixOf (d :: t) = false := by
  change ((c == d) && s.isPrefixOf t) = false
  rw [beq_false_of_ne h]
  rfl

theorem ne_of_isWordChar {c d : Char} (h : isWordChar c) (hd : isWordChar d = false) : d ≠ c := by
  rintro rfl
  exact Bool.false_ne_true (hd.symm.trans h)

theorem expr_word {c : Char} {v : Text} (hw : ∀ d ∈ c :: v, isWordChar d) (ht : t.endsWord) (n : Nat) :
    (expr (n + 1)).run (c :: v ++ t) = (leaf (c :: v)).run t := by
  have hopen : ("(" : Text).isPrefixOf (c :: v ++ t) = false :=
    isPrefixOf_of_ne (ne_of_isWordChar (hw c List.mem_cons_self) rfl) [] (v ++ t)
  rw [expr, run_bind (lit?_false hopen), if_neg Bool.false_ne_true, run_bind (word_run hw ht)]

section Expressions
variable {source : Text} {e l r : Expr} {es : List Expr}

/-- With turns enough, the expression is read off its print, whatever stands behind it. -/
def ReadsBack (source : Text) (e : Expr) : Prop := ∀ ⦃n t⦄, (e.print source).length ≤ n → t.endsWord →
  (expr n).run (e.print source ++ t) = some (e.outline source, t)

theorem readsBack_int (span : Span) (value : Nat) (suffix : Suffix) :
    ReadsBack source (.int span none value suffix) := by
  intro n t hn ht
  obtain ⟨c, v, hv, -⟩ := head_literal suffix value
  have hw := isWordChar_of_mem_literal suffix value
  rw [Expr.print_int, hv] at hn ⊢
  rw [hv] at hw
  obtain ⟨n, rfl⟩ := Nat.exists_eq_add_of_lt (Nat.lt_of_lt_of_le (Nat.zero_lt_succ _) hn)
  rw [expr_word hw ht, ← hv, leaf_literal]
  rfl

theorem readsBack_var {span name : Span} (h : (name.text source).IsName) :
    ReadsBack source (.var span none name) := by
  intro n t hn ht
  obtain ⟨c, v, hv, -, hw⟩ := head_of_isName h
  rw [Expr.print_var, hv] at hn ⊢
  rw [hv] at hw
  obtain ⟨n, rfl⟩ := Nat.exists_eq_add_of_lt (Nat.lt_of_lt_of_le (Nat.zero_lt_succ _) hn)
  rw [expr_word hw ht, ← hv, leaf_name h]
  rfl

theorem readsBack_binary {span : Span} (o : BinOp) (hl : ReadsBack source l) (hr : ReadsBack source r) :
    ReadsBack source (.binary span none o l r) := by
  intro n t hn ht
  rw [Expr.print_binary] at hn ⊢
  simp only [List.length_append] at hn
  simp only [List.append_assoc]
  have hopen : ("(" : Text).length = 1 := rfl
  obtain ⟨n, rfl⟩ : ∃ m, n = m + 1 := ⟨n - 1, by omega⟩
  have hcall (u : Text) : ("call " : Text).isPrefixOf (o.symbol ++ u) = false := by cases o <;> rfl
  rw [expr, run_bind (lit?_true _ _), if_pos rfl, run_bind (lit?_false (hcall _)),
    if_neg Bool.false_ne_true, run_bind (operator_run o _), run_bind (lit_run _ _),
    run_bind (hl (by omega) rfl), run_bind (lit_run _ _), run_bind (hr (by omega) rfl),
    run_bind (lit_run _ _)]
  rfl

theorem exprs_run (hes : ∀ e ∈ es, ReadsBack source e) {n : Nat}
    (hn : (Expr.printArgs source es).length < n) (t : Text) :
    (exprs n).run (Expr.printArgs source es ++ (")" ++ t)) =
      some (Expr.outlineArgs source es, ")" ++ t) := by
  induction es generalizing n with
  | nil =>
    obtain ⟨n, rfl⟩ : ∃ m, n = m + 1 := ⟨n - 1, by omega⟩
    rfl
  | cons e es ih =>
    obtain ⟨he, hes⟩ := List.forall_mem_cons.1 hes
    rw [Expr.printArgs_cons] at hn ⊢
    simp only [List.length_append] at hn
    simp only [List.append_assoc]
    have hblank : (" " : Text).length = 1 := rfl
    obtain ⟨n, rfl⟩ : ∃ m, n = m + 1 := ⟨n - 1, by omega⟩
    have hends : Text.endsWord (Expr.printArgs source es ++ (")" ++ t)) := by cases es <;> rfl
    rw [exprs, run_bind (lit?_true _ _), if_pos rfl, run_bind (he (by omega) hends),
      run_bind (ih hes (by omega))]
    rfl

theorem readsBack_call {span callee : Span} (h : (callee.text source).IsName)
    (hes : ∀ e ∈ es, ReadsBack source e) : ReadsBack source (.call span none callee es) := by
  intro n t hn ht
  rw [Expr.print_call] at hn ⊢
  simp only [List.length_append] at hn
  simp only [List.append_assoc]
  have hopen : ("(call " : Text).length = 6 := rfl
  obtain ⟨n, rfl⟩ : ∃ m, n = m + 1 := ⟨n - 1, by omega⟩
  obtain ⟨-, -, -, -, hw⟩ := head_of_isName h
  have hends : Text.endsWord (Expr.printArgs source es ++ (")" ++ t)) := by cases es <;> rfl
  have hsplit (u : Text) : "(call " ++ u = "(" ++ ("call " ++ u) := rfl
  rw [hsplit, expr, run_bind (lit?_true _ _), if_pos rfl, run_bind (lit?_true _ _), if_pos rfl,
    run_bind (word_run hw hends), run_bind (exprs_run hes (by omega) t), run_bind (lit_run _ _)]
  rfl

theorem readsBack (h : e.Nested source) (hf : e.Fresh) : ReadsBack source e := by
  induction h with
  | int =>
    cases hf
    exact readsBack_int _ _ _
  | var _ hname =>
    cases hf
    exact readsBack_var hname
  | binary _ _ _ ihl ihr =>
    cases hf with
    | binary hl hr => exact readsBack_binary _ (ihl hl) (ihr hr)
  | call _ hname _ ih =>
    cases hf with
    | call hes => exact readsBack_call hname fun e he => ih e he (hes e he)

end Expressions

/-! ## Statements -/

section Statements
variable {source : Text} {e : Expr} {s : Stmt} {n : Nat}

theorem print_bind (span name : Span) (ty : Option Ty) (init : Option Expr) (mutable : Bool) :
    Stmt.print source ⟨.bind name ty init mutable, span⟩ ++ t =
      (if mutable then "(mut " else "(let ") ++ (name.text source ++
        (optional ": " Ty.name ty ++ (optional " = " (Expr.print source) init ++ (")" ++ t)))) := by
  cases ty <;> cases init <;> simp [Stmt.print, optional]

theorem print_ret (span : Span) (value : Option Expr) :
    Stmt.print source ⟨.ret value, span⟩ ++ t =
      "(return" ++ (optional " " (Expr.print source) value ++ (")" ++ t)) := by
  cases value with
  | none => rfl
  | some e =>
    have hsplit (u : Text) : "(return " ++ u = "(return" ++ (" " ++ u) := rfl
    simp only [Stmt.print, optional, List.append_assoc]
    exact hsplit _

theorem binding_run {name : Span} {ty : Option Ty} {init : Option Expr} {mutable : Bool}
    (hname : (name.text source).IsName)
    (hinit : ∀ e ∈ init, ReadsBack source e ∧ (e.print source).length ≤ n) :
    (binding n mutable).run (name.text source ++
      (optional ": " Ty.name ty ++ (optional " = " (Expr.print source) init ++ (")" ++ t)))) =
      some (.bind (name.text source) ty (init.map (Expr.outline source)) mutable, t) := by
  obtain ⟨-, -, -, -, hw⟩ := head_of_isName hname
  have hafter : Text.endsWord (optional " = " (Expr.print source) init ++ (")" ++ t)) := by
    cases init <;> rfl
  have hends : Text.endsWord
      (optional ": " Ty.name ty ++ (optional " = " (Expr.print source) init ++ (")" ++ t))) := by
    cases ty with
    | none => exact hafter
    | some ty => rfl
  have hcolon : (": " : Text).isPrefixOf
      (optional " = " (Expr.print source) init ++ (")" ++ t)) = false := by cases init <;> rfl
  have hty := @behind?_run _ _ ": " _ typeName ty Ty.name id (fun ty _ => typeName_run ty hafter) hcolon
  have hread : ∀ e ∈ init, (expr n).run (e.print source ++ (")" ++ t)) =
      some (e.outline source, ")" ++ t) := fun e he => (hinit e he).1 (hinit e he).2 rfl
  have hexpr := @behind?_run _ _ " = " _ (expr n) init (Expr.print source) _ hread rfl
  rw [binding, run_bind (word_run hw hends), run_bind hty, run_bind hexpr, run_bind (lit_run _ _)]
  rw [Option.map_id_apply]
  rfl

/-- No expression is printed as the beginning of another statement. -/
theorem print_not_keyword (h : e.Nested source) (t : Text) :
    ("(let " : Text).isPrefixOf (e.print source ++ t) = false ∧
      ("(mut " : Text).isPrefixOf (e.print source ++ t) = false ∧
      ("(return" : Text).isPrefixOf (e.print source ++ t) = false := by
  have hword {c : Char} {v : Text} (hv : e.print source = c :: v) (hc : isWordChar c) (w : Text) :
      ('(' :: w).isPrefixOf (e.print source ++ t) = false := by
    rw [hv]
    exact isPrefixOf_of_ne (ne_of_isWordChar hc rfl) w (v ++ t)
  cases h with
  | @int _ _ value suffix _ _ =>
    obtain ⟨c, v, hv, hc⟩ := head_literal suffix value
    have hw := hword hv (isWordChar_of_isDigit hc)
    exact ⟨hw _, hw _, hw _⟩
  | var _ hname =>
    obtain ⟨c, v, hv, hc, -⟩ := head_of_isName hname
    have hw := hword hv (isWordChar_of_isWordStart hc)
    exact ⟨hw _, hw _, hw _⟩
  | @binary _ _ o => cases o <;> exact ⟨rfl, rfl, rfl⟩
  | call => exact ⟨rfl, rfl, rfl⟩

theorem stmt_run (h : s.Nested source) (hf : s.Fresh) (hn : (s.print source).length ≤ n)
    (ht : t.endsWord) : (stmt n).run (s.print source ++ t) = some (s.outline source, t) := by
  obtain ⟨form, span⟩ := s
  have hexpr : ∀ e ∈ Stmt.expr? ⟨form, span⟩, ReadsBack source e := fun e he =>
    readsBack (h.expr e he) (hf e he)
  cases form with
  | bind name ty init mutable =>
    have hlen : ∀ e ∈ init, (e.print source).length ≤ n := by
      rintro e ⟨⟩
      refine Nat.le_trans ?_ hn
      simp [Stmt.print]
      omega
    have hread := @binding_run t source n name ty init mutable (h.name name rfl)
      fun e he => ⟨hexpr e he, hlen e he⟩
    rw [print_bind]
    cases mutable with
    | false =>
      rw [if_neg Bool.false_ne_true, stmt, run_bind (lit?_true _ _), if_pos rfl]
      exact hread
    | true =>
      rw [if_pos rfl, stmt, run_bind (lit?_false rfl), if_neg Bool.false_ne_true,
        run_bind (lit?_true _ _), if_pos rfl]
      exact hread
  | expr e =>
    obtain ⟨hlet, hmut, hreturn⟩ := print_not_keyword (h.expr e rfl) t
    change (stmt n).run (e.print source ++ t) = _
    rw [stmt, run_bind (lit?_false hlet), if_neg Bool.false_ne_true, run_bind (lit?_false hmut),
      if_neg Bool.false_ne_true, run_bind (lit?_false hreturn), if_neg Bool.false_ne_true,
      run_bind (hexpr e rfl hn ht)]
    rfl
  | ret value =>
    have hread : ∀ e ∈ value, (expr n).run (e.print source ++ (")" ++ t)) =
        some (e.outline source, ")" ++ t) := by
      rintro e ⟨⟩
      refine hexpr e rfl (Nat.le_trans ?_ hn) rfl
      simp [Stmt.print]
      omega
    rw [print_ret, stmt, run_bind (lit?_false rfl), if_neg Bool.false_ne_true, run_bind (lit?_false rfl),
      if_neg Bool.false_ne_true, run_bind (lit?_true _ _), if_pos rfl, run_bind (behind?_run hread rfl),
      run_bind (lit_run _ _)]
    rfl

theorem print_apart (h : s.Nested source) (t : Text) :
    (s.print source ++ t).head?.any (fun c => c == ' ' || c == '\t') = false ∧
      ("\x7d" : Text).isPrefixOf (s.print source ++ t) = false := by
  have hhead : ∃ c v, s.print source = c :: v ∧ (isWordChar c ∨ c = '(') := by
    obtain ⟨form, span⟩ := s
    cases form with
    | bind name ty init mutable => cases mutable <;> exact ⟨_, _, rfl, .inr rfl⟩
    | expr e => exact head_print (h.expr e rfl)
    | ret value => cases value <;> exact ⟨_, _, rfl, .inr rfl⟩
  obtain ⟨c, v, hv, hc⟩ := hhead
  have hne {d : Char} (hd : isWordChar d = false) (hp : d ≠ '(') : d ≠ c := by
    rcases hc with hc | rfl
    · exact ne_of_isWordChar hc hd
    · exact hp
  have hblank : c ≠ ' ' ∧ c ≠ '\t' := ⟨(hne rfl (by decide)).symm, (hne rfl (by decide)).symm⟩
  have hbrace : '\x7d' ≠ c := hne rfl (by decide)
  rw [hv]
  refine ⟨?_, ?_⟩
  · simpa using hblank
  · exact isPrefixOf_of_ne hbrace [] (v ++ t)

theorem blanks_run (hw : ∀ c ∈ w, c = ' ' ∨ c = '\t')
    (ht : t.head?.any (fun c => c == ' ' || c == '\t') = false) :
    blanks.run (w ++ t) = some (⟨⟩, t) := by
  have hdrop := (Text.span_append (fun c hc => by simpa using hw c hc) ht).2
  change some (_, (w ++ t).dropWhile _) = _
  rw [hdrop]

def lines (source indent : Text) (ss : List Stmt) : Text := ss.flatMap (Stmt.printLine source indent 1)

theorem lines_cons (source indent : Text) (s : Stmt) (ss : List Stmt) :
    lines source indent (s :: ss) =
      indent ++ (s.print source ++ ("\n" ++ lines source indent ss)) := by
  have hindent : indentation indent 1 = indent := List.append_nil indent
  simp only [lines, List.flatMap_cons, Stmt.printLine, hindent, List.append_assoc]

theorem stmts_run {indent : Text} (hindent : ∀ c ∈ indent, c = ' ' ∨ c = '\t') {ss : List Stmt}
    (h : ∀ s ∈ ss, s.Nested source ∧ s.Fresh) {k : Nat} (hn : (lines source indent ss).length ≤ n)
    (hk : (lines source indent ss).length < k) (t : Text) :
    (stmts n k).run (lines source indent ss ++ ("\x7d" ++ t)) =
      some (ss.map (Stmt.outline source), t) := by
  induction ss generalizing k with
  | nil =>
    obtain ⟨k, rfl⟩ : ∃ m, k = m + 1 := ⟨k - 1, by omega⟩
    rfl
  | cons s ss ih =>
    obtain ⟨⟨hs, hf⟩, hss⟩ := List.forall_mem_cons.1 h
    have hnewline : ("\n" : Text).length = 1 := rfl
    rw [lines_cons] at hn hk ⊢
    simp only [List.length_append] at hn hk
    simp only [List.append_assoc]
    obtain ⟨k, rfl⟩ : ∃ m, k = m + 1 := ⟨k - 1, by omega⟩
    obtain ⟨hblank, hbrace⟩ := print_apart hs ("\n" ++ (lines source indent ss ++ ("\x7d" ++ t)))
    rw [stmts, run_bind (blanks_run hindent hblank), run_bind (lit?_false hbrace),
      if_neg Bool.false_ne_true, run_bind (stmt_run hs hf (by omega) rfl), run_bind (lit_run _ _),
      run_bind (ih hss (by omega) (by omega))]
    rfl

end Statements

/-! ## Functions -/

section Functions
variable {source : Text} {n : Nat}

theorem param_run {p : Param} (h : (p.name.text source).IsName) (ht : t.endsWord) :
    param.run (p.print source ++ t) = some ((p.name.text source, p.ty), t) := by
  obtain ⟨-, -, -, -, hw⟩ := head_of_isName h
  have hends : Text.endsWord (": " ++ (p.ty.name ++ t)) := rfl
  rw [Param.print, List.append_assoc, List.append_assoc, param, run_bind (word_run hw hends),
    run_bind (lit_run _ _), run_bind (typeName_run p.ty ht)]
  rfl

theorem params_run {ps : List Param} (h : ∀ p ∈ ps, (p.name.text source).IsName)
    (hn : (Text.join ", " (ps.map (Param.print source))).length ≤ n) (t : Text) :
    (params n).run (Text.join ", " (ps.map (Param.print source)) ++ (")" ++ t)) =
      some (ps.map fun p => (p.name.text source, p.ty), t) := by
  by_cases hnil : ps = []
  · subst hnil
    rfl
  · have hprint : ∀ p ∈ ps, p.print source ≠ [] := fun p _ => by simp [Param.print]
    have hopen : (")" : Text).isPrefixOf
        (Text.join ", " (ps.map (Param.print source)) ++ (")" ++ t)) = false := by
      obtain ⟨p, ps, rfl⟩ := List.exists_cons_of_ne_nil hnil
      obtain ⟨c, v, hv, hc, -⟩ := head_of_isName (h p List.mem_cons_self)
      have hne : ')' ≠ c := ne_of_isWordChar (isWordChar_of_isWordStart hc) rfl
      obtain ⟨u, hu⟩ : ∃ u, Text.join ", " ((p :: ps).map (Param.print source)) = c :: u := by
        cases ps <;> simp [Text.join, Param.print, hv]
      rw [hu]
      exact isPrefixOf_of_ne hne [] (u ++ (")" ++ t))
    have hread := joined_run hnil hprint (fun p hp t ht => param_run (h p hp) ht) (fun t => rfl)
      (show Text.endsWord (")" ++ t) from rfl) (rfl : (", " : Text).isPrefixOf (")" ++ t) = false) hn
    rw [params, run_bind (lit?_false hopen), if_neg Bool.false_ne_true, run_bind hread,
      run_bind (lit_run _ _)]
    rfl

theorem function_run {indent : Text} (hindent : ∀ c ∈ indent, c = ' ' ∨ c = '\t') {f : Function}
    (h : f.Nested source) (hf : f.Fresh) (hn : (f.print source indent).length ≤ n) (t : Text) :
    (function n).run (f.print source indent ++ t) = some (f.outline source, t) := by
  have hprint (t : Text) : f.print source indent ++ t = f.name.text source ++ ("(" ++
      (Text.join ", " (f.params.map (Param.print source)) ++ (")" ++ (" " ++ (f.ret.name ++
        (" \x7b\n" ++ (lines source indent f.body.stmts ++ ("\x7d" ++ t)))))))) := by
    have hclose : (") " : Text) = ")" ++ " " := rfl
    have hbrace (u : Text) : " " ++ ("\x7b\n" ++ u) = " \x7b\n" ++ u := rfl
    simp only [Function.print, Block.print, hclose, List.append_assoc, hbrace]
    rfl
  have hlen := congrArg List.length (hprint [])
  simp only [List.length_append, List.length_nil, Nat.add_zero] at hlen
  obtain ⟨-, -, -, -, hw⟩ := head_of_isName h.name
  have hopen : ("(" : Text).length = 1 := rfl
  rw [hprint, function, run_bind (word_run hw rfl), run_bind (lit_run _ _),
    run_bind (params_run h.params (by omega) _), run_bind (lit_run _ _),
    run_bind (typeName_run f.ret rfl), run_bind (lit_run _ _),
    run_bind (stmts_run hindent (fun s hs => ⟨h.body.stmts s hs, hf s hs⟩) (by omega) (by omega) t)]
  rfl

end Functions

end Reading

theorem Text.length_le_join (sep : Text) {ts : List Text} {t : Text} (h : t ∈ ts) :
    t.length ≤ (join sep ts).length := by
  induction ts with
  | nil => cases h
  | cons u us ih =>
    by_cases hus : us = []
    · subst hus
      rw [List.mem_singleton.1 h]
      exact Nat.le_refl _
    · rw [join_cons hus, List.length_append, List.length_append]
      rcases List.mem_cons.1 h with rfl | h
      · omega
      · have := ih h
        omega

/-- The reader recovers every program that was read, without its spans. -/
theorem readOutline_print {indent : Text} (hindent : ∀ c ∈ indent, c = ' ' ∨ c = '\t') {p : Program}
    (h : p.Nested) (hf : ∀ f ∈ p.functions, f.Fresh) :
    readOutline (p.print indent) = some p.outline := by
  have hprint : ∀ f ∈ p.functions, f.print p.source indent ≠ [] := fun f _ =>
    f.print_ne_nil p.source indent
  by_cases hnil : p.functions = []
  · rw [Program.print, Program.outline, hnil]
    rfl
  · have hne : p.print indent ≠ [] :=
      Text.join_ne_nil (by simpa using hnil) (by simpa using hprint)
    have hread : ∀ f ∈ p.functions, ∀ t, (Reading.function (p.print indent).length).run
        (f.print p.source indent ++ t) = some (f.outline p.source, t) := fun f hmem =>
      Reading.function_run hindent (h.functions f hmem) (hf f hmem)
        (Text.length_le_join "\n\n" (List.mem_map_of_mem hmem))
    have hjoined : (Reading.joined "\n\n" (Reading.function (p.print indent).length)
        (p.print indent).length).run (p.print indent ++ []) = some (p.outline, []) :=
      @Reading.joined_run _ _ [] _ _ _ (fun _ => true) _ _ hnil hprint (fun f hmem t _ => hread f hmem t)
        (fun _ => rfl) rfl rfl _ (Nat.le_refl _)
    rw [List.append_nil] at hjoined
    rw [readOutline, if_neg hne, hjoined]

namespace Session
variable {source source' : Text} {sys sys' : Pool.System} {pool pool' : Pool}
  {journal journal' : Log.Journal} {p q : Program}

/-- The print of a program that was read determines it up to spans, with names compared by their text:
it is read back, whatever blanks indent it, and so two programs with the same print are the same. -/
theorem print_determines {indent : Text} (hindent : ∀ c ∈ indent, c = ' ' ∨ c = '\t')
    (hp : (parseText sys source pool journal).1 = .ok p)
    (hq : (parseText sys' source' pool' journal').1 = .ok q) :
    readOutline (p.print indent) = some p.outline ∧
      (p.print indent = q.print indent → p.outline = q.outline) := by
  obtain ⟨ts, hts⟩ := accepted_of_unbounded (unbounded_of_parseText hp)
  obtain ⟨us, hus⟩ := accepted_of_unbounded (unbounded_of_parseText hq)
  have hreadp := readOutline_print hindent hts.nested hts.fresh
  have hreadq := readOutline_print hindent hus.nested hus.fresh
  refine ⟨hreadp, fun hprint => ?_⟩
  rw [hprint, hreadq] at hreadp
  exact (Option.some.inj hreadp).symm

theorem print_determines_call :
    let source : Text := "f() \x7b let call = g(1u8); \x7d"
    let source' : Text := "f()\x7blet call = (g(1u8));\x7d"
    let pool : Pool := ⟨.standard, ⟨0, 0x1000, 16⟩, [], 0, 0x1000⟩
    let call : Expr := .call ⟨17, 6⟩ none ⟨17, 1⟩ [.int ⟨19, 3⟩ none 1 (some .u8)]
    let call' : Expr := .call ⟨16, 6⟩ none ⟨16, 1⟩ [.int ⟨18, 3⟩ none 1 (some .u8)]
    let p : Program := .ofFunctions source [⟨⟨0, 1⟩, [], .void,
      ⟨[⟨.bind ⟨10, 4⟩ none call false, ⟨6, 18⟩⟩], ⟨4, 22⟩⟩, ⟨0, 26⟩⟩]
    let q : Program := .ofFunctions source' [⟨⟨0, 1⟩, [], .void,
      ⟨[⟨.bind ⟨8, 4⟩ none call' false, ⟨4, 20⟩⟩], ⟨3, 22⟩⟩, ⟨0, 25⟩⟩]
    (parseText .standard source pool (.empty .info)).1 = .ok p ∧
      (parseText .standard source' pool (.empty .info)).1 = .ok q ∧
      p.print "\t" = "f() void \x7b\n\t(let call = (call g 1u8))\n\x7d" ∧
      readOutline (p.print "\t") = some p.outline ∧ p.outline = q.outline := by
  intro source source' pool call call' p q
  have hp : (parseText .standard source pool (.empty .info)).1 = .ok p := by
    subst source pool call p
    rfl
  have hq : (parseText .standard source' pool (.empty .info)).1 = .ok q := by
    subst source' pool call' q
    rfl
  have hprint : p.print "\t" = "f() void \x7b\n\t(let call = (call g 1u8))\n\x7d" := by
    subst source call p
    rfl
  have hprint' : q.print "\t" = "f() void \x7b\n\t(let call = (call g 1u8))\n\x7d" := by
    subst source' call' q
    rfl
  have hindent : ∀ c ∈ ("\t" : Text), c = ' ' ∨ c = '\t' := fun c hc => .inr (by simpa using hc)
  obtain ⟨hread, heq⟩ := print_determines hindent hp hq
  exact ⟨hp, hq, hprint, hread, heq (hprint.trans hprint'.symm)⟩

end Session
end Frontend
