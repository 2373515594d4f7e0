import Frontend.Proofs.Token.Rescan
import Frontend.Proofs.Tree.Nesting
import Frontend.Tree.Printer

/-! # Trees further on in a text

A text put before a source moves every span of its tree by the size of that text, and nothing else. The
names are the same texts then, so the tree is printed as before.
-/
namespace Frontend

mutual

def Expr.shift (k : Nat) : Expr → Expr
  | .int span ty value suffix => .int (span.shift k) ty value suffix
  | .var span ty name => .var (span.shift k) ty (name.shift k)
  | .binary span ty o left right => .binary (span.shift k) ty o (left.shift k) (right.shift k)
  | .call span ty callee args => .call (span.shift k) ty (callee.shift k) (Expr.shiftArgs k args)

def Expr.shiftArgs (k : Nat) : List Expr → List Expr
  | [] => []
  | e :: es => e.shift k :: Expr.shiftArgs k es

end

def StmtForm.shift (k : Nat) : StmtForm → StmtForm
  | .bind name ty init mutable => .bind (name.shift k) ty (init.map (Expr.shift k)) mutable
  | .expr e => .expr (e.shift k)
  | .ret value => .ret (value.map (Expr.shift k))

def Stmt.shift (k : Nat) (s : Stmt) : Stmt := ⟨s.form.shift k, s.span.shift k⟩

def Block.shift (k : Nat) (b : Block) : Block := ⟨b.stmts.map (Stmt.shift k), b.span.shift k⟩

def Param.shift (k : Nat) (p : Param) : Param := ⟨p.name.shift k, p.ty⟩

def Function.shift (k : Nat) (f : Function) : Function :=
  ⟨f.name.shift k, f.params.map (Param.shift k), f.ret, f.body.shift k, f.span.shift k⟩

/-! ## Spans -/

namespace Text

theorem dropBytes?_append_size (before t : Text) (n : Nat) :
    dropBytes? (n + size before) (before ++ t) = dropBytes? n t := by
  induction before with
  | nil => rfl
  | cons c before ih =>
    have hc := c.utf8Size_pos
    obtain ⟨m, hm⟩ : ∃ m, n + (c.utf8Size + size before) = m + 1 :=
      ⟨n + (c.utf8Size + size before) - 1, by omega⟩
    rw [size_cons, List.cons_append, hm, dropBytes?, if_pos (by omega),
      show m + 1 - c.utf8Size = n + size before by omega, ih]

theorem dropBytes?_append {n : Nat} {t u : Text} (h : dropBytes? n t = some u) (after : Text) :
    dropBytes? n (t ++ after) = some (u ++ after) := by
  fun_induction dropBytes? n t with
  | case1 t =>
    cases h
    exact dropBytes?_zero _
  | case2 => cases h
  | case3 n c t hle ih =>
    rw [List.cons_append, dropBytes?, if_pos hle]
    exact ih h
  | case4 => cases h

theorem takeBytes?_append {n : Nat} {t u : Text} (h : takeBytes? n t = some u) (after : Text) :
    takeBytes? n (t ++ after) = some u := by
  fun_induction takeBytes? n t generalizing u with
  | case1 t => exact (takeBytes?_zero _).trans h
  | case2 => cases h
  | case3 n c t hle ih =>
    obtain ⟨v, hv, rfl⟩ := Option.map_eq_some_iff.1 h
    rw [List.cons_append, takeBytes?, if_pos hle, ih hv]
    rfl
  | case4 => cases h

theorem slice?_before (before t : Text) (start len : Nat) :
    slice? (start + size before) len (before ++ t) = slice? start len t := by
  rw [slice?, slice?, dropBytes?_append_size]

theorem slice?_after {start len : Nat} {t w : Text} (h : slice? start len t = some w) (after : Text) :
    slice? start len (t ++ after) = some w := by
  obtain ⟨u, hu, hw⟩ := Option.bind_eq_some_iff.1 h
  rw [slice?, dropBytes?_append hu]
  exact takeBytes?_append hw after

end Text

namespace Span

theorem text_shift (before source : Text) (s : Span) :
    (s.shift (Text.size before)).text (before ++ source) = s.text source := by
  rw [text, text, shift, Text.slice?_before]

theorem text_after {s : Span} {source w : Text} (h : Text.slice? s.start s.len source = some w)
    (after : Text) : s.text (source ++ after) = s.text source := by
  rw [text, text, Text.slice?_after h, h]

theorem slice?_of_text_ne_nil {s : Span} {source : Text} (h : s.text source ≠ []) :
    ∃ w, Text.slice? s.start s.len source = some w := by
  cases hs : Text.slice? s.start s.len source with
  | some w => exact ⟨w, rfl⟩
  | none =>
    rw [text, hs] at h
    exact absurd rfl h

theorem shift_combine (k : Nat) (l r : Span) :
    (combine l r).shift k = combine (l.shift k) (r.shift k) := by
  simp only [combine, stop, shift, Span.mk.injEq, true_and]
  omega

end Span

/-! ## Trees -/

theorem Expr.shiftArgs_eq (k : Nat) (es : List Expr) : shiftArgs k es = es.map (shift k) := by
  induction es with
  | nil => rfl
  | cons e es ih => rw [shiftArgs, ih, List.map_cons]

theorem Expr.span_shift (k : Nat) (e : Expr) : (e.shift k).span = e.span.shift k := by
  cases e <;> rfl

theorem Expr.shift_zero (e : Expr) : e.shift 0 = e := by
  induction e using @Expr.rec _ fun es => shiftArgs 0 es = es with
  | int | var | nil => rfl
  | binary _ _ _ _ _ ihl ihr => simp only [shift, Span.shift_zero, ihl, ihr]
  | call _ _ _ _ ih => simp only [shift, Span.shift_zero, ih]
  | cons _ _ ihe ihes => simp only [shiftArgs, ihe, ihes]

theorem Stmt.shift_zero (s : Stmt) : s.shift 0 = s := by
  obtain ⟨form, span⟩ := s
  have hinit (init : Option Expr) : init.map (Expr.shift 0) = init := by
    cases init with
    | none => rfl
    | some e => exact congrArg some e.shift_zero
  cases form with
  | bind => simp only [shift, StmtForm.shift, Span.shift_zero, hinit]
  | expr e => simp only [shift, StmtForm.shift, Span.shift_zero, e.shift_zero]
  | ret value => simp only [shift, StmtForm.shift, Span.shift_zero, hinit]

theorem Function.shift_zero (f : Function) : f.shift 0 = f := by
  have hparams : f.params.map (Param.shift 0) = f.params := List.map_id'' (fun p => rfl) _
  have hstmts : f.body.stmts.map (Stmt.shift 0) = f.body.stmts := List.map_id'' Stmt.shift_zero _
  rw [shift, Block.shift, hparams, hstmts]
  rfl

/-! ## Printing -/

section Print
variable (before source after : Text)

theorem Expr.print_shift (e : Expr) :
    (e.shift (Text.size before)).print (before ++ source) = e.print source := by
  induction e using @Expr.rec _ fun es =>
    printArgs (before ++ source) (shiftArgs (Text.size before) es) = printArgs source es with
  | int => simp only [shift, print_int]
  | var => simp only [shift, print_var, Span.text_shift]
  | binary _ _ _ _ _ ihl ihr => simp only [shift, print_binary, ihl, ihr]
  | call _ _ _ _ ih => simp only [shift, print_call, Span.text_shift, ih]
  | nil => simp only [shiftArgs, printArgs_nil]
  | cons _ _ ihe ihes => simp only [shiftArgs, printArgs_cons, ihe, ihes]

theorem Stmt.print_shift (s : Stmt) :
    (s.shift (Text.size before)).print (before ++ source) = s.print source := by
  obtain ⟨form, span⟩ := s
  cases form with
  | bind name ty init mutable =>
    cases init with
    | none => simp only [print, shift, StmtForm.shift, Option.map_none, Span.text_shift]
    | some e =>
      simp only [print, shift, StmtForm.shift, Option.map_some, Span.text_shift, Expr.print_shift]
  | expr e => exact Expr.print_shift before source e
  | ret value =>
    cases value with
    | none => rfl
    | some e => simp only [print, shift, StmtForm.shift, Option.map_some, Expr.print_shift]

theorem Function.print_shift (indent : Text) (f : Function) :
    (f.shift (Text.size before)).print (before ++ source) indent = f.print source indent := by
  have hparam (p : Param) : (p.shift (Text.size before)).print (before ++ source) = p.print source := by
    rw [Param.print, Param.print, Param.shift, Span.text_shift]
  have hline (s : Stmt) : (s.shift (Text.size before)).printLine (before ++ source) indent (0 + 1) =
      s.printLine source indent (0 + 1) := by
    rw [Stmt.printLine, Stmt.printLine, Stmt.print_shift]
  simp only [print, Block.print, shift, Block.shift, Span.text_shift, List.map_map, List.flatMap_map,
    Function.comp_def, hparam, hline]

variable {source}

theorem Span.text_name {name : Span} (h : (name.text source).IsName) :
    name.text (source ++ after) = name.text source := by
  obtain ⟨c, t, ht, -⟩ := h
  obtain ⟨w, hw⟩ := slice?_of_text_ne_nil (by rw [ht]; exact List.cons_ne_nil c t)
  exact text_after hw after

theorem Expr.printArgs_congr {source' : Text} {es : List Expr}
    (h : ∀ e ∈ es, e.print source' = e.print source) : printArgs source' es = printArgs source es := by
  induction es with
  | nil => rfl
  | cons e es ih =>
    obtain ⟨he, hes⟩ := List.forall_mem_cons.1 h
    rw [printArgs_cons, printArgs_cons, he, ih hes]

theorem Expr.print_after {e : Expr} (h : e.Nested source) :
    e.print (source ++ after) = e.print source := by
  induction h with
  | int => simp only [print_int]
  | var _ hname => simp only [print_var, Span.text_name after hname]
  | binary _ _ _ ihl ihr => simp only [print_binary, ihl, ihr]
  | call _ hname _ ih => simp only [print_call, Span.text_name after hname, printArgs_congr ih]

theorem Stmt.print_after {s : Stmt} (h : s.Nested source) :
    s.print (source ++ after) = s.print source := by
  obtain ⟨form, span⟩ := s
  have hexpr := h.expr
  cases form with
  | bind name ty init mutable =>
    have hname := Span.text_name after (h.name name rfl)
    cases init with
    | none => simp only [print, hname]
    | some e => simp only [print, hname, Expr.print_after after (hexpr e rfl)]
  | expr e => exact Expr.print_after after (hexpr e rfl)
  | ret value =>
    cases value with
    | none => rfl
    | some e => simp only [print, Expr.print_after after (hexpr e rfl)]

theorem Function.print_after {f : Function} (h : f.Nested source) (indent : Text) :
    f.print (source ++ after) indent = f.print source indent := by
  have hparams : f.params.map (Param.print (source ++ after)) = f.params.map (Param.print source) :=
    List.map_congr_left fun p hp => by
      rw [Param.print, Param.print, Span.text_name after (h.params p hp)]
  have hlines : f.body.stmts.flatMap (Stmt.printLine (source ++ after) indent (0 + 1)) =
      f.body.stmts.flatMap (Stmt.printLine source indent (0 + 1)) :=
    congrArg List.flatten <| List.map_congr_left fun s hs => by
      rw [Stmt.printLine, Stmt.printLine, Stmt.print_after after (h.body.stmts s hs)]
  rw [print, print, Span.text_name after h.name, hparams, Block.print, Block.print, hlines]

end Print

theorem Text.join_cons {sep t : Text} {ts : List Text} (h : ts ≠ []) :
    join sep (t :: ts) = t ++ sep ++ join sep ts := by
  cases ts with
  | nil => exact absurd rfl h
  | cons u us => rfl

theorem Text.join_append {sep : Text} {ts us : List Text} (ht : ts ≠ []) (hu : us ≠ []) :
    join sep (ts ++ us) = join sep ts ++ sep ++ join sep us := by
  induction ts with
  | nil => exact absurd rfl ht
  | cons t ts ih =>
    by_cases hts : ts = []
    · rw [hts]
      exact join_cons hu
    · have happ : ts ++ us ≠ [] := fun h => hts (List.append_eq_nil_iff.1 h).1
      rw [List.cons_append, join_cons happ, join_cons hts, ih hts]
      simp only [List.append_assoc]

theorem Text.join_ne_nil {sep : Text} {ts : List Text} (hne : ts ≠ []) (h : ∀ t ∈ ts, t ≠ []) :
    join sep ts ≠ [] := by
  cases ts with
  | nil => exact absurd rfl hne
  | cons t ts =>
    have ht : t ≠ [] := h t List.mem_cons_self
    by_cases hts : ts = []
    · rw [hts]
      exact ht
    · rw [join_cons hts]
      simp [ht]

theorem Text.join_parts (sep : Text) {ts us : List Text} (ht : ∀ t ∈ ts, t ≠ [])
    (hu : ∀ u ∈ us, u ≠ []) :
    join sep (ts ++ us) = join sep ([join sep ts, join sep us].filter (· ≠ [])) := by
  have hfilter {vs : List Text} (hv : ∀ v ∈ vs, v ≠ []) (rest : List Text) (hne : vs ≠ []) :
      (join sep vs :: rest).filter (· ≠ []) = join sep vs :: rest.filter (· ≠ []) :=
    List.filter_cons_of_pos (decide_eq_true (join_ne_nil hne hv))
  by_cases hts : ts = []
  · subst hts
    by_cases hus : us = []
    · rw [hus]
      rfl
    · rw [List.nil_append, List.filter_cons_of_neg (by simp [join]), hfilter hu [] hus]
      rfl
  · by_cases hus : us = []
    · rw [hus, List.append_nil, hfilter ht _ hts]
      rfl
    · rw [join_append hts hus, hfilter ht _ hts, hfilter hu [] hus]
      rfl

theorem Function.print_ne_nil (source indent : Text) (f : Function) :
    f.print source indent ≠ [] := by
  simp [print]

end Frontend
