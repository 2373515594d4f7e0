import Frontend.Proofs.Grammar.Transfer
import Frontend.Tree.Printer
import Mathlib.Data.List.Forall2

/-! # Phrases with the same texts

Of its tokens a phrase takes the kinds and, of a name, a literal or the end of a line, the text. So tokens of
the same kinds and texts are a phrase wherever they stand in another source, and what they stand for is
printed alike.
-/
namespace Frontend

/-- The second token is the first one, as far as kind and text show, in another source. -/
structure Token.Alike (source source' : Text) (t t' : Token) : Prop where
  kind : t'.kind = t.kind
  text : t'.span.text source' = t.span.text source

/-- One token for the other, the rows are alike. -/
def Alike (source source' : Text) : List Token → List Token → Prop :=
  List.Forall₂ (Token.Alike source source')

namespace Alike
variable {source source' : Text} {ts us vs : List Token} {t : Token}

theorem symm (h : Alike source source' ts us) : Alike source' source us ts :=
  List.Forall₂.flip (h.imp fun _ _ ht => ⟨ht.kind.symm, ht.text.symm⟩)

theorem split (h : Alike source source' (ts ++ us) vs) :
    ∃ ws xs, vs = ws ++ xs ∧ Alike source source' ts ws ∧ Alike source source' us xs := by
  refine ⟨vs.take ts.length, vs.drop ts.length, (List.take_append_drop ..).symm, ?_, ?_⟩
  · exact (List.forall₂_take_append vs ts us h.flip).flip
  · exact (List.forall₂_drop_append vs ts us h.flip).flip

theorem uncons (h : Alike source source' (t :: ts) vs) :
    ∃ u us, vs = u :: us ∧ Token.Alike source source' t u ∧ Alike source source' ts us := by
  cases h with
  | cons ht hts => exact ⟨_, _, rfl, ht, hts⟩

theorem nil_eq (h : Alike source source' [] vs) : vs = [] := by
  cases h
  rfl

theorem single (h : Alike source source' [t] vs) :
    ∃ u, vs = [u] ∧ Token.Alike source source' t u := by
  obtain ⟨u, us, rfl, hu, hnil⟩ := h.uncons
  obtain rfl := hnil.nil_eq
  exact ⟨u, rfl, hu⟩

theorem forall_mem {p q : Token → Prop} (h : Alike source source' ts us)
    (hp : ∀ t u, Token.Alike source source' t u → p t → q u) (hts : ∀ t ∈ ts, p t) :
    ∀ u ∈ us, q u := by
  induction h with
  | nil => simp
  | cons ht _ ih =>
    obtain ⟨hpt, hts⟩ := List.forall_mem_cons.1 hts
    exact List.forall_mem_cons.2 ⟨hp _ _ ht hpt, ih hts⟩

end Alike

namespace Grammar
variable {source source' : Text} {ts us : List Token}

theorem Spells.alike {t t' : Token} {suffix : Suffix} {value : Nat}
    (h : Spells source t.span suffix value) (ht : Token.Alike source source' t t') :
    Spells source' t'.span suffix value := by
  obtain ⟨digits, hn, hd, htext, hvalue⟩ := h
  exact ⟨digits, hn, hd, ht.text.trans htext, hvalue⟩

theorem AllSpelled.alike (h : AllSpelled source ts) (hrow : Alike source source' ts us) :
    AllSpelled source' us := by
  refine hrow.forall_mem (fun t t' ht hspelled suffix hk => ?_) h
  obtain ⟨value, hv, hs⟩ := hspelled suffix (ht.kind.symm.trans hk)
  exact ⟨value, hv, hs.alike ht⟩

theorem IsNewline.alike {t t' : Token} (ht : Token.Alike source source' t t') (h : IsNewline source t) :
    IsNewline source' t' :=
  ⟨ht.kind.trans h.1, ht.text ▸ h.2⟩

/-- A row that is alike stands in the other source for something that shows the same. -/
def Reprinted {α β : Type} (shows : Text → α → β) (source source' : Text) (phrase : Phrases α)
    (ts : List Token) (a : α) : Prop :=
  ∀ us, Alike source source' ts us → ∃ a', phrase us a' ∧ shows source' a' = shows source a

theorem Reprinted.imp {α β : Type} {shows : Text → α → β} {phrase phrase' : Phrases α} {a : α}
    (h : Reprinted shows source source' phrase ts a) (hp : ∀ {us a}, phrase us a → phrase' us a) :
    Reprinted shows source source' phrase' ts a := by
  intro us hus
  obtain ⟨a', ha', hshows⟩ := h us hus
  exact ⟨a', hp ha', hshows⟩

/-! ## Expressions -/

section Expressions
variable {e : Expr}

theorem Reprinted.join {p : Precedence} {operand : Phrases Expr} {l r : Expr} {t : Token} {o : BinOp}
    (hl : Reprinted Expr.print source source' (Level p operand) ts l) (hk : t.kind = .op o)
    (hp : o.precedence = p) (hr : Reprinted Expr.print source source' operand us r) :
    Reprinted Expr.print source source' (Level p operand) (ts ++ t :: us)
      (.binary (.combine l.span r.span) none o l r) := by
  intro row hrow
  obtain ⟨vs, ws, rfl, hvs, hws⟩ := hrow.split
  obtain ⟨w, ws, rfl, hw, hws⟩ := hws.uncons
  obtain ⟨l', hl', hprintl⟩ := hl _ hvs
  obtain ⟨r', hr', hprintr⟩ := hr _ hws
  refine ⟨_, .join hl' (hw.kind.trans hk) hp hr', ?_⟩
  rw [Expr.print_binary, Expr.print_binary, hprintl, hprintr]

theorem Expression.reprinted (h : Expression source ts e) :
    Reprinted Expr.print source source' (Expression source') ts e := by
  induction h using @Expression.rec source _
    (fun ts e _ => Reprinted Expr.print source source'
      (Level .comparison (Level .sum (Level .product (Primary source' (Expression source'))))) ts e)
    (fun ts e _ => Reprinted Expr.print source source'
      (Level .sum (Level .product (Primary source' (Expression source')))) ts e)
    (fun ts e _ => Reprinted Expr.print source source'
      (Level .product (Primary source' (Expression source'))) ts e)
    (fun ts e _ => Reprinted Expr.print source source' (Primary source' (Expression source')) ts e)
    (fun ts es _ => Reprinted Expr.printArgs source source' (Arguments (Expression source')) ts es)
    (fun ts es _ => Reprinted Expr.printArgs source source' (Items (Expression source')) ts es)
  case intro ih => exact ih.imp .intro
  case operand ih | operand ih | operand ih => exact ih.imp .operand
  case join hk hp _ ihl ihr | join hk hp _ ihl ihr | join hk hp _ ihl ihr => exact ihl.join hk hp ihr
  case int hk hs =>
    intro row hrow
    obtain ⟨u, rfl, hu⟩ := hrow.single
    exact ⟨_, .int (hu.kind.trans hk) (hs.alike hu), rfl⟩
  case var hk =>
    intro row hrow
    obtain ⟨u, rfl, hu⟩ := hrow.single
    exact ⟨_, .var (hu.kind.trans hk), hu.text⟩
  case call hk ho _ hc ih =>
    intro row hrow
    obtain ⟨us, vs, rfl, hus, hvs⟩ := hrow.split
    obtain ⟨u, us, rfl, hu, hus⟩ := hus.uncons
    obtain ⟨opening, us, rfl, hopening, hus⟩ := hus.uncons
    obtain ⟨closing, rfl, hclosing⟩ := hvs.single
    obtain ⟨es', hes', hprint⟩ := ih _ hus
    refine ⟨_, .call (hu.kind.trans hk) (hopening.kind.trans ho) hes' (hclosing.kind.trans hc), ?_⟩
    rw [Expr.print_call, Expr.print_call, hprint, hu.text]
  case group ho _ hc ih =>
    intro row hrow
    obtain ⟨us, vs, rfl, hus, hvs⟩ := hrow.split
    obtain ⟨opening, us, rfl, hopening, hus⟩ := hus.uncons
    obtain ⟨closing, rfl, hclosing⟩ := hvs.single
    obtain ⟨e', he', hprint⟩ := ih _ hus
    exact ⟨e', .group (hopening.kind.trans ho) he' (hclosing.kind.trans hc), hprint⟩
  case none =>
    intro row hrow
    obtain rfl := hrow.nil_eq
    exact ⟨[], .none, rfl⟩
  case items ih => exact ih.imp .items
  case trailing hk ih =>
    intro row hrow
    obtain ⟨us, vs, rfl, hus, hvs⟩ := hrow.split
    obtain ⟨comma, rfl, hcomma⟩ := hvs.single
    obtain ⟨es', hes', hprint⟩ := ih _ hus
    exact ⟨es', .trailing hes' (hcomma.kind.trans hk), hprint⟩
  case one ih =>
    intro row hrow
    obtain ⟨e', he', hprint⟩ := ih _ hrow
    refine ⟨[e'], .one he', ?_⟩
    rw [Expr.printArgs_cons, Expr.printArgs_cons, hprint]
    rfl
  case more hk _ ih ihs =>
    intro row hrow
    obtain ⟨us, vs, rfl, hus, hvs⟩ := hrow.split
    obtain ⟨comma, vs, rfl, hcomma, hvs⟩ := hvs.uncons
    obtain ⟨e', he', hprint⟩ := ih _ hus
    obtain ⟨es', hes', hprints⟩ := ihs _ hvs
    refine ⟨e' :: es', .more he' (hcomma.kind.trans hk) hes', ?_⟩
    rw [Expr.printArgs_cons, Expr.printArgs_cons, hprint, hprints]

end Expressions

/-! ## Statements -/

theorem Statement.reprinted {s : Stmt} (h : Statement source ts s) :
    Reprinted Stmt.print source source' (Statement source') ts s := by
  intro row hrow
  cases h with
  | init hw hn hq he hl =>
    obtain ⟨us, vs, rfl, hus, hvs⟩ := hrow.split
    obtain ⟨word, us, rfl, hword, hus⟩ := hus.uncons
    obtain ⟨name, us, rfl, hname, hus⟩ := hus.uncons
    obtain ⟨eq, us, rfl, heq, hus⟩ := hus.uncons
    obtain ⟨last, rfl, hlast⟩ := hvs.single
    obtain ⟨e', he', hprint⟩ := he.reprinted _ hus
    refine ⟨_, .init (hword.kind.trans hw) (hname.kind.trans hn) (heq.kind.trans hq) he'
      (hlast.kind.trans hl), ?_⟩
    simp only [Stmt.print, hname.text, hprint]
  | typed hw hn hc ht hq he hl =>
    obtain ⟨us, vs, rfl, hus, hvs⟩ := hrow.split
    obtain ⟨word, us, rfl, hword, hus⟩ := hus.uncons
    obtain ⟨name, us, rfl, hname, hus⟩ := hus.uncons
    obtain ⟨colon, us, rfl, hcolon, hus⟩ := hus.uncons
    obtain ⟨type, us, rfl, htype, hus⟩ := hus.uncons
    obtain ⟨eq, us, rfl, heq, hus⟩ := hus.uncons
    obtain ⟨last, rfl, hlast⟩ := hvs.single
    obtain ⟨e', he', hprint⟩ := he.reprinted _ hus
    refine ⟨_, .typed (hword.kind.trans hw) (hname.kind.trans hn) (hcolon.kind.trans hc)
      (htype.kind.trans ht) (heq.kind.trans hq) he' (hlast.kind.trans hl), ?_⟩
    simp only [Stmt.print, hname.text, hprint]
  | declared hw hn hc ht hl =>
    obtain ⟨word, us, rfl, hword, hus⟩ := hrow.uncons
    obtain ⟨name, us, rfl, hname, hus⟩ := hus.uncons
    obtain ⟨colon, us, rfl, hcolon, hus⟩ := hus.uncons
    obtain ⟨type, us, rfl, htype, hus⟩ := hus.uncons
    obtain ⟨last, rfl, hlast⟩ := hus.single
    refine ⟨_, .declared (hword.kind.trans hw) (hname.kind.trans hn) (hcolon.kind.trans hc)
      (htype.kind.trans ht) (hlast.kind.trans hl), ?_⟩
    simp only [Stmt.print, hname.text]
  | ret hw hl =>
    obtain ⟨word, us, rfl, hword, hus⟩ := hrow.uncons
    obtain ⟨last, rfl, hlast⟩ := hus.single
    exact ⟨_, .ret (hword.kind.trans hw) (hlast.kind.trans hl), rfl⟩
  | retValue hw he hl =>
    obtain ⟨us, vs, rfl, hus, hvs⟩ := hrow.split
    obtain ⟨word, us, rfl, hword, hus⟩ := hus.uncons
    obtain ⟨last, rfl, hlast⟩ := hvs.single
    obtain ⟨e', he', hprint⟩ := he.reprinted _ hus
    refine ⟨_, .retValue (hword.kind.trans hw) he' (hlast.kind.trans hl), ?_⟩
    simp only [Stmt.print, hprint]
  | expr he hl =>
    obtain ⟨us, vs, rfl, hus, hvs⟩ := hrow.split
    obtain ⟨last, rfl, hlast⟩ := hvs.single
    obtain ⟨e', he', hprint⟩ := he.reprinted _ hus
    exact ⟨_, .expr he' (hlast.kind.trans hl), hprint⟩

theorem Many.reprinted {α β : Type} {item item' : Phrases α} {shows : Text → α → β} {as : List α}
    (h : Many item ts as) (hitem : ∀ ts a, item ts a → Reprinted shows source source' item' ts a) :
    Reprinted (fun source => List.map (shows source)) source source' (Many item') ts as := by
  induction h with
  | nil =>
    intro row hrow
    obtain rfl := hrow.nil_eq
    exact ⟨[], .nil, rfl⟩
  | cons ha _ ih =>
    intro row hrow
    obtain ⟨us, vs, rfl, hus, hvs⟩ := hrow.split
    obtain ⟨a', ha', hshows⟩ := hitem _ _ ha _ hus
    obtain ⟨as', has', hshowss⟩ := ih _ hvs
    refine ⟨a' :: as', .cons ha' has', ?_⟩
    exact congrArg₂ List.cons hshows hshowss

theorem Block.reprinted {b : Frontend.Block} (h : Block source ts b) :
    Reprinted (fun source b indent depth => Block.print source indent depth b) source source'
      (Block source') ts b := by
  intro row hrow
  cases h with
  | @intro _ _ ts stmts ho hm hc =>
    obtain ⟨us, vs, rfl, hus, hvs⟩ := hrow.split
    obtain ⟨opening, us, rfl, hopening, hus⟩ := hus.uncons
    obtain ⟨closing, rfl, hclosing⟩ := hvs.single
    obtain ⟨stmts', hstmts', hprint⟩ := hm.reprinted (fun _ _ hs => hs.reprinted) _ hus
    have hprint : stmts'.map (Stmt.print source') = stmts.map (Stmt.print source) := hprint
    refine ⟨_, .intro (hopening.kind.trans ho) hstmts' (hclosing.kind.trans hc), ?_⟩
    have hlines (source indent : Text) (depth : Nat) (stmts : List Stmt) :
        stmts.flatMap (Stmt.printLine source indent depth) =
          (stmts.map (Stmt.print source)).flatMap fun t => indentation indent depth ++ t ++ ['\n'] := by
      rw [List.flatMap_map]
      rfl
    funext indent depth
    simp only [Frontend.Block.print, hlines, hprint]

/-! ## Functions -/

theorem Param.reprinted {p : Frontend.Param} (h : Param ts p) :
    Reprinted Param.print source source' Param ts p := by
  intro row hrow
  cases h with
  | plain hn hc ht =>
    obtain ⟨name, us, rfl, hname, hus⟩ := hrow.uncons
    obtain ⟨colon, us, rfl, hcolon, hus⟩ := hus.uncons
    obtain ⟨type, rfl, htype⟩ := hus.single
    refine ⟨_, .plain (hname.kind.trans hn) (hcolon.kind.trans hc) (htype.kind.trans ht), ?_⟩
    rw [Frontend.Param.print, Frontend.Param.print, hname.text]
  | comma hn hc ht hk =>
    obtain ⟨name, us, rfl, hname, hus⟩ := hrow.uncons
    obtain ⟨colon, us, rfl, hcolon, hus⟩ := hus.uncons
    obtain ⟨type, us, rfl, htype, hus⟩ := hus.uncons
    obtain ⟨comma, rfl, hcomma⟩ := hus.single
    refine ⟨_, .comma (hname.kind.trans hn) (hcolon.kind.trans hc) (htype.kind.trans ht)
      (hcomma.kind.trans hk), ?_⟩
    rw [Frontend.Param.print, Frontend.Param.print, hname.text]

theorem ReturnType.alike {ty : Ty} (h : ReturnType source ts ty) (hrow : Alike source source' ts us) :
    ReturnType source' us ty := by
  cases h with
  | void hts => exact .void (hrow.forall_mem (fun _ _ ht => IsNewline.alike ht) hts)
  | written hts ht hus =>
    obtain ⟨vs, ws, rfl, hvs, hws⟩ := hrow.split
    obtain ⟨type, ws, rfl, htype, hws⟩ := hws.uncons
    apply ReturnType.written
    · exact hvs.forall_mem (fun _ _ ht => IsNewline.alike ht) hts
    · exact htype.kind.trans ht
    · exact hws.forall_mem (fun _ _ ht => IsNewline.alike ht) hus

theorem Function.reprinted {f : Frontend.Function} (h : Function source ts f) :
    Reprinted (fun source f indent => Function.print source indent f) source source'
      (Function source') ts f := by
  intro row hrow
  cases h with
  | @intro _ _ _ _ _ _ params _ body hn ho hm hc hty hb =>
    obtain ⟨us, bs, rfl, hus, hbs⟩ := hrow.split
    obtain ⟨us, rs, rfl, hus, hrs⟩ := hus.split
    obtain ⟨name, us, rfl, hname, hus⟩ := hus.uncons
    obtain ⟨opening, us, rfl, hopening, hps⟩ := hus.uncons
    obtain ⟨closing, rs, rfl, hclosing, hrs⟩ := hrs.uncons
    obtain ⟨params', hparams', hprint⟩ := hm.reprinted (fun _ _ hp => hp.reprinted) _ hps
    obtain ⟨body', hbody', hprintb⟩ := hb.reprinted _ hbs
    have hprint : params'.map (Param.print source') = params.map (Param.print source) := hprint
    have hprintb (indent : Text) : body'.print source' indent 0 = body.print source indent 0 :=
      congrFun (congrFun hprintb indent) 0
    refine ⟨_, .intro (hname.kind.trans hn) (hopening.kind.trans ho) hparams'
      (hclosing.kind.trans hc) (hty.alike hrs) hbody', ?_⟩
    funext indent
    simp only [Frontend.Function.print, hname.text, hprint, hprintb]

end Grammar
end Frontend
