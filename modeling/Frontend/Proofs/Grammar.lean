import Frontend.Tree.Basic

/-! # The grammar

Which rows of tokens are an expression, a statement, a function or a program, and the tree they stand
for. The rules know neither a parser nor a pool; a rule that is used inside itself takes the language
of its parts as a parameter, so that only `Expression` closes the circle.
-/
namespace Frontend.Grammar

/-- The rows of tokens of one rule, each with what it stands for. -/
abbrev Phrases (α : Type) := List Token → α → Prop

def Opens (test : Kind → Bool) (ts : List Token) : Prop := ∃ t us, ts = t :: us ∧ test t.kind

inductive Many {α : Type} (item : Phrases α) : Phrases (List α)
  | nil : Many item [] []
  | cons {ts us : List Token} {a : α} {as : List α} :
      item ts a → Many item us as → Many item (ts ++ us) (a :: as)

/-- The span covers decimal digits of that value and then the suffix. -/
def Spells (source : Text) (span : Span) (suffix : Suffix) (value : Nat) : Prop :=
  ∃ digits : Text, digits ≠ [] ∧ (∀ c ∈ digits, c.isDigit) ∧
    span.text source = digits ++ suffix.text ∧ value = Nat.ofDigitChars 10 digits 0

/-- Operands joined by operators of one strength; the tree leans to the left. -/
inductive Level (p : Precedence) (operand : Phrases Expr) : Phrases Expr
  | operand {ts : List Token} {e : Expr} : operand ts e → Level p operand ts e
  | join {ts us : List Token} {l r : Expr} {t : Token} {o : BinOp} :
      Level p operand ts l → t.kind = .op o → o.precedence = p → operand us r →
      Level p operand (ts ++ t :: us) (.binary (.combine l.span r.span) none o l r)

inductive Items (expression : Phrases Expr) : Phrases (List Expr)
  | one {ts : List Token} {e : Expr} : expression ts e → Items expression ts [e]
  | more {ts us : List Token} {e : Expr} {es : List Expr} {t : Token} :
      expression ts e → t.kind = .comma → Items expression us es →
      Items expression (ts ++ t :: us) (e :: es)

/-- What stands between the parentheses of a call; the last argument may have a comma of its own. -/
inductive Arguments (expression : Phrases Expr) : Phrases (List Expr)
  | none : Arguments expression [] []
  | items {ts : List Token} {es : List Expr} : Items expression ts es → Arguments expression ts es
  | trailing {ts : List Token} {es : List Expr} {t : Token} :
      Items expression ts es → t.kind = .comma → Arguments expression (ts ++ [t]) es

/-- Parentheses around an expression leave no node. -/
inductive Primary (source : Text) (expression : Phrases Expr) : Phrases Expr
  | int {t : Token} {suffix : Suffix} {value : Nat} :
      t.kind = .int suffix → Spells source t.span suffix value →
      Primary source expression [t] (.int t.span none value suffix)
  | var {t : Token} : t.kind = .ident → Primary source expression [t] (.var t.span none t.span)
  | call {t opening closing : Token} {ts : List Token} {args : List Expr} :
      t.kind = .ident → opening.kind = .lparen → Arguments expression ts args →
      closing.kind = .rparen →
      Primary source expression (t :: opening :: ts ++ [closing])
        (.call (.combine t.span closing.span) none t.span args)
  | group {opening closing : Token} {ts : List Token} {e : Expr} :
      opening.kind = .lparen → expression ts e → closing.kind = .rparen →
      Primary source expression (opening :: ts ++ [closing]) e

/-- Comparisons of sums of products. -/
inductive Expression (source : Text) : Phrases Expr
  | intro {ts : List Token} {e : Expr} :
      Level .comparison (Level .sum (Level .product (Primary source (Expression source)))) ts e →
      Expression source ts e

def bindingWord (mutable : Bool) : Kind := if mutable then .mutWord else .letWord

inductive Statement (source : Text) : Phrases Stmt
  | init {mutable : Bool} {word name eq last : Token} {ts : List Token} {e : Expr} :
      word.kind = bindingWord mutable → name.kind = .ident → eq.kind = .assign →
      Expression source ts e → last.kind = .terminator →
      Statement source (word :: name :: eq :: ts ++ [last])
        ⟨.bind name.span none (some e) mutable, .combine word.span last.span⟩
  | typed {mutable : Bool} {word name colon type eq last : Token} {ty : Ty} {ts : List Token}
      {e : Expr} :
      word.kind = bindingWord mutable → name.kind = .ident → colon.kind = .colon →
      type.kind = .typeName ty → eq.kind = .assign → Expression source ts e →
      last.kind = .terminator →
      Statement source (word :: name :: colon :: type :: eq :: ts ++ [last])
        ⟨.bind name.span (some ty) (some e) mutable, .combine word.span last.span⟩
  | declared {mutable : Bool} {word name colon type last : Token} {ty : Ty} :
      word.kind = bindingWord mutable → name.kind = .ident → colon.kind = .colon →
      type.kind = .typeName ty → last.kind = .terminator →
      Statement source [word, name, colon, type, last]
        ⟨.bind name.span (some ty) none mutable, .combine word.span last.span⟩
  | ret {word last : Token} :
      word.kind = .returnWord → last.kind = .terminator →
      Statement source [word, last] ⟨.ret none, .combine word.span last.span⟩
  | retValue {word last : Token} {ts : List Token} {e : Expr} :
      word.kind = .returnWord → Expression source ts e → last.kind = .terminator →
      Statement source (word :: ts ++ [last]) ⟨.ret (some e), .combine word.span last.span⟩
  | expr {last : Token} {ts : List Token} {e : Expr} :
      Expression source ts e → last.kind = .terminator →
      Statement source (ts ++ [last]) ⟨.expr e, .combine e.span last.span⟩

inductive Block (source : Text) : Phrases Frontend.Block
  | intro {opening closing : Token} {ts : List Token} {stmts : List Stmt} :
      opening.kind = .lbrace → Many (Statement source) ts stmts → closing.kind = .rbrace →
      Block source (opening :: ts ++ [closing]) ⟨stmts, .combine opening.span closing.span⟩

/-- A name and its type; a comma behind them may be left out. -/
inductive Param : Phrases Frontend.Param
  | plain {name colon type : Token} {ty : Ty} :
      name.kind = .ident → colon.kind = .colon → type.kind = .typeName ty →
      Param [name, colon, type] ⟨name.span, ty⟩
  | comma {name colon type comma : Token} {ty : Ty} :
      name.kind = .ident → colon.kind = .colon → type.kind = .typeName ty → comma.kind = .comma →
      Param [name, colon, type, comma] ⟨name.span, ty⟩

/-- A terminator that is not written as a semicolon. -/
def IsNewline (source : Text) (t : Token) : Prop :=
  t.kind = .terminator ∧ t.span.text source ≠ [';']

inductive ReturnType (source : Text) : Phrases Ty
  | void {ts : List Token} : (∀ t ∈ ts, IsNewline source t) → ReturnType source ts .void
  | written {ts us : List Token} {type : Token} {ty : Ty} :
      (∀ t ∈ ts, IsNewline source t) → type.kind = .typeName ty →
      (∀ t ∈ us, IsNewline source t) → ReturnType source (ts ++ type :: us) ty

inductive Function (source : Text) : Phrases Frontend.Function
  | intro {name opening closing : Token} {ps rs bs : List Token} {params : List Frontend.Param}
      {ret : Ty} {body : Frontend.Block} :
      name.kind = .ident → opening.kind = .lparen → Many Param ps params →
      closing.kind = .rparen → ReturnType source rs ret → Block source bs body →
      Function source (name :: opening :: ps ++ closing :: rs ++ bs)
        ⟨name.span, params, ret, body, .combine name.span body.span⟩

inductive Program (source : Text) : Phrases Frontend.Program
  | intro {last : Token} {ts : List Token} {functions : List Frontend.Function} :
      Many (Function source) ts functions → last.kind = .eof →
      Program source (ts ++ [last]) (.ofFunctions source functions)

theorem Opens.append {test : Kind → Bool} {ts : List Token} (h : Opens test ts) (us : List Token) :
    Opens test (ts ++ us) := by
  obtain ⟨t, vs, rfl, ht⟩ := h
  exact ⟨t, vs ++ us, rfl, ht⟩

theorem Opens.length_pos {test : Kind → Bool} {ts : List Token} (h : Opens test ts) :
    0 < ts.length := by
  obtain ⟨t, vs, rfl, -⟩ := h
  exact Nat.succ_pos _

theorem Spells.unique {source : Text} {span : Span} {suffix : Suffix} {v w : Nat}
    (hv : Spells source span suffix v) (hw : Spells source span suffix w) : v = w := by
  obtain ⟨ds, -, -, hd, rfl⟩ := hv
  obtain ⟨es, -, -, he, rfl⟩ := hw
  rw [hd] at he
  rw [List.append_cancel_right he]

theorem Level.opens {p : Precedence} {operand : Phrases Expr} {test : Kind → Bool}
    (h : ∀ {ts e}, operand ts e → Opens test ts) {ts : List Token} {e : Expr}
    (hl : Level p operand ts e) : Opens test ts := by
  induction hl with
  | operand ho => exact h ho
  | join _ _ _ _ ih => exact ih.append _

theorem Arguments.cons {expression : Phrases Expr} {ts us : List Token} {e : Expr} {es : List Expr}
    {t : Token} (he : expression ts e) (ht : t.kind = .comma) (ha : Arguments expression us es) :
    Arguments expression (ts ++ t :: us) (e :: es) := by
  cases ha with
  | none => exact .trailing (.one he) ht
  | items hi => exact .items (.more he ht hi)
  | @trailing us _ c hi hc =>
    have h : ts ++ t :: (us ++ [c]) = (ts ++ t :: us) ++ [c] := by simp
    rw [h]
    exact .trailing (.more he ht hi) hc

def opensExpression : Kind → Bool
  | .int _ | .ident | .lparen => true
  | _ => false

theorem Primary.opens {source : Text} {expression : Phrases Expr} {ts : List Token} {e : Expr}
    (h : Primary source expression ts e) : Opens opensExpression ts := by
  cases h with
  | int hk | var hk | call hk | group hk => exact ⟨_, _, rfl, by rw [hk]; rfl⟩

theorem Expression.opens {source : Text} {ts : List Token} {e : Expr}
    (h : Expression source ts e) : Opens opensExpression ts := by
  cases h with
  | intro hl => exact hl.opens fun hs => hs.opens fun hp => hp.opens Primary.opens

def opensStatement : Kind → Bool
  | .letWord | .mutWord | .returnWord => true
  | k => opensExpression k

theorem Statement.opens {source : Text} {ts : List Token} {s : Stmt} (h : Statement source ts s) :
    Opens opensStatement ts := by
  cases h with
  | @init mutable _ _ _ _ _ _ hw | @typed mutable _ _ _ _ _ _ _ _ _ hw
  | @declared mutable _ _ _ _ _ _ hw =>
    exact ⟨_, _, rfl, by rw [hw]; cases mutable <;> rfl⟩
  | ret hw | retValue hw => exact ⟨_, _, rfl, by rw [hw]; rfl⟩
  | expr he =>
    obtain ⟨t, us, rfl, ht⟩ := he.opens
    refine ⟨t, _, rfl, ?_⟩
    unfold opensStatement
    split <;> first | rfl | exact ht

theorem Function.opens {source : Text} {ts : List Token} {f : Frontend.Function}
    (h : Function source ts f) : Opens (fun k => decide (k = .ident)) ts := by
  cases h with
  | intro hn => exact ⟨_, _, rfl, decide_eq_true hn⟩

end Frontend.Grammar
