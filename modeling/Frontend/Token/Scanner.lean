import Frontend.Text.Blank
import Frontend.Error

/-! # Scanning

A scanner reads one token at a time off a text. It remembers the last kind read and the open
parentheses, because these two decide whether a newline is a token. Malformed text is an answer like
any other: it is read past, and scanning can go on. `answers` is all a scanner says up to the end of
the text; each answer before that takes text away or is the terminator that the end stands for.
-/
namespace Frontend

def isWordStart (c : Char) : Bool := c.isAlpha || c == '_'

def isWordChar (c : Char) : Bool := c.isAlphanum || c == '_'

/-- The layout that the text begins with, and the text after it. Layout is blanks and comments, from
two slashes to the end of the line; `stop` says that a newline is none. -/
def splitLayout (stop inComment : Bool) : Text → Text × Text
  | [] => ([], [])
  | c :: t =>
    if c = '\n' then
      if stop then ([], c :: t) else (splitLayout stop false t).map (c :: ·) id
    else if inComment then (splitLayout stop true t).map (c :: ·) id
    else if c = '/' ∧ t.head? = some '/' then (splitLayout stop true t).map (c :: ·) id
    else if Text.isBlank c then (splitLayout stop false t).map (c :: ·) id
    else ([], c :: t)

structure Lexeme where
  kind : Except Problem Kind
  text : Text

/-- The lexeme that a text other than layout begins with. Words and numbers are as long as possible. -/
def Lexeme.read (c : Char) (t : Text) : Lexeme :=
  let word := c :: t.takeWhile isWordChar
  if isWordStart c then ⟨.ok ((Kind.keyword? word).getD .ident), word⟩
  else if c.isDigit then
    match Suffix.ofText? (word.dropWhile Char.isDigit) with
    | some s => ⟨.ok (.int s), word⟩
    | none => ⟨.error .badSuffix, word⟩
  else match Kind.symbol? (c :: t) with
    | some (symbol, kind) => ⟨.ok kind, symbol⟩
    | none => ⟨.error (.unexpected c), [c]⟩

/-- Open parentheses after a token; one that closes nothing changes nothing. -/
def Kind.depthAfter : Kind → Nat → Nat
  | lparen, n => n + 1
  | rparen, n => n - 1
  | _, n => n

structure Scanner where
  rest : Text
  offset : Nat
  last : Option Kind
  depth : Nat
deriving DecidableEq, Repr

namespace Scanner

def ofText (t : Text) : Scanner := ⟨t, 0, none, 0⟩

/-- Whether a newline, or the end of the text, ends a statement here. -/
def endsStatement (s : Scanner) : Bool := s.depth == 0 && s.last.any Kind.endsStatement

def skip (s : Scanner) (taken : Nat) (rest : Text) : Scanner :=
  { s with rest, offset := s.offset + taken }

def emit (s : Scanner) (kind : Kind) (taken len : Nat) (rest : Text) :
    Except SourceError Token × Scanner :=
  (.ok ⟨kind, ⟨s.offset + taken, len⟩⟩,
    { s.skip (taken + len) rest with last := some kind, depth := kind.depthAfter s.depth })

def scan (s : Scanner) : Except SourceError Token × Scanner :=
  let (gap, t) := splitLayout s.endsStatement false s.rest
  let taken := Text.size gap
  match t with
  | [] => s.emit (if s.endsStatement then .terminator else .eof) taken 0 []
  | c :: t =>
    if c = '\n' then s.emit .terminator taken 1 t
    else
      let lexeme := Lexeme.read c t
      let len := Text.size lexeme.text
      let rest := (c :: t).drop lexeme.text.length
      match lexeme.kind with
      | .ok kind => s.emit kind taken len rest
      | .error p => (.error ⟨p, ⟨s.offset + taken, len⟩⟩, s.skip (taken + len) rest)

/-- Falls with every answer but the end of the text. -/
def weight (s : Scanner) : Nat := 2 * s.rest.length + s.endsStatement.toNat

end Scanner

theorem splitLayout_append (stop inComment : Bool) (t : Text) :
    (splitLayout stop inComment t).1 ++ (splitLayout stop inComment t).2 = t := by
  fun_induction splitLayout stop inComment t <;> simp_all

theorem Kind.symbol?_eq_some {t w : Text} {k : Kind} (h : symbol? t = some (w, k)) :
    (w, k) ∈ symbols ∧ w <+: t := by
  have hp := List.find?_some h
  exact ⟨List.mem_of_find?_eq_some h, List.isPrefixOf_iff_prefix.1 hp⟩

theorem Kind.symbols_ne_nil : ∀ p ∈ symbols, p.1 ≠ [] := by decide

namespace Lexeme

theorem text_read_initial (c : Char) (t : Text) :
    (read c t).text <+: c :: t ∧ (read c t).text ≠ [] := by
  have hw : c :: t.takeWhile isWordChar <+: c :: t := by
    rw [List.cons_prefix_cons]
    exact ⟨rfl, List.takeWhile_prefix ..⟩
  unfold read
  dsimp only
  split
  · exact ⟨hw, by simp⟩
  · split
    · split <;> exact ⟨hw, by simp⟩
    · split
      · next w k h =>
        have hs := Kind.symbol?_eq_some h
        exact ⟨hs.2, Kind.symbols_ne_nil _ hs.1⟩
      · exact ⟨by simp, by simp⟩

theorem length_drop_read_lt (c : Char) (t : Text) :
    ((c :: t).drop (read c t).text.length).length < (c :: t).length := by
  have h := (text_read_initial c t).2
  have := List.length_pos_iff.2 h
  rw [List.length_drop, List.length_cons]
  omega

end Lexeme

namespace Scanner

theorem weight_scan_lt {s : Scanner}
    (h : ∀ t, s.scan.1 = .ok t → t.kind ≠ .eof) : s.scan.2.weight < s.weight := by
  have hl := congrArg List.length (splitLayout_append s.endsStatement false s.rest)
  rw [List.length_append] at hl
  have hb (b : Bool) : b.toNat ≤ 1 := by cases b <;> decide
  revert h
  unfold scan
  dsimp only
  split
  · next he =>
    rw [he] at hl
    cases hs : s.endsStatement with
    | false => intro h; exact absurd rfl (h _ rfl)
    | true =>
      intro _
      have hn : (s.emit .terminator (Text.size (splitLayout true false s.rest).1) 0 []).2.endsStatement
          = false := by
        simp [endsStatement, emit, Kind.endsStatement]
      simp only [weight, if_true, hn, hs, Bool.toNat_true, Bool.toNat_false]
      simp only [emit, skip, List.length_nil]
      omega
  · next c t he =>
    rw [he] at hl
    rw [List.length_cons] at hl
    split
    · intro _
      have := hb (emit s .terminator (Text.size (splitLayout s.endsStatement false s.rest).1) 1 t).2.endsStatement
      simp only [weight, emit, skip] at this ⊢
      omega
    · have hr := Lexeme.length_drop_read_lt c t
      rw [List.length_cons] at hr
      split
      · next k _ =>
        intro _
        have := hb (emit s k (Text.size (splitLayout s.endsStatement false s.rest).1)
          (Text.size (Lexeme.read c t).text) ((c :: t).drop (Lexeme.read c t).text.length)).2.endsStatement
        simp only [weight, emit, skip] at this ⊢
        omega
      · intro _
        simp only [weight, skip, endsStatement]
        omega

/-- All the scanner says, up to and including the end of the text. -/
def answers (s : Scanner) : List (Except SourceError Token) :=
  match _h : s.scan with
  | (.ok t, s') => if _he : t.kind = .eof then [.ok t] else .ok t :: answers s'
  | (.error e, s') => .error e :: answers s'
termination_by s.weight
decreasing_by
  · have := weight_scan_lt (s := s) fun u hu => by rw [_h] at hu; cases hu; exact _he
    rwa [_h] at this
  · have := weight_scan_lt (s := s) fun u hu => by rw [_h] at hu; cases hu
    rwa [_h] at this

end Scanner

/-- The tokens of a text up to its end, or its first error. -/
def lex (source : Text) : Except SourceError (List Token) := (Scanner.ofText source).answers.mapM id

end Frontend
