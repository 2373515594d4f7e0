import Frontend.Session
import Frontend.Proofs.Token.Literal

/-! # Plans read off a row

A row of tokens is the simplest host: it refuses no memory and keeps no journal. What a plan reads off
a row is what it reads in any session whose stream answers with that row, unless the pool gives out.
-/
namespace Frontend

namespace TokenRow

def prepend : List Token → TokenRow → TokenRow
  | [], r => r
  | t :: ts, r => ⟨t, ts ++ r.toList⟩

instance : HAppend (List Token) TokenRow TokenRow := ⟨prepend⟩

@[simp] theorem nil_append (r : TokenRow) : ([] : List Token) ++ r = r := rfl

@[simp] theorem head_cons_append (t : Token) (ts : List Token) (r : TokenRow) :
    (t :: ts ++ r).head = t := rfl

@[simp] theorem advance_cons_append (t : Token) (ts : List Token) (r : TokenRow) :
    (t :: ts ++ r).advance = ts ++ r := by
  cases ts <;> rfl

@[simp] theorem toList_append (ts : List Token) (r : TokenRow) :
    (ts ++ r).toList = ts ++ r.toList := by
  cases ts <;> rfl

theorem toList_inj {r s : TokenRow} (h : r.toList = s.toList) : r = s := by
  cases r
  cases s
  cases h
  rfl

theorem advance_suffix (r : TokenRow) : r.advance.toList <:+ r.toList := by
  rcases r with ⟨t, _ | ⟨u, us⟩⟩
  · exact List.suffix_refl _
  · exact List.suffix_cons t (u :: us)

theorem append_assoc (ts us : List Token) (r : TokenRow) : ts ++ us ++ r = ts ++ (us ++ r) :=
  toList_inj (by simp)

theorem kind_head_ne {test : Kind → Bool} {ts : List Token} (h : Grammar.Opens test ts) {k : Kind}
    (hk : test k = false) (r : TokenRow) : (ts ++ r).head.kind ≠ k := by
  obtain ⟨t, us, rfl, ht⟩ := h
  rintro rfl
  rw [head_cons_append] at hk
  rw [hk] at ht
  cases ht

/-- One end of input, at the end, and before it only literals that state a value. -/
def Regular (source : Text) (r : TokenRow) : Prop :=
  ∃ ts last, r.toList = ts ++ [last] ∧ last.kind = .eof ∧
    ∀ t ∈ ts, t.kind ≠ .eof ∧ Spelled source t

namespace Regular
variable {source : Text} {r : TokenRow}

theorem eq_nil_of_eof {ts us : List Token} {t : Token} (h : Regular source r)
    (hr : r.toList = ts ++ t :: us) (ht : t.kind = .eof) : us = [] := by
  obtain ⟨vs, last, hvs, -, hm⟩ := h
  rw [hr] at hvs
  rcases List.append_eq_append_iff.1 hvs with ⟨ws, rfl, hw⟩ | ⟨ws, rfl, hw⟩
  · cases ws with
    | nil =>
      cases hw
      rfl
    | cons w ws =>
      obtain ⟨rfl, -⟩ := List.cons.inj hw
      exact absurd ht (hm t (by simp)).1
  · cases ws with
    | nil =>
      cases hw
      rfl
    | cons w ws => simp at hw

theorem spelled (h : Regular source r) : Grammar.AllSpelled source r.toList := by
  obtain ⟨ts, last, hts, hl, hm⟩ := h
  rw [hts]
  refine List.forall_mem_append.2 ⟨fun t ht => (hm t ht).2, List.forall_mem_singleton.2 ?_⟩
  intro suffix hk
  cases hl.symm.trans hk

end Regular

def host : Host TokenRow where
  next r := (.ok r.head, r.advance)
  peek r := (.ok r.head, r)
  reserve _ r := (.ok ⟨⟩, r)
  report _ r := r

end TokenRow

namespace Parser
variable {α β : Type}

def read (p : Parser α) (r : TokenRow) : Except ParseError α × TokenRow := p.run TokenRow.host r

/-- The answer is `a` with `r` left, or the fault of the pool when no more was taken. -/
def Gives (x : Except ParseError α × TokenRow) (a : α) (r : TokenRow) : Prop :=
  x = (.ok a, r) ∨ ∃ e, x.1 = .error (.internal (.pool e)) ∧ r.toList <:+ x.2.toList

section Steps
variable (r : TokenRow)

@[simp] theorem read_done (a : α) : (done a).read r = (.ok a, r) := rfl

@[simp] theorem read_report (e : Log.Event) (k : Parser α) : (report e k).read r = k.read r := rfl

@[simp] theorem read_node (e : Expr) : (node e).read r = (.ok e, r) := rfl

@[simp] theorem read_look_bind (f : Token → Parser β) :
    (look >>= f).read r = (f r.head).read r := rfl

@[simp] theorem read_take_bind (f : Token → Parser β) :
    (take >>= f).read r = (f r.head).read r.advance := rfl

@[simp] theorem read_check_bind (k : Kind) (f : Bool → Parser β) :
    (check k >>= f).read r = (f (r.head.kind = k)).read r := rfl

theorem read_bind (p : Parser α) (f : α → Parser β) :
    (p >>= f).read r =
      match p.read r with
      | (.ok a, r) => (f a).read r
      | (.error e, r) => (.error e, r) := by
  rw [read, read, show p >>= f = p.bind f from rfl, run_bind]
  rcases p.run TokenRow.host r with ⟨_ | a, s⟩ <;> rfl

end Steps

theorem read_suffix (p : Parser α) (r : TokenRow) : (p.read r).2.toList <:+ r.toList := by
  induction p generalizing r with
  | done a | fail e => exact List.suffix_refl _
  | peek k ih => exact ih r.head r
  | next k ih => exact (ih r.head r.advance).trans r.advance_suffix
  | reserve l k ih => exact ih r
  | report e k ih => exact ih r

namespace Gives

theorem refl (a : α) (r : TokenRow) : Gives (.ok a, r) a r := .inl rfl

theorem answer {x : Except ParseError α × TokenRow} {a : α} {r : TokenRow} (h : Gives x a r) :
    x.1 = .ok a ∨ ∃ e, x.1 = .error (.internal (.pool e)) :=
  h.imp (congrArg Prod.fst) fun ⟨e, he, _⟩ => ⟨e, he⟩

theorem suffix {p : Parser α} {r s : TokenRow} {a : α} (h : Gives (p.read r) a s) :
    s.toList <:+ r.toList := by
  have hr := read_suffix p r
  rcases h with h | ⟨e, -, hs⟩
  · rwa [h] at hr
  · exact hs.trans hr

theorem bind {p : Parser α} {f : α → Parser β} {r s t : TokenRow} {a : α} {b : β}
    (hp : Gives (p.read r) a s) (hf : Gives ((f a).read s) b t) :
    Gives ((p >>= f).read r) b t := by
  rw [read_bind]
  rcases hx : p.read r with ⟨x, u⟩
  rw [hx] at hp
  rcases hp with h | ⟨e, h, hs⟩
  · cases h
    exact hf
  · cases h
    exact .inr ⟨e, rfl, hf.suffix.trans hs⟩

theorem expect_bind {k : Kind} {e : Expected} {f : Token → Parser β} {t : Token}
    {ts : List Token} {r s : TokenRow} {b : β} (hk : t.kind = k)
    (hf : Gives ((f t).read (ts ++ r)) b s) :
    Gives ((expect k e >>= f).read (t :: ts ++ r)) b s := by
  refine .bind (a := t) (s := ts ++ r) (.inl ?_) hf
  change read (if t.kind = k then done t else unexpected e t) (t :: ts ++ r).advance = _
  rw [if_pos hk, TokenRow.advance_cons_append]
  rfl

end Gives

end Parser

/-- A stream answers with the tokens of a row as long as the relation is kept. -/
structure Replays {σ : Type} [TokenStream σ] (R : σ → TokenRow → Prop) : Prop where
  next : ∀ {s r}, R s r → ∃ s', TokenStream.next s = (.ok r.head, s') ∧ R s' r.advance
  peek : ∀ {s r}, R s r → ∃ s', TokenStream.peek s = (.ok r.head, s') ∧ R s' r

theorem TokenBuffer.replays : Replays fun (b : TokenBuffer) r => b.ahead = r where
  next := by
    rintro b r rfl
    exact ⟨b.next.2, rfl, rfl⟩
  peek := by
    rintro b r rfl
    exact ⟨b, rfl, rfl⟩

/-- A session reads what its row of tokens gives, unless its pool gives out. -/
theorem Session.run_host {α σ : Type} [TokenStream σ] {R : σ → TokenRow → Prop} (hR : Replays R)
    (sys : Pool.System) (p : Parser α) (s : Session σ) {r : TokenRow} (hs : R s.tokens r) :
    (∃ e, (p.run (host sys) s).1 = .error (.internal (.pool e))) ∨
      ((p.run (host sys) s).1 = (p.read r).1 ∧ R (p.run (host sys) s).2.tokens (p.read r).2) := by
  induction p generalizing s r with
  | done a => exact .inr ⟨rfl, hs⟩
  | fail e => exact .inr ⟨rfl, hs⟩
  | peek k ih =>
    obtain ⟨s', he, hs'⟩ := hR.peek hs
    simp only [Parser.run, host, he]
    exact ih r.head { s with tokens := s' } hs'
  | next k ih =>
    obtain ⟨s', he, hs'⟩ := hR.next hs
    simp only [Parser.run, host, he]
    exact ih r.head { s with tokens := s' } hs'
  | reserve l k ih =>
    simp only [Parser.run, host]
    rcases s.pool.alloc sys l with ⟨e | b, pool⟩
    · exact .inl ⟨e, rfl⟩
    · exact ih _ hs
  | report e k ih => exact ih _ hs

end Frontend
