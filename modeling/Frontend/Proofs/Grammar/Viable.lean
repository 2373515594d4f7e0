import Frontend.Proofs.Grammar

/-! # Beginnings of phrases

A row of tokens is the beginning of a phrase if some tokens complete it. The tokens that are needed
for it state no value and end no input, so they may stand in any source.
-/
namespace Frontend

def Kind.isPlain : Kind → Bool
  | int _ | eof => false
  | _ => true

namespace Grammar
variable {α β : Type} {source : Text}

/-- Plain tokens complete the row to a phrase. -/
def Viable (D : Phrases α) (ts : List Token) : Prop :=
  ∃ us a, (∀ t ∈ us, t.kind.isPlain) ∧ D (ts ++ us) a

/-- The rows that are phrases behind `pre`. -/
def Behind (pre : List Token) (D : Phrases α) : Phrases α := fun ts a => D (pre ++ ts) a

def blanks (ks : List Kind) : List Token := ks.map fun k => ⟨k, .point 0⟩

namespace Viable
variable {C : Phrases α} {D : Phrases β} {ts : List Token}

theorem of_phrase {b : β} (h : D ts b) : Viable D ts :=
  ⟨[], b, by simp, by rwa [List.append_nil]⟩

theorem imp (h : Viable C ts) (hD : ∀ us a, C us a → ∃ b, D us b) : Viable D ts := by
  obtain ⟨us, a, hu, hC⟩ := h
  obtain ⟨b, hb⟩ := hD _ a hC
  exact ⟨us, b, hu, hb⟩

theorem behind {pre : List Token} (h : Viable (Behind pre D) ts) : Viable D (pre ++ ts) := by
  obtain ⟨us, b, hu, hD⟩ := h
  exact ⟨us, b, hu, by rwa [List.append_assoc]⟩

/-- What begins a part of a phrase begins the phrase, if plain tokens close it behind the part. -/
theorem followed (h : Viable C ts) (ks : List Kind) (hk : ∀ k ∈ ks, k.isPlain)
    (hD : ∀ us a, C us a → ∃ b, D (us ++ blanks ks) b) : Viable D ts := by
  obtain ⟨us, a, hu, hC⟩ := h
  obtain ⟨b, hb⟩ := hD _ a hC
  refine ⟨us ++ blanks ks, b, ?_, by rwa [← List.append_assoc]⟩
  intro t ht
  rcases List.mem_append.1 ht with ht | ht
  · exact hu t ht
  · obtain ⟨k, hk', rfl⟩ := List.mem_map.1 ht
    exact hk k hk'

end Viable

def Functions (source : Text) : Phrases Frontend.Program :=
  fun ts p => ∃ fs, Many (Function source) ts fs ∧ p = .ofFunctions source fs

theorem Functions.ended {ts : List Token} {last : Token} {p : Frontend.Program}
    (h : Functions source ts p) (hl : last.kind = .eof) : Program source (ts ++ [last]) p := by
  obtain ⟨fs, hm, rfl⟩ := h
  exact .intro hm hl

theorem Expression.var {t : Token} (h : t.kind = .ident) :
    Expression source [t] (.var t.span none t.span) :=
  .intro (.operand (.operand (.operand (.var h))))

theorem Many.one {item : Phrases α} {ts : List Token} {a : α} (h : item ts a) :
    Many item ts [a] := by
  have hmany := Many.cons h .nil
  rwa [List.append_nil] at hmany

theorem Function.of_returnType {name opening closing : Token} {ps rs : List Token}
    {params : List Frontend.Param} {ret : Ty} (hn : name.kind = .ident)
    (ho : opening.kind = .lparen) (hm : Many Param ps params) (hc : closing.kind = .rparen)
    (hty : ReturnType source rs ret) : ∃ f,
      Function source (name :: opening :: (ps ++ closing :: (rs ++ blanks [.lbrace, .rbrace]))) f := by
  have hbraces := @Block.intro source ⟨.lbrace, .point 0⟩ ⟨.rbrace, .point 0⟩ [] [] rfl .nil rfl
  have h := Function.intro hn ho hm hc hty hbraces
  rw [List.append_assoc] at h
  exact ⟨_, h⟩

theorem Function.of_params (source : Text) {name opening : Token} {ps : List Token}
    {params : List Frontend.Param} (hn : name.kind = .ident) (ho : opening.kind = .lparen)
    (hm : Many Param ps params) :
    ∃ f, Function source (name :: opening :: (ps ++ blanks [.rparen, .lbrace, .rbrace])) f := by
  have hvoid : ReturnType source [] .void := .void (by simp)
  exact of_returnType hn ho hm rfl hvoid

/-! ## The end of the input -/

/-- No token of the row is the end of the input. -/
def Inner (ts : List Token) : Prop := ∀ t ∈ ts, t.kind ≠ .eof

@[simp] theorem inner_nil : Inner [] := fun _ ht => absurd ht List.not_mem_nil

@[simp] theorem inner_cons {t : Token} {ts : List Token} :
    Inner (t :: ts) ↔ t.kind ≠ .eof ∧ Inner ts := List.forall_mem_cons

@[simp] theorem inner_append {ts us : List Token} : Inner (ts ++ us) ↔ Inner ts ∧ Inner us :=
  List.forall_mem_append

/-- The phrases of the rule lie before the end of the input. -/
def Bounded (D : Phrases α) : Prop := ∀ ⦃ts a⦄, D ts a → Inner ts

theorem Viable.inner {D : Phrases α} (hD : Bounded D) {ts : List Token} (h : Viable D ts) :
    Inner ts := by
  obtain ⟨us, a, -, h⟩ := h
  exact (inner_append.1 (hD h)).1

theorem Many.bounded {item : Phrases α} (hi : Bounded item) : Bounded (Many item) := by
  intro ts as h
  induction h with
  | nil => simp
  | cons ha _ ih => exact inner_append.2 ⟨hi ha, ih⟩

/-- One statement for each of the rules that an expression is made of, all at once. -/
theorem Expression.bounded : Bounded (Expression source) := by
  intro ts e h
  induction h using @Expression.rec source _ (fun ts _ _ => Inner ts) (fun ts _ _ => Inner ts)
    (fun ts _ _ => Inner ts) (fun ts _ _ => Inner ts) (fun ts _ _ => Inner ts)
    (fun ts _ _ => Inner ts) <;> simp_all

@[simp] theorem bindingWord_ne_eof (mutable : Bool) : bindingWord mutable ≠ .eof := by
  cases mutable <;> decide

theorem Statement.bounded : Bounded (Statement source) := by
  intro ts s h
  cases h with
  | init hw hn hq he hl => simp [hw, hn, hq, he.bounded, hl]
  | typed hw hn hc ht hq he hl => simp [hw, hn, hc, ht, hq, he.bounded, hl]
  | declared hw hn hc ht hl => simp [hw, hn, hc, ht, hl]
  | ret hw hl => simp [hw, hl]
  | retValue hw he hl => simp [hw, he.bounded, hl]
  | expr he hl => simp [he.bounded, hl]

theorem Block.bounded : Bounded (Block source) := by
  intro ts b h
  cases h with
  | intro ho hm hc => simp [ho, hm.bounded Statement.bounded, hc]

theorem Param.bounded : Bounded Param := by
  intro ts p h
  cases h <;> simp_all

theorem ReturnType.bounded : Bounded (ReturnType source) := by
  have hnl {ts : List Token} (h : ∀ t ∈ ts, IsNewline source t) : Inner ts := by
    intro t ht hk
    rw [(h t ht).1] at hk
    cases hk
  intro ts ty h
  cases h with
  | void hts => exact hnl hts
  | written hts ht hus => simp [hnl hts, ht, hnl hus]

theorem Function.bounded : Bounded (Function source) := by
  intro ts f h
  cases h with
  | intro hn ho hm hc hty hb =>
    simp [hn, ho, hm.bounded Param.bounded, hc, hty.bounded, hb.bounded]

theorem Functions.bounded : Bounded (Functions source) := by
  rintro ts p ⟨fs, hm, -⟩
  exact hm.bounded Function.bounded

end Grammar
end Frontend
