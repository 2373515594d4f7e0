import Frontend.Token.Scanner

/-! # Open parentheses

A scanner counts open parentheses, and the count stays at zero where there is nothing to close. It is
zero exactly where every opening parenthesis has found the one that closes it.
-/
namespace Frontend.Kind

/-- Kinds among which every parenthesis has its other. -/
inductive Balanced : List Kind → Prop where
  | nil : Balanced []
  | other {k : Kind} {ks : List Kind} : k ≠ .lparen → k ≠ .rparen → Balanced ks → Balanced (k :: ks)
  | paren {inner ks : List Kind} : Balanced inner → Balanced ks →
      Balanced (.lparen :: (inner ++ .rparen :: ks))

/-- Balanced kinds and a closing parenthesis: what closes one that is open before these kinds. -/
def Closing (ks : List Kind) : Prop :=
  ∃ inner rest, ks = inner ++ .rparen :: rest ∧ Balanced inner

def LeftOpen (ks : List Kind) : Prop :=
  ∃ before after, ks = before ++ .lparen :: after ∧ ¬ Closing after

def openAfter (n : Nat) (ks : List Kind) : Nat := ks.foldl (fun n k => k.depthAfter n) n

variable {n : Nat} {k : Kind} {ks : List Kind}

theorem openAfter_cons : openAfter n (k :: ks) = openAfter (k.depthAfter n) ks := rfl

theorem openAfter_append {ks' : List Kind} :
    openAfter n (ks ++ ks') = openAfter (openAfter n ks) ks' := List.foldl_append

theorem depthAfter_other (hl : k ≠ .lparen) (hr : k ≠ .rparen) : k.depthAfter n = n := by
  cases k with
  | lparen => exact absurd rfl hl
  | rparen => exact absurd rfl hr
  | _ => rfl

theorem openAfter_paren {inner rest : List Kind} (h : openAfter (n + 1) inner = n + 1) :
    openAfter n (.lparen :: (inner ++ .rparen :: rest)) = openAfter n rest := by
  rw [openAfter_cons, openAfter_append, openAfter_cons, depthAfter, h, depthAfter]
  rfl

theorem Balanced.openAfter_eq (h : Balanced ks) : openAfter n ks = n := by
  induction h generalizing n with
  | nil => rfl
  | other hl hr _ ih => rw [openAfter_cons, depthAfter_other hl hr, ih]
  | paren _ _ ihi ihk => rw [openAfter_paren ihi, ihk]

/-- Kinds are read from the left, each opening parenthesis together with what closes it, if anything. -/
theorem matching_induction {motive : List Kind → Prop} (nil : motive [])
    (other : ∀ k ks, k ≠ .lparen → k ≠ .rparen → motive ks → motive (k :: ks))
    (unopened : ∀ ks, motive ks → motive (.rparen :: ks))
    (unclosed : ∀ ks, ¬ Closing ks → motive ks → motive (.lparen :: ks))
    (paren : ∀ inner rest, Balanced inner → motive rest →
      motive (.lparen :: (inner ++ .rparen :: rest))) (ks : List Kind) : motive ks := by
  induction hlen : ks.length using Nat.strongRecOn generalizing ks with
  | ind len ih =>
    cases ks with
    | nil => exact nil
    | cons k ks =>
      rw [List.length_cons] at hlen
      have htail : motive ks := ih ks.length (by omega) ks rfl
      by_cases hl : k = .lparen
      · subst hl
        by_cases hc : Closing ks
        · obtain ⟨inner, rest, rfl, hb⟩ := hc
          rw [List.length_append, List.length_cons] at hlen
          exact paren inner rest hb (ih rest.length (by omega) rest rfl)
        · exact unclosed ks hc htail
      by_cases hr : k = .rparen
      · subst hr
        exact unopened ks htail
      · exact other k ks hl hr htail

theorem le_openAfter (h : ¬ Closing ks) (n : Nat) : n ≤ openAfter n ks := by
  induction ks using matching_induction generalizing n with
  | nil => exact Nat.le_refl n
  | other k ks hl hr ih =>
    rw [openAfter_cons, depthAfter_other hl hr]
    refine ih ?_ n
    rintro ⟨inner, rest, rfl, hb⟩
    exact h ⟨k :: inner, rest, rfl, .other hl hr hb⟩
  | unopened ks _ => exact absurd ⟨[], ks, rfl, .nil⟩ h
  | unclosed ks hc ih => exact Nat.le_of_succ_le (ih hc (n + 1))
  | paren inner rest hb ih =>
    rw [openAfter_paren hb.openAfter_eq]
    refine ih ?_ n
    rintro ⟨inner', rest', rfl, hb'⟩
    exact h ⟨.lparen :: (inner ++ .rparen :: inner'), rest', by simp, .paren hb hb'⟩

theorem LeftOpen.append (earlier : List Kind) (h : LeftOpen ks) : LeftOpen (earlier ++ ks) := by
  obtain ⟨before, after, rfl, hc⟩ := h
  exact ⟨earlier ++ before, after, (List.append_assoc ..).symm, hc⟩

theorem LeftOpen.openAfter_pos (h : LeftOpen ks) : 0 < openAfter n ks := by
  obtain ⟨before, after, rfl, hc⟩ := h
  have hle := le_openAfter hc (openAfter n before + 1)
  rw [openAfter_append, openAfter_cons]
  exact Nat.lt_of_lt_of_le (Nat.succ_pos _) hle

theorem openAfter_eq_zero (h : ¬ LeftOpen ks) : openAfter 0 ks = 0 := by
  induction ks using matching_induction with
  | nil => rfl
  | other k ks hl hr ih =>
    rw [openAfter_cons, depthAfter_other hl hr]
    exact ih fun ho => h (ho.append [k])
  | unopened ks ih => exact ih fun ho => h (ho.append [.rparen])
  | unclosed ks hc _ => exact absurd ⟨[], ks, rfl, hc⟩ h
  | paren inner rest hb ih =>
    rw [openAfter_paren hb.openAfter_eq]
    refine ih fun ho => h ?_
    have hall := ho.append (.lparen :: inner ++ [.rparen])
    rw [List.append_assoc] at hall
    exact hall

theorem openAfter_eq_zero_iff : openAfter 0 ks = 0 ↔ ¬ LeftOpen ks :=
  ⟨fun h ho => Nat.ne_of_gt ho.openAfter_pos h, openAfter_eq_zero⟩

end Frontend.Kind
