import Frontend.Token.Literal
import Frontend.Proofs.Grammar

/-! # What a literal states

Reading digits from the left and giving up at the first value that is no word is the same as taking
the value of all digits and giving up if that is no word.
-/
namespace Frontend
open Grammar

theorem Text.eq_append_of_takeBytes? {n : Nat} {t u : Text} (h : takeBytes? n t = some u) :
    ∃ rest, t = u ++ rest ∧ size u = n := by
  fun_induction takeBytes? n t generalizing u with
  | case1 t =>
    cases h
    exact ⟨t, rfl, rfl⟩
  | case2 | case4 => cases h
  | case3 n c t hle ih =>
    obtain ⟨v, hv, rfl⟩ := Option.map_eq_some_iff.1 h
    obtain ⟨rest, rfl, hsize⟩ := ih hv
    refine ⟨rest, rfl, ?_⟩
    rw [size_cons, hsize]
    omega

theorem le_ofDigitChars (digits : Text) (acc : Nat) : acc ≤ Nat.ofDigitChars 10 digits acc := by
  induction digits generalizing acc with
  | nil => simp
  | cons c t ih =>
    rw [Nat.ofDigitChars_cons]
    have h := ih (10 * acc + (c.toNat - '0'.toNat))
    omega

/-- A value once too large stays too large, so the first fault decides. -/
theorem foldDigits_eq {digits : Text} (hd : ∀ c ∈ digits, c.isDigit) (acc : Nat)
    (ha : acc < literalLimit) :
    foldDigits acc digits =
      if Nat.ofDigitChars 10 digits acc < literalLimit then
        .ok (Nat.ofDigitChars 10 digits acc)
      else .error .overflow := by
  induction digits generalizing acc with
  | nil => simp [foldDigits, ha]
  | cons c t ih =>
    rw [foldDigits, if_pos (hd c List.mem_cons_self), Nat.ofDigitChars_cons]
    by_cases hv : 10 * acc + (c.toNat - '0'.toNat) < literalLimit
    · rw [if_pos hv, ih (fun c hc => hd c (List.mem_cons_of_mem _ hc)) _ hv]
    · have hle := le_ofDigitChars t (10 * acc + (c.toNat - '0'.toNat))
      rw [if_neg hv, if_neg (by omega)]

theorem allDigits_of_foldDigits {digits : Text} {acc value : Nat}
    (h : foldDigits acc digits = .ok value) : ∀ c ∈ digits, c.isDigit := by
  fun_induction foldDigits acc digits with
  | case1 => exact fun c hc => absurd hc List.not_mem_nil
  | case2 acc c t hc v hv ih => exact List.forall_mem_cons.2 ⟨hc, ih h⟩
  | case3 | case4 => cases h

/-- The text is digits of the value, one at least, in front of as many bytes as the suffix has. -/
def Denotes (text : Text) (suffix : Suffix) (value : Nat) : Prop :=
  ∃ digits rest, text = digits ++ rest ∧ digits ≠ [] ∧ (∀ c ∈ digits, c.isDigit) ∧
    Text.size rest = Text.size suffix.text ∧ Nat.ofDigitChars 10 digits 0 = value

theorem Denotes.literalValue {text : Text} {suffix : Suffix} {value : Nat}
    (h : Denotes text suffix value) :
    literalValue text suffix = if value < literalLimit then .ok value else .error .overflow := by
  obtain ⟨digits, rest, rfl, hn, hd, hrest, rfl⟩ := h
  have hs : Text.size (digits ++ rest) - Text.size suffix.text = Text.size digits := by
    rw [Text.size_append]
    omega
  unfold Frontend.literalValue
  rw [if_neg (by rw [Text.size_append]; omega), hs, Text.takeBytes?_size_append]
  cases digits with
  | nil => exact absurd rfl hn
  | cons c t => exact foldDigits_eq hd 0 (by decide)

theorem denotes_of_literalValue {text : Text} {suffix : Suffix} {value : Nat}
    (h : literalValue text suffix = .ok value) : Denotes text suffix value := by
  unfold literalValue at h
  dsimp only at h
  split at h
  · cases h
  next hlen =>
    split at h
    · cases h
    · cases h
    · next digits hn htake =>
      obtain ⟨rest, rfl, hsize⟩ := Text.eq_append_of_takeBytes? htake
      have hd := allDigits_of_foldDigits h
      rw [foldDigits_eq hd 0 (by decide)] at h
      split at h
      · refine ⟨digits, rest, rfl, hn, hd, ?_, Except.ok.inj h⟩
        rw [Text.size_append] at hlen hsize
        omega
      · cases h

theorem literalValue_eq_ok {text : Text} {suffix : Suffix} {value : Nat} :
    literalValue text suffix = .ok value ↔ Denotes text suffix value ∧ value < literalLimit := by
  constructor
  · intro h
    have hden := denotes_of_literalValue h
    rw [hden.literalValue] at h
    split at h
    · next hv => exact ⟨hden, hv⟩
    · cases h
  · rintro ⟨hden, hv⟩
    rw [hden.literalValue, if_pos hv]

def Spelled (source : Text) (t : Token) : Prop :=
  ∀ suffix, t.kind = .int suffix → ∃ value < literalLimit, Spells source t.span suffix value

namespace Grammar
variable {source : Text} {ts us : List Token}

def AllSpelled (source : Text) (ts : List Token) : Prop := ∀ t ∈ ts, Spelled source t

@[simp] theorem allSpelled_nil : AllSpelled source [] := fun _ ht => absurd ht List.not_mem_nil

@[simp] theorem allSpelled_cons {t : Token} :
    AllSpelled source (t :: ts) ↔ Spelled source t ∧ AllSpelled source ts := List.forall_mem_cons

@[simp] theorem allSpelled_append :
    AllSpelled source (ts ++ us) ↔ AllSpelled source ts ∧ AllSpelled source us :=
  List.forall_mem_append

end Grammar

theorem Grammar.Spells.denotes {source : Text} {span : Span} {suffix : Suffix} {value : Nat}
    (h : Spells source span suffix value) : Denotes (span.text source) suffix value := by
  obtain ⟨digits, hn, hd, ht, hv⟩ := h
  exact ⟨digits, suffix.text, ht, hn, hd, rfl, hv.symm⟩

end Frontend
