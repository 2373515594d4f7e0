import Frontend.Proofs.Pool.Refinement
import Mathlib.Algebra.Group.Nat.Defs
import Mathlib.Order.Bounds.Defs

/-! # Capacity and the greatest length

The capacity of an array is settled by the capacity it was created with and by the greatest length that it
has had since: removal and refused calls leave it alone, and growth doubles it only when it is used up for
the first time. What goes on elsewhere in the pool makes no difference.
-/
namespace Frontend.Pool.Vec

/-- The capacity of an array of `n` slots at first that has held up to `peak` elements. -/
structure Fitted (n peak capacity : Nat) : Prop where
  roomy : peak ≤ n → capacity = n
  doubled : n < peak → IsLeast {m | peak ≤ m ∧ ∃ k, m = max n 1 * 2 ^ k} capacity

/-- A call on an array, and what was done elsewhere in its pool since the call before. -/
structure Turn (α : Type) where
  elsewhere : Heap → Heap
  sys : System
  call : Call α

namespace Fitted
variable {n peak peak' capacity : Nat}

theorem initial (n : Nat) : Fitted n 0 n where
  roomy _ := rfl
  doubled h := absurd h (Nat.not_lt_zero n)

theorem peak_le (h : Fitted n peak capacity) : peak ≤ capacity := by
  by_cases hn : peak ≤ n
  · rw [h.roomy hn]
    exact hn
  · exact (h.doubled (Nat.lt_of_not_le hn)).1.1

theorem mono (h : Fitted n peak capacity) (hle : peak ≤ peak') (hfits : peak' ≤ capacity) :
    Fitted n peak' capacity where
  roomy hn := h.roomy (Nat.le_trans hle hn)
  doubled hn := by
    have hpeak : n < peak := by
      refine Nat.lt_of_not_le fun hroomy => ?_
      rw [h.roomy hroomy] at hfits
      exact Nat.not_lt.2 hfits hn
    obtain ⟨⟨-, hpow⟩, hleast⟩ := h.doubled hpeak
    exact ⟨⟨hfits, hpow⟩, fun m hm => hleast ⟨Nat.le_trans hle hm.1, hm.2⟩⟩

theorem isLeast_double {b : Nat} (hb : 0 < b) (k : Nat) :
    IsLeast {m | b * 2 ^ k + 1 ≤ m ∧ ∃ j, m = b * 2 ^ j} (b * 2 ^ (k + 1)) := by
  have hpos : 0 < b * 2 ^ k := Nat.mul_pos hb (Nat.two_pow_pos k)
  constructor
  · refine ⟨?_, k + 1, rfl⟩
    rw [Nat.pow_succ, ← Nat.mul_assoc]
    omega
  · rintro m ⟨hlt, j, rfl⟩
    have hpow : 2 ^ k < 2 ^ j := Nat.lt_of_mul_lt_mul_left hlt
    have hj : k < j := (Nat.pow_lt_pow_iff_right Nat.one_lt_two).1 hpow
    exact Nat.mul_le_mul_left b (Nat.pow_le_pow_right Nat.two_pos hj)

/-- One element more than ever fitted takes twice the slots, and at least one. -/
theorem double (h : Fitted n capacity capacity) :
    Fitted n (capacity + 1) (max (2 * capacity) 1) := by
  by_cases hn : capacity ≤ n
  · obtain rfl := h.roomy hn
    refine ⟨fun hle => absurd hle (Nat.not_succ_le_self capacity), fun _ => ?_⟩
    rcases Nat.eq_zero_or_pos capacity with rfl | hpos
    · exact ⟨⟨Nat.le_refl 1, 0, rfl⟩, fun m hm => hm.1⟩
    · have hdouble := isLeast_double hpos 0
      rw [Nat.pow_zero, Nat.mul_one, Nat.zero_add, Nat.pow_one, Nat.mul_comm] at hdouble
      rw [Nat.max_eq_left (show 1 ≤ 2 * capacity by omega), Nat.max_eq_left hpos]
      exact hdouble
  · obtain ⟨⟨-, k, hk⟩, -⟩ := h.doubled (Nat.lt_of_not_le hn)
    have hdouble := isLeast_double (Nat.le_max_right n 1) k
    rw [Nat.pow_succ, ← Nat.mul_assoc, ← hk, Nat.mul_comm] at hdouble
    rw [Nat.max_eq_left (by omega)]
    exact ⟨fun hle => absurd hle (by omega), fun _ => hdouble⟩

end Fitted

variable {α : Type} [Storable α] {sys : System} {n peak : Nat} {v w : Vec α} {h h' : Heap}

theorem create_new (hv : create sys n h = (.ok v, h')) : v.length = 0 ∧ v.capacity = n := by
  unfold create at hv
  split at hv
  · cases hv
  · split at hv
    · cases hv
    · cases hv
      exact ⟨rfl, rfl⟩

theorem reserveOne_capacity (hr : v.reserveOne sys h = (.ok w, h')) : w.length = v.length ∧
    (v.length ≠ v.capacity ∧ w.capacity = v.capacity ∨
      v.length = v.capacity ∧ w.capacity = max (2 * v.capacity) 1) := by
  unfold reserveOne at hr
  split at hr
  · next hfull =>
    unfold grow nextCapacity at hr
    split at hr
    · cases hr
    · next d hd =>
      split at hd
      · cases hd
      · cases hd
        split at hr
        · cases hr
        · next hc =>
          cases hr
          exact ⟨rfl, .inr ⟨hfull, (create_new hc).2⟩⟩
  · next hroom =>
    cases hr
    exact ⟨rfl, .inl ⟨hroom, rfl⟩⟩

variable [Inhabited α]

def after (v : Vec α) (h : Heap) : List (Turn α) → Vec α × Heap
  | [] => (v, h)
  | t :: ts =>
    let r := perform t.sys v (t.elsewhere h) t.call
    after r.2.1 r.2.2 ts

/-- The greatest length that the array has from here on until the turns are over. -/
def peakLength (v : Vec α) (h : Heap) : List (Turn α) → Nat
  | [] => v.length
  | t :: ts =>
    let r := perform t.sys v (t.elsewhere h) t.call
    max v.length (peakLength r.2.1 r.2.2 ts)

/-- A call that has added an element, with more slots only if there was none left. -/
structure Resized (v : Vec α) (call : Call α) (answer : Answer α) (w : Vec α) : Prop where
  adds : call.Adds v.length
  done : answer = .done
  length : w.length = v.length + 1
  capacity : v.length ≠ v.capacity ∧ w.capacity = v.capacity ∨
    v.length = v.capacity ∧ w.capacity = max (2 * v.capacity) 1

omit [Inhabited α] in
theorem Resized.of_room {call : Call α} (hadds : call.Adds v.length)
    (hr : v.reserveOne sys h = (.ok w, h')) :
    Resized v call .done { w with length := w.length + 1 } where
  adds := hadds
  done := rfl
  length := congrArg (· + 1) (reserveOne_capacity hr).1
  capacity := (reserveOne_capacity hr).2

/-- A call leaves the capacity and adds no element, or it is carried out and adds one. -/
theorem perform_resized (sys : System) (v : Vec α) (h : Heap) (call : Call α) :
    ((perform sys v h call).2.1.capacity = v.capacity ∧
        (perform sys v h call).2.1.length ≤ v.length) ∨
      Resized v call (perform sys v h call).1 (perform sys v h call).2.1 := by
  cases call with
  | push x =>
    rw [perform, push]
    rcases hr : v.reserveOne sys h with ⟨e | w, h'⟩
    · exact .inl ⟨rfl, Nat.le_refl _⟩
    · exact .inr (.of_room trivial hr)
  | insert i x =>
    rw [perform, insert]
    by_cases hi : v.length < i
    · rw [if_pos hi]
      exact .inl ⟨rfl, Nat.le_refl _⟩
    · rw [if_neg hi]
      rcases hr : v.reserveOne sys h with ⟨e | w, h'⟩
      · exact .inl ⟨rfl, Nat.le_refl _⟩
      · exact .inr (.of_room (Nat.le_of_not_lt hi) hr)
  | remove i =>
    rw [perform, remove]
    by_cases hi : v.length ≤ i
    · rw [if_pos hi]
      exact .inl ⟨rfl, Nat.le_refl _⟩
    · rw [if_neg hi]
      exact .inl ⟨rfl, Nat.sub_le _ _⟩
  | set i x =>
    rw [perform]
    cases v.set? i x h <;> exact .inl ⟨rfl, Nat.le_refl _⟩
  | allocSlot x =>
    rw [perform, allocSlot, push]
    rcases hr : v.reserveOne sys h with ⟨e | w, h'⟩
    · exact .inl ⟨rfl, Nat.le_refl _⟩
    · exact .inr (.of_room trivial hr)
  | get i => exact .inl ⟨rfl, Nat.le_refl _⟩
  | reverse => exact .inl ⟨rfl, Nat.le_refl _⟩

/-- One step: the capacity fits the greatest length again. -/
theorem Fitted.step (hf : Fitted n peak v.capacity) (hlen : v.length ≤ peak) (sys : System)
    (h : Heap) (call : Call α) : Fitted n (max peak (perform sys v h call).2.1.length)
      (perform sys v h call).2.1.capacity := by
  have hpeak := hf.peak_le
  rcases perform_resized sys v h call with ⟨hcap, hle⟩ | ⟨-, -, hadded, hcap⟩
  · rw [hcap, Nat.max_eq_left (Nat.le_trans hle hlen)]
    exact hf
  rw [hadded]
  rcases hcap with ⟨hroom, hcap⟩ | ⟨hfull, hcap⟩
  · rw [hcap]
    exact hf.mono (Nat.le_max_left _ _) (by omega)
  · obtain rfl : peak = v.capacity := by omega
    rw [hcap, hfull, Nat.max_eq_right (Nat.le_succ _)]
    exact hf.double

theorem length_le_peakLength (v : Vec α) (h : Heap) (turns : List (Turn α)) :
    v.length ≤ peakLength v h turns := by
  cases turns with
  | nil => exact Nat.le_refl _
  | cons t ts => exact Nat.le_max_left _ _

theorem Fitted.after (hf : Fitted n peak v.capacity) (hlen : v.length ≤ peak) (h : Heap)
    (turns : List (Turn α)) :
    Fitted n (max peak (peakLength v h turns)) (Vec.after v h turns).1.capacity := by
  induction turns generalizing peak v h with
  | nil =>
    rw [peakLength, Nat.max_eq_left hlen]
    exact hf
  | cons t ts ih =>
    have hstep := hf.step hlen t.sys (t.elsewhere h) t.call
    have hrest := ih hstep (Nat.le_max_right _ _) (perform t.sys v (t.elsewhere h) t.call).2.2
    have hle := length_le_peakLength (perform t.sys v (t.elsewhere h) t.call).2.1
      (perform t.sys v (t.elsewhere h) t.call).2.2 ts
    have hmax : max peak (peakLength v h (t :: ts)) =
        max (max peak (perform t.sys v (t.elsewhere h) t.call).2.1.length)
          (peakLength (perform t.sys v (t.elsewhere h) t.call).2.1
            (perform t.sys v (t.elsewhere h) t.call).2.2 ts) := by
      rw [peakLength]
      omega
    rw [hmax]
    exact hrest

theorem perform_capacity {call : Call α} (hquiet : (∃ i, call = .remove i) ∨
    (∃ e, (perform sys v h call).1 = .failed e) ∨ ∃ x, (perform sys v h call).1 = .panicked x) :
    (perform sys v h call).2.1.capacity = v.capacity := by
  rcases perform_resized sys v h call with ⟨hcap, -⟩ | ⟨hadds, hdone, -, -⟩
  · exact hcap
  · rcases hquiet with ⟨i, rfl⟩ | ⟨e, he⟩ | ⟨x, hx⟩
    · cases hadds
    · cases hdone.symm.trans he
    · cases hdone.symm.trans hx

/-- After any calls the capacity of an array is the one it was created with as long as the array has never
been longer, and else the least number that comes of it by doubling and reaches the greatest length so far.
A next call that removes, fails or panics does not change it. -/
theorem capacity_of_peak (hv : create sys n h = (.ok v, h')) (turns : List (Turn α)) :
    let w := (after v h' turns).1
    (peakLength v h' turns ≤ n → w.capacity = n) ∧
    (n < peakLength v h' turns →
      IsLeast {m | peakLength v h' turns ≤ m ∧ ∃ k, m = max n 1 * 2 ^ k} w.capacity) ∧
    ∀ t : Turn α, let r := perform t.sys w (t.elsewhere (after v h' turns).2) t.call
      (∃ i, t.call = .remove i) ∨ (∃ e, r.1 = .failed e) ∨ (∃ x, r.1 = .panicked x) →
      r.2.1.capacity = w.capacity := by
  obtain ⟨hlen, hcap⟩ := create_new hv
  have hstart : Fitted n 0 v.capacity := by
    rw [hcap]
    exact .initial n
  have hfitted := hstart.after (Nat.le_of_eq hlen) h' turns
  rw [Nat.zero_max] at hfitted
  exact ⟨hfitted.roomy, hfitted.doubled, fun t => perform_capacity⟩

theorem capacity_of_peak_two : ∃ v h', create (α := UInt64) .standard 1
      ⟨⟨⟨32, 16⟩, ⟨0, 16, 16⟩, [], 0, 16⟩, .empty⟩ = (.ok v, h') ∧
    let turns : List (Turn UInt64) := [⟨id, .standard, .push 5⟩, ⟨id, .standard, .push 7⟩,
      ⟨id, .standard, .push 9⟩, ⟨id, .standard, .remove 0⟩]
    let w := (after v h' turns).1
    let r := perform .standard w (after v h' turns).2 (.remove 7)
    peakLength v h' turns = 2 ∧ w.length = 1 ∧
      IsLeast {m | 2 ≤ m ∧ ∃ k, m = 1 * 2 ^ k} w.capacity ∧
      r.1 = .panicked (.removeBeyond 7 1) ∧ r.2.1.capacity = w.capacity := by
  have hv : create (α := UInt64) .standard 1 ⟨⟨⟨32, 16⟩, ⟨0, 16, 16⟩, [], 0, 16⟩, .empty⟩ =
      (.ok ⟨0, 0, 1⟩, ⟨⟨⟨32, 16⟩, ⟨0, 16, 16⟩, [], 8, 16⟩, .empty⟩) := rfl
  refine ⟨_, _, hv, ?_⟩
  intro turns w r
  obtain ⟨-, hdoubled, hquiet⟩ := capacity_of_peak hv turns
  have hpanic : r.1 = .panicked (.removeBeyond 7 1) := rfl
  exact ⟨rfl, rfl, hdoubled (by decide), hpanic,
    hquiet ⟨id, .standard, .remove 7⟩ (.inl ⟨7, rfl⟩)⟩

end Frontend.Pool.Vec
