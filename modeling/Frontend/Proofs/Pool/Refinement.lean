import Frontend.Proofs.Pool.Refused
import Frontend.Proofs.Pool.Slots
import Frontend.Proofs.Pool.World

/-! # Arrays as lists

Whatever is done to an array comes to the same as on the list of its elements, with one exception: an
element may find no room, when the array is full and can get no larger buffer. Then nothing has changed,
in the array or in the pool. What a single call does is settled first, and runs of calls follow by
induction.
-/
namespace Frontend.Pool.Vec

/-- A call on an array; `allocSlot` comes with the value that is stored in the slot it gives. -/
inductive Call (α : Type) where
  | push (x : α)
  | insert (i : Nat) (x : α)
  | remove (i : Nat)
  | get (i : Nat)
  | set (i : Nat) (x : α)
  | allocSlot (x : α)
  | reverse

inductive Answer (α : Type) where
  | done
  | removed (x : α)
  | found (x : Option α)
  | stored (inside : Bool)
  | failed (e : Failure)
  | panicked (r : Refusal)
deriving DecidableEq

def Answer.ofRefusal {α : Type} : Refusal → Answer α
  | .pool e => failed e
  | r => panicked r

def Answer.failure? {α : Type} : Answer α → Option Failure
  | failed e => some e
  | _ => none

/-- Whether a call on an array of so many elements adds one. -/
def Call.Adds {α : Type} (length : Nat) : Call α → Prop
  | push _ => True
  | allocSlot _ => True
  | insert i _ => i ≤ length
  | _ => False

def Call.onList {α : Type} : Call α → List α → Answer α × List α
  | push x, xs => (.done, xs ++ [x])
  | insert i x, xs =>
    if xs.length < i then (.panicked (.insertBeyond i xs.length), xs) else (.done, xs.insertIdx i x)
  | remove i, xs =>
    match xs[i]? with
    | none => (.panicked (.removeBeyond i xs.length), xs)
    | some x => (.removed x, xs.eraseIdx i)
  | get i, xs => (.found xs[i]?, xs)
  | set i x, xs => (.stored (i < xs.length), xs.set i x)
  | allocSlot x, xs => (.done, xs ++ [x])
  | reverse, xs => (.done, xs.reverse)

/-- Calls on a list, each told whether it is to fail. -/
def replay {α : Type} : List (Call α × Option Failure) → List α → List (Answer α) × List α
  | [], xs => ([], xs)
  | (_, some e) :: rest, xs => (.failed e :: (replay rest xs).1, (replay rest xs).2)
  | (call, none) :: rest, xs =>
    ((call.onList xs).1 :: (replay rest (call.onList xs).2).1, (replay rest (call.onList xs).2).2)

variable {α : Type} [Storable α] [Inhabited α]

def perform (sys : System) (v : Vec α) (h : Heap) : Call α → Answer α × Vec α × Heap
  | .push x =>
    match v.push sys x h with
    | (.error e, h) => (.failed e, v, h)
    | (.ok w, h) => (.done, w, h)
  | .insert i x =>
    match v.insert sys i x h with
    | (.error r, h) => (.ofRefusal r, v, h)
    | (.ok w, h) => (.done, w, h)
  | .remove i =>
    match v.remove i h with
    | (.error r, h) => (.ofRefusal r, v, h)
    | (.ok (x, w), h) => (.removed x, w, h)
  | .get i => (.found (v.get? i h), v, h)
  | .set i x =>
    match v.set? i x h with
    | none => (.stored false, v, h)
    | some h => (.stored true, v, h)
  | .allocSlot x =>
    match v.allocSlot sys h with
    | (.error e, h) => (.failed e, v, h)
    | (.ok (w, p), h) => (.done, w, h.store p x)
  | .reverse => (.done, v, v.reverse h)

/-- Calls one after another, each with a system of its own, and what they answer. -/
def run (v : Vec α) (h : Heap) : List (System × Call α) → List (Answer α) × Vec α × Heap
  | [] => ([], v, h)
  | (sys, call) :: rest =>
    let r := perform sys v h call
    (r.1 :: (run r.2.1 r.2.2 rest).1, (run r.2.1 r.2.2 rest).2)

/-- The reasons for which an array that is full gets no larger buffer. -/
inductive Cramped (sys : System) (v : Vec α) (h : Heap) (e : Failure) : Prop where
  | capacity : nextCapacity v.capacity = .error e → Cramped sys v h e
  | layout {n : Nat} : nextCapacity v.capacity = .ok n →
      bufferLayout (Storable.layout α) n = .error e → Cramped sys v h e
  | pool {n : Nat} {l : Layout} : nextCapacity v.capacity = .ok n →
      bufferLayout (Storable.layout α) n = .ok l → (h.pool.alloc sys l).1 = .error e →
      Cramped sys v h e

/-- A call does to the array what it does to the list of its elements, or fails with no trace because it
adds one to an array that is full and gets no larger buffer. -/
structure Faithful (sys : System) (v : Vec α) (h : Heap) (call : Call α)
    (r : Answer α × Vec α × Heap) : Prop where
  listed : r.1.failure? = none → (r.1, r.2.1.toList r.2.2) = call.onList (v.toList h)
  failed_iff : ∀ e, r.1 = .failed e ↔
    call.Adds v.length ∧ v.length = v.capacity ∧ Cramped sys v h e
  of_failed : ∀ e, r.1 = .failed e → r.2 = (v, h)
  of_panicked : ∀ x, r.1 = .panicked x → r.2 = (v, h)
  fits : r.2.1.length ≤ r.2.1.capacity

variable {c : Config} {sys : System} {v : Vec α} {h : Heap}

omit [Inhabited α] in
theorem create_of_refused {n : Nat} {e : Failure} {h' : Heap} (hp : h.pool.Sound c)
    (hc : create (α := α) sys n h = (.error e, h')) : h' = h := by
  unfold create at hc
  split at hc
  · cases hc
    rfl
  · next l _ =>
    unfold Heap.request at hc
    rcases ha : h.pool.alloc sys l with ⟨_ | b, q⟩ <;> rw [ha] at hc <;> cases hc
    obtain ⟨-, rfl⟩ := commitFor_of_refused hp.chunk_pos ha
    rfl

omit [Inhabited α] in
theorem create_memory {n : Nat} {w : Vec α} {h' : Heap}
    (hc : create sys n h = (.ok w, h')) : h'.memory = h.memory := by
  unfold create at hc
  split at hc
  · cases hc
  · next l _ =>
    unfold Heap.request at hc
    rcases ha : h.pool.alloc sys l with ⟨_ | b, q⟩ <;> rw [ha] at hc <;> cases hc
    rfl

omit [Inhabited α] in
theorem create_error_iff {n : Nat} {e : Failure} : (create (α := α) sys n h).1 = .error e ↔
    bufferLayout (Storable.layout α) n = .error e ∨
      ∃ l, bufferLayout (Storable.layout α) n = .ok l ∧ (h.pool.alloc sys l).1 = .error e := by
  unfold create
  cases hl : bufferLayout (Storable.layout α) n with
  | error f => simp
  | ok l =>
    unfold Heap.request
    rcases ha : h.pool.alloc sys l with ⟨f | b, q⟩ <;> simp [ha]

omit [Inhabited α] in
/-- Room for one more element is refused to an array that is full, for one of three reasons. -/
theorem reserveOne_error_iff {e : Failure} :
    (v.reserveOne sys h).1 = .error e ↔ v.length = v.capacity ∧ Cramped sys v h e := by
  unfold reserveOne
  by_cases hfull : v.length = v.capacity
  case neg => simp [hfull]
  case pos =>
    have hgrow (n : Nat) (hn : nextCapacity v.capacity = .ok n) :
        (v.grow sys h).1 = .error e ↔ (create (α := α) sys n h).1 = .error e := by
      unfold grow
      rw [hn]
      rcases hc : create (α := α) sys n h with ⟨f | w, h'⟩ <;> simp [hc]
    simp only [hfull, if_true, true_and]
    constructor
    · intro he
      cases hn : nextCapacity v.capacity with
      | error f =>
        unfold grow at he
        rw [hn] at he
        cases he
        exact .capacity hn
      | ok n =>
        rcases create_error_iff.1 ((hgrow n hn).1 he) with hl | ⟨l, hl, ha⟩
        · exact .layout hn hl
        · exact .pool hn hl ha
    · rintro (hn | ⟨hn, hl⟩ | ⟨hn, hl, ha⟩)
      · unfold grow
        rw [hn]
      · exact (hgrow _ hn).2 (create_error_iff.2 (.inl hl))
      · exact (hgrow _ hn).2 (create_error_iff.2 (.inr ⟨_, hl, ha⟩))

omit [Inhabited α] in
theorem reserveOne_cases (sys : System) (hp : h.pool.Sound c) (hv : v.length ≤ v.capacity) :
    (∃ e, v.reserveOne sys h = (.error e, h)) ∨
      ∃ w h', v.reserveOne sys h = (.ok w, h') ∧ w.toList h' = v.toList h ∧
        w.length = v.length ∧ w.length < w.capacity ∧ h'.pool.Sound c := by
  obtain ⟨he, hw⟩ := reserveOne_effect sys hp hv
  have hsound := (he.grows hp).1
  rcases hr : v.reserveOne sys h with ⟨e | w, h'⟩
  · left
    refine ⟨e, ?_⟩
    unfold reserveOne grow at hr
    split at hr
    · split at hr
      · cases hr
        rfl
      · split at hr
        · next hc =>
          cases hr
          rw [create_of_refused hp hc]
        · cases hr
    · cases hr
  · right
    rw [hr] at hw hsound
    obtain ⟨hlen, hlt⟩ := hw w rfl
    refine ⟨w, h', rfl, ?_, hlen, hlt, hsound⟩
    unfold reserveOne grow at hr
    split at hr
    · split at hr
      · cases hr
      · split at hr
        · cases hr
        · next hc =>
          cases hr
          exact toList_copied (create_memory hc)
    · cases hr
      rfl

namespace Faithful

variable {call : Call α} {r : Answer α × Vec α × Heap}

omit [Inhabited α] in
theorem of_listed (hroom : call.Adds v.length → ∃ w, (v.reserveOne sys h).1 = .ok w)
    (hlist : (r.1, r.2.1.toList r.2.2) = call.onList (v.toList h)) (hfail : r.1.failure? = none)
    (hpanic : ∀ x, r.1 ≠ .panicked x) (hfits : r.2.1.length ≤ r.2.1.capacity) :
    Faithful sys v h call r where
  listed _ := hlist
  failed_iff e := by
    rw [← reserveOne_error_iff]
    constructor
    · intro he
      rw [he] at hfail
      cases hfail
    · rintro ⟨hadds, he⟩
      obtain ⟨w, hw⟩ := hroom hadds
      cases hw.symm.trans he
  of_failed e he := by
    rw [he] at hfail
    cases hfail
  of_panicked x hx := absurd hx (hpanic x)
  fits := hfits

omit [Inhabited α] in
theorem of_refused {e : Failure} (hv : v.length ≤ v.capacity) (hadds : call.Adds v.length)
    (he : (v.reserveOne sys h).1 = .error e) : Faithful sys v h call (.failed e, v, h) where
  listed hnone := by cases hnone
  failed_iff f := by
    rw [← reserveOne_error_iff]
    constructor
    · rintro ⟨⟩
      exact ⟨hadds, he⟩
    · rintro ⟨-, hf⟩
      cases hf.symm.trans he
      rfl
  of_failed _ _ := rfl
  of_panicked _ hx := by cases hx
  fits := hv

omit [Inhabited α] in
theorem of_panic {x : Refusal} (hv : v.length ≤ v.capacity) (hadds : ¬ call.Adds v.length)
    (hlist : call.onList (v.toList h) = (.panicked x, v.toList h)) :
    Faithful sys v h call (.panicked x, v, h) where
  listed _ := hlist.symm
  failed_iff _ := by
    constructor
    · rintro ⟨⟩
    · rintro ⟨ha, -⟩
      exact absurd ha hadds
  of_failed _ he := by cases he
  of_panicked _ _ := rfl
  fits := hv

end Faithful

theorem perform_push (sys : System) (hp : h.pool.Sound c) (hv : v.length ≤ v.capacity) (x : α) :
    Faithful sys v h (.push x) (perform sys v h (.push x)) ∧
      (perform sys v h (.push x)).2.2.pool.Sound c := by
  rw [perform, push]
  rcases reserveOne_cases sys hp hv with ⟨e, hr⟩ | ⟨w, h', hr, hlist, -, hlt, hs⟩
  · rw [hr]
    exact ⟨.of_refused hv trivial (by rw [hr]), hp⟩
  · rw [hr]
    refine ⟨.of_listed (fun _ => ⟨w, by rw [hr]⟩) ?_ rfl (by simp) hlt, hs⟩
    simp only [toList_appended, hlist, Call.onList]

theorem perform_insert (sys : System) (hp : h.pool.Sound c) (hv : v.length ≤ v.capacity) (i : Nat)
    (x : α) : Faithful sys v h (.insert i x) (perform sys v h (.insert i x)) ∧
      (perform sys v h (.insert i x)).2.2.pool.Sound c := by
  have hlen := length_toList v h
  rw [perform, insert]
  by_cases hi : v.length < i
  · rw [if_pos hi]
    refine ⟨.of_panic hv (Nat.not_le_of_lt hi) ?_, hp⟩
    simp only [Call.onList, hlen, if_pos hi]
  · rw [if_neg hi]
    rcases reserveOne_cases sys hp hv with ⟨e, hr⟩ | ⟨w, h', hr, hlist, hw, hlt, hs⟩
    · rw [hr]
      exact ⟨.of_refused hv (Nat.le_of_not_lt hi) (by rw [hr]), hp⟩
    · rw [hr]
      refine ⟨.of_listed (fun _ => ⟨w, by rw [hr]⟩) ?_ rfl (by simp) hlt, hs⟩
      simp only [Call.onList, hlen, if_neg hi]
      rw [toList_inserted (by omega), hlist]

theorem perform_remove (sys : System) (hp : h.pool.Sound c) (hv : v.length ≤ v.capacity) (i : Nat) :
    Faithful sys v h (.remove i) (perform sys v h (.remove i)) ∧
      (perform sys v h (.remove i)).2.2.pool.Sound c := by
  have hlen := length_toList v h
  rw [perform, remove]
  by_cases hi : v.length ≤ i
  · rw [if_pos hi]
    refine ⟨.of_panic hv id ?_, hp⟩
    simp only [Call.onList, List.getElem?_eq_none (Nat.le_trans (Nat.le_of_eq hlen) hi), hlen]
  · rw [if_neg hi]
    have hin : i < (v.toList h).length := by omega
    refine ⟨.of_listed False.elim ?_ rfl (by simp) (Nat.le_trans (Nat.sub_le _ _) hv), hp⟩
    simp only [Call.onList, List.getElem?_eq_getElem hin]
    rw [toList_removed (by omega), load_slot hin]

theorem perform_set (sys : System) (hp : h.pool.Sound c) (hv : v.length ≤ v.capacity) (i : Nat)
    (x : α) : Faithful sys v h (.set i x) (perform sys v h (.set i x)) ∧
      (perform sys v h (.set i x)).2.2.pool.Sound c := by
  have hlen := length_toList v h
  rw [perform, set?]
  by_cases hi : i < v.length
  · rw [if_pos hi]
    refine ⟨.of_listed False.elim ?_ rfl (by simp) hv, hp⟩
    simp only [Call.onList, toList_stored, hlen, hi, decide_true]
  · rw [if_neg hi]
    refine ⟨.of_listed False.elim ?_ rfl (by simp) hv, hp⟩
    simp only [Call.onList, hlen, hi, decide_false]
    rw [List.set_eq_of_length_le (by omega)]

theorem perform_allocSlot (sys : System) (hp : h.pool.Sound c) (hv : v.length ≤ v.capacity) (x : α) :
    Faithful sys v h (.allocSlot x) (perform sys v h (.allocSlot x)) ∧
      (perform sys v h (.allocSlot x)).2.2.pool.Sound c := by
  rw [perform, allocSlot, push]
  rcases reserveOne_cases sys hp hv with ⟨e, hr⟩ | ⟨w, h', hr, hlist, hw, hlt, hs⟩
  · rw [hr]
    exact ⟨.of_refused hv trivial (by rw [hr]), hp⟩
  · rw [hr]
    refine ⟨.of_listed (fun _ => ⟨w, by rw [hr]⟩) ?_ rfl (by simp) hlt, hs⟩
    -- The default goes into the slot first and is then overwritten.
    dsimp only
    rw [toList_stored, toList_appended, hlist, Nat.add_sub_cancel]
    simp [Call.onList, hw]

/-- One step: every call is faithful, and the pool stays sound. -/
theorem perform_faithful (sys : System) (hp : h.pool.Sound c) (hv : v.length ≤ v.capacity)
    (call : Call α) : Faithful sys v h call (perform sys v h call) ∧
      (perform sys v h call).2.2.pool.Sound c := by
  cases call with
  | push x => exact perform_push sys hp hv x
  | insert i x => exact perform_insert sys hp hv i x
  | remove i => exact perform_remove sys hp hv i
  | set i x => exact perform_set sys hp hv i x
  | allocSlot x => exact perform_allocSlot sys hp hv x
  | get i =>
    refine ⟨.of_listed False.elim ?_ rfl (by simp [perform]) hv, hp⟩
    simp only [perform, Call.onList, getElem?_toList]
  | reverse =>
    refine ⟨.of_listed False.elim ?_ rfl (by simp [perform]) hv, hp⟩
    simp only [perform, Call.onList, toList_reversed]

/-- A run of calls answers and leaves what the list does, told which calls fail. -/
theorem run_replay (hp : h.pool.Sound c) (hv : v.length ≤ v.capacity)
    (steps : List (System × Call α)) :
    ((run v h steps).1, (run v h steps).2.1.toList (run v h steps).2.2) =
        replay ((steps.map Prod.snd).zip ((run v h steps).1.map Answer.failure?)) (v.toList h) ∧
      (run v h steps).2.1.length ≤ (run v h steps).2.1.capacity ∧
      (run v h steps).2.2.pool.Sound c := by
  induction steps generalizing v h with
  | nil => exact ⟨rfl, hv, hp⟩
  | cons step rest ih =>
    obtain ⟨sys, call⟩ := step
    obtain ⟨hstep, hs⟩ := perform_faithful sys hp hv call
    obtain ⟨hrest, hfits, hsound⟩ := ih hs hstep.fits
    refine ⟨?_, hfits, hsound⟩
    simp only [run, List.map_cons, List.zip_cons_cons]
    cases hfail : (perform sys v h call).1.failure? with
    | none =>
      have hlisted := hstep.listed hfail
      rw [replay, ← hlisted, ← hrest]
    | some e =>
      have hfailed : (perform sys v h call).1 = .failed e := by
        generalize (perform sys v h call).1 = answer at hfail
        cases answer <;> cases hfail
        rfl
      have hsame := hstep.of_failed e hfailed
      rw [hsame] at hrest
      rw [replay, hfailed, hsame, ← hrest]

theorem found_none_iff (sys : System) (v : Vec α) (h : Heap) (i : Nat) :
    (perform sys v h (.get i)).1 = .found none ↔ v.length ≤ i := by
  rw [perform, get?]
  by_cases hi : i < v.length
  · simp [hi]
  · simp [hi, Nat.le_of_not_lt hi]

theorem insert_panics_iff (sys : System) (v : Vec α) (h : Heap) (i : Nat) (x : α) :
    (∃ r, (perform sys v h (.insert i x)).1 = .panicked r) ↔ v.length < i := by
  rw [perform, insert]
  by_cases hi : v.length < i
  · rw [if_pos hi]
    exact iff_of_true ⟨_, rfl⟩ hi
  · rw [if_neg hi]
    refine iff_of_false ?_ hi
    rcases v.reserveOne sys h with ⟨e | w, h'⟩
    · rintro ⟨r, ⟨⟩⟩
    · rintro ⟨r, ⟨⟩⟩

theorem remove_panics_iff (sys : System) (v : Vec α) (h : Heap) (i : Nat) :
    (∃ r, (perform sys v h (.remove i)).1 = .panicked r) ↔ v.length ≤ i := by
  rw [perform, remove]
  by_cases hi : v.length ≤ i
  · rw [if_pos hi]
    exact iff_of_true ⟨_, rfl⟩ hi
  · rw [if_neg hi]
    refine iff_of_false ?_ hi
    rintro ⟨r, ⟨⟩⟩

/-- Any calls on a new array, whatever its pool has been asked before and whichever calls fail, answer
and leave what they do on a list, told which of them fail; and so does the next one. A call that fails
or panics leaves array and pool as they were. -/
theorem refines_list {sys sys' : System} {p : Pool} {n : Nat} {v : Vec α} {h h' : Heap}
    (hc : Pool.create sys c = .ok p) (rs : List (System × Layout)) (hp : h.pool = p.after rs)
    (hv : create sys' n h = (.ok v, h')) (steps : List (System × Call α)) :
    ∃ answers w h₁, run v h' steps = (answers, w, h₁) ∧
      (answers, w.toList h₁) =
        replay ((steps.map Prod.snd).zip (answers.map Answer.failure?)) [] ∧
      w.length ≤ w.capacity ∧
      (∀ sys call, Faithful sys w h₁ call (perform sys w h₁ call)) ∧
      (∀ sys i x, (∃ r, (perform sys w h₁ (.insert i x)).1 = .panicked r) ↔ w.length < i) ∧
      (∀ sys i, (∃ r, (perform sys w h₁ (.remove i)).1 = .panicked r) ↔ w.length ≤ i) ∧
      ∀ sys i, (perform sys w h₁ (.get i)).1 = .found none ↔ w.length ≤ i := by
  have hsound := ((Sound.created hc).after rs).1
  rw [← hp] at hsound
  have hnone : ∀ r, (none : Option Resident) = some r → r.Fits := by
    rintro r ⟨⟩
  obtain ⟨he, hnew⟩ := create_effect (α := α) sys' hsound hnone n
  have hsound' := (he.grows hsound).1
  rw [hv] at hnew hsound'
  obtain ⟨hlen, -⟩ := hnew v rfl
  have hempty : v.toList h' = [] := by
    rw [← List.length_eq_zero_iff, length_toList, hlen]
  obtain ⟨hrun, hfits, hend⟩ := run_replay hsound' (v := v) (by omega) steps
  rw [hempty] at hrun
  refine ⟨_, _, _, rfl, hrun, hfits, ?_, ?_, ?_, ?_⟩
  · intro sys call
    exact (perform_faithful sys hend hfits call).1
  · intro sys i x
    exact insert_panics_iff sys _ _ i x
  · intro sys i
    exact remove_panics_iff sys _ _ i
  · intro sys i
    exact found_none_iff sys _ _ i

/-- In a pool of thirty-two bytes an array of one word grows once and not again. -/
theorem refines_list_full : ∃ p v h h', Pool.create .standard ⟨32, 16⟩ = .ok p ∧ h.pool = p ∧
    create (α := UInt64) .standard 1 h = (.ok v, h') ∧ v.capacity = 1 ∧
    let r := run v h' [(.standard, .push 5), (.standard, .push 7), (.standard, .push 9),
      (.standard, .insert 3 9), (.standard, .get 1)]
    (r.1, r.2.1.toList r.2.2) =
      ([.done, .done, .failed (.exhausted 32 32 32), .panicked (.insertBeyond 3 2),
        .found (some 7)], [5, 7]) ∧ r.2.1.capacity = 2 := by
  have hcreate : Pool.create .standard ⟨32, 16⟩ = .ok ⟨⟨32, 16⟩, ⟨0, 16, 16⟩, [], 0, 16⟩ := rfl
  have hv : create (α := UInt64) .standard 1 ⟨⟨⟨32, 16⟩, ⟨0, 16, 16⟩, [], 0, 16⟩, .empty⟩ =
      (.ok ⟨0, 0, 1⟩, ⟨⟨⟨32, 16⟩, ⟨0, 16, 16⟩, [], 8, 16⟩, .empty⟩) := rfl
  let steps : List (System × Call UInt64) := [(.standard, .push 5), (.standard, .push 7),
    (.standard, .push 9), (.standard, .insert 3 9), (.standard, .get 1)]
  let r := run (⟨0, 0, 1⟩ : Vec UInt64) ⟨⟨⟨32, 16⟩, ⟨0, 16, 16⟩, [], 8, 16⟩, .empty⟩ steps
  obtain ⟨answers, w, h, hrun, hlist, -⟩ := refines_list hcreate [] rfl hv steps
  -- Whether a call fails depends on the counters alone, so no byte has to be read to see it.
  have hfailures : r.1.map Answer.failure? = [none, none, some (.exhausted 32 32 32), none, none] :=
    rfl
  have hcapacity : r.2.1.capacity = 2 := rfl
  refine ⟨_, _, _, _, hcreate, rfl, hv, rfl, ?_, hcapacity⟩
  change r = _ at hrun
  rw [hrun] at hfailures
  rw [hfailures] at hlist
  change (r.1, r.2.1.toList r.2.2) = _
  rw [hrun]
  exact hlist

end Frontend.Pool.Vec
